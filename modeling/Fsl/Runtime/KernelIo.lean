import Fsl.Runtime.Write

/-!
# Byte access of the kernel module

`kernel/mod/io.c` goes through the device in chunks of a page, each of which is copied from or to the
buffer of one page. A chunk is not cut at the end of its page, and the loop that reads does not advance
its offset. `__getblk` is taken to return the page around the requested offset.
-/

namespace Fsl.Kernel

open Pread

/-- `PAGE_SIZE` and `io_blksize` -/
structure Geom where
  page : ℕ
  blksize : ℕ
  page_pos : 0 < page
  blk_pos : 0 < blksize
  blk_dvd : blksize ∣ page

section Defs

variable (g : Geom)

/-- Where a copy at an offset of the device begins: in the page around it, at the offset in its
block. -/
def Geom.place (curOff : ℕ) : ℕ := g.page * (curOff / g.page) + curOff % g.blksize

/-- A copy out of the buffer of a page; it must not go past the end of the buffer. -/
def pageRead (d : Disk) (curOff len : ℕ) : Except Stop (List UInt8) :=
  if curOff % g.blksize + len ≤ g.page then
    .ok ((List.range len).map fun k => d.byte (g.place curOff + k))
  else .error .fault

/-- A copy into the buffer of a page, which is then written. -/
def pageWrite (d : Disk) (curOff : ℕ) (buf : List UInt8) : Except Stop Disk :=
  if curOff % g.blksize + buf.length ≤ g.page then
    .ok {
      size := d.size
      byte := fun i =>
        if g.place curOff ≤ i ∧ i < g.place curOff + buf.length ∧ i < d.size then
          buf.getD (i - g.place curOff) 0
        else d.byte i
      size_lt := d.size_lt
      byte_eq_zero := by
        intro i hi
        rw [if_neg (by omega)]
        exact d.byte_eq_zero i hi }
  else .error .fault

/-- `fsl_io_read_bytes`, with the number of bytes that are left. The chunk is an `int`, but compared
with `PAGE_SIZE` as an unsigned number. -/
def readBytes (d : Disk) (off left : ℕ) : Except Stop (List UInt8) := do
  let toRead := min left g.page
  let chunk ← pageRead g d off toRead
  if toRead < left then
    let rest ← readBytes d off (left - toRead)
    return chunk ++ rest
  else return chunk
termination_by left
decreasing_by
  have := g.page_pos
  omega

/-- `fsl_io_write_bytes`, with the bytes that are left. -/
def writeBytes (d : Disk) (curOff : ℕ) (buf : List UInt8) : Except Stop Disk := do
  let toWrite := min buf.length g.page
  let d ← pageWrite g d curOff (buf.take toWrite)
  if toWrite < buf.length then writeBytes d (curOff + toWrite) (buf.drop toWrite)
  else return d
termination_by buf.length
decreasing_by
  have := g.page_pos
  rw [List.length_drop]
  omega

end Defs

/-! ## The pread runtime -/

/-- `fsl_io_read_bytes` of the pread runtime. -/
def ioReadBytes (byteC off : ℕ) : IoM (List UInt8) := do
  let io ← get
  fslAssert (¬ io.disk.preadCount byteC off < byteC)
  return (List.range byteC).map fun k => io.disk.byte (off + k)

theorem ioReadBytes_of_le {io : Io} {byteC off : ℕ} (h : off + byteC ≤ io.disk.size) :
    ioReadBytes byteC off io =
      .ok ((List.range byteC).map fun k => io.disk.byte (off + k), io) := by
  have hcount : ¬ io.disk.preadCount byteC off < byteC := by
    rw [Disk.preadCount]
    omega
  simp only [ioReadBytes, fslAssert, if_pos hcount, bind, StateT.bind, get, getThe, MonadStateOf.get,
    StateT.get, pure, StateT.pure, Except.bind, Except.pure]

theorem ioWriteBytes_of_ok {io : Io} {buf : List UInt8} {off : ℕ} {d : Disk}
    (h : io.disk.pwrite buf off = .ok d) :
    ∃ io', ioWriteBytes buf off io = .ok ((), io') ∧ io'.disk = d := by
  simp only [ioWriteBytes, ioPwrite, h, ioCacheDropBytes, bind, StateT.bind, Except.bind, Except.map,
    get, getThe, MonadStateOf.get, StateT.get, pure, Except.pure, set, StateT.set]
  exact ⟨_, rfl, rfl⟩

/-! ## Comparison -/

/-- What is asked of the two functions at an offset and a count, for every content of the device: the
same bytes and the same changes as in the pread runtime. -/
def Agree (g : Geom) (off n : ℕ) : Prop :=
  ∀ io : Io, off + n ≤ io.disk.size →
    (∃ bytes, readBytes g io.disk off n = .ok bytes ∧ ioReadBytes n off io = .ok (bytes, io) ∧
      bytes = (List.range n).map fun k => io.disk.byte (off + k)) ∧
    ∀ buf : List UInt8, buf.length = n →
      ∃ d io', writeBytes g io.disk off buf = .ok d ∧ ioWriteBytes buf off io = .ok ((), io') ∧
        io'.disk = d ∧
        ∀ i, d.byte i = if off ≤ i ∧ i < off + n then buf.getD (i - off) 0 else io.disk.byte i

variable {g : Geom} {off n : ℕ}

/-- A request that lies in one page, at the offset of its block. -/
structure Fits (g : Geom) (off n : ℕ) : Prop where
  block : off % g.blksize = off % g.page
  page : off % g.page + n ≤ g.page

theorem Geom.blksize_le (g : Geom) : g.blksize ≤ g.page := Nat.le_of_dvd g.page_pos g.blk_dvd

theorem Fits.place (h : Fits g off n) : g.place off = off := by
  rw [Geom.place, h.block]
  exact Nat.div_add_mod off g.page

/-- A request of no more than a page is one copy. -/
theorem readBytes_of_le {d : Disk} (h : n ≤ g.page) :
    readBytes g d off n = pageRead g d off n := by
  rw [readBytes, min_eq_left h]
  cases pageRead g d off n with
  | error e => rfl
  | ok bytes =>
    show (if n < n then _ else _) = _
    rw [if_neg (lt_irrefl n)]
    rfl

theorem writeBytes_of_le {d : Disk} {buf : List UInt8} (h : buf.length ≤ g.page) :
    writeBytes g d off buf = pageWrite g d off buf := by
  rw [writeBytes, min_eq_left h, List.take_length]
  cases pageWrite g d off buf with
  | error e => rfl
  | ok d' =>
    show (if buf.length < buf.length then _ else _) = _
    rw [if_neg (lt_irrefl _)]
    rfl

theorem agree_of_place (hblock : off % g.blksize + n ≤ g.page) (hplace : n ≠ 0 → g.place off = off) :
    Agree g off n := by
  intro io hle
  have hn : n ≤ g.page := by omega
  refine ⟨⟨_, ?_, ioReadBytes_of_le hle, rfl⟩, fun buf hbuf => ?_⟩
  · rw [readBytes_of_le hn, pageRead, if_pos hblock]
    congr 1
    apply List.map_congr_left
    intro k hk
    rw [hplace (by have := List.mem_range.mp hk; omega)]
  · obtain ⟨d, hd, hsize⟩ := io.disk.pwrite_of_le buf off (by omega)
    obtain ⟨io', hio, hdisk⟩ := ioWriteBytes_of_ok hd
    have hbyte := Disk.byte_pwrite hd
    rw [hbuf] at hbyte
    refine ⟨d, io', ?_, hio, hdisk, hbyte⟩
    rw [writeBytes_of_le (by omega), pageWrite, if_pos (by omega)]
    congr 1
    refine Disk.ext hsize.symm fun i => ?_
    rw [hbyte]
    show (if _ then _ else _) = _
    by_cases hzero : n = 0
    · rw [if_neg (by omega), if_neg (by omega)]
    · rw [hplace hzero]
      by_cases hi : off ≤ i ∧ i < off + n
      · rw [if_pos hi, if_pos (by omega)]
      · rw [if_neg hi, if_neg (by omega)]

/-- A device with one byte that is not zero. -/
theorem exists_marked (size j : ℕ) (hsize : size < 2 ^ 61) :
    ∃ io : Io, io.disk.size = size ∧ ∀ i < size, io.disk.byte i = if i = j then 1 else 0 := by
  obtain ⟨d, hd, hbyte⟩ := Disk.exists_of_fn (fun i => if i = j then 1 else 0) hsize
  exact ⟨⟨d, ioCacheInit fun _ _ => 0⟩, hd, hbyte⟩

/-- A read that succeeds begins with a copy from the page around its offset, and goes on with another
read at the same offset. -/
theorem readBytes_cases {d : Disk} {bytes : List UInt8} (h : readBytes g d off n = .ok bytes) :
    off % g.blksize + min n g.page ≤ g.page ∧
      ∃ rest, bytes = ((List.range (min n g.page)).map fun k => d.byte (g.place off + k)) ++ rest ∧
        (g.page < n → readBytes g d off (n - g.page) = .ok rest) := by
  rw [readBytes, pageRead] at h
  by_cases hfits : off % g.blksize + min n g.page ≤ g.page
  · refine ⟨hfits, ?_⟩
    rw [if_pos hfits] at h
    by_cases hlt : min n g.page < n
    · have hmin : min n g.page = g.page := by omega
      change (if min n g.page < n then _ else _) = _ at h
      rw [if_pos hlt, hmin] at h
      cases hrest : readBytes g d off (n - g.page) with
      | error e =>
        rw [hrest] at h
        cases h
      | ok rest =>
        rw [hrest] at h
        cases h
        rw [hmin]
        exact ⟨rest, rfl, fun _ => rfl⟩
    · change (if min n g.page < n then _ else _) = _ at h
      rw [if_neg hlt] at h
      cases h
      exact ⟨[], (List.append_nil _).symm, fun hpage => absurd hpage (by omega)⟩
  · rw [if_neg hfits] at h
    cases h

/-- The first byte of a read. -/
theorem readBytes_getElem? {d : Disk} {bytes : List UInt8} (h : readBytes g d off n = .ok bytes)
    (hn : n ≠ 0) : bytes[0]? = some (d.byte (g.place off)) := by
  obtain ⟨-, rest, rfl, -⟩ := readBytes_cases h
  have hpos : 0 < min n g.page := lt_min (Nat.pos_of_ne_zero hn) g.page_pos
  rw [List.getElem?_append_left (by simpa using hpos)]
  simp [hpos]

theorem fits_of_agree (h : Agree g off n) (hn : n ≠ 0) (hlt : off + n < 2 ^ 61) : Fits g off n := by
  obtain ⟨io, hsize, hbyte⟩ := exists_marked (off + n) off hlt
  obtain ⟨⟨bytes, hread, -, hbytes⟩, -⟩ := h io hsize.ge
  obtain ⟨hbound, rest, happend, hrest⟩ := readBytes_cases hread
  have hpage := g.page_pos
  have hplace : g.place off = off := by
    have hfirst := readBytes_getElem? hread hn
    have hzero : (List.range n)[0]? = some 0 := by simp [Nat.pos_of_ne_zero hn]
    rw [hbytes, List.getElem?_map, hzero, Option.map_some, Nat.add_zero,
      hbyte off (by omega), if_pos rfl] at hfirst
    by_contra hne
    by_cases hin : g.place off < off + n
    · rw [hbyte _ hin, if_neg hne] at hfirst
      exact absurd hfirst (by decide)
    · rw [io.disk.byte_eq_zero _ (by omega)] at hfirst
      exact absurd hfirst (by decide)
  have hblock : off % g.blksize = off % g.page := by
    have hdiv := Nat.div_add_mod off g.page
    rw [Geom.place] at hplace
    omega
  refine ⟨hblock, ?_⟩
  by_cases hle : n ≤ g.page
  · rw [min_eq_left hle] at hbound
    omega
  · -- the second chunk begins with the byte that the first one begins with
    have hmin : min n g.page = g.page := by omega
    have hsecond := readBytes_getElem? (hrest (by omega)) (by omega)
    have hget : bytes[g.page]? = rest[0]? := by
      rw [happend, hmin, List.getElem?_append_right (by simp)]
      simp
    have hrange : (List.range n)[g.page]? = some g.page := by simp [not_le.mp hle]
    rw [← hget, hbytes, List.getElem?_map, hrange, Option.map_some, hplace, hbyte _ (by omega),
      hbyte _ (by omega), if_neg (by omega), if_pos rfl] at hsecond
    exact absurd hsecond (by decide)

/-- The kernel module reads and writes what the pread runtime does exactly if nothing is asked for, or
the request lies within a page and its offset in the block is the one in the page. -/
theorem agree_iff_fits (g : Geom) (off n : ℕ) (hlt : off + n < 2 ^ 61) :
    Agree g off n ↔ n = 0 ∨ Fits g off n := by
  constructor
  · intro h
    by_cases hn : n = 0
    · exact Or.inl hn
    · exact Or.inr (fits_of_agree h hn hlt)
  · rintro (hzero | hfits)
    · have hblk := Nat.mod_lt off g.blk_pos
      have hpage := g.blksize_le
      exact agree_of_place (by omega) fun hn => absurd hzero hn
    · have hblock := hfits.block
      have hpage := hfits.page
      exact agree_of_place (by omega) fun _ => hfits.place

/-- Two thousand bytes of the fourth page, which begin in its first block and end in its third one. -/
theorem agree_across_blocks :
    Agree ⟨4096, 1024, by decide, by decide, ⟨4, rfl⟩⟩ (3 * 4096 + 1000) 2000 :=
  (agree_iff_fits _ (3 * 4096 + 1000) 2000 (by decide)).mpr (Or.inr ⟨by decide, by decide⟩)

/-- Two pages from the beginning of a device. -/
theorem not_agree_two_pages : ¬ Agree ⟨4096, 4096, by decide, by decide, dvd_rfl⟩ 0 8192 := by
  intro h
  have hpage := (fits_of_agree h (by decide) (by decide)).page
  exact absurd hpage (by decide)

end Fsl.Kernel
