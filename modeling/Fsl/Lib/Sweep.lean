import Mathlib

/-!
# Greedy matching along two cursors

Items are numbered and lie at places, some of which are marked. A sweep goes through the items in
ascending order and gives each marked place the first free item it comes upon there; it leaves a marked
place behind when an item lies beyond it.
-/

/-- The sweep has come to item `cur` and to place `px`, and `out` are the items it has given away. -/
structure Sweep (free marked : ℕ → Prop) (place : ℕ → ℕ) (lo hi : ℕ) (out : List ℕ)
    (cur px : ℕ) : Prop where
  ordered : out.Pairwise (· < ·)
  apart : out.Pairwise fun c c' => place c < place c'
  range : ∀ c ∈ out, lo ≤ c ∧ c ≤ hi ∧ c < cur
  found : ∀ c ∈ out, free c ∧ marked (place c)
  ahead : ∀ c ∈ out, place c < px
  passed : ∀ c, lo ≤ c → c ≤ hi → c < cur → free c → place c < px
  covers : MonotoneOn place (Set.Icc lo hi) → ∀ q < px, marked q →
    (∃ c ∈ out, place c = q) ∨ ∀ c, lo ≤ c → c ≤ hi → free c → place c ≠ q

namespace Sweep

variable {free marked : ℕ → Prop} {place : ℕ → ℕ} {lo hi cur px px' : ℕ} {out : List ℕ}

theorem initial (h : ∀ q < px, ¬ marked q) : Sweep free marked place lo hi [] lo px where
  ordered := List.Pairwise.nil
  apart := List.Pairwise.nil
  range _ hc := absurd hc List.not_mem_nil
  found _ hc := absurd hc List.not_mem_nil
  ahead _ hc := absurd hc List.not_mem_nil
  passed _ hlo _ hlt := absurd hlt (not_lt.mpr hlo)
  covers _ q hq hmark := absurd hmark (h q hq)

/-- An item that is not free, or lies at a place behind. -/
theorem skip (h : Sweep free marked place lo hi out cur px) (hcur : free cur → place cur < px) :
    Sweep free marked place lo hi out (cur + 1) px where
  ordered := h.ordered
  apart := h.apart
  range c hc := by
    have hrange := h.range c hc
    omega
  found := h.found
  ahead := h.ahead
  passed c hlo hhi hlt hfree := by
    rcases Nat.lt_succ_iff_lt_or_eq.mp hlt with hlt | rfl
    · exact h.passed c hlo hhi hlt hfree
    · exact hcur hfree
  covers := h.covers

/-- Leaving items out when none of them lies at the place or beyond. -/
theorem finish {cur' : ℕ} (h : Sweep free marked place lo hi out cur px) (hcur : cur ≤ cur')
    (hall : ∀ c, lo ≤ c → c ≤ hi → free c → place c < px) :
    Sweep free marked place lo hi out cur' px where
  ordered := h.ordered
  apart := h.apart
  range c hc := ⟨(h.range c hc).1, (h.range c hc).2.1, (h.range c hc).2.2.trans_le hcur⟩
  found := h.found
  ahead := h.ahead
  passed c hlo hhi _ hfree := hall c hlo hhi hfree
  covers := h.covers

/-- Going back to an item behind all that were given away. -/
theorem back {cur' : ℕ} (h : Sweep free marked place lo hi out cur px) (hle : cur' ≤ cur)
    (hout : ∀ c ∈ out, c < cur') : Sweep free marked place lo hi out cur' px where
  ordered := h.ordered
  apart := h.apart
  range c hc := ⟨(h.range c hc).1, (h.range c hc).2.1, hout c hc⟩
  found := h.found
  ahead := h.ahead
  passed c hlo hhi hlt := h.passed c hlo hhi (hlt.trans_le hle)
  covers := h.covers

/-- An item beyond the marked place: where places ascend, nothing free lies there. -/
theorem miss (h : Sweep free marked place lo hi out cur px) (hlo : lo ≤ cur) (hhi : cur ≤ hi)
    (hbeyond : px < place cur) (hnext : px < px') (hgap : ∀ q, px < q → q < px' → ¬ marked q) :
    Sweep free marked place lo hi out cur px' where
  ordered := h.ordered
  apart := h.apart
  range := h.range
  found := h.found
  ahead c hc := (h.ahead c hc).trans hnext
  passed c hlo hhi hlt hfree := (h.passed c hlo hhi hlt hfree).trans hnext
  covers hmono q hq hmark := by
    rcases lt_trichotomy q px with hlt | rfl | hgt
    · exact h.covers hmono q hlt hmark
    · refine Or.inr fun c hclo hchi hfree => ?_
      by_cases hlt : c < cur
      · exact (h.passed c hclo hchi hlt hfree).ne
      · have hle := hmono ⟨hlo, hhi⟩ ⟨hclo, hchi⟩ (not_lt.mp hlt)
        exact (hbeyond.trans_le hle).ne'
    · exact absurd hmark (hgap q hgt hq)

/-- A free item at the marked place. -/
theorem take (h : Sweep free marked place lo hi out cur px) (hlo : lo ≤ cur) (hhi : cur ≤ hi)
    (hfree : free cur) (hplace : place cur = px) (hmark : marked px) (hnext : px < px')
    (hgap : ∀ q, px < q → q < px' → ¬ marked q) :
    Sweep free marked place lo hi (out ++ [cur]) (cur + 1) px' where
  ordered := by
    refine List.pairwise_append.mpr ⟨h.ordered, List.pairwise_singleton _ _, fun c hc c' hc' => ?_⟩
    rw [List.mem_singleton.mp hc']
    exact (h.range c hc).2.2
  apart := by
    refine List.pairwise_append.mpr ⟨h.apart, List.pairwise_singleton _ _, fun c hc c' hc' => ?_⟩
    rw [List.mem_singleton.mp hc', hplace]
    exact h.ahead c hc
  range c hc := by
    rcases List.mem_append.mp hc with hc | hc
    · have hrange := h.range c hc
      omega
    · obtain rfl := List.mem_singleton.mp hc
      exact ⟨hlo, hhi, Nat.lt_succ_self c⟩
  found c hc := by
    rcases List.mem_append.mp hc with hc | hc
    · exact h.found c hc
    · obtain rfl := List.mem_singleton.mp hc
      exact ⟨hfree, hplace ▸ hmark⟩
  ahead c hc := by
    rcases List.mem_append.mp hc with hc | hc
    · exact (h.ahead c hc).trans hnext
    · rw [List.mem_singleton.mp hc, hplace]
      exact hnext
  passed c hclo hchi hlt hcfree := by
    rcases Nat.lt_succ_iff_lt_or_eq.mp hlt with hlt | rfl
    · exact (h.passed c hclo hchi hlt hcfree).trans hnext
    · rw [hplace]
      exact hnext
  covers hmono q hq hqmark := by
    rcases lt_trichotomy q px with hlt | rfl | hgt
    · rcases h.covers hmono q hlt hqmark with ⟨c, hc, hcq⟩ | hnone
      · exact Or.inl ⟨c, List.mem_append_left _ hc, hcq⟩
      · exact Or.inr hnone
    · exact Or.inl ⟨cur, List.mem_append_right _ (List.mem_singleton_self cur), hplace⟩
    · exact absurd hqmark (hgap q hgt hq)

/-- There are no more items given away than there are items. -/
theorem length_le (h : Sweep free marked place lo hi out cur px) : out.length ≤ hi + 1 - lo := by
  have hnodup : out.Nodup := h.ordered.imp fun hlt => ne_of_lt hlt
  have hsub : out.toFinset ⊆ Finset.Icc lo hi := by
    intro c hc
    obtain ⟨hlo, hhi, -⟩ := h.range c (List.mem_toFinset.mp hc)
    exact Finset.mem_Icc.mpr ⟨hlo, hhi⟩
  have hcard := Finset.card_le_card hsub
  rwa [List.toFinset_card_of_nodup hnodup, Nat.card_Icc] at hcard

/-- When no free item is left at the place or beyond, the marked places that got an item are those at
which a free one lies. -/
theorem complete (h : Sweep free marked place lo hi out cur px)
    (hmono : MonotoneOn place (Set.Icc lo hi))
    (hdone : ∀ c, lo ≤ c → c ≤ hi → free c → place c < px) {q : ℕ} (hmark : marked q) :
    (∃ c ∈ out, place c = q) ↔ ∃ c, lo ≤ c ∧ c ≤ hi ∧ free c ∧ place c = q := by
  constructor
  · rintro ⟨c, hc, hplace⟩
    exact ⟨c, (h.range c hc).1, (h.range c hc).2.1, (h.found c hc).1, hplace⟩
  · rintro ⟨c, hlo, hhi, hfree, rfl⟩
    exact (h.covers hmono _ (hdone c hlo hhi hfree) hmark).resolve_right
      fun hnone => hnone c hlo hhi hfree rfl

end Sweep
