import Mathlib

/-!
# Triples on what is owned

Code works on a state in which things are owned, each by one client. A client starts with some of them
and ends with others; what the rest of the clients own is as before. The rules put the triples of larger
code together from those of its parts.
-/

namespace Owned

variable {σ ε ω α β : Type}

/-- A client that owns `pre` runs the code. Either it returns, and what the client owns then satisfies
`post`, or it stops for one of the reasons of `stops`. -/
def Triple (owns : σ → Multiset ω → Prop) (stops : ε → Prop) (pre : Multiset ω)
    (m : StateT σ (Except ε) α) (post : α → Multiset ω → Prop) : Prop :=
  ∀ rest s, owns s (pre + rest) →
    (∃ a s' T, m s = .ok (a, s') ∧ post a T ∧ owns s' (T + rest)) ∨ ∃ e, m s = .error e ∧ stops e

variable {owns : σ → Multiset ω → Prop} {stops : ε → Prop} {pre : Multiset ω}
  {m : StateT σ (Except ε) α} {post post' : α → Multiset ω → Prop}

namespace Triple

theorem pure {a : α} (h : post a pre) :
    Triple owns stops pre (Pure.pure a : StateT σ (Except ε) α) post :=
  fun _ s hs => .inl ⟨a, s, pre, rfl, h, hs⟩

theorem throw {e : ε} (h : stops e) :
    Triple owns stops pre (fun _ => .error e : StateT σ (Except ε) α) post :=
  fun _ _ _ => .inr ⟨e, rfl, h⟩

theorem throw_bind {e : ε} {f : α → StateT σ (Except ε) β} {post₂ : β → Multiset ω → Prop}
    (h : stops e) : Triple owns stops pre ((fun _ => .error e) >>= f) post₂ :=
  fun _ _ _ => .inr ⟨e, rfl, h⟩

theorem bind {f : α → StateT σ (Except ε) β} {post₂ : β → Multiset ω → Prop}
    (h : Triple owns stops pre m post)
    (hf : ∀ a T, post a T → Triple owns stops T (f a) post₂) :
    Triple owns stops pre (m >>= f) post₂ := by
  intro rest s hs
  have hrun : (m >>= f) s = (m s >>= fun p => f p.1 p.2) := rfl
  rcases h rest s hs with ⟨a, s', T, hm, hpost, hs'⟩ | ⟨e, hm, he⟩
  · rw [hrun, hm]
    exact hf a T hpost rest s' hs'
  · rw [hrun, hm]
    exact .inr ⟨e, rfl, he⟩

/-- The first part leaves what its value says. -/
theorem bind_eq {T : α → Multiset ω} {f : α → StateT σ (Except ε) β} {post₂ : β → Multiset ω → Prop}
    (h : Triple owns stops pre m fun a U => U = T a) (hf : ∀ a, Triple owns stops (T a) (f a) post₂) :
    Triple owns stops pre (m >>= f) post₂ := by
  refine h.bind fun a U hU => ?_
  subst hU
  exact hf a

theorem weaken (h : Triple owns stops pre m post) (hpost : ∀ a T, post a T → post' a T) :
    Triple owns stops pre m post' := by
  intro rest s hs
  rcases h rest s hs with ⟨a, s', T, hm, ha, hs'⟩ | hstop
  · exact .inl ⟨a, s', T, hm, hpost a T ha, hs'⟩
  · exact .inr hstop

/-- What holds wherever `pre` is owned may be used. -/
theorem assume {p : Prop} (hp : ∀ rest s, owns s (pre + rest) → p)
    (h : p → Triple owns stops pre m post) : Triple owns stops pre m post :=
  fun rest s hs => h (hp rest s hs) rest s hs

theorem of_pre {pre' : Multiset ω} (h : Triple owns stops pre m post) (heq : pre' = pre) :
    Triple owns stops pre' m post := heq ▸ h

end Triple

end Owned
