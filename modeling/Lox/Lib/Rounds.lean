import Mathlib.Tactic

/-!
# Programs with a bound on their rounds

A program whose loops are bounded by a number of rounds returns an option.  `Runs enough x post` says
that what `x` returns satisfies `post`, however many rounds it had, and that it does return when
`enough` holds.  So one statement about a function gives both what its results are and that it comes
to an end.
-/

namespace Lox.Rounds

variable {α β : Type} {enough : Prop}

/-- `x` returns if `enough` holds, and what it returns satisfies `post`. -/
structure Runs (enough : Prop) (x : Option α) (post : α → Prop) : Prop where
  returns : enough → x.isSome
  result : ∀ a, x = some a → post a

namespace Runs

variable {x : Option α} {f : α → Option β} {P Q : α → Prop} {R : β → Prop}

theorem pure {a : α} (h : P a) : Runs enough (some a) P where
  returns _ := rfl
  result b hb := by
    obtain rfl := Option.some.inj hb
    exact h

theorem bind (hx : Runs enough x P) (hf : ∀ a, P a → Runs enough (f a) R) :
    Runs enough (x >>= f) R where
  returns he := by
    obtain ⟨a, ha⟩ := Option.isSome_iff_exists.1 (hx.returns he)
    show (x.bind f).isSome
    rw [ha]
    exact (hf a (hx.result a ha)).returns he
  result b hb := by
    obtain ⟨a, ha, hb⟩ := Option.bind_eq_some_iff.1 hb
    exact (hf a (hx.result a ha)).result b hb

theorem imp (h : Runs enough x P) (hpost : ∀ a, P a → Q a) : Runs enough x Q where
  returns := h.returns
  result a ha := hpost a (h.result a ha)

theorem exists_result (h : Runs enough x P) (he : enough) : ∃ a, x = some a ∧ P a := by
  obtain ⟨a, ha⟩ := Option.isSome_iff_exists.1 (h.returns he)
  exact ⟨a, ha, h.result a ha⟩

end Runs

end Lox.Rounds
