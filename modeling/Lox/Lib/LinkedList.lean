import Mathlib.Data.List.Nodup
import Mathlib.Logic.Function.Basic
import Mathlib.Tactic

/-!
# Linked lists

The links of a list are a function from nodes to nodes, `none` at the end.  `Segment` says which nodes
lie between two places; a list that ends has no node twice, so it can be changed at one link without
the others noticing.
-/

namespace Lox.LinkedList

variable {α : Type}

/-- From `start` the links lead over the nodes `as` to `stop`. -/
def Segment (next : α → Option α) : Option α → List α → Option α → Prop
  | start, [], stop => start = stop
  | start, a :: as, stop => start = some a ∧ Segment next (next a) as stop

variable {next : α → Option α} {start stop : Option α} {as bs : List α}

theorem segment_append : ∀ {start : Option α} {as : List α},
    Segment next start (as ++ bs) stop ↔
      ∃ middle, Segment next start as middle ∧ Segment next middle bs stop := by
  intro start as
  induction as generalizing start with
  | nil => simp [Segment]
  | cons a as ih =>
    simp only [List.cons_append, Segment, ih]
    constructor
    · rintro ⟨hstart, middle, hfirst, hsecond⟩
      exact ⟨middle, ⟨hstart, hfirst⟩, hsecond⟩
    · rintro ⟨middle, ⟨hstart, hfirst⟩, hsecond⟩
      exact ⟨hstart, middle, hfirst, hsecond⟩

theorem Segment.congr {next' : α → Option α} (h : Segment next start as stop)
    (hsame : ∀ a ∈ as, next' a = next a) : Segment next' start as stop := by
  induction as generalizing start with
  | nil => exact h
  | cons a as ih =>
    refine ⟨h.1, ?_⟩
    rw [hsame a List.mem_cons_self]
    exact ih h.2 fun b hb => hsame b (List.mem_cons_of_mem a hb)

/-- The nodes up to the end are determined by where they start. -/
theorem Segment.unique (h : Segment next start as none) (h' : Segment next start bs none) :
    as = bs := by
  induction as generalizing start bs with
  | nil =>
    cases bs with
    | nil => rfl
    | cons b bs =>
      have hnone : start = none := h
      rw [hnone] at h'
      exact absurd h'.1 (by simp)
  | cons a as ih =>
    cases bs with
    | nil =>
      have hnone : start = none := h'
      rw [hnone] at h
      exact absurd h.1 (by simp)
    | cons b bs =>
      obtain rfl : a = b := Option.some.inj (h.1.symm.trans h'.1)
      rw [ih h.2 h'.2]

theorem Segment.nodup (h : Segment next start as none) : as.Nodup := by
  induction as generalizing start with
  | nil => exact List.nodup_nil
  | cons a as ih =>
    refine List.nodup_cons.2 ⟨fun hmem => ?_, ih h.2⟩
    obtain ⟨before, after, hsplit⟩ := List.append_of_mem hmem
    have hrest := h.2
    rw [hsplit] at hrest
    obtain ⟨middle, -, hmiddle⟩ := segment_append.1 hrest
    have hlength := congrArg List.length (h.2.unique hmiddle.2)
    rw [hsplit, List.length_append, List.length_cons] at hlength
    omega

/-- The last link of a segment is changed. -/
theorem Segment.relink [DecidableEq α] {last : α} {stop' : Option α}
    (h : Segment next start (as ++ [last]) stop) (hlast : last ∉ as) :
    Segment (Function.update next last stop') start (as ++ [last]) stop' := by
  obtain ⟨middle, hfirst, hmiddle, -⟩ := segment_append.1 h
  refine segment_append.2 ⟨middle, hfirst.congr fun a ha => ?_, hmiddle, ?_⟩
  · have hne : a ≠ last := fun heq => hlast (heq ▸ ha)
    exact Function.update_of_ne hne _ _
  · exact Function.update_self _ _ _

end Lox.LinkedList
