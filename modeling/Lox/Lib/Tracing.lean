import Mathlib.Data.Finset.Card
import Mathlib.Logic.Relation
import Mathlib.Tactic

/-!
# Marking a graph with a worklist

A node is marked and put on the worklist when it is first met; a node taken from the worklist has its
successors marked.  When the worklist is empty, the marked nodes are those that can be reached from
the roots, cycles or not.  Every node of a finite graph is on the worklist at most once, so the nodes
not yet marked and those on the worklist are a bound for the rounds.
-/

namespace Lox.Tracing

variable {α : Type}

/-- A node that can be reached from a root. -/
def Reachable (succ : α → List α) (roots : List α) (a : α) : Prop :=
  ∃ r ∈ roots, Relation.ReflTransGen (fun x y => y ∈ succ x) r a

namespace Reachable

variable {succ : α → List α} {roots : List α} {a b : α}

theorem root (h : a ∈ roots) : Reachable succ roots a := ⟨a, h, .refl⟩

theorem step (h : Reachable succ roots a) (hb : b ∈ succ a) : Reachable succ roots b := by
  obtain ⟨r, hr, hpath⟩ := h
  exact ⟨r, hr, hpath.tail hb⟩

/-- What holds of the roots and passes on to successors holds of every reachable node. -/
theorem induct {P : α → Prop} (hroots : ∀ r ∈ roots, P r) (hstep : ∀ x y, P x → y ∈ succ x → P y)
    (h : Reachable succ roots a) : P a := by
  obtain ⟨r, hr, hpath⟩ := h
  induction hpath with
  | refl => exact hroots r hr
  | tail _ hy ih => exact hstep _ _ ih hy

/-- More roots and more successors reach more. -/
theorem mono {succ' : α → List α} {roots' : List α}
    (hroots : ∀ r ∈ roots, Reachable succ' roots' r)
    (hsucc : ∀ x, Reachable succ roots x → ∀ y ∈ succ x, y ∈ succ' x)
    (h : Reachable succ roots a) : Reachable succ' roots' a := by
  obtain ⟨r, hr, hpath⟩ := h
  induction hpath with
  | refl => exact hroots r hr
  | tail hpath hy ih => exact ih.step (hsucc _ ⟨r, hr, hpath⟩ _ hy)

end Reachable

/-- The nodes marked so far, and the worklist, with the last node first. -/
structure Marking (α : Type) where
  marked : Finset α
  gray : List α

variable [DecidableEq α]

/-- Mark a node, once. -/
def mark (a : α) (t : Marking α) : Marking α :=
  if a ∈ t.marked then t else ⟨insert a t.marked, a :: t.gray⟩

def markAll (as : List α) (t : Marking α) : Marking α := as.foldl (fun t a => mark a t) t

/-- Take nodes from the worklist until there is none. -/
def traceLoop (succ : α → List α) : ℕ → Marking α → Option (Marking α)
  | _, ⟨marked, []⟩ => some ⟨marked, []⟩
  | 0, ⟨_, _ :: _⟩ => none
  | n + 1, ⟨marked, a :: rest⟩ => traceLoop succ n (markAll (succ a) ⟨marked, rest⟩)

theorem markAll_append (as bs : List α) (t : Marking α) :
    markAll (as ++ bs) t = markAll bs (markAll as t) := List.foldl_append

theorem mem_marked_markAll {as : List α} {b : α} : ∀ {t : Marking α},
    b ∈ (markAll as t).marked ↔ b ∈ t.marked ∨ b ∈ as := by
  induction as with
  | nil =>
    intro t
    simp [markAll]
  | cons a as ih =>
    intro t
    show b ∈ (markAll as (mark a t)).marked ↔ _
    rw [ih]
    unfold mark
    by_cases ha : a ∈ t.marked
    · rw [if_pos ha, List.mem_cons]
      constructor
      · intro h
        exact h.imp id .inr
      · rintro (h | rfl | h)
        · exact .inl h
        · exact .inl ha
        · exact .inr h
    · rw [if_neg ha]
      simp only [Finset.mem_insert, List.mem_cons]
      tauto

/-- The nodes a marking adds to the worklist are those it marks. -/
theorem mem_gray_markAll {as : List α} {b : α} : ∀ {t : Marking α},
    b ∈ (markAll as t).gray → b ∈ t.gray ∨ b ∈ as := by
  induction as with
  | nil =>
    intro t h
    exact .inl h
  | cons a as ih =>
    intro t h
    rcases ih (t := mark a t) h with h | h
    · unfold mark at h
      split at h
      · exact .inl h
      · rcases List.mem_cons.1 h with rfl | h
        · exact .inr (by simp)
        · exact .inl h
    · exact .inr (List.mem_cons_of_mem a h)

theorem gray_subset_markAll {as : List α} {b : α} : ∀ {t : Marking α},
    b ∈ t.gray → b ∈ (markAll as t).gray := by
  induction as with
  | nil =>
    intro t h
    exact h
  | cons a as ih =>
    intro t h
    refine ih (t := mark a t) ?_
    unfold mark
    split
    · exact h
    · exact List.mem_cons_of_mem a h

/-- A node that was not marked before is on the worklist. -/
theorem mem_gray_of_marked {as : List α} {b : α} : ∀ {t : Marking α},
    b ∈ (markAll as t).marked → b ∉ t.marked → b ∈ (markAll as t).gray := by
  induction as with
  | nil =>
    intro t h hb
    exact absurd h hb
  | cons a as ih =>
    intro t h hb
    by_cases hmark : b ∈ (mark a t).marked
    · refine gray_subset_markAll (t := mark a t) ?_
      unfold mark at hmark ⊢
      split at hmark
      · exact absurd hmark hb
      · rename_i ha
        rw [if_neg ha]
        rcases Finset.mem_insert.1 hmark with rfl | hmark
        · exact List.mem_cons_self
        · exact absurd hmark hb
    · exact ih (t := mark a t) h hmark

/-- What a marking takes from the nodes not yet marked it puts on the worklist. -/
theorem card_markAll {nodes : Finset α} {as : List α} (has : ∀ a ∈ as, a ∈ nodes) :
    ∀ t : Marking α, (nodes \ (markAll as t).marked).card + (markAll as t).gray.length
      = (nodes \ t.marked).card + t.gray.length := by
  induction as with
  | nil =>
    intro t
    rfl
  | cons a as ih =>
    intro t
    have hmark : (nodes \ (mark a t).marked).card + (mark a t).gray.length
        = (nodes \ t.marked).card + t.gray.length := by
      unfold mark
      split
      · rfl
      · rename_i ha
        have hmem : a ∈ nodes \ t.marked := Finset.mem_sdiff.2 ⟨has a List.mem_cons_self, ha⟩
        have herase : nodes \ insert a t.marked = (nodes \ t.marked).erase a := by
          rw [Finset.sdiff_insert]
        have hpos := Finset.card_pos.2 ⟨a, hmem⟩
        rw [herase, Finset.card_erase_of_mem hmem, List.length_cons]
        omega
    rw [← hmark]
    exact ih (fun b hb => has b (List.mem_cons_of_mem a hb)) (mark a t)

/-- What holds while the graph is traced. -/
structure Closing (succ : α → List α) (roots : List α) (t : Marking α) : Prop where
  rooted : ∀ a ∈ roots, a ∈ t.marked
  gray : ∀ a ∈ t.gray, a ∈ t.marked
  black : ∀ a ∈ t.marked, a ∉ t.gray → ∀ b ∈ succ a, b ∈ t.marked
  reached : ∀ a ∈ t.marked, Reachable succ roots a

/-- The roots are marked first. -/
theorem Closing.init (succ : α → List α) (roots : List α) :
    Closing succ roots (markAll roots ⟨∅, []⟩) where
  rooted a ha := mem_marked_markAll.2 (.inr ha)
  gray a ha := mem_marked_markAll.2 (.inr ((mem_gray_markAll ha).resolve_left (by simp)))
  black a ha hgray := absurd (mem_gray_of_marked ha (by simp)) hgray
  reached a ha := .root ((mem_marked_markAll.1 ha).resolve_left (by simp))

/-- One round. -/
theorem Closing.step {succ : α → List α} {roots : List α} {marked : Finset α} {a : α} {rest : List α}
    (h : Closing succ roots ⟨marked, a :: rest⟩) :
    Closing succ roots (markAll (succ a) ⟨marked, rest⟩) where
  rooted b hb := mem_marked_markAll.2 (.inl (h.rooted b hb))
  gray b hb := by
    rcases mem_gray_markAll hb with hrest | hsucc
    · exact mem_marked_markAll.2 (.inl (h.gray b (List.mem_cons_of_mem a hrest)))
    · exact mem_marked_markAll.2 (.inr hsucc)
  black b hb hgray c hc := by
    by_cases hmarked : b ∈ marked
    · by_cases hab : b = a
      · exact mem_marked_markAll.2 (.inr (hab ▸ hc))
      · refine mem_marked_markAll.2 (.inl (h.black b hmarked ?_ c hc))
        intro hmem
        rcases List.mem_cons.1 hmem with rfl | hrest
        · exact hab rfl
        · exact hgray (gray_subset_markAll hrest)
    · exact absurd (mem_gray_of_marked hb hmarked) hgray
  reached b hb := by
    rcases mem_marked_markAll.1 hb with hmarked | hsucc
    · exact h.reached b hmarked
    · exact (h.reached a (h.gray a List.mem_cons_self)).step hsucc

omit [DecidableEq α] in
/-- With an empty worklist, what is marked is what can be reached. -/
theorem Closing.marked_iff {succ : α → List α} {roots : List α} {marked : Finset α}
    (h : Closing succ roots ⟨marked, []⟩) (a : α) : a ∈ marked ↔ Reachable succ roots a := by
  constructor
  · exact h.reached a
  · intro ha
    exact ha.induct h.rooted fun x y hx hy => h.black x hx (by simp) y hy

/-- The loop ends, and what is marked then is what can be reached. -/
theorem traceLoop_spec {succ : α → List α} {roots : List α} {nodes : Finset α}
    (hnodes : ∀ a ∈ nodes, ∀ b ∈ succ a, b ∈ nodes) (n : ℕ) : ∀ {t : Marking α},
      Closing succ roots t → t.marked ⊆ nodes →
      (nodes \ t.marked).card + t.gray.length ≤ n →
      ∃ t', traceLoop succ n t = some t' ∧ t'.gray = [] ∧
        ∀ a, a ∈ t'.marked ↔ Reachable succ roots a := by
  induction n with
  | zero =>
    rintro ⟨marked, gray⟩ h hsub hn
    cases gray with
    | nil => exact ⟨_, rfl, rfl, h.marked_iff⟩
    | cons a rest => simp at hn
  | succ n ih =>
    rintro ⟨marked, gray⟩ h hsub hn
    cases gray with
    | nil => exact ⟨_, rfl, rfl, h.marked_iff⟩
    | cons a rest =>
      have hsucc := hnodes a (hsub (h.gray a List.mem_cons_self))
      refine ih h.step (fun b hb => ?_) ?_
      · exact (mem_marked_markAll.1 hb).elim (fun hb => hsub hb) (hsucc b)
      · have hcard := card_markAll hsucc ⟨marked, rest⟩
        simp only [List.length_cons] at hn hcard
        omega

end Lox.Tracing
