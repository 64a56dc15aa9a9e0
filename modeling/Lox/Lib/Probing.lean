import Mathlib.Data.Fintype.Card
import Mathlib.Tactic

/-!
# Linear probing

A table of `n` slots, each empty, deleted, or full with a key and a value.  A key has a home, and is
looked for from there on, slot after slot and around the end, up to the first empty slot.

* `Chained` is what makes that search right: a key is in at most one slot, and between its home and
  its slot there is no empty one.
* `Vacant` is what a search that does not find its key has seen, and where it may be put.
* The rules say that filling, changing and deleting a slot keep `Chained`, and what the table holds
  afterwards (`Holds`).
-/

namespace Lox.Probing

variable {K V : Type}

/-- A slot of the table. -/
inductive Slot (K V : Type) where
  | empty
  | deleted
  | full (key : K) (value : V)

/-- The slot that is looked at after `d` others. -/
def probe (n home d : ℕ) : ℕ := (home + d) % n

theorem probe_lt {n : ℕ} (hn : 0 < n) (home d : ℕ) : probe n home d < n := Nat.mod_lt _ hn

theorem probe_succ (n home d : ℕ) : (probe n home d + 1) % n = probe n home (d + 1) := by
  rw [probe, probe, Nat.mod_add_mod, Nat.add_assoc]

theorem exists_probe {n i : ℕ} (hi : i < n) (home : ℕ) : ∃ d < n, probe n home d = i := by
  have hn : 0 < n := by omega
  have hhome : home % n < n := Nat.mod_lt _ hn
  rcases Nat.lt_or_ge i (home % n) with h | h
  · refine ⟨i + n - home % n, by omega, ?_⟩
    rw [probe, ← Nat.mod_add_mod, show home % n + (i + n - home % n) = i + n by omega,
      Nat.add_mod_right, Nat.mod_eq_of_lt hi]
  · refine ⟨i - home % n, by omega, ?_⟩
    rw [probe, ← Nat.mod_add_mod, show home % n + (i - home % n) = i by omega, Nat.mod_eq_of_lt hi]

section Tables

variable (n : ℕ) (home : K → ℕ)

/-- The table holds the value under the key. -/
def Holds (s : ℕ → Slot K V) (k : K) (v : V) : Prop := ∃ i < n, s i = .full k v

/-- A search for the key that begins at its home comes to the slot `i`. -/
def Leads (s : ℕ → Slot K V) (k : K) (i : ℕ) : Prop :=
  ∃ d, probe n (home k) d = i ∧ ∀ e < d, s (probe n (home k) e) ≠ .empty

/-- Every key is in one slot at most, and a search for it comes there. -/
structure Chained (s : ℕ → Slot K V) : Prop where
  distinct : ∀ i < n, ∀ j < n, ∀ k v w, s i = .full k v → s j = .full k w → i = j
  leads : ∀ i < n, ∀ k v, s i = .full k v → Leads n home s k i

/-- A search for the key has come to an empty slot without finding it; the slot `r` is that one or
a deleted one on the way. -/
structure Vacant (s : ℕ → Slot K V) (k : K) (r : ℕ) : Prop where
  bound : r < n
  free : ∀ k' v, s r ≠ .full k' v
  leads : Leads n home s k r
  stop : ∃ d, s (probe n (home k) d) = .empty ∧
    ∀ e < d, s (probe n (home k) e) ≠ .empty ∧ ∀ v, s (probe n (home k) e) ≠ .full k v

end Tables

variable {n : ℕ} {home : K → ℕ} {s : ℕ → Slot K V} {k : K} {v : V} {r : ℕ}

/-! ### Searching -/

theorem Vacant.not_holds (hs : Chained n home s) (h : Vacant n home s k r) (v : V) :
    ¬ Holds n s k v := by
  rintro ⟨i, hi, hfull⟩
  obtain ⟨d, rfl, hd⟩ := hs.leads i hi k v hfull
  obtain ⟨stop, hempty, hbefore⟩ := h.stop
  rcases Nat.lt_trichotomy d stop with hlt | rfl | hlt
  · exact (hbefore d hlt).2 v hfull
  · rw [hempty] at hfull
    cases hfull
  · exact hd stop hlt hempty

theorem Chained.holds_unique (hs : Chained n home s) {v w : V} (hv : Holds n s k v)
    (hw : Holds n s k w) : v = w := by
  obtain ⟨i, hi, hiv⟩ := hv
  obtain ⟨j, hj, hjw⟩ := hw
  obtain rfl := hs.distinct i hi j hj k v w hiv hjw
  rw [hiv] at hjw
  cases hjw
  rfl

/-- With an empty slot, some search ends: the first `d` that satisfies the condition exists and is
less than `n`. -/
theorem exists_first {p : ℕ → Prop} {i : ℕ} (hi : i < n) (hp : p i) (h : ℕ) :
    ∃ d < n, p (probe n h d) ∧ ∀ e < d, ¬ p (probe n h e) := by
  classical
  obtain ⟨d, hd, rfl⟩ := exists_probe hi h
  have hex : ∃ d, p (probe n h d) := ⟨d, hp⟩
  refine ⟨Nat.find hex, (Nat.find_min' hex hp).trans_lt hd, Nat.find_spec hex, ?_⟩
  intro e he
  exact Nat.find_min hex he

/-! ### Changing a slot -/

/-- A slot that is not emptied leaves every search as it was. -/
theorem Leads.update {x : Slot K V} (hx : x ≠ .empty) {i : ℕ} (h : Leads n home s k i) :
    Leads n home (Function.update s r x) k i := by
  obtain ⟨d, rfl, hd⟩ := h
  refine ⟨d, rfl, fun e he => ?_⟩
  by_cases her : probe n (home k) e = r
  · rw [her, Function.update_self]
    exact hx
  · rw [Function.update_of_ne her]
    exact hd e he

theorem Chained.delete (hs : Chained n home s) :
    Chained n home (Function.update s r (.deleted : Slot K V)) := by
  have hold : ∀ i k v, Function.update s r .deleted i = .full k v → s i = .full k v := by
    intro i k v hi
    by_cases hir : i = r
    · rw [hir, Function.update_self] at hi
      cases hi
    · rwa [Function.update_of_ne hir] at hi
  refine ⟨?_, ?_⟩
  · intro i hi j hj k v w hiv hjw
    exact hs.distinct i hi j hj k v w (hold i k v hiv) (hold j k w hjw)
  · intro i hi k v hiv
    exact (hs.leads i hi k v (hold i k v hiv)).update (by simp)

/-- The key may be put where a search for it leads, if it is nowhere else. -/
theorem Chained.fill (hs : Chained n home s) (hleads : Leads n home s k r)
    (honly : ∀ i < n, i ≠ r → ∀ w, s i ≠ .full k w) (v : V) :
    Chained n home (Function.update s r (.full k v)) := by
  refine ⟨?_, ?_⟩
  · intro i hi j hj k' v' w' hiv hjw
    by_cases hir : i = r
    · by_cases hjr : j = r
      · rw [hir, hjr]
      · rw [hir, Function.update_self] at hiv
        rw [Function.update_of_ne hjr] at hjw
        cases hiv
        exact absurd hjw (honly j hj hjr _)
    · by_cases hjr : j = r
      · rw [hjr, Function.update_self] at hjw
        rw [Function.update_of_ne hir] at hiv
        cases hjw
        exact absurd hiv (honly i hi hir _)
      · rw [Function.update_of_ne hir] at hiv
        rw [Function.update_of_ne hjr] at hjw
        exact hs.distinct i hi j hj k' v' w' hiv hjw
  · intro i hi k' v' hiv
    by_cases hir : i = r
    · rw [hir, Function.update_self] at hiv
      cases hiv
      rw [hir]
      exact hleads.update (by simp)
    · rw [Function.update_of_ne hir] at hiv
      exact (hs.leads i hi k' v' hiv).update (by simp)

theorem Chained.fill_vacant (hs : Chained n home s) (h : Vacant n home s k r) (v : V) :
    Chained n home (Function.update s r (.full k v)) :=
  hs.fill h.leads (fun i hi _ w hiw => h.not_holds hs w ⟨i, hi, hiw⟩) v

theorem Chained.change (hs : Chained n home s) (hr : r < n) {w : V} (h : s r = .full k w) (v : V) :
    Chained n home (Function.update s r (.full k v)) :=
  hs.fill (hs.leads r hr k w h)
    (fun i hi hir _ hiw => hir (hs.distinct i hi r hr k _ _ hiw h)) v

/-! ### What the table holds -/

/-- After a key was put into a slot that is free or its own. -/
theorem holds_fill (hr : r < n) (hfree : ∀ k' v', s r = .full k' v' → k' = k)
    (honly : ∀ i < n, i ≠ r → ∀ w, s i ≠ .full k w) (v : V) (k' : K) (v' : V) :
    Holds n (Function.update s r (.full k v)) k' v' ↔
      (k' = k ∧ v' = v) ∨ (k' ≠ k ∧ Holds n s k' v') := by
  constructor
  · rintro ⟨i, hi, hiv⟩
    by_cases hir : i = r
    · rw [hir, Function.update_self] at hiv
      cases hiv
      exact .inl ⟨rfl, rfl⟩
    · rw [Function.update_of_ne hir] at hiv
      refine .inr ⟨?_, i, hi, hiv⟩
      rintro rfl
      exact honly i hi hir v' hiv
  · rintro (⟨rfl, rfl⟩ | ⟨hne, i, hi, hiv⟩)
    · exact ⟨r, hr, Function.update_self ..⟩
    · refine ⟨i, hi, ?_⟩
      rw [Function.update_of_ne, hiv]
      rintro rfl
      exact hne (hfree k' v' hiv)

theorem Chained.holds_fill_vacant (hs : Chained n home s) (h : Vacant n home s k r) (v : V)
    (k' : K) (v' : V) : Holds n (Function.update s r (.full k v)) k' v' ↔
      (k' = k ∧ v' = v) ∨ (k' ≠ k ∧ Holds n s k' v') :=
  holds_fill h.bound (fun k' v' hf => absurd hf (h.free k' v'))
    (fun i hi _ w hiw => h.not_holds hs w ⟨i, hi, hiw⟩) v k' v'

theorem Chained.holds_change (hs : Chained n home s) (hr : r < n) {w : V} (h : s r = .full k w)
    (v : V) (k' : K) (v' : V) : Holds n (Function.update s r (.full k v)) k' v' ↔
      (k' = k ∧ v' = v) ∨ (k' ≠ k ∧ Holds n s k' v') := by
  refine holds_fill hr (fun k' v' hf => ?_)
    (fun i hi hir _ hiw => hir (hs.distinct i hi r hr k _ _ hiw h)) v k' v'
  rw [h] at hf
  cases hf
  rfl

theorem Chained.holds_delete (hs : Chained n home s) (hr : r < n) {w : V} (h : s r = .full k w)
    (k' : K) (v' : V) :
    Holds n (Function.update s r .deleted) k' v' ↔ k' ≠ k ∧ Holds n s k' v' := by
  constructor
  · rintro ⟨i, hi, hiv⟩
    by_cases hir : i = r
    · rw [hir, Function.update_self] at hiv
      cases hiv
    · rw [Function.update_of_ne hir] at hiv
      refine ⟨?_, i, hi, hiv⟩
      rintro rfl
      exact hir (hs.distinct i hi r hr k' v' w hiv h)
  · rintro ⟨hne, i, hi, hiv⟩
    refine ⟨i, hi, ?_⟩
    rw [Function.update_of_ne, hiv]
    rintro rfl
    rw [h] at hiv
    cases hiv
    exact hne rfl

/-! ### Counting -/

open Classical in
/-- The number of slots that are not empty. -/
noncomputable def used (n : ℕ) (s : ℕ → Slot K V) : ℕ :=
  ((Finset.range n).filter fun i => s i ≠ .empty).card

theorem used_le (n : ℕ) (s : ℕ → Slot K V) : used n s ≤ n := by
  classical
  exact (Finset.card_filter_le _ _).trans_eq (Finset.card_range n)

theorem used_succ_of_ne (h : s n ≠ .empty) : used (n + 1) s = used n s + 1 := by
  classical
  rw [used, Finset.range_add_one, Finset.filter_insert, if_pos h, Finset.card_insert_of_notMem,
    used]
  simp

theorem used_succ_of_empty (h : s n = .empty) : used (n + 1) s = used n s := by
  classical
  rw [used, Finset.range_add_one, Finset.filter_insert, if_neg (not_not.2 h), used]

theorem used_le_succ (n : ℕ) (s : ℕ → Slot K V) : used n s ≤ used (n + 1) s := by
  classical
  exact Finset.card_le_card (Finset.filter_subset_filter _ (Finset.range_subset_range.2 n.le_succ))

theorem used_congr {s' : ℕ → Slot K V} (h : ∀ i < n, s i = s' i) : used n s = used n s' := by
  classical
  unfold used
  congr 1
  refine Finset.filter_congr fun i hi => ?_
  rw [h i (Finset.mem_range.1 hi)]

theorem used_eq_zero (h : ∀ i, s i = .empty) : used n s = 0 := by
  simp [used, h]

theorem exists_empty (h : used n s < n) : ∃ i < n, s i = .empty := by
  classical
  by_contra hno
  push Not at hno
  refine h.ne ?_
  rw [used, Finset.filter_true_of_mem, Finset.card_range]
  intro i hi
  exact hno i (Finset.mem_range.1 hi)

/-- A slot that was not empty and is not emptied does not change the number. -/
theorem used_update_of_ne {x : Slot K V} (hx : x ≠ .empty) (hr : s r ≠ .empty) :
    used n (Function.update s r x) = used n s := by
  classical
  unfold used
  congr 1
  refine Finset.filter_congr fun i _ => ?_
  by_cases hir : i = r
  · simp [hir, hx, hr]
  · rw [Function.update_of_ne hir]

/-- An empty slot that is filled adds one. -/
theorem used_update_of_empty {x : Slot K V} (hx : x ≠ .empty) (hbound : r < n) (hr : s r = .empty) :
    used n (Function.update s r x) = used n s + 1 := by
  classical
  unfold used
  have hinsert : (Finset.range n).filter (fun i => Function.update s r x i ≠ .empty)
      = insert r ((Finset.range n).filter fun i => s i ≠ .empty) := by
    ext i
    by_cases hir : i = r
    · simp [hir, hx, hbound]
    · simp [hir]
  rw [hinsert, Finset.card_insert_of_notMem]
  simp [hr]

end Lox.Probing
