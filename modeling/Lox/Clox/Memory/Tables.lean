import Lox.Clox.Memory.Objects
import Lox.Clox.TableInvariant

/-!
# Entries, capacities and interned strings

What the operations of `table.c` leave of the array of entries, as far as memory is concerned: its
length, and which entries are in it.  `tableFindString` finds a key with the right characters if and
only if there is one.
-/

namespace Lox.Clox.HashTable

open Probing

variable {K V : Type} [DecidableEq K] [TableValue V] {hash : K → UInt32} {t t' : HashTable K V}
  {key : K} {value : V}

/-! ### Capacities -/

theorem rehash_length {rest : List (Entry K V)} : ∀ {t : HashTable K V},
    rehash hash rest t = some t' → t'.entries.length = t.entries.length := by
  induction rest with
  | nil =>
    intro t h
    obtain rfl := Option.some.inj h
    rfl
  | cons entry rest ih =>
    intro t h
    unfold rehash at h
    split at h
    · exact ih h
    · obtain ⟨dest, -, h⟩ := Option.bind_eq_some_iff.1 h
      exact (ih h).trans List.length_set

theorem adjustCapacity_capacity {capacity : ℕ} (h : adjustCapacity hash capacity t = some t') :
    t'.capacity = capacity :=
  (rehash_length h).trans List.length_replicate

/-- Without the need to grow, the array stays as long as it is. -/
theorem tableSet_capacity {b : Bool} (hroom : 4 * (t.count + 1) ≤ 3 * t.capacity)
    (h : tableSet hash key value t = some (b, t')) : t'.capacity = t.capacity := by
  have hensure : ensure hash t = some t := if_neg (by omega)
  simp only [tableSet, hensure, Option.bind_eq_bind, Option.bind_some] at h
  obtain ⟨index, -, h⟩ := Option.bind_eq_some_iff.1 h
  obtain ⟨entry, -, h⟩ := Option.bind_eq_some_iff.1 h
  obtain ⟨-, rfl⟩ := Prod.mk.inj (Option.some.inj h)
  exact List.length_set

/-! ### Entries -/

theorem mem_rehash {rest : List (Entry K V)} : ∀ {t : HashTable K V},
    rehash hash rest t = some t' → ∀ entry ∈ t'.entries, entry ∈ t.entries ∨ entry ∈ rest := by
  induction rest with
  | nil =>
    intro t h entry hentry
    obtain rfl := Option.some.inj h
    exact .inl hentry
  | cons first rest ih =>
    intro t h entry hentry
    unfold rehash at h
    split at h
    · exact (ih h entry hentry).imp id (List.mem_cons_of_mem first)
    · rename_i key hkey
      obtain ⟨dest, -, h⟩ := Option.bind_eq_some_iff.1 h
      rcases ih h entry hentry with hmem | hmem
      · rcases List.mem_or_eq_of_mem_set hmem with hmem | rfl
        · exact .inl hmem
        · right
          rw [← hkey]
          exact List.mem_cons_self
      · exact .inr (List.mem_cons_of_mem first hmem)

/-- The entries of the new array are empty or come from the old one. -/
theorem mem_adjustCapacity {capacity : ℕ} (h : adjustCapacity hash capacity t = some t')
    {entry : Entry K V} (hentry : entry ∈ t'.entries) :
    entry = ⟨none, TableValue.nil⟩ ∨ entry ∈ t.entries :=
  (mem_rehash h entry hentry).imp List.eq_of_mem_replicate id

theorem mem_ensure (h : ensure hash t = some t') {entry : Entry K V} (hentry : entry ∈ t'.entries) :
    entry = ⟨none, TableValue.nil⟩ ∨ entry ∈ t.entries := by
  unfold ensure at h
  split at h
  · exact mem_adjustCapacity h hentry
  · obtain rfl := Option.some.inj h
    exact .inr hentry

theorem mem_tableSet {b : Bool} (h : tableSet hash key value t = some (b, t')) {entry : Entry K V}
    (hentry : entry ∈ t'.entries) :
    entry = ⟨none, TableValue.nil⟩ ∨ entry = ⟨some key, value⟩ ∨ entry ∈ t.entries := by
  simp only [tableSet, Option.bind_eq_bind] at h
  obtain ⟨t₁, hensure, h⟩ := Option.bind_eq_some_iff.1 h
  obtain ⟨index, -, h⟩ := Option.bind_eq_some_iff.1 h
  obtain ⟨old, -, h⟩ := Option.bind_eq_some_iff.1 h
  obtain ⟨-, rfl⟩ := Prod.mk.inj (Option.some.inj h)
  rcases List.mem_or_eq_of_mem_set hentry with hmem | rfl
  · exact (mem_ensure hensure hmem).imp id .inr
  · exact .inr (.inl rfl)

theorem mem_tableDelete {b : Bool} (h : tableDelete hash key t = some (b, t')) {entry : Entry K V}
    (hentry : entry ∈ t'.entries) : entry = ⟨none, TableValue.true_⟩ ∨ entry ∈ t.entries := by
  unfold tableDelete at h
  split at h
  · obtain ⟨-, rfl⟩ := Prod.mk.inj (Option.some.inj h)
    exact .inr hentry
  · obtain ⟨index, -, h⟩ := Option.bind_eq_some_iff.1 h
    obtain ⟨old, -, h⟩ := Option.bind_eq_some_iff.1 h
    split at h
    · obtain ⟨-, rfl⟩ := Prod.mk.inj (Option.some.inj h)
      exact .inr hentry
    · obtain ⟨-, rfl⟩ := Prod.mk.inj (Option.some.inj h)
      exact (List.mem_or_eq_of_mem_set hentry).symm

/-- The keys of a table are those its map binds. -/
theorem Represents.mem_keys {m : K → Option V} (h : Represents hash t m) (k : K) :
    (∃ v, ⟨some k, v⟩ ∈ t.entries) ↔ (m k).isSome := by
  rw [Option.isSome_iff_exists]
  refine exists_congr fun v => ?_
  rw [mem_entries, h.maps]
  rfl

/-! ### Growing -/

theorem lt_growCapacity (capacity : ℕ) : capacity < growCapacity capacity := by
  unfold growCapacity
  split <;> omega

/-- A table whose array has grown has room for another key, and the same bindings. -/
theorem Represents.adjustCapacity {m : K → Option V} (h : Represents hash t m) :
    ∃ t', HashTable.adjustCapacity hash (growCapacity t.capacity) t = some t' ∧
      Represents hash t' m ∧ 4 * (t'.count + 1) ≤ 3 * t'.capacity := by
  have hbound : bound t.entries ≤ used t.capacity (slots t.entries) := bound_le_used t.entries
  have hcount := h.wf.count
  have hload := h.wf.load
  have hgrown : growCapacity t.capacity = 8 ∧ t.capacity < 8 ∨
      growCapacity t.capacity = t.capacity * 2 ∧ 8 ≤ t.capacity := by
    unfold growCapacity
    split
    · exact .inl ⟨rfl, by omega⟩
    · exact .inr ⟨rfl, by omega⟩
  obtain ⟨e, he, hcap⟩ := growCapacity_power h.wf.entries
  obtain ⟨t', hrun, hcap', hwf', hcount', hsame, hholds⟩ := adjustCapacity_spec h.wf he (by omega)
  refine ⟨t', by rw [hcap]; exact hrun, ⟨⟨.inr hwf', hcount', by omega⟩, fun k v => ?_⟩, by omega⟩
  rw [h.maps, hholds]

/-! ### Finding a string -/

section Finding

variable {entries : List (Entry K V)} {found : K → Bool}

/-- The search from the place `d` on ends at a key that is found, or at an empty entry after keys that
are not. -/
def Searched (entries : List (Entry K V)) (found : K → Bool) (start d : ℕ) (r : Option K) : Prop :=
  (∃ k v, r = some k ∧ ⟨some k, v⟩ ∈ entries ∧ found k) ∨
  (r = none ∧ ∃ stop, d ≤ stop ∧ slots entries (probe entries.length start stop) = .empty ∧
    ∀ j, d ≤ j → j < stop → ∀ k v,
      slots entries (probe entries.length start j) = .full k v → found k = false)

theorem findStringLoop_result {e : ℕ} (hpower : entries.length = 2 ^ e) {start : ℕ} (fuel : ℕ) :
    ∀ {d : ℕ} {r : Option K},
      findStringLoop entries found fuel (probe entries.length start d) = some r →
      Searched entries found start d r := by
  have hpos : 0 < entries.length := by
    rw [hpower]
    exact Nat.two_pow_pos e
  induction fuel with
  | zero =>
    intro d r h
    cases h
  | succ fuel ih =>
    intro d r h
    have hbound := probe_lt hpos start d
    have hnext : (probe entries.length start d + 1) &&& (entries.length - 1)
        = probe entries.length start (d + 1) := by
      rw [and_pred hpower, probe_succ]
    have hslot := slots_of_lt hbound
    simp only [findStringLoop, List.getElem?_eq_getElem hbound, Option.bind_eq_bind,
      Option.bind_some, hnext] at h
    -- What is not found here is found later, or not at all.
    have hlater : (∀ k v, slots entries (probe entries.length start d) = .full k v →
        found k = false) →
        findStringLoop entries found fuel (probe entries.length start (d + 1)) = some r →
        Searched entries found start d r := by
      intro hhere hrest
      rcases ih hrest with hfound | ⟨hr, stop, hle, hstop, hbefore⟩
      · exact Or.inl hfound
      · refine Or.inr ⟨hr, stop, by omega, hstop, fun j hj hlt k v hfull => ?_⟩
        rcases Nat.eq_or_lt_of_le hj with rfl | hj
        · exact hhere k v hfull
        · exact hbefore j hj hlt k v hfull
    cases hentry : entries[probe entries.length start d] with
    | mk okey value =>
      rw [hentry] at h hslot
      cases okey with
      | none =>
        simp only at h
        by_cases hnil : TableValue.isNil value
        · rw [if_pos hnil] at h
          obtain rfl := Option.some.inj h
          refine Or.inr ⟨rfl, d, le_refl d, ?_, fun j hj hlt => by omega⟩
          rw [hslot]
          exact if_pos hnil
        · rw [if_neg hnil] at h
          refine hlater (fun k v hfull => ?_) h
          rw [hslot] at hfull
          simp [slot, hnil] at hfull
      | some k =>
        simp only at h
        by_cases hfound : found k
        · rw [if_pos hfound] at h
          obtain rfl := Option.some.inj h
          refine Or.inl ⟨k, value, rfl, ?_, hfound⟩
          rw [← hentry]
          exact List.getElem_mem hbound
        · rw [if_neg hfound] at h
          refine hlater (fun k' v hfull => ?_) h
          rw [hslot] at hfull
          obtain ⟨rfl, -⟩ : k = k' ∧ value = v := by simpa [slot] using hfull
          simpa using hfound

variable {chars : K → Name} {text : Name} {textHash : UInt32}

/-- The key that is found has the characters. -/
theorem Wf.tableFindString_some (hwf : Wf hash t)
    (h : tableFindString hash chars text textHash t = some (some key)) :
    (∃ v, ⟨some key, v⟩ ∈ t.entries) ∧ chars key = text := by
  unfold tableFindString at h
  split at h
  · cases h
  · rename_i hcount
    obtain ⟨hentries, -⟩ := hwf.array hcount
    obtain ⟨e, -, hpower⟩ := hentries.power
    have hstart : textHash.toNat &&& (t.capacity - 1)
        = probe t.entries.length (textHash.toNat &&& (t.capacity - 1)) 0 := by
      show _ &&& (t.entries.length - 1) = probe _ (_ &&& (t.entries.length - 1)) 0
      rw [probe, Nat.add_zero, and_pred hpower, Nat.mod_mod]
    rw [hstart] at h
    rcases findStringLoop_result hpower _ h with ⟨k, v, hk, hmem, hfound⟩ | ⟨hnone, -⟩
    · obtain rfl := Option.some.inj hk
      simp only [Bool.and_eq_true, decide_eq_true_eq] at hfound
      exact ⟨⟨v, hmem⟩, hfound.2⟩
    · cases hnone

/-- When no key is found, no key with that hash has the characters. -/
theorem Wf.tableFindString_none (hwf : Wf hash t)
    (h : tableFindString hash chars text textHash t = some none) {k : K} {v : V}
    (hmem : ⟨some k, v⟩ ∈ t.entries) (hhash : hash k = textHash) : chars k ≠ text := by
  have hcount : t.count ≠ 0 := by
    intro hzero
    obtain ⟨m, hm⟩ := hwf.exists_represents
    have hsome := (hm.mem_keys k).1 ⟨v, hmem⟩
    rw [hm.empty hzero k] at hsome
    cases hsome
  rw [tableFindString, if_neg hcount] at h
  obtain ⟨hentries, -⟩ := hwf.array hcount
  obtain ⟨e, -, hpower⟩ := hentries.power
  have hstart : textHash.toNat &&& (t.capacity - 1)
      = probe t.entries.length (textHash.toNat &&& (t.capacity - 1)) 0 := by
    show _ &&& (t.entries.length - 1) = probe _ (_ &&& (t.entries.length - 1)) 0
    rw [probe, Nat.add_zero, and_pred hpower, Nat.mod_mod]
  rw [hstart] at h
  rcases findStringLoop_result hpower _ h with ⟨k', v', hk, -⟩ | ⟨-, stop, -, hstop, hbefore⟩
  · cases hk
  · obtain ⟨i, hi, hfull⟩ := mem_entries.1 hmem
    obtain ⟨d, hd, hleads⟩ := hentries.chained.leads i hi k v hfull
    have hhome : home hash t.entries.length k = textHash.toNat &&& (t.capacity - 1) := by
      rw [home, hhash]
      rfl
    rw [hhome] at hd hleads
    -- The key lies before the empty entry at which the search stopped.
    have hlt : d < stop := by
      by_contra hge
      rcases Nat.eq_or_lt_of_le (Nat.le_of_not_lt hge) with rfl | hgt
      · rw [hd, hfull] at hstop
        cases hstop
      · exact hleads stop hgt hstop
    have hnot := hbefore d (Nat.zero_le d) hlt k v (by rw [hd]; exact hfull)
    intro htext
    simp [htext, hhash] at hnot

end Finding

end Lox.Clox.HashTable
