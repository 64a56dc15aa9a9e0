import Lox.Lib.Probing
import Lox.Clox.VM

/-!
# The hash table of `table.c`

The entries are an array; an entry without a key is empty if its value is nil, and a tombstone
otherwise.  Keys are compared by identity, so any type with decidable equality will do; their hashes
are arbitrary.  The loop of `findEntry` has no bound in C: after as many turns as there are entries
it would see the same entries again, so then the result is `none`, and `none` stands for a call that
does not return.

`HashTable.Wf` is the representation invariant, `HashTable.Represents` says which finite map a table
stands for.
-/

namespace Lox.Clox

open Probing

/-- What a table has to know of values: nil, and the value of a tombstone. -/
class TableValue (V : Type) where
  nil : V
  isNil : V → Bool
  true_ : V
  isNil_nil : isNil nil = true
  isNil_true : isNil true_ = false

instance (N : Type) : TableValue (Value N) where
  nil := .nil
  isNil
    | .nil => true
    | _ => false
  true_ := .bool true
  isNil_nil := rfl
  isNil_true := rfl

/-- `Entry`. -/
structure Entry (K V : Type) where
  key : Option K
  value : V

/-- `Table`; `capacity` is the length of `entries`. -/
structure HashTable (K V : Type) where
  count : ℕ
  entries : List (Entry K V)

namespace HashTable

variable {K V : Type}

/-- `table->capacity`. -/
def capacity (t : HashTable K V) : ℕ := t.entries.length

/-- `initTable`. -/
def initTable : HashTable K V := ⟨0, []⟩

/-- `GROW_CAPACITY`. -/
def growCapacity (capacity : ℕ) : ℕ := if capacity < 8 then 8 else capacity * 2

variable [DecidableEq K] [TableValue V]

/-- The loop of `findEntry`. -/
def findLoop (entries : List (Entry K V)) (key : K) : ℕ → ℕ → Option ℕ → Option ℕ
  | 0, _, _ => none
  | fuel + 1, index, tombstone => do
    let entry ← entries[index]?
    let next := (index + 1) &&& (entries.length - 1)
    match entry.key with
    | none =>
      if TableValue.isNil entry.value then some (tombstone.getD index)
      else findLoop entries key fuel next (some (tombstone.getD index))
    | some k => if k = key then some index else findLoop entries key fuel next tombstone

section Operations

variable (hash : K → UInt32)

/-- The index a search begins with. -/
def home (capacity : ℕ) (key : K) : ℕ := (hash key).toNat &&& (capacity - 1)

/-- `findEntry`. -/
def findEntry (entries : List (Entry K V)) (key : K) : Option ℕ :=
  findLoop entries key entries.length (home hash entries.length key) none

/-- The second loop of `adjustCapacity`: `count` and the new entries. -/
def rehash : List (Entry K V) → HashTable K V → Option (HashTable K V)
  | [], t => some t
  | entry :: rest, t =>
    match entry.key with
    | none => rehash rest t
    | some key => do
      let dest ← findEntry hash t.entries key
      rehash rest ⟨t.count + 1, t.entries.set dest ⟨some key, entry.value⟩⟩

/-- `adjustCapacity`. -/
def adjustCapacity (capacity : ℕ) (t : HashTable K V) : Option (HashTable K V) :=
  rehash hash t.entries ⟨0, List.replicate capacity ⟨none, TableValue.nil⟩⟩

/-- `tableGet`. -/
def tableGet (key : K) (t : HashTable K V) : Option (Option V) :=
  if t.count = 0 then some none
  else do
    let index ← findEntry hash t.entries key
    let entry ← t.entries[index]?
    return if entry.key.isNone then none else some entry.value

/-- The room a new key needs: `count + 1 > capacity * 0.75`. -/
def ensure (t : HashTable K V) : Option (HashTable K V) :=
  if 4 * (t.count + 1) > 3 * t.capacity then adjustCapacity hash (growCapacity t.capacity) t
  else some t

/-- `tableSet`. -/
def tableSet (key : K) (value : V) (t : HashTable K V) : Option (Bool × HashTable K V) := do
  let t ← ensure hash t
  let index ← findEntry hash t.entries key
  let entry ← t.entries[index]?
  let isNewKey := entry.key.isNone
  let count := if isNewKey && TableValue.isNil entry.value then t.count + 1 else t.count
  return (isNewKey, ⟨count, t.entries.set index ⟨some key, value⟩⟩)

/-- `tableDelete`. -/
def tableDelete (key : K) (t : HashTable K V) : Option (Bool × HashTable K V) :=
  if t.count = 0 then some (false, t)
  else do
    let index ← findEntry hash t.entries key
    let entry ← t.entries[index]?
    if entry.key.isNone then return (false, t)
    else return (true, ⟨t.count, t.entries.set index ⟨none, TableValue.true_⟩⟩)

/-- The loop of `tableAddAll`. -/
def addEntries : List (Entry K V) → HashTable K V → Option (HashTable K V)
  | [], target => some target
  | entry :: rest, target =>
    match entry.key with
    | none => addEntries rest target
    | some key => do
      let (_, target) ← tableSet hash key entry.value target
      addEntries rest target

/-- `tableAddAll`. -/
def tableAddAll (source target : HashTable K V) : Option (HashTable K V) :=
  addEntries hash source.entries target

/-- The loop of `tableRemoveWhite`, from the index on. -/
def removeFrom (isMarked : K → Bool) : ℕ → ℕ → HashTable K V → Option (HashTable K V)
  | 0, _, t => some t
  | n + 1, index, t => do
    let entry ← t.entries[index]?
    match entry.key with
    | none => removeFrom isMarked n (index + 1) t
    | some key =>
      if isMarked key then removeFrom isMarked n (index + 1) t
      else do
        let (_, t) ← tableDelete hash key t
        removeFrom isMarked n (index + 1) t

/-- `tableRemoveWhite`. -/
def tableRemoveWhite (isMarked : K → Bool) (t : HashTable K V) : Option (HashTable K V) :=
  removeFrom hash isMarked t.capacity 0 t

end Operations

/-! ### The representation -/

/-- What an entry stands for. -/
def slot (entry : Entry K V) : Probing.Slot K V :=
  match entry.key with
  | none => if TableValue.isNil entry.value then .empty else .deleted
  | some key => .full key entry.value

/-- The entries as slots. -/
def slots (entries : List (Entry K V)) (i : ℕ) : Probing.Slot K V :=
  match entries[i]? with
  | none => .empty
  | some entry => slot entry

variable (hash : K → UInt32)

/-- An array of entries in which every key is found. -/
structure WfEntries (entries : List (Entry K V)) : Prop where
  power : ∃ e, 3 ≤ e ∧ entries.length = 2 ^ e
  chained : Chained entries.length (home hash entries.length) (slots entries)

/-- The representation invariant of a table. -/
structure Wf (t : HashTable K V) : Prop where
  entries : t.entries = [] ∨ WfEntries hash t.entries
  count : t.count = used t.capacity (slots t.entries)
  load : 4 * t.count ≤ 3 * t.capacity

/-! ### Searching -/

variable {hash} {entries : List (Entry K V)} {key : K} {t : HashTable K V}

theorem and_pred {n e : ℕ} (h : n = 2 ^ e) (i : ℕ) : i &&& (n - 1) = i % n := by
  rw [h, Nat.and_two_pow_sub_one_eq_mod]

theorem slots_of_lt {i : ℕ} (h : i < entries.length) : slots entries i = slot entries[i] := by
  simp [slots, h]

theorem slots_set {r : ℕ} (hr : r < entries.length) (entry : Entry K V) :
    slots (entries.set r entry) = Function.update (slots entries) r (slot entry) := by
  funext i
  by_cases hir : i = r
  · rw [hir, Function.update_self]
    simp [slots, hr]
  · rw [Function.update_of_ne hir]
    simp only [slots]
    rw [List.getElem?_set_ne (Ne.symm hir)]

theorem findLoop_succ {index : ℕ} (h : index < entries.length) (fuel : ℕ) (tombstone : Option ℕ) :
    findLoop entries key (fuel + 1) index tombstone =
      match slots entries index with
      | .empty => some (tombstone.getD index)
      | .deleted => findLoop entries key fuel ((index + 1) &&& (entries.length - 1))
          (some (tombstone.getD index))
      | .full k _ =>
          if k = key then some index
          else findLoop entries key fuel ((index + 1) &&& (entries.length - 1)) tombstone := by
  rw [slots_of_lt h]
  simp only [findLoop, List.getElem?_eq_getElem h, Option.bind_eq_bind, Option.bind_some, slot]
  cases entries[index].key with
  | some k => rfl
  | none =>
    simp only
    split <;> rfl

/-- What a search for the key finds: an entry that has the key, or a place for it. -/
def Finds (hash : K → UInt32) (entries : List (Entry K V)) (key : K) (r : ℕ) : Prop :=
  r < entries.length ∧ ((∃ v, slots entries r = .full key v) ∨
    Vacant entries.length (home hash entries.length) (slots entries) key r)

/-- The search from the place `d` of the probe sequence on; `stop` is the first place with the key
or without anything. -/
theorem findLoop_spec {e : ℕ} (hpower : entries.length = 2 ^ e) {stop : ℕ}
    (hstop : slots entries (probe entries.length (home hash entries.length key) stop) = .empty ∨
      ∃ v, slots entries (probe entries.length (home hash entries.length key) stop) = .full key v)
    (hbefore : ∀ i < stop,
      slots entries (probe entries.length (home hash entries.length key) i) ≠ .empty ∧
      ∀ v, slots entries (probe entries.length (home hash entries.length key) i) ≠ .full key v)
    (fuel : ℕ) : ∀ {d : ℕ} {tombstone : Option ℕ}, d ≤ stop → stop < d + fuel →
      (∀ r, tombstone = some r → slots entries r = .deleted ∧
        ∃ i < d, probe entries.length (home hash entries.length key) i = r) →
      ∃ r, findLoop entries key fuel (probe entries.length (home hash entries.length key) d) tombstone
        = some r ∧ Finds hash entries key r := by
  have hpos : 0 < entries.length := by
    rw [hpower]
    exact Nat.two_pow_pos e
  have hvacant : ∀ i ≤ stop, slots entries
      (probe entries.length (home hash entries.length key) stop) = .empty →
      (∀ k v, slots entries (probe entries.length (home hash entries.length key) i) ≠ .full k v) →
      Vacant entries.length (home hash entries.length) (slots entries) key
        (probe entries.length (home hash entries.length key) i) := by
    intro i hi hempty hfree
    refine ⟨probe_lt hpos _ _, hfree, ⟨i, rfl, fun j hj => (hbefore j (by omega)).1⟩, ?_⟩
    exact ⟨stop, hempty, hbefore⟩
  induction fuel with
  | zero =>
    intro d tombstone hle hlt
    omega
  | succ fuel ih =>
    intro d tombstone hle hlt htomb
    have hbound := probe_lt hpos (home hash entries.length key) d
    rw [findLoop_succ hbound, and_pred hpower, probe_succ]
    rcases Nat.lt_or_eq_of_le hle with hd | rfl
    · -- The search goes on, and may have to remember a tombstone.
      obtain ⟨hempty, hkey⟩ := hbefore d hd
      cases hslot : slots entries (probe entries.length (home hash entries.length key) d) with
      | empty => exact absurd hslot hempty
      | deleted =>
        refine ih (by omega) (by omega) fun r hr => ?_
        obtain rfl := Option.some.inj hr
        cases tombstone with
        | none => exact ⟨hslot, d, by omega, rfl⟩
        | some r =>
          obtain ⟨hdeleted, i, hi, hprobe⟩ := htomb r rfl
          exact ⟨hdeleted, i, by omega, hprobe⟩
      | full k v =>
        simp only
        rw [if_neg]
        · refine ih (by omega) (by omega) fun r hr => ?_
          obtain ⟨hdeleted, i, hi, hprobe⟩ := htomb r hr
          exact ⟨hdeleted, i, by omega, hprobe⟩
        · rintro rfl
          exact hkey v hslot
    · rcases hstop with hempty | ⟨v, hfull⟩
      · rw [hempty]
        cases tombstone with
        | none =>
          refine ⟨_, rfl, hbound, .inr (hvacant d (le_refl d) hempty ?_)⟩
          intro k v h
          rw [hempty] at h
          cases h
        | some r =>
          obtain ⟨hdeleted, i, hi, rfl⟩ := htomb r rfl
          refine ⟨_, rfl, probe_lt hpos _ _, .inr (hvacant i (by omega) hempty ?_)⟩
          intro k v h
          rw [hdeleted] at h
          cases h
      · rw [hfull]
        simp only [if_true]
        exact ⟨_, rfl, hbound, .inl ⟨v, hfull⟩⟩

/-- With an empty entry, every search ends. -/
theorem findEntry_spec (hash : K → UInt32) {e : ℕ} (hpower : entries.length = 2 ^ e)
    (hempty : ∃ i < entries.length, slots entries i = .empty) (key : K) :
    ∃ r, findEntry hash entries key = some r ∧ Finds hash entries key r := by
  obtain ⟨i, hi, hempty⟩ := hempty
  obtain ⟨stop, hlt, hstop, hbefore⟩ := exists_first
    (p := fun j => slots entries j = .empty ∨ ∃ v, slots entries j = .full key v) hi (.inl hempty)
    (home hash entries.length key)
  have hseen : ∀ j < stop,
      slots entries (probe entries.length (home hash entries.length key) j) ≠ .empty ∧
      ∀ v, slots entries (probe entries.length (home hash entries.length key) j) ≠ .full key v := by
    intro j hj
    obtain ⟨h₁, h₂⟩ := not_or.1 (hbefore j hj)
    exact ⟨h₁, fun v hv => h₂ ⟨v, hv⟩⟩
  have hloop : ∃ r, findLoop entries key entries.length
      (probe entries.length (home hash entries.length key) 0) none = some r ∧
      Finds hash entries key r :=
    findLoop_spec hpower hstop hseen entries.length (Nat.zero_le _) (by omega) (by simp)
  have hhome : probe entries.length (home hash entries.length key) 0
      = home hash entries.length key := by
    have hpos : 0 < entries.length := by omega
    rw [probe, Nat.add_zero, home, and_pred hpower, Nat.mod_mod]
  rw [hhome] at hloop
  exact hloop

/-! ### Changing an entry -/

theorem WfEntries.set_full (hwf : WfEntries hash entries) {r : ℕ} (hr : Finds hash entries key r)
    (value : V) : WfEntries hash (entries.set r ⟨some key, value⟩) ∧
      ∀ k v, Holds entries.length (slots (entries.set r ⟨some key, value⟩)) k v ↔
        (k = key ∧ v = value) ∨ (k ≠ key ∧ Holds entries.length (slots entries) k v) := by
  obtain ⟨hbound, hr⟩ := hr
  have hslots : slots (entries.set r ⟨some key, value⟩)
      = Function.update (slots entries) r (.full key value) := slots_set hbound _
  refine ⟨⟨by simpa using hwf.power, ?_⟩, ?_⟩
  · rw [List.length_set, hslots]
    rcases hr with ⟨w, hw⟩ | hvacant
    · exact hwf.chained.change hbound hw value
    · exact hwf.chained.fill_vacant hvacant value
  · rw [hslots]
    rcases hr with ⟨w, hw⟩ | hvacant
    · exact hwf.chained.holds_change hbound hw value
    · exact hwf.chained.holds_fill_vacant hvacant value

theorem WfEntries.set_deleted (hwf : WfEntries hash entries) {r : ℕ} (hbound : r < entries.length)
    {w : V} (hw : slots entries r = .full key w) :
    WfEntries hash (entries.set r ⟨none, TableValue.true_⟩) ∧
      ∀ k v, Holds entries.length (slots (entries.set r ⟨none, TableValue.true_⟩)) k v ↔
        k ≠ key ∧ Holds entries.length (slots entries) k v := by
  have hslots : slots (entries.set r ⟨none, TableValue.true_⟩)
      = Function.update (slots entries) r .deleted := by
    rw [slots_set hbound]
    simp [slot, TableValue.isNil_true]
  refine ⟨⟨by simpa using hwf.power, ?_⟩, ?_⟩
  · rw [List.length_set, hslots]
    exact hwf.chained.delete
  · rw [hslots]
    exact hwf.chained.holds_delete hbound hw

/-! ### Growing -/

/-- No two entries have the same key. -/
def Distinct (entries : List (Entry K V)) : Prop :=
  entries.Pairwise fun a b => ∀ k, a.key = some k → b.key ≠ some k

/-- The number of entries that have a key. -/
def bound (entries : List (Entry K V)) : ℕ := entries.countP fun entry => entry.key.isSome

theorem bound_le_used (entries : List (Entry K V)) :
    bound entries ≤ used entries.length (slots entries) := by
  induction entries using List.reverseRecOn with
  | nil => simp [bound]
  | append_singleton entries entry ih =>
    have hsame : used entries.length (slots (entries ++ [entry]))
        = used entries.length (slots entries) := by
      refine used_congr fun i hi => ?_
      simp only [slots, List.getElem?_append_left hi]
    have hlast : slots (entries ++ [entry]) entries.length = slot entry := by
      simp [slots]
    rw [List.length_append, List.length_singleton]
    simp only [bound, List.countP_append, List.countP_singleton] at ih ⊢
    obtain ⟨okey, value⟩ := entry
    cases okey with
    | none =>
      have hle := used_le_succ entries.length (slots (entries ++ [⟨none, value⟩]))
      simp only [Option.isSome_none, Bool.false_eq_true, if_false, Nat.add_zero]
      omega
    | some key =>
      rw [used_succ_of_ne (by rw [hlast]; simp [slot]), hsame]
      simp only [Option.isSome_some, if_true]
      omega

/-- Entries are put one after the other into an array without tombstones. -/
theorem rehash_spec : ∀ {rest : List (Entry K V)} {t : HashTable K V}, WfEntries hash t.entries →
    (∀ i, slots t.entries i ≠ .deleted) → t.count = used t.capacity (slots t.entries) →
    t.count + bound rest < t.capacity → Distinct rest →
    (∀ entry ∈ rest, ∀ k v, entry.key = some k → ¬ Holds t.capacity (slots t.entries) k v) →
    ∃ t', rehash hash rest t = some t' ∧ t'.capacity = t.capacity ∧ WfEntries hash t'.entries ∧
      t'.count = used t'.capacity (slots t'.entries) ∧ t'.count = t.count + bound rest ∧
      ∀ k v, Holds t'.capacity (slots t'.entries) k v ↔
        Holds t.capacity (slots t.entries) k v ∨ ⟨some k, v⟩ ∈ rest := by
  intro rest
  induction rest with
  | nil =>
    intro t hwf _ hcount _ _ _
    exact ⟨t, rfl, rfl, hwf, hcount, rfl, by simp⟩
  | cons entry rest ih =>
    intro t hwf hdeleted hcount hroom hdistinct hnew
    obtain ⟨hfirst, hrest⟩ := List.pairwise_cons.1 hdistinct
    obtain ⟨okey, value⟩ := entry
    cases okey with
    | none =>
      obtain ⟨t', hrun, hcap, hwf', hcount', hbound, hholds⟩ := ih hwf hdeleted hcount
        (by simpa [bound] using hroom) hrest fun e he => hnew e (List.mem_cons_of_mem _ he)
      refine ⟨t', hrun, hcap, hwf', hcount', by simpa [bound] using hbound, fun k v => ?_⟩
      rw [hholds]
      simp
    | some key =>
      simp only [bound, List.countP_cons, Option.isSome_some, if_true] at hroom
      obtain ⟨e, -, hpower⟩ := hwf.power
      have hempty := exists_empty (n := t.capacity) (s := slots t.entries) (by omega)
      obtain ⟨r, hfind, hfinds⟩ := findEntry_spec hash hpower hempty key
      have hfree : ∀ k v, slots t.entries r ≠ .full k v := by
        obtain ⟨hbound, ⟨v, hv⟩ | hvacant⟩ := hfinds
        · exact absurd ⟨r, hbound, hv⟩ (hnew _ (List.mem_cons_self ..) key v rfl)
        · exact hvacant.free
      have hslot : slots t.entries r = .empty := by
        cases h : slots t.entries r with
        | empty => rfl
        | deleted => exact absurd h (hdeleted r)
        | full k v => exact absurd h (hfree k v)
      obtain ⟨hwf₁, hholds₁⟩ := hwf.set_full hfinds value
      set t₁ : HashTable K V := ⟨t.count + 1, t.entries.set r ⟨some key, value⟩⟩ with ht₁
      have hcap : t₁.capacity = t.capacity := List.length_set
      have hslots : slots t₁.entries = Function.update (slots t.entries) r (.full key value) :=
        slots_set hfinds.1 _
      have hdeleted₁ : ∀ i, slots t₁.entries i ≠ .deleted := by
        intro i
        rw [hslots]
        by_cases hir : i = r
        · simp [hir]
        · rw [Function.update_of_ne hir]
          exact hdeleted i
      have hcount₁ : t₁.count = used t₁.capacity (slots t₁.entries) := by
        have hr : r < t.capacity := hfinds.1
        rw [hcap, hslots, used_update_of_empty (by simp) hr hslot, ← hcount]
      have hroom₁ : t₁.count + bound rest < t₁.capacity := by
        rw [hcap]
        change t.count + 1 + List.countP (fun entry => entry.key.isSome) rest < t.capacity
        omega
      have hnew₁ : ∀ entry ∈ rest, ∀ k v, entry.key = some k →
          ¬ Holds t₁.capacity (slots t₁.entries) k v := by
        intro entry hentry k v hk hkv
        rw [hcap] at hkv
        rcases (hholds₁ k v).1 hkv with ⟨rfl, -⟩ | ⟨-, hkv⟩
        · exact hfirst entry hentry k rfl hk
        · exact hnew entry (List.mem_cons_of_mem _ hentry) k v hk hkv
      obtain ⟨t', hrun, hcap', hwf', hcount', hbound, hholds⟩ :=
        ih hwf₁ hdeleted₁ hcount₁ hroom₁ hrest hnew₁
      refine ⟨t', ?_, hcap'.trans hcap, hwf', hcount', ?_, fun k v => ?_⟩
      · simp only [rehash, hfind, Option.bind_eq_bind, Option.bind_some]
        exact hrun
      · rw [hbound]
        simp only [bound, List.countP_cons, Option.isSome_some, if_true, ht₁]
        omega
      · have hmem : (⟨some k, v⟩ : Entry K V) ∈ rest → k ≠ key := by
          rintro hm rfl
          exact hfirst _ hm k rfl rfl
        have hold : Holds t.capacity (slots t.entries) k v → k ≠ key := by
          rintro hm rfl
          exact hnew _ (List.mem_cons_self ..) k v rfl hm
        have hput : Holds t.capacity (slots t₁.entries) k v ↔
            (k = key ∧ v = value) ∨ (k ≠ key ∧ Holds t.capacity (slots t.entries) k v) :=
          hholds₁ k v
        rw [hholds, hcap, hput, List.mem_cons, Entry.mk.injEq, Option.some.injEq]
        tauto

theorem slots_replicate (n i : ℕ) :
    slots (List.replicate n (⟨none, TableValue.nil⟩ : Entry K V)) i = .empty := by
  unfold slots
  rcases Nat.lt_or_ge i n with h | h
  · simp [h, slot, TableValue.isNil_nil]
  · simp [h]

theorem mem_entries {k : K} {v : V} :
    ⟨some k, v⟩ ∈ entries ↔ Holds entries.length (slots entries) k v := by
  rw [List.mem_iff_getElem]
  constructor
  · rintro ⟨i, hi, hentry⟩
    exact ⟨i, hi, by rw [slots_of_lt hi, hentry]; rfl⟩
  · rintro ⟨i, hi, hslot⟩
    refine ⟨i, hi, ?_⟩
    rw [slots_of_lt hi] at hslot
    cases hentry : entries[i] with
    | mk okey value =>
      rw [hentry] at hslot
      unfold slot at hslot
      cases okey with
      | none =>
        simp only at hslot
        split at hslot <;> cases hslot
      | some key =>
        cases hslot
        rfl

theorem WfEntries.distinct (hwf : WfEntries hash entries) : Distinct entries := by
  rw [Distinct, List.pairwise_iff_getElem]
  intro i j hi hj hij k hik hjk
  have hslot : ∀ i (hi : i < entries.length), entries[i].key = some k →
      slots entries i = .full k entries[i].value := by
    intro i hi h
    rw [slots_of_lt hi, slot, h]
  have heq := hwf.chained.distinct i hi j hj k _ _ (hslot i hi hik) (hslot j hj hjk)
  omega

theorem Wf.distinct (hwf : Wf hash t) : Distinct t.entries := by
  rcases hwf.entries with h | h
  · rw [h]
    exact List.Pairwise.nil
  · exact h.distinct

/-- Entries are put into an empty array. -/
theorem rehash_fresh (hash : K → UInt32) {rest : List (Entry K V)} (hdistinct : Distinct rest)
    {e : ℕ} (he : 3 ≤ e) (hlt : bound rest < 2 ^ e) :
    ∃ t', rehash hash rest ⟨0, List.replicate (2 ^ e) ⟨none, TableValue.nil⟩⟩ = some t' ∧
      t'.capacity = 2 ^ e ∧ WfEntries hash t'.entries ∧
      t'.count = used t'.capacity (slots t'.entries) ∧ t'.count = bound rest ∧
      ∀ k v, Holds t'.capacity (slots t'.entries) k v ↔ ⟨some k, v⟩ ∈ rest := by
  set fresh : HashTable K V := ⟨0, List.replicate (2 ^ e) ⟨none, TableValue.nil⟩⟩ with hfresh
  have hempty : ∀ i, slots fresh.entries i = .empty := slots_replicate _
  have hcap : fresh.capacity = 2 ^ e := List.length_replicate
  have hnone : ∀ k v, ¬ Holds fresh.capacity (slots fresh.entries) k v := by
    rintro k v ⟨i, -, hi⟩
    rw [hempty] at hi
    cases hi
  have hfreshwf : WfEntries hash fresh.entries := by
    refine ⟨⟨e, he, hcap⟩, ?_, ?_⟩
    · intro i hi j hj k v w hiv
      rw [hempty] at hiv
      cases hiv
    · intro i hi k v hiv
      rw [hempty] at hiv
      cases hiv
  have hcount : fresh.count = used fresh.capacity (slots fresh.entries) :=
    (used_eq_zero hempty).symm
  obtain ⟨t', hrun, hcap', hwf', hcount', hbound, hholds⟩ := rehash_spec
    hfreshwf (fun i => by rw [hempty]; simp) hcount (by rw [hcap]; simpa [hfresh] using hlt)
    hdistinct fun entry _ k v _ => hnone k v
  refine ⟨t', hrun, hcap'.trans hcap, hwf', hcount', by simpa [hfresh] using hbound, ?_⟩
  intro k v
  rw [hholds]
  exact or_iff_right (hnone k v)

/-- Rehashing into a larger array changes no binding and leaves the tombstones behind. -/
theorem adjustCapacity_spec (hwf : Wf hash t) {e : ℕ} (he : 3 ≤ e) (hlt : bound t.entries < 2 ^ e) :
    ∃ t', adjustCapacity hash (2 ^ e) t = some t' ∧ t'.capacity = 2 ^ e ∧
      WfEntries hash t'.entries ∧ t'.count = used t'.capacity (slots t'.entries) ∧
      t'.count = bound t.entries ∧
      ∀ k v, Holds t'.capacity (slots t'.entries) k v ↔ Holds t.capacity (slots t.entries) k v := by
  obtain ⟨t', hrun, hcap, hwf', hcount, hbound, hholds⟩ := rehash_fresh hash hwf.distinct he hlt
  refine ⟨t', hrun, hcap, hwf', hcount, hbound, fun k v => ?_⟩
  rw [hholds, mem_entries]
  rfl

theorem growCapacity_power (h : t.entries = [] ∨ WfEntries hash t.entries) :
    ∃ e, 3 ≤ e ∧ growCapacity t.capacity = 2 ^ e := by
  rcases h with h | h
  · exact ⟨3, le_refl 3, by simp [capacity, h, growCapacity]⟩
  · obtain ⟨e, he, hpower⟩ := h.power
    refine ⟨e + 1, by omega, ?_⟩
    have hle : 2 ^ 3 ≤ 2 ^ e := Nat.pow_le_pow_right (by omega) he
    have hcap : t.capacity = 2 ^ e := hpower
    rw [growCapacity, if_neg (by omega), hcap, pow_succ]

/-- Before a key is set there is room for it. -/
theorem ensure_spec (hwf : Wf hash t) :
    ∃ t', ensure hash t = some t' ∧ WfEntries hash t'.entries ∧
      t'.count = used t'.capacity (slots t'.entries) ∧ 4 * (t'.count + 1) ≤ 3 * t'.capacity ∧
      ∀ k v, Holds t'.capacity (slots t'.entries) k v ↔ Holds t.capacity (slots t.entries) k v := by
  have hbound := bound_le_used t.entries
  have hcount := hwf.count
  have hload := hwf.load
  change bound t.entries ≤ used t.capacity (slots t.entries) at hbound
  by_cases hgrow : 4 * (t.count + 1) > 3 * t.capacity
  · obtain ⟨e, he, hcap⟩ := growCapacity_power hwf.entries
    have hgrown : growCapacity t.capacity = 8 ∧ t.capacity < 8 ∨
        growCapacity t.capacity = t.capacity * 2 ∧ 8 ≤ t.capacity := by
      unfold growCapacity
      split
      · exact .inl ⟨rfl, by omega⟩
      · exact .inr ⟨rfl, by omega⟩
    obtain ⟨t', hrun, hcap', hwf', hcount', hsame, hholds⟩ :=
      adjustCapacity_spec hwf he (by omega)
    refine ⟨t', ?_, hwf', hcount', by omega, hholds⟩
    rw [ensure, if_pos hgrow, hcap]
    exact hrun
  · refine ⟨t, if_neg hgrow, ?_, hcount, by omega, fun k v => Iff.rfl⟩
    rcases hwf.entries with h | h
    · simp [capacity, h] at hgrow
    · exact h

/-! ### The operations on finite maps -/

/-- A well-formed table that stands for a finite map. -/
structure Represents (hash : K → UInt32) (t : HashTable K V) (m : K → Option V) : Prop where
  wf : Wf hash t
  maps : ∀ k v, m k = some v ↔ Holds t.capacity (slots t.entries) k v

theorem represents_init : Represents hash (initTable : HashTable K V) fun _ => none := by
  refine ⟨⟨.inl rfl, ?_, le_refl 0⟩, ?_⟩
  · exact (used_eq_zero fun i => rfl).symm
  · intro k v
    constructor
    · intro h
      cases h
    · rintro ⟨i, hi, -⟩
      exact absurd hi (Nat.not_lt_zero i)

variable {m : K → Option V}

theorem slot_eq_full {entry : Entry K V} {k : K} {v : V} (h : slot entry = .full k v) :
    entry.key = some k ∧ entry.value = v := by
  unfold slot at h
  split at h
  · split at h <;> cases h
  · rename_i key hkey
    cases h
    exact ⟨hkey, rfl⟩

theorem slot_not_full {entry : Entry K V} (h : ∀ k v, slot entry ≠ .full k v) :
    entry.key = none := by
  cases hkey : entry.key with
  | none => rfl
  | some key => exact absurd (by simp [slot, hkey]) (h key entry.value)

/-- What a search finds is the binding of the key, or no binding. -/
theorem entry_cases (hwf : WfEntries hash t.entries)
    (hmaps : ∀ k v, m k = some v ↔ Holds t.capacity (slots t.entries) k v) {r : ℕ}
    {entry : Entry K V} (hfinds : Finds hash t.entries key r)
    (hslot : slots t.entries r = slot entry) :
    (entry.key = some key ∧ m key = some entry.value) ∨ (entry.key = none ∧ m key = none) := by
  obtain ⟨hbound, ⟨v, hfull⟩ | hvacant⟩ := hfinds
  · obtain ⟨hkey, hvalue⟩ := slot_eq_full (hslot.symm.trans hfull)
    exact .inl ⟨hkey, (hmaps key _).2 ⟨r, hbound, hfull.trans (by rw [hvalue])⟩⟩
  · refine .inr ⟨slot_not_full fun k v h => hvacant.free k v (hslot.trans h), ?_⟩
    cases hm : m key with
    | none => rfl
    | some v => exact absurd ((hmaps key v).1 hm) (hvacant.not_holds hwf.chained v)

/-- A search in an array that is not full ends. -/
theorem findEntry_total (hwf : WfEntries hash t.entries)
    (hroom : used t.capacity (slots t.entries) < t.capacity) (key : K) :
    ∃ r entry, findEntry hash t.entries key = some r ∧ t.entries[r]? = some entry ∧
      Finds hash t.entries key r ∧ slots t.entries r = slot entry := by
  obtain ⟨e, -, hpower⟩ := hwf.power
  obtain ⟨r, hfind, hfinds⟩ := findEntry_spec hash hpower (exists_empty hroom) key
  obtain ⟨entry, hentry⟩ : ∃ entry, t.entries[r]? = some entry :=
    ⟨_, List.getElem?_eq_getElem hfinds.1⟩
  refine ⟨r, entry, hfind, hentry, hfinds, ?_⟩
  simp only [slots, hentry]

/-- A table that has entries in use has an array. -/
theorem Wf.array (hwf : Wf hash t) (hcount : t.count ≠ 0) :
    WfEntries hash t.entries ∧ used t.capacity (slots t.entries) < t.capacity := by
  have hload := hwf.load
  have hused := hwf.count
  refine ⟨hwf.entries.resolve_left fun hnil => ?_, by omega⟩
  have hcap : t.capacity = 0 := by simp [capacity, hnil]
  omega

/-- A table without entries in use has no bindings. -/
theorem Represents.empty (h : Represents hash t m) (hcount : t.count = 0) (k : K) : m k = none := by
  cases hm : m k with
  | none => rfl
  | some v =>
    obtain ⟨i, hi, hfull⟩ := (h.maps k v).1 hm
    have hused := h.wf.count
    have hle := bound_le_used t.entries
    have hmem : (⟨some k, v⟩ : Entry K V) ∈ t.entries := mem_entries.2 ⟨i, hi, hfull⟩
    have hpos : 0 < bound t.entries := List.countP_pos_iff.2 ⟨_, hmem, rfl⟩
    change bound t.entries ≤ used t.capacity (slots t.entries) at hle
    omega

/-- `tableGet` returns the binding. -/
theorem tableGet_spec (h : Represents hash t m) (key : K) : tableGet hash key t = some (m key) := by
  unfold tableGet
  split
  · rename_i hcount
    rw [h.empty hcount]
  · rename_i hcount
    obtain ⟨hwf, hroom⟩ := h.wf.array hcount
    obtain ⟨r, entry, hfind, hentry, hfinds, hslot⟩ := findEntry_total hwf hroom key
    simp only [hfind, hentry, Option.bind_eq_bind, Option.bind_some, Option.pure_def]
    rcases entry_cases hwf h.maps hfinds hslot with ⟨hkey, hm⟩ | ⟨hkey, hm⟩
    · simp [hkey, hm]
    · simp [hkey, hm]

/-- `tableSet` binds the key, and says whether it was unbound. -/
theorem tableSet_spec (h : Represents hash t m) (key : K) (value : V) :
    ∃ t', tableSet hash key value t = some ((m key).isNone, t') ∧
      Represents hash t' (Function.update m key (some value)) := by
  obtain ⟨t₁, hensure, hwf, hcount, hload, hholds⟩ := ensure_spec h.wf
  have hmaps : ∀ k v, m k = some v ↔ Holds t₁.capacity (slots t₁.entries) k v := by
    intro k v
    rw [h.maps, hholds]
  obtain ⟨r, entry, hfind, hentry, hfinds, hslot⟩ := findEntry_total hwf (by omega) key
  obtain ⟨hwf', hholds'⟩ := hwf.set_full hfinds value
  have hslots : slots (t₁.entries.set r ⟨some key, value⟩)
      = Function.update (slots t₁.entries) r (.full key value) := slots_set hfinds.1 _
  set count := if entry.key.isNone && TableValue.isNil entry.value then t₁.count + 1 else t₁.count
    with hnew
  have hcap : (t₁.entries.set r ⟨some key, value⟩).length = t₁.capacity := List.length_set
  refine ⟨⟨count, t₁.entries.set r ⟨some key, value⟩⟩, ?_, ⟨.inr hwf', ?_, ?_⟩, ?_⟩
  · simp only [tableSet, hensure, hfind, hentry, Option.bind_eq_bind, Option.bind_some,
      Option.pure_def, ← hnew]
    rcases entry_cases hwf hmaps hfinds hslot with ⟨hkey, hm⟩ | ⟨hkey, hm⟩
    · rw [hkey, hm]
      rfl
    · rw [hkey, hm]
      rfl
  · change count = used (t₁.entries.set r ⟨some key, value⟩).length _
    rw [hcap, hslots]
    have hr : r < t₁.capacity := hfinds.1
    by_cases hempty : slots t₁.entries r = .empty
    · have hcond : (entry.key.isNone && TableValue.isNil entry.value) = true := by
        rw [hslot] at hempty
        unfold slot at hempty
        split at hempty
        · rename_i hkey
          split at hempty
          · rename_i hnil
            simp [hkey, hnil]
          · cases hempty
        · cases hempty
      rw [used_update_of_empty (by simp) hr hempty, ← hcount, hnew, if_pos hcond]
    · have hcond : ¬ (entry.key.isNone && TableValue.isNil entry.value) = true := by
        intro hcond
        simp only [Bool.and_eq_true, Option.isNone_iff_eq_none] at hcond
        refine hempty ?_
        rw [hslot, slot, hcond.1]
        simp [hcond.2]
      rw [used_update_of_ne (by simp) hempty, ← hcount, hnew, if_neg hcond]
  · change 4 * count ≤ 3 * (t₁.entries.set r ⟨some key, value⟩).length
    rw [hcap, hnew]
    split <;> omega
  · intro k v
    change _ ↔ Holds (t₁.entries.set r ⟨some key, value⟩).length _ k v
    rw [List.length_set, hholds']
    by_cases hk : k = key
    · subst hk
      simp [eq_comm]
    · rw [Function.update_of_ne hk, hmaps]
      simp [hk, capacity]

/-- `tableDelete` unbinds the key, and says whether it was bound. -/
theorem tableDelete_spec (h : Represents hash t m) (key : K) :
    ∃ t', tableDelete hash key t = some ((m key).isSome, t') ∧
      Represents hash t' (Function.update m key none) ∧ t'.capacity = t.capacity ∧
      ∀ i k v, slots t'.entries i = .full k v → slots t.entries i = .full k v := by
  unfold tableDelete
  split
  · rename_i hcount
    have hm := h.empty hcount
    refine ⟨t, by simp [hm key], ?_, rfl, fun _ _ _ hfull => hfull⟩
    rwa [Function.update_eq_self_iff.2 (hm key).symm]
  · rename_i hcount
    obtain ⟨hwf, hroom⟩ := h.wf.array hcount
    obtain ⟨r, entry, hfind, hentry, hfinds, hslot⟩ := findEntry_total hwf hroom key
    simp only [hfind, hentry, Option.bind_eq_bind, Option.bind_some, Option.pure_def]
    rcases entry_cases hwf h.maps hfinds hslot with ⟨hkey, hm⟩ | ⟨hkey, hm⟩
    · have hfull : slots t.entries r = .full key entry.value := by
        rw [hslot, slot, hkey]
      have hslots : slots (t.entries.set r ⟨none, TableValue.true_⟩)
          = Function.update (slots t.entries) r .deleted := by
        rw [slots_set hfinds.1]
        simp [slot, TableValue.isNil_true]
      have hcap : (t.entries.set r ⟨none, TableValue.true_⟩).length = t.capacity := List.length_set
      obtain ⟨hwf', hholds'⟩ := hwf.set_deleted hfinds.1 hfull
      refine ⟨⟨t.count, t.entries.set r ⟨none, TableValue.true_⟩⟩, by simp [hkey, hm],
        ⟨⟨.inr hwf', ?_, ?_⟩, ?_⟩, hcap, ?_⟩
      · change t.count = used (t.entries.set r ⟨none, TableValue.true_⟩).length _
        rw [hcap, hslots, used_update_of_ne (by simp) (by simp [hfull])]
        exact h.wf.count
      · change 4 * t.count ≤ 3 * (t.entries.set r ⟨none, TableValue.true_⟩).length
        rw [hcap]
        exact h.wf.load
      · intro k v
        change _ ↔ Holds (t.entries.set r ⟨none, TableValue.true_⟩).length _ k v
        rw [List.length_set, hholds']
        by_cases hk : k = key
        · subst hk
          simp
        · rw [Function.update_of_ne hk, h.maps]
          simp [hk, capacity]
      · intro i k v hi
        simp only [hslots] at hi
        by_cases hir : i = r
        · rw [hir, Function.update_self] at hi
          cases hi
        · rwa [Function.update_of_ne hir] at hi
    · refine ⟨t, by simp [hkey, hm], ?_, rfl, fun _ _ _ hfull => hfull⟩
      rwa [Function.update_eq_self_iff.2 hm.symm]

/-- Entries are added one after the other. -/
theorem addEntries_spec : ∀ {entries : List (Entry K V)} {t : HashTable K V} {m : K → Option V},
    Distinct entries → Represents hash t m →
    ∃ t' m', addEntries hash entries t = some t' ∧ Represents hash t' m' ∧
      (∀ k v, ⟨some k, v⟩ ∈ entries → m' k = some v) ∧
      ∀ k, (∀ v, ⟨some k, v⟩ ∉ entries) → m' k = m k := by
  intro entries
  induction entries with
  | nil =>
    intro t m _ h
    exact ⟨t, m, rfl, h, by simp, fun k _ => rfl⟩
  | cons entry entries ih =>
    intro t m hdistinct h
    obtain ⟨hfirst, hrest⟩ := List.pairwise_cons.1 hdistinct
    obtain ⟨okey, value⟩ := entry
    cases okey with
    | none =>
      obtain ⟨t', m', hrun, h', hin, hout⟩ := ih hrest h
      refine ⟨t', m', hrun, h', ?_, ?_⟩
      · intro k v hmem
        exact hin k v (by simpa using hmem)
      · intro k hmem
        exact hout k fun v hv => hmem v (List.mem_cons_of_mem _ hv)
    | some key =>
      obtain ⟨t₁, hset, h₁⟩ := tableSet_spec h key value
      obtain ⟨t', m', hrun, h', hin, hout⟩ := ih hrest h₁
      refine ⟨t', m', ?_, h', ?_, ?_⟩
      · simp only [addEntries, hset, Option.bind_eq_bind, Option.bind_some]
        exact hrun
      · intro k v hmem
        rcases List.mem_cons.1 hmem with heq | hmem
        · cases heq
          rw [hout key fun w hw => hfirst _ hw key rfl rfl, Function.update_self]
        · exact hin k v hmem
      · intro k hmem
        rw [hout k fun v hv => hmem v (List.mem_cons_of_mem _ hv), Function.update_of_ne]
        rintro rfl
        exact hmem value (List.mem_cons_self ..)

/-- `tableAddAll` is the union in which the bindings of the source win. -/
theorem tableAddAll_spec {source : HashTable K V} {f : K → Option V}
    (hsource : Represents hash source f) (h : Represents hash t m) :
    ∃ t', tableAddAll hash source t = some t' ∧
      Represents hash t' fun k => (f k).orElse fun _ => m k := by
  obtain ⟨t', m', hrun, h', hin, hout⟩ := addEntries_spec hsource.wf.distinct h
  have hm : m' = fun k => (f k).orElse fun _ => m k := by
    funext k
    cases hf : f k with
    | some v => exact hin k v (mem_entries.2 ((hsource.maps k v).1 hf))
    | none =>
      refine hout k fun v hv => ?_
      have hbound := (hsource.maps k v).2 (mem_entries.1 hv)
      rw [hf] at hbound
      cases hbound
  exact ⟨t', hrun, hm ▸ h'⟩

/-- The loop of `tableRemoveWhite`: before the index, every key is marked. -/
theorem removeFrom_spec (isMarked : K → Bool) (n : ℕ) :
    ∀ {index : ℕ} {t : HashTable K V} {m : K → Option V}, Represents hash t m →
      t.capacity = index + n → (∀ i < index, ∀ k v, slots t.entries i = .full k v →
        isMarked k = true) →
      ∃ t', removeFrom hash isMarked n index t = some t' ∧
        Represents hash t' fun k => if isMarked k then m k else none := by
  induction n with
  | zero =>
    intro index t m h hcap hmarked
    refine ⟨t, rfl, ?_⟩
    have hm : (fun k => if isMarked k then m k else none) = m := by
      funext k
      split
      · rfl
      · rename_i hk
        cases hv : m k with
        | none => rfl
        | some v =>
          obtain ⟨i, hi, hfull⟩ := (h.maps k v).1 hv
          exact absurd (hmarked i (by omega) k v hfull) hk
    rwa [hm]
  | succ n ih =>
    intro index t m h hcap hmarked
    have hindex : index < t.entries.length := by
      change index < t.capacity
      omega
    obtain ⟨entry, hentry⟩ : ∃ entry, t.entries[index]? = some entry :=
      ⟨_, List.getElem?_eq_getElem hindex⟩
    have hslot : slots t.entries index = slot entry := by simp only [slots, hentry]
    -- What is left to do when the key of this entry stays.
    have hstay : (∀ k v, slot entry = .full k v → isMarked k = true) →
        ∃ t', removeFrom hash isMarked n (index + 1) t = some t' ∧
          Represents hash t' fun k => if isMarked k then m k else none := by
      intro hk
      refine ih h (by omega) fun i hi k v hfull => ?_
      rcases Nat.lt_or_eq_of_le (Nat.le_of_lt_succ hi) with hlt | rfl
      · exact hmarked i hlt k v hfull
      · exact hk k v (hslot.symm.trans hfull)
    simp only [removeFrom, hentry, Option.bind_eq_bind, Option.bind_some]
    cases hkey : entry.key with
    | none =>
      refine hstay fun k v hfull => ?_
      rw [(slot_eq_full hfull).1] at hkey
      cases hkey
    | some key =>
      simp only
      by_cases hmark : isMarked key = true
      · rw [if_pos hmark]
        refine hstay fun k v hfull => ?_
        rw [(slot_eq_full hfull).1] at hkey
        cases hkey
        exact hmark
      · rw [if_neg hmark]
        obtain ⟨t₁, hdelete, h₁, hcap₁, hsub⟩ := tableDelete_spec h key
        have hmarked₁ : ∀ i < index + 1, ∀ k v, slots t₁.entries i = .full k v →
            isMarked k = true := by
          intro i hi k v hfull
          have hold := hsub i k v hfull
          rcases Nat.lt_or_eq_of_le (Nat.le_of_lt_succ hi) with hlt | rfl
          · exact hmarked i hlt k v hold
          · have hk := (slot_eq_full (hslot.symm.trans hold)).1
            rw [hkey] at hk
            cases hk
            have hgone := (h₁.maps key v).2 ⟨i, by omega, hfull⟩
            rw [Function.update_self] at hgone
            cases hgone
        obtain ⟨t', hrun, h'⟩ := ih h₁ (by omega) hmarked₁
        refine ⟨t', ?_, ?_⟩
        · simp only [hdelete, Option.bind_some]
          exact hrun
        · have hm : (fun k => if isMarked k then Function.update m key none k else none)
              = fun k => if isMarked k then m k else none := by
            funext k
            by_cases hk : k = key
            · simp [hk, hmark]
            · rw [Function.update_of_ne hk]
          rwa [← hm]

/-- `tableRemoveWhite` unbinds the keys that are not marked. -/
theorem tableRemoveWhite_spec (h : Represents hash t m) (isMarked : K → Bool) :
    ∃ t', tableRemoveWhite hash isMarked t = some t' ∧
      Represents hash t' fun k => if isMarked k then m k else none :=
  removeFrom_spec isMarked t.capacity h (Nat.zero_add _).symm fun i hi => by omega

theorem tableDelete_capacity {t' : HashTable K V} {b : Bool}
    (h : tableDelete hash key t = some (b, t')) : t'.capacity = t.capacity := by
  unfold tableDelete at h
  split at h
  · obtain ⟨-, rfl⟩ := Prod.mk.inj (Option.some.inj h)
    rfl
  · simp only [Option.bind_eq_bind, Option.bind_eq_some_iff] at h
    obtain ⟨index, -, entry, -, h⟩ := h
    split at h
    · obtain ⟨-, rfl⟩ := Prod.mk.inj (Option.some.inj h)
      rfl
    · obtain ⟨-, rfl⟩ := Prod.mk.inj (Option.some.inj h)
      simp [capacity]

theorem removeFrom_capacity {isMarked : K → Bool} (n : ℕ) : ∀ {index : ℕ} {t t' : HashTable K V},
    removeFrom hash isMarked n index t = some t' → t'.capacity = t.capacity := by
  induction n with
  | zero =>
    intro index t t' h
    obtain rfl := Option.some.inj h
    rfl
  | succ n ih =>
    intro index t t' h
    simp only [removeFrom, Option.bind_eq_bind, Option.bind_eq_some_iff] at h
    obtain ⟨entry, -, h⟩ := h
    split at h
    · exact ih h
    · split at h
      · exact ih h
      · simp only [Option.bind_eq_some_iff, Prod.exists] at h
        obtain ⟨b, t₁, hdelete, h⟩ := h
        exact (ih h).trans (tableDelete_capacity hdelete)

omit [DecidableEq K] in
/-- A well-formed table stands for some map. -/
theorem Wf.exists_represents (hwf : Wf hash t) : ∃ m, Represents hash t m := by
  classical
  refine ⟨fun k => if h : ∃ v, Holds t.capacity (slots t.entries) k v then some h.choose else none,
    hwf, fun k v => ?_⟩
  rcases hwf.entries with hnil | hentries
  · have hnone : ¬ ∃ v, Holds t.capacity (slots t.entries) k v := by
      rintro ⟨v, i, hi, -⟩
      simp [capacity, hnil] at hi
    rw [dif_neg hnone]
    exact ⟨fun h => (Option.some_ne_none v h.symm).elim, fun h => (hnone ⟨v, h⟩).elim⟩
  · constructor
    · intro h
      split at h
      · rename_i hex
        exact Option.some.inj h ▸ hex.choose_spec
      · cases h
    · intro h
      have hex : ∃ v, Holds t.capacity (slots t.entries) k v := ⟨v, h⟩
      rw [dif_pos hex]
      exact congrArg some (hentries.chained.holds_unique hex.choose_spec h)

omit [DecidableEq K] in
/-- Only the hashes of the keys that are bound matter. -/
theorem Represents.congr {hash' : K → UInt32} (h : Represents hash t m)
    (hsame : ∀ k v, m k = some v → hash' k = hash k) : Represents hash' t m := by
  refine ⟨⟨h.wf.entries.imp id fun hwf => ⟨hwf.power, hwf.chained.distinct, ?_⟩, h.wf.count,
    h.wf.load⟩, h.maps⟩
  intro i hi k v hfull
  have hhash : hash' k = hash k := hsame k v ((h.maps k v).2 ⟨i, hi, hfull⟩)
  have hhome : home hash' t.entries.length k = home hash t.entries.length k := by
    simp only [home, hhash]
  obtain ⟨d, hprobe, hbefore⟩ := hwf.chained.leads i hi k v hfull
  refine ⟨d, ?_, ?_⟩
  · rw [hhome]
    exact hprobe
  · rw [hhome]
    exact hbefore

/-- Growing changes no binding. -/
theorem ensure_represents (h : Represents hash t m) :
    ∃ t', ensure hash t = some t' ∧ Represents hash t' m := by
  obtain ⟨t', hrun, hwf, hcount, hload, hholds⟩ := ensure_spec h.wf
  refine ⟨t', hrun, ⟨.inr hwf, hcount, by omega⟩, fun k v => ?_⟩
  rw [h.maps, hholds]

end HashTable

/-! ### Sequences of operations -/

section Sequences

open HashTable

variable {ι K V : Type} [DecidableEq ι] [DecidableEq K] [TableValue V]

/-- An operation on one of several tables. -/
inductive TableOp (ι K V : Type) where
  | set (i : ι) (key : K) (value : V)
  | delete (i : ι) (key : K)
  | addAll (source target : ι) (different : source ≠ target)
  | removeWhite (i : ι) (isMarked : K → Bool)

/-- What an operation of `table.c` returns, if anything, and the tables after it. -/
def TableOp.run (hash : K → UInt32) (tables : ι → HashTable K V) :
    TableOp ι K V → Option (Option Bool × (ι → HashTable K V))
  | .set i key value => do
      let (isNewKey, t) ← tableSet hash key value (tables i)
      return (some isNewKey, Function.update tables i t)
  | .delete i key => do
      let (found, t) ← tableDelete hash key (tables i)
      return (some found, Function.update tables i t)
  | .addAll source target _ => do
      let t ← tableAddAll hash (tables source) (tables target)
      return (none, Function.update tables target t)
  | .removeWhite i isMarked => do
      let t ← tableRemoveWhite hash isMarked (tables i)
      return (none, Function.update tables i t)

/-- The same on finite maps. -/
def TableOp.apply (maps : ι → K → Option V) : TableOp ι K V → Option Bool × (ι → K → Option V)
  | .set i key value =>
      (some (maps i key).isNone, Function.update maps i (Function.update (maps i) key (some value)))
  | .delete i key =>
      (some (maps i key).isSome, Function.update maps i (Function.update (maps i) key none))
  | .addAll source target _ =>
      (none, Function.update maps target fun k => (maps source k).orElse fun _ => maps target k)
  | .removeWhite i isMarked =>
      (none, Function.update maps i fun k => if isMarked k then maps i k else none)

/-- A sequence of operations of `table.c`: what they return, and the tables after them. -/
def runOps (hash : K → UInt32) :
    List (TableOp ι K V) → (ι → HashTable K V) → Option (List (Option Bool) × (ι → HashTable K V))
  | [], tables => some ([], tables)
  | op :: ops, tables => do
      let (result, tables) ← op.run hash tables
      let (results, tables) ← runOps hash ops tables
      return (result :: results, tables)

/-- The same on finite maps. -/
def applyOps : List (TableOp ι K V) → (ι → K → Option V) → List (Option Bool) × (ι → K → Option V)
  | [], maps => ([], maps)
  | op :: ops, maps =>
      let (result, maps) := op.apply maps
      let (results, maps) := applyOps ops maps
      (result :: results, maps)

variable {hash : K → UInt32} {tables : ι → HashTable K V} {maps : ι → K → Option V}

theorem represents_update (h : ∀ i, Represents hash (tables i) (maps i)) {i : ι} {t : HashTable K V}
    {m : K → Option V} (ht : Represents hash t m) (j : ι) :
    Represents hash (Function.update tables i t j) (Function.update maps i m j) := by
  by_cases hij : j = i
  · subst hij
    rw [Function.update_self, Function.update_self]
    exact ht
  · rw [Function.update_of_ne hij, Function.update_of_ne hij]
    exact h j

/-- One operation. -/
theorem TableOp.run_spec (op : TableOp ι K V) (h : ∀ i, Represents hash (tables i) (maps i)) :
    ∃ tables', op.run hash tables = some ((op.apply maps).1, tables') ∧
      ∀ i, Represents hash (tables' i) ((op.apply maps).2 i) := by
  cases op with
  | set i key value =>
    obtain ⟨t, hrun, ht⟩ := tableSet_spec (h i) key value
    exact ⟨Function.update tables i t, by simp [TableOp.run, TableOp.apply, hrun],
      represents_update h ht⟩
  | delete i key =>
    obtain ⟨t, hrun, ht, -⟩ := tableDelete_spec (h i) key
    exact ⟨Function.update tables i t, by simp [TableOp.run, TableOp.apply, hrun],
      represents_update h ht⟩
  | addAll source target different =>
    obtain ⟨t, hrun, ht⟩ := tableAddAll_spec (h source) (h target)
    exact ⟨Function.update tables target t, by simp [TableOp.run, TableOp.apply, hrun],
      represents_update h ht⟩
  | removeWhite i isMarked =>
    obtain ⟨t, hrun, ht⟩ := tableRemoveWhite_spec (h i) isMarked
    exact ⟨Function.update tables i t, by simp [TableOp.run, TableOp.apply, hrun],
      represents_update h ht⟩

/-- Any number of operations. -/
theorem runOps_spec : ∀ (ops : List (TableOp ι K V)) {tables : ι → HashTable K V}
    {maps : ι → K → Option V}, (∀ i, Represents hash (tables i) (maps i)) →
    ∃ tables', runOps hash ops tables = some ((applyOps ops maps).1, tables') ∧
      ∀ i, Represents hash (tables' i) ((applyOps ops maps).2 i) := by
  intro ops
  induction ops with
  | nil =>
    intro tables maps h
    exact ⟨tables, rfl, h⟩
  | cons op ops ih =>
    intro tables maps h
    obtain ⟨tables₁, hrun₁, h₁⟩ := op.run_spec h
    obtain ⟨tables₂, hrun₂, h₂⟩ := ih h₁
    exact ⟨tables₂, by simp [runOps, applyOps, hrun₁, hrun₂], h₂⟩

/-- Hash tables are finite maps: whatever the hashes are, any sequence of operations on new tables
returns what it returns on finite maps, afterwards `tableGet` gives the bindings of these maps, and
the resizing in `tableSet` would change none of them. -/
theorem tables_are_maps (hash : K → UInt32) (ops : List (TableOp ι K V)) :
    ∃ tables, runOps hash ops (fun _ => initTable)
        = some ((applyOps ops fun _ _ => none).1, tables) ∧
      ∀ i, (∀ k, tableGet hash k (tables i) = some ((applyOps ops fun _ _ => none).2 i k)) ∧
        ∃ t, ensure hash (tables i) = some t ∧
          ∀ k, tableGet hash k t = tableGet hash k (tables i) := by
  have hinit : ∀ i : ι, Represents hash ((fun _ => initTable : ι → HashTable K V) i)
      ((fun _ _ => none : ι → K → Option V) i) := fun i => represents_init
  obtain ⟨tables, hrun, h⟩ := runOps_spec ops hinit
  refine ⟨tables, hrun, fun i => ⟨tableGet_spec (h i), ?_⟩⟩
  obtain ⟨t, ht, hmaps⟩ := ensure_represents (h i)
  refine ⟨t, ht, fun k => ?_⟩
  rw [tableGet_spec hmaps, tableGet_spec (h i)]

end Sequences

end Lox.Clox
