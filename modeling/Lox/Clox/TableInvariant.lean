import Lox.Clox.HashTable

/-!
# The array of a hash table

What holds of the array after any operations, in terms of its entries, and what follows from it: the
loops of `findEntry` and `tableFindString`, which have no bound of their own, come to an end.  The
same is true of the array that `adjustCapacity` is about to fill, whatever part of it is filled.
-/

namespace Lox.Clox

open Probing

variable {K V : Type} [TableValue V]

/-- An entry that ends a search. -/
def Entry.isEmpty (entry : Entry K V) : Bool :=
  entry.key.isNone && TableValue.isNil entry.value

namespace HashTable

variable [DecidableEq K]

/-! ### Finding a string -/

/-- The loop of `tableFindString`; `found` is the comparison of a key with the string. -/
def findStringLoop (entries : List (Entry K V)) (found : K → Bool) : ℕ → ℕ → Option (Option K)
  | 0, _ => none
  | fuel + 1, index => do
    let entry ← entries[index]?
    let next := (index + 1) &&& (entries.length - 1)
    match entry.key with
    | none =>
      if TableValue.isNil entry.value then some none else findStringLoop entries found fuel next
    | some key => if found key then some (some key) else findStringLoop entries found fuel next

/-- `tableFindString`; `chars` and `hash` are the fields of the keys. -/
def tableFindString (hash : K → UInt32) (chars : K → Name) (text : Name) (textHash : UInt32)
    (t : HashTable K V) : Option (Option K) :=
  if t.count = 0 then some none
  else findStringLoop t.entries
    (fun key => (chars key).length = text.length && hash key = textHash && chars key = text)
    t.entries.length (textHash.toNat &&& (t.capacity - 1))

/-! ### The entries -/

/-- The number of entries that had a key once. -/
def tombstones (entries : List (Entry K V)) : ℕ :=
  entries.countP fun entry => entry.key.isNone && !TableValue.isNil entry.value

/-- The representation invariant. -/
structure Invariant (hash : K → UInt32) (t : HashTable K V) : Prop where
  power : t.capacity = 0 ∨ ∃ e, 3 ≤ e ∧ t.capacity = 2 ^ e
  count : t.count = bound t.entries + tombstones t.entries
  load : 4 * t.count ≤ 3 * t.capacity
  empty : 0 < t.capacity → ∃ entry ∈ t.entries, entry.isEmpty
  distinct : Distinct t.entries
  leads : ∀ i key value, t.entries[i]? = some ⟨some key, value⟩ →
    ∃ d, probe t.capacity (home hash t.capacity key) d = i ∧
      ∀ e < d, ∀ entry, t.entries[probe t.capacity (home hash t.capacity key) e]? = some entry →
        ¬ entry.isEmpty

/-- Every search in the array ends. -/
def Searchable (hash : K → UInt32) (entries : List (Entry K V)) : Prop :=
  (∀ key, (findEntry hash entries key).isSome) ∧
  ∀ (found : K → Bool) (textHash : UInt32),
    (findStringLoop entries found entries.length (textHash.toNat &&& (entries.length - 1))).isSome

variable {hash : K → UInt32} {entries : List (Entry K V)} {t : HashTable K V}

theorem isEmpty_iff_slot {entry : Entry K V} : entry.isEmpty ↔ slot entry = .empty := by
  unfold Entry.isEmpty slot
  cases entry.key with
  | none => by_cases h : TableValue.isNil entry.value <;> simp [h]
  | some key => simp

theorem used_eq_bound_add_tombstones (entries : List (Entry K V)) :
    used entries.length (slots entries) = bound entries + tombstones entries := by
  induction entries using List.reverseRecOn with
  | nil => simp [bound, tombstones, used]
  | append_singleton entries entry ih =>
    have hsame : used entries.length (slots (entries ++ [entry]))
        = used entries.length (slots entries) := by
      refine used_congr fun i hi => ?_
      simp only [slots, List.getElem?_append_left hi]
    have hlast : slots (entries ++ [entry]) entries.length = slot entry := by
      simp [slots]
    rw [List.length_append, List.length_singleton]
    simp only [bound, tombstones, List.countP_append, List.countP_singleton] at ih ⊢
    by_cases hempty : slot entry = .empty
    · obtain ⟨hkey, hvalue⟩ : entry.key.isNone ∧ TableValue.isNil entry.value := by
        simpa [Entry.isEmpty] using isEmpty_iff_slot.2 hempty
      rw [used_succ_of_empty (hlast.trans hempty), hsame, ih]
      simp [Option.isNone_iff_eq_none.1 hkey, hvalue]
    · rw [used_succ_of_ne (by rwa [hlast]), hsame, ih]
      cases hkey : entry.key with
      | some key => simp; omega
      | none =>
        have hvalue : TableValue.isNil entry.value = false := by
          by_contra hnil
          exact hempty (by simp [slot, hkey, hnil])
        simp [hvalue]
        omega

/-! ### Searching -/

/-- The search for a string, from the place `d` of the probe sequence on. -/
theorem findStringLoop_some {e : ℕ} (hpower : entries.length = 2 ^ e) (found : K → Bool)
    {start stop : ℕ} (hstop : slots entries (probe entries.length start stop) = .empty)
    (fuel : ℕ) : ∀ {d : ℕ}, d ≤ stop → stop < d + fuel →
      (findStringLoop entries found fuel (probe entries.length start d)).isSome := by
  have hpos : 0 < entries.length := by
    rw [hpower]
    exact Nat.two_pow_pos e
  induction fuel with
  | zero =>
    intro d hle hlt
    omega
  | succ fuel ih =>
    intro d hle hlt
    have hbound := probe_lt hpos start d
    have hnext : (probe entries.length start d + 1) &&& (entries.length - 1)
        = probe entries.length start (d + 1) := by
      rw [and_pred hpower, probe_succ]
    simp only [findStringLoop, List.getElem?_eq_getElem hbound, Option.bind_eq_bind,
      Option.bind_some, hnext]
    rcases Nat.lt_or_eq_of_le hle with hd | rfl
    · have hrest := ih (d := d + 1) (by omega) (by omega)
      split
      · split
        · rfl
        · exact hrest
      · split
        · rfl
        · exact hrest
    · rw [slots_of_lt hbound] at hstop
      obtain ⟨hkey, hvalue⟩ : entries[probe entries.length start d].key.isNone ∧
          TableValue.isNil entries[probe entries.length start d].value := by
        simpa [Entry.isEmpty] using isEmpty_iff_slot.2 hstop
      rw [Option.isNone_iff_eq_none.1 hkey]
      simp [hvalue]

/-- In an array that is not full every search ends. -/
theorem WfEntries.searchable (hwf : WfEntries hash entries)
    (hroom : used entries.length (slots entries) < entries.length) : Searchable hash entries := by
  obtain ⟨e, -, hpower⟩ := hwf.power
  have hempty := exists_empty hroom
  refine ⟨fun key => ?_, fun found textHash => ?_⟩
  · obtain ⟨r, hfind, -⟩ := findEntry_spec hash hpower hempty key
    rw [hfind]
    rfl
  · obtain ⟨i, hi, hslot⟩ := hempty
    obtain ⟨stop, hlt, rfl⟩ := exists_probe hi (textHash.toNat &&& (entries.length - 1))
    have hloop := findStringLoop_some hpower found hslot entries.length (Nat.zero_le _) (by omega)
    rwa [probe, Nat.add_zero, and_pred hpower, Nat.mod_mod, ← and_pred hpower] at hloop

theorem Wf.invariant (hwf : Wf hash t) : Invariant hash t where
  power := by
    rcases hwf.entries with h | h
    · exact .inl (by simp [capacity, h])
    · exact .inr h.power
  count := by
    rw [hwf.count]
    exact used_eq_bound_add_tombstones t.entries
  load := hwf.load
  empty hpos := by
    have hload := hwf.load
    have hcount := hwf.count
    obtain ⟨i, hi, hslot⟩ := exists_empty (n := t.capacity) (s := slots t.entries) (by omega)
    rw [slots_of_lt hi] at hslot
    exact ⟨_, List.getElem_mem hi, isEmpty_iff_slot.2 hslot⟩
  distinct := hwf.distinct
  leads i key value hentry := by
    obtain ⟨hi, hget⟩ := List.getElem?_eq_some_iff.1 hentry
    have hwf' : WfEntries hash t.entries := hwf.entries.resolve_left fun hnil => by
      simp [hnil] at hi
    have hslot : slots t.entries i = .full key value := by
      rw [slots_of_lt hi, hget]
      rfl
    obtain ⟨d, hd, hbefore⟩ := hwf'.chained.leads i hi key value hslot
    refine ⟨d, hd, fun e he entry hentry hempty => hbefore e he ?_⟩
    have hsome : t.entries[probe t.entries.length (home hash t.entries.length key) e]? =
        some entry := hentry
    simp only [slots, hsome]
    exact isEmpty_iff_slot.1 hempty

theorem Wf.searchable (hwf : Wf hash t) (hpos : 0 < t.capacity) : Searchable hash t.entries := by
  have hload := hwf.load
  have hcount := hwf.count
  refine WfEntries.searchable (hwf.entries.resolve_left fun hnil => ?_) ?_
  · simp [capacity, hnil] at hpos
  · change used t.capacity (slots t.entries) < t.capacity
    omega

theorem Wf.tableFindString_isSome (hwf : Wf hash t) (chars : K → Name) (text : Name)
    (textHash : UInt32) : (tableFindString hash chars text textHash t).isSome := by
  unfold tableFindString
  split
  · rfl
  · rename_i hcount
    obtain ⟨hentries, hroom⟩ := hwf.array hcount
    exact (hentries.searchable hroom).2 _ textHash

/-- The array in `adjustCapacity`, after some of the old entries were put into it. -/
theorem Wf.rehash_searchable (hwf : Wf hash t) {filled rest : List (Entry K V)}
    (hsplit : t.entries = filled ++ rest) :
    ∃ t', rehash hash filled
        ⟨0, List.replicate (growCapacity t.capacity) ⟨none, TableValue.nil⟩⟩ = some t' ∧
      Searchable hash t'.entries := by
  have hdistinct : Distinct filled := by
    have h := hwf.distinct
    rw [hsplit] at h
    exact (List.pairwise_append.1 h).1
  have hbound : bound filled ≤ bound t.entries := by
    rw [hsplit]
    simp [bound]
  have hcount : bound t.entries ≤ t.count := by
    rw [hwf.count]
    exact bound_le_used t.entries
  have hload := hwf.load
  have hgrown : t.capacity < growCapacity t.capacity := by
    unfold growCapacity
    split <;> omega
  obtain ⟨e, he, hpower⟩ := growCapacity_power hwf.entries
  obtain ⟨t', hrun, hcap, hwf', hused, hsame, -⟩ :=
    rehash_fresh hash hdistinct he (by omega)
  refine ⟨t', by rw [hpower]; exact hrun, hwf'.searchable ?_⟩
  change used t'.capacity (slots t'.entries) < t'.capacity
  omega

/-- Whatever was done to new tables, and whatever the hashes of the keys are: every operation came
to an end and every table has the representation invariant, so that the searches for any key and any
string end in its array, and also in the array that a resizing has filled with a part of it. -/
theorem tables_searchable {ι : Type} [DecidableEq ι] (hash : K → UInt32)
    (ops : List (TableOp ι K V)) :
    ∃ results tables, runOps hash ops (fun _ => initTable) = some (results, tables) ∧
      ∀ i, Invariant hash (tables i) ∧
        (∀ key, (tableGet hash key (tables i)).isSome) ∧
        (∀ chars text textHash, (tableFindString hash chars text textHash (tables i)).isSome) ∧
        (0 < (tables i).capacity → Searchable hash (tables i).entries) ∧
        ∀ filled rest, (tables i).entries = filled ++ rest →
          ∃ t, rehash hash filled ⟨0, List.replicate (growCapacity (tables i).capacity)
              ⟨none, TableValue.nil⟩⟩ = some t ∧ Searchable hash t.entries := by
  have hinit : ∀ i : ι, Represents hash ((fun _ => initTable : ι → HashTable K V) i)
      ((fun _ _ => none : ι → K → Option V) i) := fun i => represents_init
  obtain ⟨tables, hrun, h⟩ := runOps_spec ops hinit
  refine ⟨_, tables, hrun, fun i => ⟨(h i).wf.invariant, fun key => ?_,
    (h i).wf.tableFindString_isSome, (h i).wf.searchable, fun filled rest =>
      (h i).wf.rehash_searchable⟩⟩
  rw [tableGet_spec (h i)]
  rfl

end HashTable

end Lox.Clox
