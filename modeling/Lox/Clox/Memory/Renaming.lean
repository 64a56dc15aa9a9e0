import Lox.Clox.Memory.Tables

/-!
# Tables under a renaming of the keys

The operations of `table.c` look at a key only through its hash and compare it only with other keys.
So they commute with any renaming of keys that is injective on the keys at hand and keeps their hashes;
the array has the same shape then, entry by entry.
-/

namespace Lox.Clox

variable {K V : Type}

/-- The entry with another key and another value. -/
def Entry.rename (f : K → K) (g : V → V) (entry : Entry K V) : Entry K V :=
  ⟨entry.key.map f, g entry.value⟩

namespace HashTable

/-- The table with other keys and values. -/
def rename (f : K → K) (g : V → V) (t : HashTable K V) : HashTable K V :=
  ⟨t.count, t.entries.map (Entry.rename f g)⟩

variable {f : K → K} {g : V → V}

@[simp] theorem capacity_rename (t : HashTable K V) : (t.rename f g).capacity = t.capacity :=
  List.length_map _

variable [DecidableEq K] [TableValue V] {hash hash' : K → UInt32} {keys : K → Prop}

/-- A renaming that the operations cannot tell from the identity, as far as the given keys go. -/
structure Renames (f : K → K) (g : V → V) (hash hash' : K → UInt32) (keys : K → Prop) : Prop where
  injective : ∀ k k', keys k → keys k' → f k = f k' → k = k'
  hash : ∀ k, keys k → hash' (f k) = hash k
  isNil : ∀ v, TableValue.isNil (g v) = TableValue.isNil v
  nil : g TableValue.nil = TableValue.nil
  true_ : g TableValue.true_ = TableValue.true_

/-- The keys of the entries are among the given ones. -/
def KeysIn (keys : K → Prop) (entries : List (Entry K V)) : Prop :=
  ∀ k v, ⟨some k, v⟩ ∈ entries → keys k

variable {entries : List (Entry K V)} {key : K} {value : V} {t : HashTable K V}

theorem findLoop_rename (h : Renames f g hash hash' keys) (hkeys : KeysIn keys entries)
    (hkey : keys key) (fuel : ℕ) : ∀ (index : ℕ) (tombstone : Option ℕ),
    findLoop (entries.map (Entry.rename f g)) (f key) fuel index tombstone
      = findLoop entries key fuel index tombstone := by
  induction fuel with
  | zero =>
    intro index tombstone
    rfl
  | succ fuel ih =>
    intro index tombstone
    simp only [findLoop, List.getElem?_map, List.length_map]
    cases hentry : entries[index]? with
    | none => rfl
    | some entry =>
      obtain ⟨okey, v⟩ := entry
      cases okey with
      | none => simp only [Option.map_some, Entry.rename, Option.map_none, h.isNil, ih,
          Option.bind_eq_bind, Option.bind_some]
      | some k =>
        have hk : keys k := hkeys k v (List.mem_of_getElem? hentry)
        have hiff : f k = f key ↔ k = key :=
          ⟨h.injective k key hk hkey, fun heq => by rw [heq]⟩
        simp only [Option.map_some, Entry.rename, hiff, ih, Option.bind_eq_bind, Option.bind_some]

theorem findEntry_rename (h : Renames f g hash hash' keys) (hkeys : KeysIn keys entries)
    (hkey : keys key) :
    findEntry hash' (entries.map (Entry.rename f g)) (f key) = findEntry hash entries key := by
  have hhome : home hash' (entries.map (Entry.rename f g)).length (f key)
      = home hash entries.length key := by
    simp only [home, h.hash key hkey, List.length_map]
  rw [findEntry, hhome, List.length_map]
  exact findLoop_rename h hkeys hkey _ _ _

omit [DecidableEq K] [TableValue V] in
theorem KeysIn.set (hkeys : KeysIn keys entries) (hkey : keys key) (index : ℕ) :
    KeysIn keys (entries.set index ⟨some key, value⟩) := by
  intro k v hmem
  rcases List.mem_or_eq_of_mem_set hmem with hmem | heq
  · exact hkeys k v hmem
  · obtain rfl : k = key := by simpa using congrArg Entry.key heq
    exact hkey

theorem rehash_rename (h : Renames f g hash hash' keys) {rest : List (Entry K V)}
    (hrest : KeysIn keys rest) : ∀ {t : HashTable K V}, KeysIn keys t.entries →
    rehash hash' (rest.map (Entry.rename f g)) (t.rename f g)
      = (rehash hash rest t).map (rename f g) := by
  induction rest with
  | nil =>
    intro t _
    rfl
  | cons entry rest ih =>
    intro t hkeys
    have hrest' : KeysIn keys rest := fun k v hmem => hrest k v (List.mem_cons_of_mem entry hmem)
    obtain ⟨okey, v⟩ := entry
    cases okey with
    | none => exact ih hrest' hkeys
    | some k =>
      have hk : keys k := hrest k v List.mem_cons_self
      have hfind := findEntry_rename h hkeys hk
      simp only [List.map_cons, Entry.rename, Option.map_some, rehash, rename] at hfind ⊢
      rw [hfind]
      cases findEntry hash t.entries k with
      | none => rfl
      | some dest =>
        have hset := ih hrest' (t := ⟨t.count + 1, t.entries.set dest ⟨some k, v⟩⟩)
          (hkeys.set hk dest)
        simp only [rename, List.map_set] at hset
        exact hset

theorem adjustCapacity_rename (h : Renames f g hash hash' keys) (hkeys : KeysIn keys t.entries)
    (capacity : ℕ) :
    adjustCapacity hash' capacity (t.rename f g) = (adjustCapacity hash capacity t).map (rename f g) := by
  have hempty : (⟨0, List.replicate capacity ⟨none, TableValue.nil⟩⟩ : HashTable K V)
      = rename f g ⟨0, List.replicate capacity ⟨none, TableValue.nil⟩⟩ := by
    simp [rename, Entry.rename, h.nil]
  show rehash hash' (t.entries.map (Entry.rename f g)) _ = _
  rw [hempty]
  refine rehash_rename h hkeys fun k v hmem => ?_
  cases List.eq_of_mem_replicate hmem

theorem ensure_rename (h : Renames f g hash hash' keys) (hkeys : KeysIn keys t.entries) :
    ensure hash' (t.rename f g) = (ensure hash t).map (rename f g) := by
  simp only [ensure, capacity_rename]
  have hcount : (t.rename f g).count = t.count := rfl
  rw [hcount]
  split
  · exact adjustCapacity_rename h hkeys _
  · rfl

theorem tableSet_rename (h : Renames f g hash hash' keys) (hkeys : KeysIn keys t.entries)
    (hkey : keys key) :
    tableSet hash' (f key) (g value) (t.rename f g)
      = (tableSet hash key value t).map fun result => (result.1, result.2.rename f g) := by
  simp only [tableSet, ensure_rename h hkeys]
  cases hensure : ensure hash t with
  | none => rfl
  | some t₁ =>
    have hkeys₁ : KeysIn keys t₁.entries := by
      intro k v hmem
      exact hkeys k v ((mem_ensure hensure hmem).resolve_left fun heq => by cases heq)
    have hfind : findEntry hash' (t₁.rename f g).entries (f key) = findEntry hash t₁.entries key :=
      findEntry_rename h hkeys₁ hkey
    simp only [Option.map_some, Option.bind_eq_bind, Option.bind_some, hfind]
    cases findEntry hash t₁.entries key with
    | none => rfl
    | some index =>
      simp only [Option.bind_some, rename, List.getElem?_map]
      cases t₁.entries[index]? with
      | none => rfl
      | some entry =>
        simp only [Option.map_some, Option.bind_some, Option.pure_def, Entry.rename,
          Option.isNone_map, h.isNil, List.map_set]

theorem tableDelete_rename (h : Renames f g hash hash' keys) (hkeys : KeysIn keys t.entries)
    (hkey : keys key) :
    tableDelete hash' (f key) (t.rename f g)
      = (tableDelete hash key t).map fun result => (result.1, result.2.rename f g) := by
  have hfind : findEntry hash' (t.rename f g).entries (f key) = findEntry hash t.entries key :=
    findEntry_rename h hkeys hkey
  have hcount : (t.rename f g).count = t.count := rfl
  simp only [tableDelete, hfind, hcount]
  split
  · rfl
  · cases findEntry hash t.entries key with
    | none => rfl
    | some index =>
      simp only [Option.bind_eq_bind, Option.bind_some, rename, List.getElem?_map]
      cases t.entries[index]? with
      | none => rfl
      | some entry =>
        simp only [Option.map_some, Option.bind_some, Option.pure_def, Entry.rename,
          Option.isNone_map]
        split
        · rfl
        · simp [List.map_set, Entry.rename, h.true_]

omit [DecidableEq K] [TableValue V] in
theorem rename_id (t : HashTable K V) : t.rename id id = t := by
  have hentry : (Entry.rename id id : Entry K V → Entry K V) = id := by
    funext entry
    simp [Entry.rename]
  simp [rename, hentry]

omit [DecidableEq K] in
theorem renames_id (hsame : ∀ k, keys k → hash' k = hash k) :
    Renames (id : K → K) (id : V → V) hash hash' keys :=
  ⟨fun _ _ _ _ heq => heq, hsame, fun _ => rfl, rfl, rfl⟩

/-- Only the hashes of the keys matter. -/
theorem adjustCapacity_congr (hsame : ∀ k, keys k → hash' k = hash k) (hkeys : KeysIn keys t.entries)
    (capacity : ℕ) : adjustCapacity hash' capacity t = adjustCapacity hash capacity t := by
  have h := adjustCapacity_rename (renames_id (V := V) hsame) hkeys capacity
  have hid : (rename id id : HashTable K V → HashTable K V) = id := funext rename_id
  simpa only [hid, id_eq, Option.map_id_fun] using h

theorem tableSet_congr (hsame : ∀ k, keys k → hash' k = hash k) (hkeys : KeysIn keys t.entries)
    (hkey : keys key) : tableSet hash' key value t = tableSet hash key value t := by
  have h : tableSet hash' (id key) (id value) (t.rename id id) = _ :=
    tableSet_rename (renames_id (V := V) hsame) hkeys hkey
  simpa only [rename_id, id_eq, Prod.mk.eta, Option.map_id'] using h

end HashTable

end Lox.Clox
