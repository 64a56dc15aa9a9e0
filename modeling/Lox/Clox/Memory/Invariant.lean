import Lox.Clox.Memory.Ledger
import Lox.Clox.Memory.Tables
import Lox.Lib.Rounds

/-!
# The invariant of memory

`HeapOk` is what holds of the objects whenever `reallocate` is called: a collection may begin, every
table is well formed and has strings as keys, and `vm.strings` has every string once, apart from the
one that `allocateString` is about to add (`pending`).  Here it is shown to survive each kind of change
to the memory: a collection, a new object, a write to an object or to a table, other roots.
-/

namespace Lox.Clox.Memory

open HashTable LinkedList Rounds

variable {N : Type}

/-! ### Blocks and their owners -/

/-- The object a block belongs to. -/
def Block.owner : Block → Option Addr
  | .object a => some a
  | .code a => some a
  | .lines a => some a
  | .constants a => some a
  | .upvalues a => some a
  | .chars a => some a
  | .entries table => table.owner
  | .scratch => none

theorem Data.owner_of_mem_blocks {size : Sizes} {a : Addr} {data : Data N} {p : Block × ℕ}
    (h : p ∈ data.blocks size a) : p.1.owner = some a := by
  rcases List.mem_append.1 h with h | h
  · cases data with
    | inst klass fields =>
      rw [List.mem_singleton.1 h]
      rfl
    | klass name methods =>
      rw [List.mem_singleton.1 h]
      rfl
    | function arity upvalueCount chunk name =>
      simp only [arrays, List.mem_cons, List.not_mem_nil, or_false] at h
      rcases h with rfl | rfl | rfl <;> rfl
    | closure function upvalues =>
      rw [List.mem_singleton.1 h]
      rfl
    | string chars hash =>
      rw [List.mem_singleton.1 h]
      rfl
    | boundMethod receiver method => cases h
    | native => cases h
    | upvalue location closed => cases h
  · rw [List.mem_singleton.1 h]
    rfl

/-- The table of a class or of an instance. -/
def Data.table : Data N → Option (Table N)
  | .inst _ fields => some fields
  | .klass _ methods => some methods
  | _ => none

def Data.isString : Data N → Bool
  | .string _ _ => true
  | _ => false

/-- A class or an instance with another table. -/
def Data.withTable (t : Table N) : Data N → Data N
  | .inst of _ => .inst of t
  | .klass name _ => .klass name t
  | data => data

theorem Data.withTable_withTable (t t' : Table N) (data : Data N) :
    (data.withTable t).withTable t' = data.withTable t' := by
  cases data with
  | _ => rfl

theorem Data.withTable_self {t : Table N} {data : Data N} (h : data.table = some t) :
    data.withTable t = data := by
  cases data with
  | inst klass fields =>
    obtain rfl := Option.some.inj h
    rfl
  | klass name methods =>
    obtain rfl := Option.some.inj h
    rfl
  | _ => rfl

/-- The address of a new object that is a string. -/
def Data.newString (a : Addr) (data : Data N) : Option Addr := if data.isString then some a else none

theorem Data.tableRefs_subset {data : Data N} {t : Table N} (h : data.table = some t) {b : Addr}
    (hb : b ∈ tableRefs t) : b ∈ data.refs := by
  cases data with
  | inst klass fields =>
    obtain rfl := Option.some.inj h
    exact List.mem_cons_of_mem klass hb
  | klass name methods =>
    obtain rfl := Option.some.inj h
    exact List.mem_cons_of_mem name hb
  | _ => cases h

namespace VM

/-- The blocks of the object at an address. -/
def blocksAt (size : Sizes) (vm : VM N) (a : Addr) : List (Block × ℕ) :=
  ((vm.dataAt a).map (Data.blocks size a)).getD []

/-- The arrays of the tables of the machine. -/
def tableBlocks (size : Sizes) (vm : VM N) : List (Block × ℕ) :=
  [(.entries .globals, size.entry * vm.globals.capacity),
    (.entries .strings, size.entry * vm.strings.capacity)]

/-- Everything the machine owns. -/
def owned (size : Sizes) (vm : VM N) (addrs : List Addr) : List (Block × ℕ) :=
  addrs.flatMap (vm.blocksAt size) ++ vm.tableBlocks size

variable {vm vm' : VM N} {addrs : List Addr} {size : Sizes}

theorem owner_of_mem_blocksAt {a : Addr} {p : Block × ℕ} (h : p ∈ vm.blocksAt size a) :
    p.1.owner = some a := by
  unfold blocksAt at h
  cases hdata : vm.dataAt a with
  | none =>
    rw [hdata] at h
    cases h
  | some data =>
    rw [hdata] at h
    exact Data.owner_of_mem_blocks h

theorem owner_of_mem_tableBlocks {p : Block × ℕ} (h : p ∈ vm.tableBlocks size) :
    p.1.owner = none := by
  simp only [tableBlocks, List.mem_cons, List.not_mem_nil, or_false] at h
  rcases h with rfl | rfl <;> rfl

/-! ### Strings and tables -/

theorem isString_iff {a : Addr} : vm.IsString a ↔ ∃ data, vm.dataAt a = some data ∧ data.isString := by
  constructor
  · rintro ⟨chars, hash, h⟩
    exact ⟨_, h, rfl⟩
  · rintro ⟨data, h, hstring⟩
    cases data with
    | string chars hash => exact ⟨chars, hash, h⟩
    | _ => cases hstring

theorem IsString.isSome {a : Addr} (h : vm.IsString a) : (vm.heap a).isSome := by
  obtain ⟨chars, hash, h⟩ := h
  rw [isSome_heap_iff, h]
  rfl

/-- A well-formed table whose keys are strings. -/
structure TableOk (vm : VM N) (t : Table N) : Prop where
  wf : Wf vm.hash t
  keys : ∀ key value, ⟨some key, value⟩ ∈ t.entries → vm.IsString key

theorem tableOk_init : vm.TableOk initTable := ⟨represents_init.wf, fun _ _ h => by cases h⟩

/-- Only the keys of a table matter to it. -/
theorem TableOk.congr {t : Table N} (h : vm.TableOk t)
    (hsame : ∀ key value, ⟨some key, value⟩ ∈ t.entries → vm'.dataAt key = vm.dataAt key) :
    vm'.TableOk t := by
  obtain ⟨m, hm⟩ := h.wf.exists_represents
  constructor
  · refine (hm.congr fun key value hkey => ?_).wf
    have hmem : ⟨some key, value⟩ ∈ t.entries := mem_entries.2 ((hm.maps key value).1 hkey)
    simp only [hash, hsame key value hmem]
  · intro key value hmem
    obtain ⟨chars, hash, hdata⟩ := h.keys key value hmem
    exact ⟨chars, hash, (hsame key value hmem).trans hdata⟩

/-- A table belongs to the machine, or to an object that has no other. -/
theorem tableAt_cases {table : TableRef} {t : Table N} (h : vm.tableAt table = some t) :
    (table = .globals ∧ t = vm.globals) ∨ (table = .strings ∧ t = vm.strings) ∨
      ∃ a data, table.owner = some a ∧ vm.dataAt a = some data ∧ data.table = some t := by
  cases table with
  | globals => exact .inl ⟨rfl, (Option.some.inj h).symm⟩
  | strings => exact .inr (.inl ⟨rfl, (Option.some.inj h).symm⟩)
  | methods a =>
    unfold tableAt at h
    simp only at h
    split at h
    · rename_i name methods hdata
      exact .inr (.inr ⟨a, _, rfl, hdata, h⟩)
    · cases h
  | fields a =>
    unfold tableAt at h
    simp only at h
    split at h
    · rename_i klass fields hdata
      exact .inr (.inr ⟨a, _, rfl, hdata, h⟩)
    · cases h

theorem mem_tableRefs_key {t : Table N} {key : Addr} {value : Value N}
    (h : ⟨some key, value⟩ ∈ t.entries) : key ∈ tableRefs t :=
  List.mem_flatMap.2 ⟨_, h, List.mem_append_left _ List.mem_cons_self⟩

theorem refs_eq {a : Addr} {data : Data N} (h : vm.dataAt a = some data) : vm.refs a = data.refs := by
  simp [refs, h]

/-! ### The invariant -/

/-- What holds whenever `reallocate` is called.  The string `pending` is not yet in `vm.strings`, and
the array of the globals has at least `c` entries. -/
structure HeapOk (c : ℕ) (vm : VM N) (addrs : List Addr) (pending : Option Addr) : Prop
    extends Collectable vm addrs where
  tables : ∀ table t, vm.tableAt table = some t → vm.TableOk t
  keys : ∀ a, (∃ value, ⟨some a, value⟩ ∈ vm.strings.entries) ↔ vm.IsString a ∧ pending ≠ some a
  hashes : ∀ a chars hash, vm.dataAt a = some (.string chars hash) → hash = hashString chars
  unique : ∀ a b, vm.IsString a → vm.IsString b → vm.chars a = vm.chars b → a = b
  room : c ≤ vm.globals.capacity

variable {c : ℕ} {pending : Option Addr}

theorem HeapOk.tableOk_data (h : HeapOk c vm addrs pending) {a : Addr} {data : Data N} {t : Table N}
    (hdata : vm.dataAt a = some data) (ht : data.table = some t) : vm.TableOk t := by
  cases data with
  | inst klass fields =>
    refine h.tables (.fields a) t ?_
    simp only [tableAt, hdata]
    exact ht
  | klass name methods =>
    refine h.tables (.methods a) t ?_
    simp only [tableAt, hdata]
    exact ht
  | _ => cases ht

/-- Other roots, and what the invariant does not speak of. -/
theorem HeapOk.reroot (h : HeapOk c vm addrs pending) {stack : List (Value N)}
    {frames openUpvalues compilers : List Addr} {initString : Option Addr} {nextGC : ℤ}
    {ledger : Ledger}
    (hroots : ∀ a ∈ VM.roots { vm with
      stack := stack, frames := frames, openUpvalues := openUpvalues, compilers := compilers
      initString := initString }, (vm.heap a).isSome) :
    HeapOk c { vm with
      stack := stack, frames := frames, openUpvalues := openUpvalues, compilers := compilers
      initString := initString, nextGC := nextGC, ledger := ledger } addrs pending where
  linked := h.linked
  listed := h.listed
  unmarked := h.unmarked
  gray := h.gray
  closed := h.closed
  rooted := hroots
  strings := h.strings
  interned := h.interned
  tables table t ht := by
    have hok := h.tables table t (by cases table <;> exact ht)
    exact ⟨hok.wf, hok.keys⟩
  keys := h.keys
  hashes := h.hashes
  unique := h.unique
  room := h.room

/-! ### A collection -/

section Classical

open Classical

theorem chars_congr {a : Addr} (h : vm'.dataAt a = vm.dataAt a) : vm'.chars a = vm.chars a := by
  simp only [chars, h]

/-- The invariant survives a collection. -/
theorem HeapOk.survives (h : HeapOk c vm addrs pending) {keep : Addr → Prop} (hsafe : vm.Safe keep)
    (hs : Survives keep addrs vm vm') :
    HeapOk c vm' (addrs.filter keep) pending := by
  have hold : ∀ a data, vm'.dataAt a = some data → keep a ∧ vm.dataAt a = some data := by
    intro a data hdata
    rw [hs.data] at hdata
    split at hdata
    · exact ⟨‹_›, hdata⟩
    · cases hdata
  have hkept : ∀ a, keep a → vm'.dataAt a = vm.dataAt a := fun a ha => by rw [hs.data, if_pos ha]
  have hstring : ∀ a, vm'.IsString a ↔ keep a ∧ vm.IsString a := by
    intro a
    constructor
    · rintro ⟨chars, hash, hdata⟩
      exact ⟨(hold a _ hdata).1, chars, hash, (hold a _ hdata).2⟩
    · rintro ⟨ha, chars, hash, hdata⟩
      exact ⟨chars, hash, (hkept a ha).trans hdata⟩
  have hglobals : vm'.globals = vm.globals := by rw [hs.same]
  refine ⟨hs.collectable hsafe h.toCollectable, fun table t ht => ?_, fun a => ?_,
    fun a chars hash hdata => h.hashes a chars hash (hold a _ hdata).2, fun a b ha hb hchars => ?_, ?_⟩
  · rcases tableAt_cases ht with ⟨rfl, rfl⟩ | ⟨rfl, rfl⟩ | ⟨a, data, -, hdata, htable⟩
    · rw [hglobals]
      refine (h.tables .globals _ rfl).congr fun key value hmem => hkept key (hsafe.rooted key ?_)
      simp [roots, mem_tableRefs_key hmem]
    · obtain ⟨m, hm⟩ := h.strings.exists_represents
      refine ⟨(hs.strings m hm).wf, fun key value hmem => ?_⟩
      obtain ⟨hkeep, hmem⟩ := (hs.mem_entries_iff h.strings key value).1 hmem
      exact (hstring key).2 ⟨hkeep, ((h.keys key).1 ⟨value, hmem⟩).1⟩
    · obtain ⟨hkeep, hdata⟩ := hold a data hdata
      refine (h.tableOk_data hdata htable).congr fun key value hmem => hkept key ?_
      refine hsafe.closed a hkeep key ?_
      rw [refs_eq hdata]
      exact Data.tableRefs_subset htable (mem_tableRefs_key hmem)
  · rw [hstring]
    constructor
    · rintro ⟨value, hmem⟩
      obtain ⟨hkeep, hmem⟩ := (hs.mem_entries_iff h.strings a value).1 hmem
      obtain ⟨ha, hne⟩ := (h.keys a).1 ⟨value, hmem⟩
      exact ⟨⟨hkeep, ha⟩, hne⟩
    · rintro ⟨⟨hkeep, ha⟩, hne⟩
      obtain ⟨value, hmem⟩ := (h.keys a).2 ⟨ha, hne⟩
      exact ⟨value, (hs.mem_entries_iff h.strings a value).2 ⟨hkeep, hmem⟩⟩
  · obtain ⟨hkeepA, ha⟩ := (hstring a).1 ha
    obtain ⟨hkeepB, hb⟩ := (hstring b).1 hb
    rw [chars_congr (hkept a hkeepA), chars_congr (hkept b hkeepB)] at hchars
    exact h.unique a b ha hb hchars
  · rw [hglobals]
    exact h.room

end Classical

/-! ### A new object -/

/-- The machine with a new object in front of the others. -/
def withObject (a : Addr) (data : Data N) (vm : VM N) : VM N :=
  { vm with heap := Function.update vm.heap a (some ⟨false, vm.objects, data⟩), objects := some a }

theorem dataAt_withObject {a : Addr} {data : Data N} (b : Addr) :
    (vm.withObject a data).dataAt b = if b = a then some data else vm.dataAt b := by
  by_cases hb : b = a
  · simp [dataAt, withObject, hb]
  · simp [dataAt, withObject, hb]

/-- The invariant survives a new object, which has no entries in its table; a string is pending. -/
theorem HeapOk.withObject (h : HeapOk c vm addrs none) {a : Addr} {data : Data N}
    (hfresh : vm.heap a = none) (hrefs : ∀ b ∈ data.refs, (vm.heap b).isSome)
    (htable : ∀ t, data.table = some t → t = initTable)
    (hstring : ∀ chars hash, data = .string chars hash →
      hash = hashString chars ∧ ∀ b, vm.IsString b → vm.chars b ≠ chars) :
    HeapOk c (vm.withObject a data) (a :: addrs) (data.newString a) := by
  have hdata : ∀ b, (vm.withObject a data).dataAt b = if b = a then some data else vm.dataAt b :=
    dataAt_withObject
  have hne : ∀ b, (vm.heap b).isSome → b ≠ a := by
    rintro b hb rfl
    rw [hfresh] at hb
    cases hb
  have hsame : ∀ b, (vm.heap b).isSome → (vm.withObject a data).dataAt b = vm.dataAt b :=
    fun b hb => by rw [hdata, if_neg (hne b hb)]
  have hheap : ∀ b, ((vm.withObject a data).heap b).isSome ↔ b = a ∨ (vm.heap b).isSome := by
    intro b
    rw [isSome_heap_iff, hdata, isSome_heap_iff]
    by_cases hb : b = a
    · simp [hb]
    · simp [hb]
  have hstrings : ∀ b, (vm.withObject a data).IsString b ↔ b = a ∧ data.isString ∨ vm.IsString b := by
    intro b
    rw [isString_iff, isString_iff, hdata]
    by_cases hb : b = a
    · have hnone : vm.dataAt a = none := by simp [dataAt, hfresh]
      simp [hb, hnone]
    · simp [hb]
  have htables : ∀ t, vm.TableOk t → (vm.withObject a data).TableOk t := fun t ht =>
    ht.congr fun key value hmem => hsame key (ht.keys key value hmem).isSome
  refine ⟨⟨⟨rfl, ?_⟩, fun b => ?_, fun b => ?_, h.gray, fun b hb b' hb' => ?_, fun b hb => ?_, ?_,
    fun entry hentry key hkey => ?_⟩, fun table t ht => ?_, fun b => ?_, fun b chars hash hb => ?_,
    fun b b' hb hb' hchars => ?_, h.room⟩
  · have hnext : (vm.withObject a data).link a = vm.objects := by simp [link, VM.withObject]
    rw [hnext]
    refine h.linked.congr fun b hb => ?_
    simp [link, VM.withObject, hne b ((h.listed b).2 hb)]
  · rw [hheap, h.listed, List.mem_cons]
  · by_cases hb : b = a
    · simp [isMarked, VM.withObject, hb]
    · simpa [isMarked, VM.withObject, hb] using h.unmarked b
  · rw [hheap]
    right
    by_cases hb : b = a
    · rw [refs_eq ((hdata b).trans (if_pos hb))] at hb'
      exact hrefs b' hb'
    · have hold : (vm.heap b).isSome := ((hheap b).1 ‹_›).resolve_left hb
      have hrefs' : (vm.withObject a data).refs b = vm.refs b := by simp only [refs, hsame b hold]
      rw [hrefs'] at hb'
      exact h.closed b hold b' hb'
  · exact (hheap b).2 (.inr (h.rooted b hb))
  · exact (htables _ (h.tables .strings _ rfl)).wf
  · exact (hheap key).2 (.inr (h.interned entry hentry key hkey))
  · rcases tableAt_cases ht with ⟨-, rfl⟩ | ⟨-, rfl⟩ | ⟨b, data', -, hb, ht⟩
    · exact htables _ (h.tables .globals _ rfl)
    · exact htables _ (h.tables .strings _ rfl)
    · rw [hdata] at hb
      split at hb
      · obtain rfl := Option.some.inj hb
        rw [htable t ht]
        exact tableOk_init
      · exact htables t (h.tableOk_data hb ht)
  · rw [hstrings]
    show (∃ value, ⟨some b, value⟩ ∈ vm.strings.entries) ↔ _
    rw [h.keys]
    unfold Data.newString
    constructor
    · rintro ⟨hb, -⟩
      refine ⟨.inr hb, ?_⟩
      split
      · intro heq
        exact hne b hb.isSome (Option.some.inj heq).symm
      · simp
    · rintro ⟨⟨rfl, hb⟩ | hb, hpending⟩
      · simp [hb] at hpending
      · exact ⟨hb, by simp⟩
  · rw [hdata] at hb
    split at hb
    · exact (hstring chars hash (Option.some.inj hb)).1
    · exact h.hashes b chars hash hb
  · -- The characters of a new string are not those of another one.
    have hnew : ∀ d, vm.IsString d → data.isString → (vm.withObject a data).chars a ≠
        (vm.withObject a data).chars d := by
      intro d hd hda
      cases data with
      | string chars hash =>
        have hchars : (vm.withObject a (.string chars hash)).chars a = chars := by
          simp [VM.chars, hdata]
        rw [hchars, chars_congr (hsame d hd.isSome)]
        exact ((hstring chars hash rfl).2 d hd).symm
      | _ => cases hda
    rcases (hstrings b).1 hb with ⟨heq, hdb⟩ | hb
    · rcases (hstrings b').1 hb' with ⟨heq', -⟩ | hb'
      · exact heq.trans heq'.symm
      · exact absurd (heq ▸ hchars) (hnew b' hb' hdb)
    · rcases (hstrings b').1 hb' with ⟨heq, hdb⟩ | hb'
      · exact absurd (heq ▸ hchars.symm) (hnew b hb hdb)
      · rw [chars_congr (hsame b hb.isSome), chars_congr (hsame b' hb'.isSome)] at hchars
        exact h.unique b b' hb hb' hchars

/-! ### Writes to an object -/

/-- The machine with other fields of an object. -/
def withData (a : Addr) (o : Obj N) (data : Data N) (vm : VM N) : VM N :=
  { vm with heap := Function.update vm.heap a (some { o with data := data }) }

theorem dataAt_withData {a : Addr} {o : Obj N} {data : Data N} (b : Addr) :
    (vm.withData a o data).dataAt b = if b = a then some data else vm.dataAt b := by
  by_cases hb : b = a
  · simp [dataAt, withData, hb]
  · simp [dataAt, withData, hb]

theorem HeapOk.withData (h : HeapOk c vm addrs pending) {a : Addr} {o : Obj N} {data : Data N}
    (ho : vm.heap a = some o) (hold : o.data.isString = false) (hnew : data.isString = false)
    (hrefs : ∀ b ∈ data.refs, (vm.heap b).isSome) (htable : ∀ t, data.table = some t → vm.TableOk t) :
    HeapOk c (vm.withData a o data) addrs pending := by
  have hdata : ∀ b, (vm.withData a o data).dataAt b = if b = a then some data else vm.dataAt b :=
    dataAt_withData
  have hat : vm.dataAt a = some o.data := by simp [dataAt, ho]
  have hne : ∀ b, vm.IsString b → b ≠ a := by
    rintro b hb rfl
    obtain ⟨d, hd, hstring⟩ := isString_iff.1 hb
    obtain rfl := Option.some.inj (hat.symm.trans hd)
    rw [hold] at hstring
    cases hstring
  have hsame : ∀ b, vm.IsString b → (vm.withData a o data).dataAt b = vm.dataAt b :=
    fun b hb => by rw [hdata, if_neg (hne b hb)]
  have hheap : ∀ b, ((vm.withData a o data).heap b).isSome ↔ (vm.heap b).isSome := by
    intro b
    rw [isSome_heap_iff, hdata, isSome_heap_iff]
    by_cases hb : b = a
    · simp [hb, hat]
    · simp [hb]
  have hstrings : ∀ b, (vm.withData a o data).IsString b ↔ vm.IsString b := by
    intro b
    rw [isString_iff, isString_iff, hdata]
    by_cases hb : b = a
    · simp [hb, hat, hold, hnew]
    · simp [hb]
  have htables : ∀ t, vm.TableOk t → (vm.withData a o data).TableOk t := fun t ht =>
    ht.congr fun key value hmem => hsame key (ht.keys key value hmem)
  have hlink : (vm.withData a o data).link = vm.link := by
    funext b
    by_cases hb : b = a
    · simp [link, VM.withData, hb, ho]
    · simp [link, VM.withData, hb]
  refine ⟨⟨?_, fun b => ?_, fun b => ?_, h.gray, fun b hb b' hb' => ?_, fun b hb => ?_, ?_,
    fun entry hentry key hkey => ?_⟩, fun table t ht => ?_, fun b => ?_, fun b chars hash hb => ?_,
    fun b b' hb hb' hchars => ?_, h.room⟩
  · rw [hlink]
    exact h.linked
  · rw [hheap, h.listed]
  · by_cases hb : b = a
    · simpa [isMarked, VM.withData, hb, ho] using h.unmarked b
    · simpa [isMarked, VM.withData, hb] using h.unmarked b
  · rw [hheap] at hb ⊢
    by_cases heq : b = a
    · rw [refs_eq ((hdata b).trans (if_pos heq))] at hb'
      exact hrefs b' hb'
    · have hrefs' : (vm.withData a o data).refs b = vm.refs b := by simp only [refs, hdata, if_neg heq]
      rw [hrefs'] at hb'
      exact h.closed b hb b' hb'
  · exact (hheap b).2 (h.rooted b hb)
  · exact (htables _ (h.tables .strings _ rfl)).wf
  · exact (hheap key).2 (h.interned entry hentry key hkey)
  · rcases tableAt_cases ht with ⟨-, rfl⟩ | ⟨-, rfl⟩ | ⟨b, data', -, hb, ht⟩
    · exact htables _ (h.tables .globals _ rfl)
    · exact htables _ (h.tables .strings _ rfl)
    · rw [hdata] at hb
      split at hb
      · obtain rfl := Option.some.inj hb
        exact htables t (htable t ht)
      · exact htables t (h.tableOk_data hb ht)
  · rw [hstrings]
    exact h.keys b
  · have hb' : vm.IsString b := (hstrings b).1 ⟨chars, hash, hb⟩
    rw [hsame b hb'] at hb
    exact h.hashes b chars hash hb
  · rw [hstrings] at hb hb'
    rw [chars_congr (hsame b hb), chars_congr (hsame b' hb')] at hchars
    exact h.unique b b' hb hb' hchars

/-! ### Writes to the tables of the machine -/

theorem HeapOk.withGlobals (h : HeapOk c vm addrs pending) {t : Table N} (ht : vm.TableOk t)
    (hrefs : ∀ b ∈ tableRefs t, (vm.heap b).isSome) (hroom : c ≤ t.capacity) :
    HeapOk c { vm with globals := t } addrs pending where
  linked := h.linked
  listed := h.listed
  unmarked := h.unmarked
  gray := h.gray
  closed := h.closed
  rooted a ha := by
    have hcases : a ∈ tableRefs t ∨ a ∈ vm.roots := by
      simp only [roots, List.mem_append] at ha ⊢
      tauto
    exact hcases.elim (hrefs a) (h.rooted a)
  strings := h.strings
  interned := h.interned
  tables table t' ht' := by
    rcases tableAt_cases ht' with ⟨-, rfl⟩ | ⟨-, rfl⟩ | ⟨b, data', -, hb, ht'⟩
    · exact ⟨ht.wf, ht.keys⟩
    · have hok := h.tables .strings _ rfl
      exact ⟨hok.wf, hok.keys⟩
    · have hok := h.tableOk_data hb ht'
      exact ⟨hok.wf, hok.keys⟩
  keys := h.keys
  hashes := h.hashes
  unique := h.unique
  room := hroom

/-- The table of strings, with the pending string in it or not. -/
theorem HeapOk.withStrings (h : HeapOk c vm addrs pending) {t : Table N} {pending' : Option Addr}
    (ht : vm.TableOk t)
    (hkeys : ∀ a, (∃ value, ⟨some a, value⟩ ∈ t.entries) ↔ vm.IsString a ∧ pending' ≠ some a) :
    HeapOk c { vm with strings := t } addrs pending' where
  linked := h.linked
  listed := h.listed
  unmarked := h.unmarked
  gray := h.gray
  closed := h.closed
  rooted := h.rooted
  strings := ht.wf
  interned entry hentry key hkey := by
    obtain ⟨okey, value⟩ := entry
    obtain rfl : okey = some key := hkey
    exact (ht.keys key value hentry).isSome
  tables table t' ht' := by
    rcases tableAt_cases ht' with ⟨-, rfl⟩ | ⟨-, rfl⟩ | ⟨b, data', -, hb, ht'⟩
    · have hok := h.tables .globals _ rfl
      exact ⟨hok.wf, hok.keys⟩
    · exact ⟨ht.wf, ht.keys⟩
    · have hok := h.tableOk_data hb ht'
      exact ⟨hok.wf, hok.keys⟩
  keys := hkeys
  hashes := h.hashes
  unique := h.unique
  room := h.room

end VM

end Lox.Clox.Memory
