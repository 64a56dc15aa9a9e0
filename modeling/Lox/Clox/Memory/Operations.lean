import Lox.Clox.Memory.Growth
import Lox.Clox.Memory.Renaming

/-!
# The functions that allocate keep the invariant

`Sound` adds the books to the invariant: besides what the machine owns there may be blocks that local
variables point to (`locals`).  Every function of `object.c`, `table.c`, `chunk.c` and `value.c` that
allocates takes a sound memory to a sound one, wherever it collects, and comes to an end without
following a pointer to memory that was freed.
-/

namespace Lox.Clox.Memory

open HashTable LinkedList Rounds

variable {N : Type}

namespace VM

/-- The invariant, and the books are right. -/
structure Sound (c : ℕ) (size : Sizes) (pending : Option Addr) (locals : List (Block × ℕ)) (vm : VM N)
    (addrs : List Addr) : Prop where
  heapOk : HeapOk c vm addrs pending
  books : vm.ledger.Holds (locals ++ vm.owned size addrs) 0

variable {vm vm' : VM N} {addrs addrs' : List Addr} {size : Sizes} {n c : ℕ} {pending : Option Addr}
  {gc : VM N → Bool} {enough : Prop} {locals : List (Block × ℕ)} {a : Addr} {data : Data N}

/-! ### Blocks that are new -/

theorem not_mem_owned {b : Block} (howner : ∀ a ∈ addrs, b.owner ≠ some a)
    (hglobals : b ≠ .entries .globals) (hstrings : b ≠ .entries .strings) :
    b ∉ (vm.owned size addrs).map Prod.fst := by
  intro hmem
  obtain ⟨p, hp, rfl⟩ := List.mem_map.1 hmem
  rcases List.mem_append.1 hp with hp | hp
  · obtain ⟨a, ha, hp⟩ := List.mem_flatMap.1 hp
    exact howner a ha (owner_of_mem_blocksAt hp)
  · simp only [tableBlocks, List.mem_cons, List.not_mem_nil, or_false] at hp
    rcases hp with rfl | rfl
    · exact hglobals rfl
    · exact hstrings rfl

theorem scratch_not_mem_owned : Block.scratch ∉ (vm.owned size addrs).map Prod.fst :=
  not_mem_owned (fun _ _ h => by cases h) (fun h => by cases h) fun h => by cases h

theorem Reallocated.holds_owned {extra : ℤ} {l : Ledger}
    (h : Reallocated c size pending locals (vm.blocksAt size) extra vm addrs l vm' addrs') :
    l.Holds (locals ++ vm'.owned size addrs') extra := by
  have hsame : addrs'.flatMap (vm.blocksAt size) = addrs'.flatMap (vm'.blocksAt size) :=
    List.flatMap_congr fun a ha => (h.collects.blocksAt_eq ((h.heapOk.listed a).2 ha)).symm
  have hholds := h.holds
  rw [hsame] at hholds
  exact hholds

/-- `ALLOCATE`, for a local variable. -/
theorem allocate_runs (h : Sound c size pending [] vm addrs) (hn : enough → addrs.length ≤ n)
    (newSize : ℕ) :
    Runs enough (vm.allocate gc size n newSize) fun vm' => ∃ addrs', Collects vm vm' addrs addrs' ∧
      Sound c size pending [(.scratch, newSize)] vm' addrs' := by
  refine (reallocate_runs h.heapOk h.books (fun _ _ _ => rfl) rfl hn newSize .scratch).imp ?_
  rintro vm' ⟨addrs', l, hl, hrealloc⟩
  refine ⟨addrs', hrealloc.collects, hrealloc.heapOk, ?_⟩
  have hholds := hrealloc.holds_owned
  simp only [Option.map_none, Option.getD_none, Nat.cast_zero, sub_zero] at hholds
  rw [hl]
  exact Ledger.Holds.grant hholds scratch_not_mem_owned

/-! ### New objects -/

/-- An object is new, and what could be reached is as it was. -/
structure Created (a : Addr) (data : Data N) (vm vm' : VM N) : Prop where
  at_ : vm'.dataAt a = some data
  roots : SameRoots vm vm'
  globals : vm'.globals = vm.globals
  same : ∀ b, vm.Reachable b → vm'.dataAt b = vm.dataAt b
  unreachable : ¬ vm.Reachable a

/-- What the caller of `allocateObject` knows afterwards. -/
structure Allocated (c : ℕ) (size : Sizes) (locals : List (Block × ℕ)) (a : Addr) (data : Data N)
    (vm : VM N) (addrs : List Addr) (vm' : VM N) (addrs' : List Addr) : Prop
    extends Created a data vm vm' where
  heapOk : HeapOk c vm' (a :: addrs') (data.newString a)
  books : vm'.ledger.Holds ((.object a, data.size size) :: (locals ++ vm'.owned size addrs')) 0
  new : a ∉ addrs'
  length : addrs'.length ≤ addrs.length

theorem allocateObject_runs (h : Sound c size none locals vm addrs) (hn : enough → addrs.length ≤ n)
    (hfresh : enough → vm.heap a = none) (hlocals : .object a ∉ locals.map Prod.fst)
    (hrefs : ∀ b ∈ data.refs, vm.Reachable b) (htable : ∀ t, data.table = some t → t = initTable)
    (hstring : ∀ chars hash, data = .string chars hash →
      hash = hashString chars ∧ ∀ b, vm.IsString b → vm.chars b ≠ chars) :
    Runs enough (vm.allocateObject gc size n a data) fun vm' => ∃ addrs',
      Allocated c size locals a data vm addrs vm' addrs' := by
  unfold allocateObject
  refine (reallocate_runs h.heapOk h.books (fun _ _ _ => rfl) rfl hn (data.size size)
    (.object a)).bind ?_
  rintro vm₁ ⟨addrs', l, hl, hrealloc⟩
  have hc := hrealloc.collects
  have hok := hrealloc.heapOk
  by_cases hused : (vm₁.heap a).isSome
  · rw [if_pos hused]
    refine ⟨fun he => ?_, fun _ hnone => by cases hnone⟩
    rw [hc.fresh (hfresh he)] at hused
    cases hused
  · rw [if_neg hused]
    have hnone : vm₁.heap a = none := Option.not_isSome_iff_eq_none.1 hused
    have hnot : a ∉ addrs' := fun hmem => hused ((hok.listed a).2 hmem)
    have hunreachable : ¬ vm.Reachable a := fun ha =>
      hused (hok.reachable ((hc.reachable a).2 ha))
    have hroots : SameRoots vm₁ (vm₁.withObject a data) := ⟨rfl, rfl, rfl, rfl, rfl⟩
    refine Runs.pure ⟨addrs', ⟨?_, hc.roots.trans hroots, hc.globals, fun b hb => ?_, hunreachable⟩,
      ?_, ?_, hnot, hc.sublist.length_le⟩
    · show (vm₁.withObject a data).dataAt a = some data
      rw [dataAt_withObject, if_pos rfl]
    · show (vm₁.withObject a data).dataAt b = _
      have hne : b ≠ a := fun heq => hunreachable (heq ▸ hb)
      rw [dataAt_withObject, if_neg hne, hc.data b hb]
    · refine hok.withObject hnone (fun b hb => ?_) htable fun chars hash hdata => ?_
      · exact hok.reachable ((hc.reachable b).2 (hrefs b hb))
      · refine ⟨(hstring chars hash hdata).1, fun b hb => ?_⟩
        obtain ⟨chars', hash', hb⟩ := hb
        have hold := hc.old b _ hb
        rw [chars_congr (hb.trans hold.symm)]
        exact (hstring chars hash hdata).2 b ⟨chars', hash', hold⟩
    · have howned : (vm₁.withObject a data).owned size addrs' = vm₁.owned size addrs' := by
        unfold owned
        congr 1
        refine List.flatMap_congr fun b hb => ?_
        have hne : b ≠ a := fun heq => hnot (heq ▸ hb)
        simp only [blocksAt, dataAt_withObject, if_neg hne]
      have hholds := hrealloc.holds_owned
      simp only [Option.map_none, Option.getD_none, Nat.cast_zero, sub_zero] at hholds
      show vm₁.ledger.Holds ((.object a, data.size size) ::
        (locals ++ (vm₁.withObject a data).owned size addrs')) 0
      rw [howned, hl]
      refine Ledger.Holds.grant hholds ?_
      rw [List.map_append, List.mem_append]
      rintro (hmem | hmem)
      · exact hlocals hmem
      · refine not_mem_owned (fun b hb heq => ?_) (fun h => by cases h) (fun h => by cases h) hmem
        exact hnot (Option.some.inj heq ▸ hb)

/-- The new object is complete when the blocks of its arrays are there. -/
theorem Allocated.sound (h : Allocated c size locals a data vm addrs vm' addrs') {ledger : Ledger}
    {locals' : List (Block × ℕ)}
    (hbooks : ledger.Holds (data.blocks size a ++ (locals' ++ vm'.owned size addrs')) 0) :
    Sound c size (data.newString a) locals' { vm' with ledger := ledger } (a :: addrs') := by
  refine ⟨h.heapOk.reroot h.heapOk.rooted, hbooks.perm ?_⟩
  have hblocks : VM.blocksAt size { vm' with ledger := ledger } a = data.blocks size a := by
    have hat : VM.dataAt { vm' with ledger := ledger } a = some data := h.at_
    simp only [blocksAt, hat, Option.map_some, Option.getD_some]
  have howned : VM.owned size { vm' with ledger := ledger } (a :: addrs')
      = data.blocks size a ++ vm'.owned size addrs' := by
    simp only [owned, List.flatMap_cons, hblocks, List.append_assoc]
    rfl
  rw [howned]
  exact List.perm_append_comm_assoc _ _ _

/-- An object whose arrays are empty at first. -/
theorem new_runs (h : Sound c size none [] vm addrs) (hn : enough → addrs.length ≤ n)
    (hfresh : enough → vm.heap a = none) (hrefs : ∀ b ∈ data.refs, vm.Reachable b)
    (htable : ∀ t, data.table = some t → t = initTable) (hstring : data.isString = false)
    (hbare : ∀ p ∈ data.arrays size a, p.2 = 0) (hnodup : ((data.arrays size a).map Prod.fst).Nodup)
    (harrays : ∀ p ∈ data.arrays size a, p.1 ≠ .object a) :
    Runs enough (vm.allocateObject gc size n a data) fun vm' => ∃ addrs',
      Sound c size none [] vm' (a :: addrs') ∧ Created a data vm vm' := by
  refine (allocateObject_runs h hn hfresh (by simp) hrefs htable fun chars hash hdata => ?_).imp ?_
  · rw [hdata] at hstring
    cases hstring
  · rintro vm' ⟨addrs', halloc⟩
    refine ⟨addrs', ?_, halloc.toCreated⟩
    have hnone : data.newString a = none := by simp [Data.newString, hstring]
    rw [← hnone]
    refine halloc.sound ?_
    rw [Data.blocks, List.append_assoc]
    refine halloc.books.emptyBlocks hbare hnodup fun p hp hmem => ?_
    have howner : p.1.owner = some a :=
      Data.owner_of_mem_blocks (List.mem_append_left _ hp)
    rcases List.mem_cons.1 hmem with heq | hmem
    · exact harrays p hp heq
    · refine not_mem_owned (fun b hb heq => ?_) (fun h => ?_) (fun h => ?_) hmem
      · rw [howner] at heq
        exact halloc.new (Option.some.inj heq ▸ hb)
      · rw [h] at howner
        cases howner
      · rw [h] at howner
        cases howner

/-- The block of the only array goes to the new object. -/
theorem Allocated.settle (block : Block) {k : ℕ}
    (h : Allocated c size [(.scratch, k)] a data vm addrs vm' addrs')
    (harrays : data.arrays size a = [(block, k)]) (hne : block ≠ .object a) :
    Sound c size (data.newString a) [] (vm'.settle block) (a :: addrs') := by
  have howner : block.owner = some a := by
    have hmem : (block, k) ∈ data.blocks size a := List.mem_append_left _ (by simp [harrays])
    exact Data.owner_of_mem_blocks hmem
  refine h.sound ?_
  rw [Data.blocks, harrays]
  refine Ledger.Holds.settle (h.books.perm (List.Perm.swap _ _ _)) ?_ ?_
  · intro hmem
    rcases List.mem_cons.1 hmem with heq | hmem
    · exact hne heq
    · refine not_mem_owned (fun b hb heq => ?_) (fun h => ?_) (fun h => ?_) hmem
      · rw [howner] at heq
        exact h.new (Option.some.inj heq ▸ hb)
      · rw [h] at howner
        cases howner
      · rw [h] at howner
        cases howner
  · intro heq
    rw [heq] at howner
    cases howner

theorem newClosure_runs (h : Sound c size none [] vm addrs) (hn : enough → addrs.length ≤ n)
    (hfresh : enough → vm.heap a = none) {function : Addr} {arity upvalueCount : ℕ} {chunk : Chunk N}
    {name : Option Addr} (hdata : vm.dataAt function = some (.function arity upvalueCount chunk name))
    (hreach : vm.Reachable function) :
    Runs enough (vm.newClosure gc size n a function) fun vm' => ∃ addrs',
      Sound c size none [] vm' (a :: addrs') ∧
      Created a (.closure function (List.replicate upvalueCount none)) vm vm' := by
  simp only [newClosure, hdata]
  refine (allocate_runs h hn _).bind ?_
  rintro vm₁ ⟨addrs₁, hc, h₁⟩
  have hrefs : ∀ b ∈ (Data.closure function (List.replicate upvalueCount none) : Data N).refs,
      vm₁.Reachable b := by
    intro b hb
    have hb' : b = function := by simpa [Data.refs, List.flatMap_replicate] using hb
    rw [hb', hc.reachable]
    exact hreach
  refine (allocateObject_runs h₁ (fun he => hc.sublist.length_le.trans (hn he))
    (fun he => hc.fresh (hfresh he)) (by simp)
    hrefs (fun t ht => by cases ht) fun chars hash hd => by cases hd).bind ?_
  rintro vm₂ ⟨addrs₂, halloc⟩
  refine Runs.pure ⟨addrs₂, halloc.settle _ (by simp [Data.arrays]) (fun heq => by cases heq), ?_⟩
  have hsettled : SameRoots vm₂ (vm₂.settle (.upvalues a)) := ⟨rfl, rfl, rfl, rfl, rfl⟩
  exact ⟨halloc.at_, hc.roots.trans (halloc.roots.trans hsettled), halloc.globals.trans hc.globals,
    fun b hb => (halloc.same b ((hc.reachable b).2 hb)).trans (hc.data b hb),
    fun ha => halloc.unreachable ((hc.reachable a).2 ha)⟩

/-! ### Writes and what is owned -/

theorem flatMap_perm_erase {β : Type} (own : Addr → List β) (ha : a ∈ addrs) :
    (addrs.flatMap own).Perm (own a ++ (addrs.erase a).flatMap own) :=
  (List.perm_cons_erase ha).flatMap_right own

/-- What the machine owns besides one object. -/
def rest (size : Sizes) (vm : VM N) (addrs : List Addr) (a : Addr) : List (Block × ℕ) :=
  (addrs.erase a).flatMap (vm.blocksAt size) ++ vm.tableBlocks size

theorem owned_perm {o : Obj N} (ha : a ∈ addrs) (ho : vm.heap a = some o) :
    (vm.owned size addrs).Perm (o.data.blocks size a ++ vm.rest size addrs a) := by
  have hblocks : vm.blocksAt size a = o.data.blocks size a := by simp [blocksAt, dataAt, ho]
  rw [← hblocks, rest, ← List.append_assoc]
  exact (flatMap_perm_erase _ ha).append_right _

theorem owned_withData {o : Obj N} (hnodup : addrs.Nodup) (ha : a ∈ addrs) :
    ((vm.withData a o data).owned size addrs).Perm (data.blocks size a ++ vm.rest size addrs a) := by
  have hblocks : (vm.withData a o data).blocksAt size a = data.blocks size a := by
    simp [blocksAt, dataAt_withData]
  have hothers : (addrs.erase a).flatMap ((vm.withData a o data).blocksAt size)
      = (addrs.erase a).flatMap (vm.blocksAt size) := by
    refine List.flatMap_congr fun b hb => ?_
    have hne : b ≠ a := (hnodup.mem_erase_iff.1 hb).1
    simp only [blocksAt, dataAt_withData, if_neg hne]
  rw [← hblocks, rest, ← hothers, ← List.append_assoc]
  exact (flatMap_perm_erase _ ha).append_right _

/-! ### Writes to tables -/

/-- What is known after a write to a table. -/
structure TableWritten (c : ℕ) (size : Sizes) (pending : Option Addr) (table : TableRef)
    (t t' : Table N) (vm : VM N) (addrs : List Addr) (vm' : VM N) : Prop where
  heapOk : HeapOk c vm' addrs pending
  at_ : vm'.tableAt table = some t'
  ledger : vm'.ledger = vm.ledger
  roots : SameRoots vm vm'
  globals : table ≠ .globals → vm'.globals = vm.globals
  owner : ∀ b, table.owner = some b → vm'.dataAt b = (vm.dataAt b).map (Data.withTable t')
  data : ∀ b, table.owner ≠ some b → vm'.dataAt b = vm.dataAt b
  live : ∀ b, (vm.heap b).isSome → (vm'.heap b).isSome
  strings : ∀ b, vm.IsString b → vm'.dataAt b = vm.dataAt b
  owned : ∃ others, (vm.owned size addrs).Perm ((.entries table, size.entry * t.capacity) :: others) ∧
    (vm'.owned size addrs).Perm ((.entries table, size.entry * t'.capacity) :: others)

/-- A write to the table of an object. -/
theorem withData_written (h : HeapOk c vm addrs pending) {table : TableRef} {t t' : Table N}
    {o : Obj N} {k : ℕ} (ho : vm.heap a = some o) (hold : o.data.isString = false)
    (hnew : data.isString = false) (hrefs : ∀ b ∈ data.refs, (vm.heap b).isSome)
    (htable : ∀ t, data.table = some t → vm.TableOk t)
    (hblocks : o.data.blocks size a = [(.entries table, size.entry * t.capacity), (.object a, k)])
    (hblocks' : data.blocks size a = [(.entries table, size.entry * t'.capacity), (.object a, k)])
    (hat : (vm.withData a o data).tableAt table = some t') (howner : table.owner = some a)
    (hdata : data = o.data.withTable t') :
    TableWritten c size pending table t t' vm addrs (vm.withData a o data) := by
  have ha : a ∈ addrs := (h.listed a).1 (by simp [ho])
  refine ⟨h.withData ho hold hnew hrefs htable, hat, rfl, ⟨rfl, rfl, rfl, rfl, rfl⟩, fun _ => rfl,
    fun b hb => ?_, fun b hb => ?_, fun b hb => ?_, fun b hb => ?_,
    (.object a, k) :: vm.rest size addrs a, ?_, ?_⟩
  · obtain rfl := Option.some.inj (howner.symm.trans hb)
    rw [dataAt_withData, if_pos rfl, hdata]
    simp [dataAt, ho]
  · have hne : b ≠ a := fun heq => hb (heq ▸ howner)
    rw [dataAt_withData, if_neg hne]
  · rw [isSome_heap_iff, dataAt_withData]
    split
    · rfl
    · exact isSome_heap_iff.1 hb
  · have hne : b ≠ a := by
      rintro rfl
      obtain ⟨d, hd, hstring⟩ := isString_iff.1 hb
      obtain rfl : o.data = d := by simpa [dataAt, ho] using hd
      rw [hold] at hstring
      cases hstring
    rw [dataAt_withData, if_neg hne]
  · have hperm : (vm.owned size addrs).Perm _ := owned_perm ha ho
    rw [hblocks] at hperm
    exact hperm
  · have hperm : ((vm.withData a o data).owned size addrs).Perm _ :=
      owned_withData h.linked.nodup ha
    rw [hblocks'] at hperm
    exact hperm

theorem setTable_written (size : Sizes) (pending' : Option Addr) (h : HeapOk c vm addrs pending)
    {table : TableRef} {t t' : Table N} (ht : vm.tableAt table = some t) (ht' : vm.TableOk t')
    (hrefs : table ≠ .strings → ∀ b ∈ tableRefs t', (vm.heap b).isSome)
    (hroom : table = .globals → c ≤ t'.capacity)
    (hkeys : table = .strings →
      ∀ a, (∃ value, ⟨some a, value⟩ ∈ t'.entries) ↔ vm.IsString a ∧ pending' ≠ some a)
    (hpending : table ≠ .strings → pending' = pending) :
    ∃ vm', vm.setTable table t' = some vm' ∧
      TableWritten c size pending' table t t' vm addrs vm' := by
  cases table with
  | globals =>
    obtain rfl := Option.some.inj ht
    obtain rfl := hpending (fun h => by cases h)
    refine ⟨_, rfl, h.withGlobals ht' (hrefs fun h => by cases h) (hroom rfl), rfl, rfl,
      ⟨rfl, rfl, rfl, rfl, rfl⟩, fun hne => absurd rfl hne, fun _ hb => (by cases hb), fun _ _ => rfl,
      fun _ hb => hb, fun _ _ => rfl, addrs.flatMap (vm.blocksAt size) ++
        [(.entries .strings, size.entry * vm.strings.capacity)], ?_, ?_⟩
    · exact List.perm_middle
    · exact List.perm_middle
  | strings =>
    obtain rfl := Option.some.inj ht
    refine ⟨_, rfl, h.withStrings ht' (hkeys rfl), rfl, rfl, ⟨rfl, rfl, rfl, rfl, rfl⟩,
      fun _ => rfl, fun _ hb => (by cases hb), fun _ _ => rfl, fun _ hb => hb, fun _ _ => rfl,
      addrs.flatMap (vm.blocksAt size) ++ [(.entries .globals, size.entry * vm.globals.capacity)], ?_, ?_⟩
    · exact ((List.Perm.swap _ _ _).append_left _).trans List.perm_middle
    · exact ((List.Perm.swap _ _ _).append_left _).trans List.perm_middle
  | methods a =>
    obtain rfl := hpending (fun h => by cases h)
    have hrefs := hrefs (fun h => by cases h)
    unfold tableAt at ht
    simp only at ht
    split at ht
    · rename_i name methods hdata
      obtain rfl := Option.some.inj ht
      obtain ⟨o, ho, hodata⟩ := Option.map_eq_some_iff.1 hdata
      have hlive : (vm.heap a).isSome := by simp [ho]
      refine ⟨vm.withData a o (.klass name t'), ?_, ?_⟩
      · simp only [setTable, hdata, setData, ho]
        rfl
      · refine withData_written (k := size.klass) h ho (by rw [hodata]; rfl) rfl (fun b hb => ?_)
          (fun t ht => Option.some.inj ht ▸ ht') (by rw [hodata]; rfl) rfl ?_ rfl
          (by rw [hodata]; rfl)
        · rcases List.mem_cons.1 hb with rfl | hb
          · refine h.closed a hlive b ?_
            rw [refs_eq hdata]
            exact List.mem_cons_self
          · exact hrefs b hb
        · simp only [tableAt, dataAt_withData, if_pos]
    · cases ht
  | fields a =>
    obtain rfl := hpending (fun h => by cases h)
    have hrefs := hrefs (fun h => by cases h)
    unfold tableAt at ht
    simp only at ht
    split at ht
    · rename_i klass fields hdata
      obtain rfl := Option.some.inj ht
      obtain ⟨o, ho, hodata⟩ := Option.map_eq_some_iff.1 hdata
      have hlive : (vm.heap a).isSome := by simp [ho]
      refine ⟨vm.withData a o (.inst klass t'), ?_, ?_⟩
      · simp only [setTable, hdata, setData, ho]
        rfl
      · refine withData_written (k := size.inst) h ho (by rw [hodata]; rfl) rfl (fun b hb => ?_)
          (fun t ht => Option.some.inj ht ▸ ht') (by rw [hodata]; rfl) rfl ?_ rfl
          (by rw [hodata]; rfl)
        · rcases List.mem_cons.1 hb with rfl | hb
          · refine h.closed a hlive b ?_
            rw [refs_eq hdata]
            exact List.mem_cons_self
          · exact hrefs b hb
        · simp only [tableAt, dataAt_withData, if_pos]
    · cases ht

/-- The new entries of a grown array refer to what the old ones refer to. -/
theorem mem_tableRefs_of_entries {t t' : Table N} {b : Addr}
    (hentries : ∀ entry ∈ t'.entries, entry = ⟨none, TableValue.nil⟩ ∨ entry ∈ t.entries)
    (hb : b ∈ tableRefs t') : b ∈ tableRefs t := by
  obtain ⟨entry, hentry, hb⟩ := List.mem_flatMap.1 hb
  rcases hentries entry hentry with rfl | hentry
  · cases hb
  · exact List.mem_flatMap.2 ⟨entry, hentry, hb⟩

theorem HeapOk.live_tableRefs (h : HeapOk c vm addrs pending) {table : TableRef} {t : Table N}
    (hne : table ≠ .strings) (ht : vm.tableAt table = some t) :
    ∀ b ∈ tableRefs t, (vm.heap b).isSome := by
  intro b hb
  rcases tableAt_cases ht with ⟨-, rfl⟩ | ⟨hstrings, -⟩ | ⟨a, data, -, hdata, ht⟩
  · refine h.rooted b ?_
    simp [roots, hb]
  · exact absurd hstrings hne
  · refine h.closed a ?_ b ?_
    · rw [isSome_heap_iff, hdata]
      rfl
    · rw [refs_eq hdata]
      exact Data.tableRefs_subset ht hb

/-- A table that the program can still use is there after a collection, and its array has the length
it had. -/
theorem Collects.exists_tableAt (h : Collects vm vm' addrs addrs') {table : TableRef} {t : Table N}
    (ht : vm.tableAt table = some t) (howner : ∀ a, table.owner = some a → vm.Reachable a) :
    ∃ t', vm'.tableAt table = some t' ∧ t'.capacity = t.capacity := by
  by_cases hne : table = .strings
  · subst hne
    obtain rfl := Option.some.inj ht
    exact ⟨vm'.strings, rfl, h.capacity⟩
  · exact ⟨t, (h.tableAt_eq hne howner).trans ht, rfl⟩

/-- What is known after a table has been given room for another key, or a key. -/
structure TableGrown (c : ℕ) (size : Sizes) (pending : Option Addr) (table : TableRef) (t' : Table N)
    (vm : VM N) (addrs : List Addr) (vm' : VM N) (addrs' : List Addr) : Prop where
  sound : Sound c size pending [] vm' addrs'
  at_ : vm'.tableAt table = some t'
  roots : SameRoots vm vm'
  globals : table ≠ .globals → vm'.globals = vm.globals
  owner : ∀ b, table.owner = some b → vm'.dataAt b = (vm.dataAt b).map (Data.withTable t')
  data : ∀ b, vm.Reachable b → table.owner ≠ some b → vm'.dataAt b = vm.dataAt b
  live : ∀ b, vm.Reachable b → (vm'.heap b).isSome
  strings : ∀ b, vm.Reachable b → vm.IsString b → vm'.dataAt b = vm.dataAt b
  length : addrs'.length ≤ addrs.length

/-- What a table of the program refers to can be reached, if its object can. -/
theorem reachable_tableRefs {table : TableRef} {t : Table N} (ht : vm.tableAt table = some t)
    (hne : table ≠ .strings) (howner : ∀ a, table.owner = some a → vm.Reachable a) :
    ∀ b ∈ tableRefs t, vm.Reachable b := by
  intro b hb
  rcases tableAt_cases ht with ⟨-, rfl⟩ | ⟨hstrings, -⟩ | ⟨a, data, ha, hdata, ht⟩
  · refine .root ?_
    simp [roots, hb]
  · exact absurd hstrings hne
  · refine (howner a ha).step ?_
    rw [refs_eq hdata]
    exact Data.tableRefs_subset ht hb

theorem hash_congr (h : vm'.dataAt a = vm.dataAt a) : vm'.hash a = vm.hash a := by
  simp only [hash, h]

theorem adjustCapacity_runs (h : Sound c size pending [] vm addrs) (hn : enough → addrs.length ≤ n)
    {table : TableRef} {t : Table N} (ht : vm.tableAt table = some t)
    (howner : ∀ a, table.owner = some a → vm.Reachable a) :
    Runs enough (vm.adjustCapacity gc size n table (growCapacity t.capacity)) fun vm' =>
      ∃ addrs' t', TableGrown c size pending table t' vm addrs vm' addrs' ∧
        4 * (t'.count + 1) ≤ 3 * t'.capacity ∧ (table ≠ .strings →
          HashTable.adjustCapacity vm.hash (growCapacity t.capacity) t = some t') := by
  unfold adjustCapacity
  refine (allocate_runs h hn _).bind ?_
  rintro vm₁ ⟨addrs', hc, h₁⟩
  obtain ⟨t₁, ht₁, hcap⟩ := hc.exists_tableAt ht howner
  have hok₁ := h₁.heapOk
  have htable₁ := hok₁.tables table t₁ ht₁
  obtain ⟨m, hm⟩ := htable₁.wf.exists_represents
  obtain ⟨t', hadjust, hm', hroom⟩ := hm.adjustCapacity
  rw [hcap] at hadjust
  simp only [ht₁, hadjust, Option.bind_eq_bind, Option.bind_some]
  have hentries : ∀ entry ∈ t'.entries, entry = ⟨none, TableValue.nil⟩ ∨ entry ∈ t₁.entries :=
    fun entry hentry => mem_adjustCapacity hadjust hentry
  have hkeys : ∀ key value, ⟨some key, value⟩ ∈ t'.entries → ⟨some key, value⟩ ∈ t₁.entries := by
    intro key value hmem
    exact (hentries _ hmem).resolve_left fun heq => by cases heq
  have hcap' : t'.capacity = growCapacity t.capacity := adjustCapacity_capacity hadjust
  -- The write to the table does not depend on the ledger.
  have hsettled : HeapOk c (VM.settle (.entries table) { vm₁ with
      ledger := vm₁.ledger.free (.entries table) (size.entry * t₁.capacity) }) addrs' pending :=
    hok₁.reroot hok₁.rooted
  have ht₁' : VM.tableAt table (VM.settle (.entries table) { vm₁ with
      ledger := vm₁.ledger.free (.entries table) (size.entry * t₁.capacity) }) = some t₁ := by
    cases table <;> exact ht₁
  obtain ⟨vm', hset, hwritten⟩ := setTable_written size pending hsettled ht₁'
    ⟨hm'.wf, fun key value hmem => htable₁.keys key value (hkeys key value hmem)⟩
    (fun hne b hb => hok₁.live_tableRefs hne ht₁ b (mem_tableRefs_of_entries hentries hb))
    (fun hglobals => by
      have hlt := lt_growCapacity t.capacity
      have hroom := hok₁.room
      subst hglobals
      obtain rfl := Option.some.inj ht₁
      rw [hcap']
      omega)
    (fun hstrings a => by
      subst hstrings
      obtain rfl := Option.some.inj ht₁
      rw [hm'.mem_keys, ← hm.mem_keys]
      exact hok₁.keys a)
    fun _ => rfl
  refine ⟨fun _ => by rw [hset]; rfl, fun vm'' hvm'' => ?_⟩
  obtain rfl := Option.some.inj (hset.symm.trans hvm'')
  have hroots : SameRoots vm₁ vm' := by
    have hr := hwritten.roots
    exact ⟨hr.stack, hr.frames, hr.openUpvalues, hr.compilers, hr.initString⟩
  refine ⟨addrs', t', ⟨⟨hwritten.heapOk, ?_⟩, hwritten.at_, hc.roots.trans hroots,
    fun hne => (hwritten.globals hne).trans hc.globals, fun b hb => ?_, fun b hb hne => ?_,
    fun b hb => ?_, fun b hb hstring => ?_, hc.sublist.length_le⟩, hroom, fun hne => ?_⟩
  · obtain ⟨others, hbefore, hafter⟩ := hwritten.owned
    have hbooks : vm₁.ledger.Holds ((.entries table, size.entry * t₁.capacity) ::
        ((.scratch, size.entry * growCapacity t.capacity) :: others)) 0 :=
      h₁.books.perm ((hbefore.append_left _).trans List.perm_middle)
    have hne : Block.entries table ∉ others.map Prod.fst := by
      intro hmem
      exact (List.nodup_cons.1 hbooks.nodup).1 (List.mem_cons_of_mem _ hmem)
    have hdone := hbooks.free.settle hne (fun heq => by cases heq)
    rw [hwritten.ledger]
    rw [← hcap'] at hdone
    exact hdone.perm hafter.symm
  · have hdata := hc.data b (howner b hb)
    rw [← hdata]
    exact hwritten.owner b hb
  · exact (hwritten.data b hne).trans (hc.data b hb)
  · exact hwritten.live b (hok₁.reachable ((hc.reachable b).2 hb))
  · have hkept : vm₁.IsString b := hc.isString hb hstring
    exact (hwritten.strings b hkept).trans (hc.data b hb)
  · -- A table of the program was not changed by the collection.
    obtain rfl := Option.some.inj (ht₁.symm.trans ((hc.tableAt_eq hne howner).trans ht))
    rw [← hadjust]
    have hkeys : KeysIn vm.Reachable t₁.entries := fun k v hmem =>
      reachable_tableRefs ht hne howner k (mem_tableRefs_key hmem)
    exact (adjustCapacity_congr (fun k hk => hash_congr (hc.data k hk)) hkeys _).symm

/-- What is known after a key has been set: the table has an array, and is what `tableSet` makes of
it. -/
structure TableFilled (c : ℕ) (size : Sizes) (table : TableRef) (key : Addr) (value : Value N)
    (t t' : Table N) (vm : VM N) (addrs : List Addr) (vm' : VM N) (addrs' : List Addr) : Prop
    extends TableGrown c size none table t' vm addrs vm' addrs' where
  array : 0 < t'.capacity
  result : table ≠ .strings → ∃ new, HashTable.tableSet vm.hash key value t = some (new, t')

/-- `tableSet`.  The key that is added to `vm.strings` is the pending string. -/
theorem tableSet_runs (h : Sound c size pending [] vm addrs) (hn : enough → addrs.length ≤ n)
    (table : TableRef) {t : Table N} (ht : vm.tableAt table = some t)
    (howner : ∀ a, table.owner = some a → vm.Reachable a) {key : Addr} {value : Value N}
    (hkey : vm.Reachable key) (hstring : vm.IsString key)
    (hvalue : ∀ b ∈ value.refs, vm.Reachable b)
    (hpending : (table = .strings ∧ pending = some key) ∨ (table ≠ .strings ∧ pending = none)) :
    Runs enough (vm.tableSet gc size n table key value) fun vm' => ∃ addrs' t',
      TableFilled c size table key value t t' vm addrs vm' addrs' := by
  have hgrow : Runs enough (if 4 * (t.count + 1) > 3 * t.capacity then
      vm.adjustCapacity gc size n table (growCapacity t.capacity) else some vm) fun vm' =>
      ∃ addrs' t', TableGrown c size pending table t' vm addrs vm' addrs' ∧
        4 * (t'.count + 1) ≤ 3 * t'.capacity ∧ (table ≠ .strings → ensure vm.hash t = some t') := by
    split
    · rename_i hfull
      refine (adjustCapacity_runs h hn ht howner).imp ?_
      rintro vm' ⟨addrs', t', hgrown, hroom, hadjust⟩
      exact ⟨addrs', t', hgrown, hroom, fun hne => (if_pos hfull).trans (hadjust hne)⟩
    · rename_i hfull
      refine Runs.pure ⟨addrs, t, ⟨h, ht, SameRoots.refl vm, fun _ => rfl, fun b hb => ?_,
        fun _ _ _ => rfl, fun b hb => h.heapOk.reachable hb, fun _ _ _ => rfl, le_refl _⟩, by omega,
        fun _ => if_neg hfull⟩
      rcases tableAt_cases ht with ⟨rfl, -⟩ | ⟨rfl, -⟩ | ⟨a, data, ha, hdata, htable⟩
      · cases hb
      · cases hb
      · obtain rfl := Option.some.inj (ha.symm.trans hb)
        rw [hdata, Option.map_some, Data.withTable_self htable]
  have hrun : vm.tableSet gc size n table key value =
      (if 4 * (t.count + 1) > 3 * t.capacity then
        vm.adjustCapacity gc size n table (growCapacity t.capacity) else some vm) >>= fun v : VM N =>
        (v.tableAt table >>= fun t => HashTable.tableSet v.hash key value t >>= fun result =>
          v.setTable table result.2) := by
    simp only [tableSet, ht, Option.bind_eq_bind, Option.bind_some]
    split
    · rfl
    · simp only [Option.bind_some, ht]
  rw [hrun]
  refine hgrow.bind ?_
  rintro vm₁ ⟨addrs', t₁, h₁, hroom, hensure⟩
  have ht₁ := h₁.at_
  have hok₁ := h₁.sound.heapOk
  have htable₁ := hok₁.tables table t₁ ht₁
  have hkey₁ : vm₁.IsString key := by
    obtain ⟨chars, hash, hdata⟩ := hstring
    exact ⟨chars, hash, (h₁.strings key hkey ⟨chars, hash, hdata⟩).trans hdata⟩
  obtain ⟨m, hm⟩ := htable₁.wf.exists_represents
  obtain ⟨t', hset, hm'⟩ := tableSet_spec hm key value
  have hcap : t'.capacity = t₁.capacity := tableSet_capacity hroom hset
  simp only [ht₁, hset, Option.bind_eq_bind, Option.bind_some]
  obtain ⟨vm', hwrite, hwritten⟩ := setTable_written size none hok₁ ht₁
    ⟨hm'.wf, fun k v hmem => by
      rcases mem_tableSet hset hmem with heq | heq | hmem
      · cases heq
      · obtain rfl : k = key := by simpa using congrArg Entry.key heq
        exact hkey₁
      · exact htable₁.keys k v hmem⟩
    (fun hne b hb => by
      obtain ⟨entry, hentry, hb⟩ := List.mem_flatMap.1 hb
      rcases mem_tableSet hset hentry with rfl | rfl | hentry
      · cases hb
      · rcases List.mem_append.1 hb with hb | hb
        · obtain rfl : b = key := by simpa using hb
          exact hkey₁.isSome
        · exact h₁.live b (hvalue b hb)
      · exact hok₁.live_tableRefs hne ht₁ b (List.mem_flatMap.2 ⟨entry, hentry, hb⟩))
    (fun hglobals => by
      subst hglobals
      obtain rfl := Option.some.inj ht₁
      rw [hcap]
      exact hok₁.room)
    (fun hstrings a => by
      have hpend : pending = some key := by
        rcases hpending with ⟨-, hp⟩ | ⟨hne, -⟩
        · exact hp
        · exact absurd hstrings hne
      subst hstrings
      obtain rfl := Option.some.inj ht₁
      have hbefore := hok₁.keys a
      rw [hm.mem_keys, hpend] at hbefore
      rw [hm'.mem_keys]
      by_cases ha : a = key
      · rw [ha, Function.update_self]
        simpa using hkey₁
      · rw [Function.update_of_ne ha, hbefore]
        simp [Ne.symm ha])
    (fun hne => by
      rcases hpending with ⟨hstrings, -⟩ | ⟨-, hp⟩
      · exact absurd hstrings hne
      · exact hp.symm)
  refine ⟨fun _ => by rw [hwrite]; rfl, fun vm'' hvm'' => ?_⟩
  obtain rfl := Option.some.inj (hwrite.symm.trans hvm'')
  refine ⟨addrs', t', ⟨⟨hwritten.heapOk, ?_⟩, hwritten.at_, h₁.roots.trans hwritten.roots,
    fun hne => (hwritten.globals hne).trans (h₁.globals hne), fun b hb => ?_,
    fun b hb hne => (hwritten.data b hne).trans (h₁.data b hb hne),
    fun b hb => hwritten.live b (h₁.live b hb), fun b hb hb' => ?_, h₁.length⟩, by omega,
    fun hne => ?_⟩
  · obtain ⟨others, hbefore, hafter⟩ := hwritten.owned
    rw [hcap] at hafter
    rw [hwritten.ledger]
    exact h₁.sound.books.perm (hbefore.trans hafter.symm)
  · rw [hwritten.owner b hb, h₁.owner b hb, Option.map_map]
    exact congrArg (Option.map · (vm.dataAt b)) (funext fun data => Data.withTable_withTable t₁ t' data)
  · have hkept : vm₁.IsString b := by
      obtain ⟨chars, hash, hdata⟩ := hb'
      exact ⟨chars, hash, (h₁.strings b hb ⟨chars, hash, hdata⟩).trans hdata⟩
    exact (hwritten.strings b hkept).trans (h₁.strings b hb hb')
  · -- The keys of the table have the hashes they had.
    have hensured := hensure hne
    have hkeys : KeysIn (fun k => vm₁.hash k = vm.hash k) t₁.entries := by
      intro k v hmem
      have hmem' : ⟨some k, v⟩ ∈ t.entries :=
        (mem_ensure hensured hmem).resolve_left fun heq => by cases heq
      have hreach := reachable_tableRefs ht hne howner k (mem_tableRefs_key hmem')
      have hstring' := (h.heapOk.tables table t ht).keys k v hmem'
      exact hash_congr (h₁.strings k hreach hstring')
    have hsame : HashTable.tableSet vm₁.hash key value t₁ = HashTable.tableSet vm.hash key value t₁ :=
      tableSet_congr (fun k hk => hk) hkeys (hash_congr (h₁.strings key hkey hstring))
    have hroomy : ensure vm.hash t₁ = some t₁ := if_neg (by omega)
    have hgrown : HashTable.tableSet vm.hash key value t = HashTable.tableSet vm.hash key value t₁ := by
      simp only [HashTable.tableSet, hensured, hroomy]
    exact ⟨_, hgrown.trans (hsame.symm.trans hset)⟩

end VM

end Lox.Clox.Memory
