import Lox.Clox.Memory.Chunks

/-!
# What an operation does, and that it keeps the memory sound

An operation does something to memory that has nothing to do with collections: at most one object gets
other fields, or the globals change (`Operation.change`).  Whatever is collected on the way, that is
what happens to the objects that can be reached; the memory is sound afterwards, and the operation
comes to an end without following a pointer to memory that was freed.
-/

namespace Lox.Clox.Memory

open HashTable Rounds

variable {N : Type}

namespace VM

variable {vm vm' : VM N} {addrs addrs' : List Addr} {size : Sizes} {n c : ℕ} {gc : VM N → Bool}
  {enough : Prop} {a : Addr} {data : Data N}

/-! ### The operations -/

section Classical

open Classical

theorem Sound.collectGarbage_runs (h : Sound c size none [] vm addrs)
    (hn : enough → addrs.length ≤ n) :
    Runs enough (vm.collectGarbage size n) fun vm' => ∃ addrs', Sound c size none [] vm' addrs' ∧
      Collects vm vm' addrs addrs' := by
  refine (VM.collectGarbage_runs h.heapOk.toCollectable size hn).imp fun vm' hcollected => ?_
  have hc := hcollected.collects
  have hok := h.heapOk.survives safe_reachable hcollected.toSurvives
  refine ⟨addrs.filter vm.Reachable, ⟨hok, ?_⟩, hc⟩
  have hbooks : vm.ledger.Holds
      ([] ++ (addrs.flatMap (vm.blocksAt size) ++ vm.tableBlocks size)) 0 := h.books
  have hholds := hcollected.holds hbooks fun _ _ _ => rfl
  have hsame : (addrs.filter vm.Reachable).flatMap (vm.blocksAt size)
      = (addrs.filter vm.Reachable).flatMap (vm'.blocksAt size) :=
    List.flatMap_congr fun a ha => (hc.blocksAt_eq ((hok.listed a).2 ha)).symm
  rw [hsame, ← hc.tableBlocks_eq] at hholds
  exact hholds

end Classical

/-- An assignment changes neither arrays nor tables. -/
theorem writes_spec {old : Data N} (h : Writes old data) :
    old.isString = false ∧ data.isString = false ∧ data.table = none ∧
      ∀ (size : Sizes) (a : Addr), data.blocks size a = old.blocks size a := by
  cases h with
  | closure function length =>
    refine ⟨rfl, rfl, rfl, fun size a => ?_⟩
    simp only [Data.blocks, Data.arrays, Data.size, length]
  | upvalue location location' closed closed' => exact ⟨rfl, rfl, rfl, fun _ _ => rfl⟩
  | function arity arity' upvalueCount upvalueCount' name name' capacity constants =>
    refine ⟨rfl, rfl, rfl, fun size a => ?_⟩
    simp only [Data.blocks, Data.arrays, Data.size, capacity, constants]

end VM

open Lox.Clox.Memory.VM

variable {vm vm' : VM N} {addrs addrs' : List Addr} {size : Sizes} {n c : ℕ} {gc : VM N → Bool}
  {enough : Prop}

/-! ### What an operation is for -/

/-- The address of the object that an operation may make. -/
def Operation.address : Operation N → Option Addr
  | newClosure a _ => some a
  | newClass a _ => some a
  | newInstance a _ => some a
  | newBoundMethod a _ _ => some a
  | newFunction a => some a
  | newNative a => some a
  | newUpvalue a _ => some a
  | copyString a _ => some a
  | concatenate a _ _ => some a
  | _ => none

/-- The string with given characters. -/
def Data.interned (chars : Name) : Data N := .string chars (hashString chars)

/-- The machine while the operation works: a constant is pushed. -/
def Operation.pushed (vm : VM N) : Operation N → VM N
  | addConstant _ value => vm.push value
  | _ => vm

/-- What happens to the objects that can be reached: at most one gets new fields.  Without an address
it is the object that the operation returns. -/
structure Change (N : Type) where
  written : Option (Option Addr × Data N)
  globals : Table N

/-- The object that gets new fields, if `r` is returned. -/
def Change.target (r : Addr) (change : Change N) : Option (Addr × Data N) :=
  change.written.map fun written => (written.1.getD r, written.2)

/-- A table is stored where it belongs. -/
def TableRef.change (vm : VM N) (t : Table N) : TableRef → Option (Change N)
  | .globals => some ⟨none, t⟩
  | .strings => none
  | .methods a => (vm.dataAt a).map fun data => ⟨some (some a, data.withTable t), vm.globals⟩
  | .fields a => (vm.dataAt a).map fun data => ⟨some (some a, data.withTable t), vm.globals⟩

/-- The change that an operation is for, without a collector. -/
def Operation.change (vm : VM N) : Operation N → Option (Change N)
  | collect => some ⟨none, vm.globals⟩
  | newClosure _ function =>
    match vm.dataAt function with
    | some (.function _ upvalueCount _ _) =>
      some ⟨some (none, .closure function (List.replicate upvalueCount none)), vm.globals⟩
    | _ => none
  | newClass _ name => some ⟨some (none, .klass name initTable), vm.globals⟩
  | newInstance _ klass => some ⟨some (none, .inst klass initTable), vm.globals⟩
  | newBoundMethod _ receiver method => some ⟨some (none, .boundMethod receiver method), vm.globals⟩
  | newFunction _ => some ⟨some (none, .function 0 0 Chunk.init none), vm.globals⟩
  | newNative _ => some ⟨some (none, .native), vm.globals⟩
  | newUpvalue _ slot => some ⟨some (none, .upvalue (some slot) .nil), vm.globals⟩
  | copyString _ chars => some ⟨some (none, .interned chars), vm.globals⟩
  | concatenate _ first second =>
    some ⟨some (none, .interned (vm.chars first ++ vm.chars second)), vm.globals⟩
  | tableSet table key value => do
    let t ← vm.tableAt table
    let (_, t) ← HashTable.tableSet vm.hash key value t
    table.change vm t
  | tableDelete key => do
    let (_, globals) ← HashTable.tableDelete vm.hash key vm.globals
    return ⟨none, globals⟩
  | writeChunk function byte line =>
    match vm.dataAt function with
    | some (.function arity upvalueCount chunk name) =>
      some ⟨some (some function, .function arity upvalueCount (chunk.write byte line) name), vm.globals⟩
    | _ => none
  | addConstant function value =>
    match vm.dataAt function with
    | some (.function arity upvalueCount chunk name) =>
      some ⟨some (some function, .function arity upvalueCount
        { chunk with constants := chunk.constants.write value } name), vm.globals⟩
    | _ => none
  | assign a data => some ⟨some (some a, data), vm.globals⟩

/-- What is known after an operation: the change has happened, and nothing else that can be reached
has. -/
structure Operation.Done (c : ℕ) (size : Sizes) (op : Operation N) (vm : VM N) (r : Addr)
    (change : Change N) (result : List Addr × VM N) : Prop where
  sound : ∃ addrs', VM.Sound c size none [] result.2 addrs'
  meant : op.change vm = some change
  roots : SameRoots vm result.2
  globals : result.2.globals = change.globals
  written : ∀ a data, change.target r = some (a, data) → result.2.dataAt a = some data
  same : ∀ b, (op.pushed vm).Reachable b → (∀ data, change.target r ≠ some (b, data)) →
    result.2.dataAt b = vm.dataAt b
  returned : result.1 = if op.address.isSome then [r] else []
  new : op.address.isSome → ∃ data, change.written = some (none, data) ∧
    (vm.Reachable r → data.isString ∧ vm.dataAt r = some data)

theorem Operation.reachable_pushed {op : Operation N} {b : Addr} (hb : vm.Reachable b) :
    (op.pushed vm).Reachable b := by
  cases op with
  | addConstant function value => exact reachable_push (.inr hb)
  | _ => exact hb

/-- What could be reached is still there. -/
theorem Operation.Done.live {op : Operation N} {r : Addr} {change : Change N}
    {result : List Addr × VM N} (h : op.Done c size vm r change result) {b : Addr}
    (hb : vm.Reachable b) (hlive : (vm.heap b).isSome) : (result.2.heap b).isSome := by
  rw [isSome_heap_iff] at hlive ⊢
  by_cases hwritten : ∃ data, change.target r = some (b, data)
  · obtain ⟨data, hwritten⟩ := hwritten
    rw [h.written b data hwritten]
    rfl
  · rw [h.same b (reachable_pushed hb) fun data hdata => hwritten ⟨data, hdata⟩]
    exact hlive

/-- What an operation returns exists. -/
theorem Operation.Done.results_live {op : Operation N} {r : Addr} {change : Change N}
    {result : List Addr × VM N} (h : op.Done c size vm r change result) :
    ∀ a ∈ result.1, (result.2.heap a).isSome := by
  intro a ha
  rw [h.returned] at ha
  split at ha
  · rename_i haddress
    obtain ⟨data, hwritten, -⟩ := h.new haddress
    have htarget : change.target r = some (r, data) := by simp [Change.target, hwritten]
    rw [List.mem_singleton.1 ha, isSome_heap_iff, h.written r data htarget]
    rfl
  · cases ha

/-! ### The operations -/

theorem Operation.pushed_of_address {op : Operation N} {a : Addr} (haddress : op.address = some a) :
    op.pushed vm = vm := by
  cases op with
  | addConstant function value => cases haddress
  | _ => rfl

theorem Operation.done_created {op : Operation N} {a : Addr} {data : Data N}
    (hsound : VM.Sound c size none [] vm' addrs') (h : Created a data vm vm')
    (haddress : op.address = some a) (hchange : op.change vm = some ⟨some (none, data), vm.globals⟩) :
    op.Done c size vm a ⟨some (none, data), vm.globals⟩ ([a], vm') where
  sound := ⟨addrs', hsound⟩
  meant := hchange
  roots := h.roots
  globals := h.globals
  written b data' hwritten := by
    obtain ⟨rfl, rfl⟩ := Prod.mk.inj (Option.some.inj hwritten)
    exact h.at_
  same b hb _ := by
    rw [pushed_of_address haddress] at hb
    exact h.same b hb
  returned := by rw [haddress]; rfl
  new _ := ⟨data, rfl, fun ha => absurd ha h.unreachable⟩

/-- An object whose arrays are empty at first. -/
theorem Operation.done_new {op : Operation N} (h : VM.Sound c size none [] vm addrs) {a : Addr}
    {data : Data N} (hn : enough → addrs.length ≤ n) (hfresh : enough → vm.heap a = none)
    (haddress : op.address = some a) (hchange : op.change vm = some ⟨some (none, data), vm.globals⟩)
    (hrefs : ∀ b ∈ data.refs, vm.Reachable b) (htable : ∀ t, data.table = some t → t = initTable)
    (hstring : data.isString = false) (hbare : ∀ p ∈ data.arrays size a, p.2 = 0)
    (hnodup : ((data.arrays size a).map Prod.fst).Nodup)
    (harrays : ∀ p ∈ data.arrays size a, p.1 ≠ .object a) :
    Runs enough (vm.allocateObject gc size n a data >>= fun v : VM N => some ([a], v))
      fun result => ∃ r change, op.Done c size vm r change result := by
  refine (new_runs h hn hfresh hrefs htable hstring hbare hnodup harrays).bind ?_
  rintro vm' ⟨addrs', hsound, hcreated⟩
  exact Runs.pure ⟨a, _, done_created hsound hcreated haddress hchange⟩

theorem Operation.done_interned {op : Operation N} {chars : Name} {a r : Addr}
    (h : Interned c size chars vm addrs r vm' addrs') (haddress : op.address = some a)
    (hchange : op.change vm = some ⟨some (none, .interned chars), vm.globals⟩) :
    op.Done c size vm r ⟨some (none, .interned chars), vm.globals⟩ ([r], vm') where
  sound := ⟨addrs', h.sound⟩
  meant := hchange
  roots := h.roots
  globals := h.globals
  written b data hwritten := by
    obtain ⟨rfl, rfl⟩ := Prod.mk.inj (Option.some.inj hwritten)
    exact h.at_
  same b hb _ := by
    rw [pushed_of_address haddress] at hb
    exact h.same b hb
  returned := by rw [haddress]; rfl
  new _ := ⟨_, rfl, fun hr => ⟨rfl, (h.same r hr).symm.trans h.at_⟩⟩

theorem Operation.done_chunk {op : Operation N} {a : Addr} {data : Data N}
    (h : ChunkWritten c size a data vm addrs vm' addrs') (haddress : op.address = none)
    (hsame : ∀ b, (op.pushed vm).Reachable b → b ≠ a → vm'.dataAt b = vm.dataAt b)
    (hchange : op.change vm = some ⟨some (some a, data), vm.globals⟩) :
    op.Done c size vm 0 ⟨some (some a, data), vm.globals⟩ ([], vm') where
  sound := ⟨addrs', h.sound⟩
  meant := hchange
  roots := h.roots
  globals := h.globals
  written b data' hwritten := by
    obtain ⟨rfl, rfl⟩ := Prod.mk.inj (Option.some.inj hwritten)
    exact h.at_
  same b hb hne := hsame b hb fun heq => hne data (by rw [heq]; rfl)
  returned := by rw [haddress]; rfl
  new hsome := by
    rw [haddress] at hsome
    cases hsome

/-- A table of an object has a key more. -/
theorem Operation.done_filled {op : Operation N} {table : TableRef} {key a : Addr} {value : Value N}
    {t t' : Table N} (hok : VM.HeapOk c vm addrs none)
    (h : TableFilled c size table key value t t' vm addrs vm' addrs') (howner : table.owner = some a)
    (ha : vm.Reachable a)
    (hmeant : ∀ change, ((vm.dataAt a).map fun data : Data N =>
      (⟨some (some a, data.withTable t'), vm.globals⟩ : Change N)) = some change →
        op.change vm = some change) (hpushed : op.pushed vm = vm) (haddress : op.address = none) :
    ∃ r change, op.Done c size vm r change ([], vm') := by
  obtain ⟨data, hdata⟩ := Option.isSome_iff_exists.1 (isSome_heap_iff.1 (hok.reachable ha))
  have hglobals : table ≠ .globals := by
    rintro rfl
    cases howner
  refine ⟨0, ⟨some (some a, data.withTable t'), vm.globals⟩, ⟨addrs', h.sound⟩, hmeant _ ?_, h.roots,
    h.globals hglobals, fun b data' hw => ?_, fun b hb hw => ?_, ?_, fun hsome => ?_⟩
  · rw [hdata]
    rfl
  · obtain ⟨rfl, rfl⟩ := Prod.mk.inj (Option.some.inj hw)
    show vm'.dataAt a = _
    rw [h.owner a howner, hdata]
    rfl
  · rw [hpushed] at hb
    refine h.data b hb fun heq => ?_
    obtain rfl := Option.some.inj (howner.symm.trans heq)
    exact hw _ rfl
  · rw [haddress]
    rfl
  · rw [haddress] at hsome
    cases hsome

/-- Every operation does what it is for, keeps the memory sound, and comes to an end if it has a new
address for the object it makes. -/
theorem Operation.run_runs (h : VM.Sound c size none [] vm addrs) (op : Operation N)
    (henabled : op.Enabled vm) (hn : enough → addrs.length + 1 ≤ n)
    (hfresh : enough → ∀ a, op.address = some a → vm.heap a = none) :
    Runs enough (op.run gc size n vm) fun result => ∃ r change, op.Done c size vm r change result := by
  have hok := h.heapOk
  have hn' : enough → addrs.length ≤ n := fun he => (Nat.le_succ _).trans (hn he)
  have hfresh' : ∀ a, op.address = some a → enough → vm.heap a = none := fun a ha he => hfresh he a ha
  cases op with
  | collect =>
    refine (VM.Sound.collectGarbage_runs h hn').bind ?_
    rintro vm' ⟨addrs', hsound, hc⟩
    exact Runs.pure ⟨0, ⟨none, vm.globals⟩, ⟨addrs', hsound⟩, rfl, hc.roots, hc.globals,
      fun a data hwritten => (by cases hwritten), fun b hb _ => hc.data b hb, rfl,
      fun hsome => (by cases hsome)⟩
  | newClosure a function =>
    obtain ⟨hreach, arity, upvalueCount, chunk, name, hat⟩ := henabled
    refine (newClosure_runs h hn' (hfresh' a rfl) hat hreach).bind ?_
    rintro vm' ⟨addrs', hsound, hcreated⟩
    exact Runs.pure ⟨a, _, done_created hsound hcreated rfl (by simp only [change, hat])⟩
  | newClass a name =>
    refine done_new h hn' (hfresh' a rfl) rfl rfl (fun b hb => ?_)
      (fun t ht => (Option.some.inj ht).symm) rfl ?_ ?_ ?_
    · have hb' : b = name := by simpa [Data.refs, tableRefs, initTable] using hb
      rw [hb']
      exact henabled
    · simp [Data.arrays, initTable, capacity]
    · simp [Data.arrays]
    · simp [Data.arrays]
  | newInstance a klass =>
    refine done_new h hn' (hfresh' a rfl) rfl rfl (fun b hb => ?_)
      (fun t ht => (Option.some.inj ht).symm) rfl ?_ ?_ ?_
    · have hb' : b = klass := by simpa [Data.refs, tableRefs, initTable] using hb
      rw [hb']
      exact henabled
    · simp [Data.arrays, initTable, capacity]
    · simp [Data.arrays]
    · simp [Data.arrays]
  | newBoundMethod a receiver method =>
    refine done_new h hn' (hfresh' a rfl) rfl rfl (fun b hb => ?_) (fun t ht => by cases ht) rfl
      (fun p hp => by cases hp) List.nodup_nil fun p hp => by cases hp
    rcases List.mem_append.1 hb with hb | hb
    · exact henabled.1 b hb
    · rw [List.mem_singleton.1 hb]
      exact henabled.2
  | newFunction a =>
    refine done_new h hn' (hfresh' a rfl) rfl rfl (fun b hb => by cases hb) (fun t ht => by cases ht) rfl
      ?_ ?_ ?_
    · simp [Data.arrays, Chunk.init]
    · simp [Data.arrays]
    · simp [Data.arrays]
  | newNative a =>
    exact done_new h hn' (hfresh' a rfl) rfl rfl (fun b hb => by cases hb) (fun t ht => by cases ht) rfl
      (fun p hp => by cases hp) List.nodup_nil fun p hp => by cases hp
  | newUpvalue a slot =>
    exact done_new h hn' (hfresh' a rfl) rfl rfl (fun b hb => by cases hb) (fun t ht => by cases ht) rfl
      (fun p hp => by cases hp) List.nodup_nil fun p hp => by cases hp
  | copyString a chars =>
    refine (copyString_runs h hn (hfresh' a rfl)).bind ?_
    rintro result ⟨addrs', hinterned⟩
    exact Runs.pure ⟨result.1, _, done_interned hinterned rfl rfl⟩
  | concatenate a first second =>
    refine (concatenate_runs h hn (hfresh' a rfl) first second).bind ?_
    rintro result ⟨addrs', hinterned⟩
    exact Runs.pure ⟨result.1, _, done_interned hinterned rfl rfl⟩
  | tableSet table key value =>
    obtain ⟨hne, howner, htable, hkey, hstring, hvalue⟩ := henabled
    obtain ⟨t, ht⟩ := Option.isSome_iff_exists.1 htable
    refine (tableSet_runs h hn' table ht (fun b hb => howner b hb) hkey hstring hvalue
      (.inr ⟨hne, rfl⟩)).bind ?_
    rintro vm' ⟨addrs', t', hfilled⟩
    obtain ⟨new, hset⟩ := hfilled.result hne
    have hmeant : ∀ change, table.change vm t' = some change →
        (Operation.tableSet table key value).change vm = some change := by
      intro change hchange
      simp only [Operation.change, ht, hset, Option.bind_eq_bind, Option.bind_some]
      exact hchange
    cases table with
    | globals =>
      exact Runs.pure ⟨0, ⟨none, t'⟩, ⟨addrs', hfilled.sound⟩, hmeant _ rfl, hfilled.roots,
        Option.some.inj hfilled.at_, fun a data hw => (by cases hw),
        fun b hb _ => hfilled.data b hb fun heq => (by cases heq), rfl, fun hsome => (by cases hsome)⟩
    | strings => exact absurd rfl hne
    | methods a => exact Runs.pure (done_filled hok hfilled rfl (howner a rfl) hmeant rfl rfl)
    | fields a => exact Runs.pure (done_filled hok hfilled rfl (howner a rfl) hmeant rfl rfl)
  | tableDelete key =>
    have hglobals := hok.tables .globals _ rfl
    obtain ⟨m, hm⟩ := hglobals.wf.exists_represents
    obtain ⟨t', hdelete, hm', hcap, -⟩ := tableDelete_spec hm key
    have hkeys : ∀ k v, ⟨some k, v⟩ ∈ t'.entries → vm.IsString k := by
      intro k v hmem
      refine hglobals.keys k v ?_
      exact (mem_tableDelete hdelete hmem).resolve_left fun heq => by cases heq
    have hrefs : ∀ b ∈ tableRefs t', (vm.heap b).isSome := by
      intro b hb
      obtain ⟨entry, hentry, hb⟩ := List.mem_flatMap.1 hb
      rcases mem_tableDelete hdelete hentry with rfl | hentry
      · cases hb
      · refine hok.rooted b ?_
        have hmem : b ∈ tableRefs vm.globals := List.mem_flatMap.2 ⟨entry, hentry, hb⟩
        simp [roots, hmem]
    have hroom : c ≤ t'.capacity := by
      rw [hcap]
      exact hok.room
    simp only [run, hdelete, Option.bind_eq_bind, Option.bind_some]
    refine Runs.pure ⟨0, ⟨none, t'⟩,
      ⟨addrs, hok.withGlobals ⟨hm'.wf, hkeys⟩ hrefs hroom, h.books.perm ?_⟩, ?_,
      ⟨rfl, rfl, rfl, rfl, rfl⟩, rfl, fun a data hw => (by cases hw), fun b hb _ => rfl, rfl,
      fun hsome => (by cases hsome)⟩
    · show (vm.owned size addrs).Perm (addrs.flatMap (vm.blocksAt size) ++
        [(.entries .globals, size.entry * t'.capacity),
          (.entries .strings, size.entry * vm.strings.capacity)])
      rw [hcap]
      exact List.Perm.refl _
    · simp only [Operation.change, hdelete, Option.bind_eq_bind, Option.bind_some, Option.pure_def]
  | writeChunk function byte line =>
    obtain ⟨hreach, arity, upvalueCount, chunk, name, hat⟩ := henabled
    refine (writeChunk_runs h hreach hat hn' byte line).bind ?_
    rintro vm' ⟨addrs', hwritten⟩
    exact Runs.pure ⟨0, _, done_chunk hwritten rfl hwritten.same (by simp only [change, hat])⟩
  | addConstant function value =>
    obtain ⟨hreach, ⟨arity, upvalueCount, chunk, name, hat⟩, hvalue⟩ := henabled
    refine (addConstant_runs h hreach hat hn' hvalue).bind ?_
    rintro vm' ⟨addrs', hwritten, hsame⟩
    exact Runs.pure ⟨0, _, done_chunk hwritten rfl hsame (by simp only [change, hat])⟩
  | assign a data =>
    obtain ⟨⟨old, hold, hwrites⟩, -, hrefs⟩ := henabled
    obtain ⟨hstring, hstring', htable, hblocks⟩ := writes_spec hwrites
    obtain ⟨o, ho, rfl⟩ := Option.map_eq_some_iff.1 hold
    have hset : vm.setData a data = some (vm.withData a o data) := by
      simp only [setData, ho]
      rfl
    simp only [run, hset, Option.bind_eq_bind, Option.bind_some]
    refine Runs.pure ⟨0, ⟨some (a, data), vm.globals⟩,
      ⟨addrs, h.withData ho hstring hstring' (fun b hb => hok.reachable (hrefs b hb))
        (fun t ht => by rw [htable] at ht; cases ht) (hblocks size a)⟩, rfl,
      ⟨rfl, rfl, rfl, rfl, rfl⟩, rfl, fun b data' hw => ?_, fun b hb hne => ?_, rfl,
      fun hsome => (by cases hsome)⟩
    · obtain ⟨rfl, rfl⟩ := Prod.mk.inj (Option.some.inj hw)
      show (vm.withData a o data).dataAt a = some data
      rw [dataAt_withData, if_pos rfl]
    · rw [dataAt_withData, if_neg fun heq => hne data (by rw [heq]; rfl)]

end Lox.Clox.Memory
