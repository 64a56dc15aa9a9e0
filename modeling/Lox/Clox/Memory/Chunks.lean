import Lox.Clox.Memory.Interning

/-!
# Chunks grow

`writeChunk` and `writeValueArray` change the capacity before they call `reallocate`, once or twice.
A collection in between meets a function whose capacity is ahead of its arrays; the function is
reachable, so the collection does not free it, and the sizes are right again at the end.
-/

namespace Lox.Clox.Memory

open HashTable Rounds

variable {N : Type}

/-! ### What a write makes of an array -/

/-- The first half of `writeChunk`: there is room for another byte. -/
def Chunk.ensure (chunk : Chunk N) : Chunk N :=
  if chunk.capacity < chunk.code.length + 1 then
    { chunk with capacity := growCapacity chunk.capacity }
  else chunk

/-- The second half. -/
def Chunk.append (byte : UInt8) (line : ℕ) (chunk : Chunk N) : Chunk N :=
  { chunk with code := chunk.code ++ [byte], lines := chunk.lines ++ [line] }

/-- The chunk that `writeChunk` leaves. -/
def Chunk.write (byte : UInt8) (line : ℕ) (chunk : Chunk N) : Chunk N := chunk.ensure.append byte line

/-- The first half of `writeValueArray`. -/
def ValueArray.ensure (array : ValueArray N) : ValueArray N :=
  if array.capacity < array.values.length + 1 then
    { array with capacity := growCapacity array.capacity }
  else array

/-- The array that `writeValueArray` leaves. -/
def ValueArray.write (value : Value N) (array : ValueArray N) : ValueArray N :=
  { array.ensure with values := array.ensure.values ++ [value] }

theorem Chunk.constants_write (byte : UInt8) (line : ℕ) (chunk : Chunk N) :
    (chunk.write byte line).constants = chunk.constants := by
  unfold Chunk.write Chunk.ensure
  split <;> rfl

theorem ValueArray.values_write (value : Value N) (array : ValueArray N) :
    (array.write value).values = array.values ++ [value] := by
  unfold ValueArray.write ValueArray.ensure
  split <;> rfl

namespace VM

variable {vm vm' : VM N} {addrs addrs' : List Addr} {size : Sizes} {n c : ℕ} {pending : Option Addr}
  {gc : VM N → Bool} {enough : Prop} {a : Addr} {data : Data N} {own : Addr → List (Block × ℕ)}

/-! ### Growing an array of an object -/

/-- The books, when one object owns other blocks than its fields say. -/
def BooksWith (size : Sizes) (own : Addr → List (Block × ℕ)) (vm : VM N) (addrs : List Addr) : Prop :=
  vm.ledger.Holds (addrs.flatMap own ++ vm.tableBlocks size) 0

theorem flatMap_update_perm {blocks : List (Block × ℕ)} (hnodup : addrs.Nodup) (ha : a ∈ addrs) :
    (addrs.flatMap (Function.update own a blocks)).Perm
      (blocks ++ (addrs.erase a).flatMap own) := by
  have hothers : (addrs.erase a).flatMap (Function.update own a blocks)
      = (addrs.erase a).flatMap own := by
    refine List.flatMap_congr fun b hb => ?_
    rw [Function.update_of_ne (hnodup.mem_erase_iff.1 hb).1]
  have hperm := flatMap_perm_erase (Function.update own a blocks) ha
  rw [hothers, Function.update_self] at hperm
  exact hperm

/-- `reallocate` for an array of an object that can be reached. -/
theorem growArray_runs (h : HeapOk c vm addrs pending) (ha : vm.Reachable a)
    (hbooks : BooksWith size own vm addrs)
    (hown : ∀ b ∈ addrs, b ≠ a → own b = vm.blocksAt size b)
    {block : Block} {oldSize : ℕ} {others : List (Block × ℕ)}
    (hblocks : (own a).Perm ((block, oldSize) :: others)) (hn : enough → addrs.length ≤ n)
    (newSize : ℕ) :
    Runs enough (vm.reallocate gc size n (some block) oldSize newSize block) fun vm' => ∃ addrs',
      Collects vm vm' addrs addrs' ∧ HeapOk c vm' addrs' pending ∧
      BooksWith size (Function.update own a ((block, newSize) :: others)) vm' addrs' ∧
      ∀ b ∈ addrs', b ≠ a →
        Function.update own a ((block, newSize) :: others) b = vm'.blocksAt size b := by
  have hmem : a ∈ addrs := (h.listed a).1 (h.reachable ha)
  have hold : ((some block).map vm.ledger.blocks).getD 0 = oldSize := by
    refine hbooks.sizes (block, oldSize) (List.mem_append_left _ ?_)
    exact List.mem_flatMap.2 ⟨a, hmem, hblocks.mem_iff.2 List.mem_cons_self⟩
  have hbooks' : vm.ledger.Holds ([] ++ (addrs.flatMap own ++ vm.tableBlocks size)) 0 := hbooks
  refine (reallocate_runs h hbooks' (fun b hb hnot => hown b hb ?_) hold hn newSize
    block).imp ?_
  · rintro rfl
    exact hnot ha
  rintro vm' ⟨addrs', l, hl, hrealloc⟩
  have hc := hrealloc.collects
  refine ⟨addrs', hc, hrealloc.heapOk, ?_, fun b hb hne => ?_⟩
  swap
  · rw [Function.update_of_ne hne, hown b (hc.sublist.subset hb) hne]
    exact (hc.blocksAt_eq ((hrealloc.heapOk.listed b).2 hb)).symm
  have hnodup : addrs'.Nodup := hrealloc.heapOk.linked.nodup
  have hmem' : a ∈ addrs' :=
    (hrealloc.heapOk.listed a).1 (hrealloc.heapOk.reachable ((hc.reachable a).2 ha))
  have hholds : l.Holds (((block, oldSize) :: others) ++
      ((addrs'.erase a).flatMap own ++ vm'.tableBlocks size)) (newSize - oldSize) := by
    refine hrealloc.holds.perm ?_
    rw [List.nil_append, ← List.append_assoc]
    exact ((flatMap_perm_erase _ hmem').trans (hblocks.append_right _)).append_right _
  unfold BooksWith
  rw [hl]
  refine (Ledger.Holds.grow hholds).perm ?_
  show (((block, newSize) :: others) ++
    ((addrs'.erase a).flatMap own ++ vm'.tableBlocks size)).Perm _
  rw [← List.append_assoc]
  exact (flatMap_update_perm hnodup hmem').symm.append_right _

/-- The books are as the fields of the objects say. -/
theorem BooksWith.books (h : BooksWith size own vm addrs) (hnodup : addrs.Nodup) (ha : a ∈ addrs)
    (hown : ∀ b ∈ addrs, b ≠ a → own b = vm.blocksAt size b)
    (hblocks : (own a).Perm (vm.blocksAt size a)) : vm.ledger.Holds (vm.owned size addrs) 0 := by
  refine Ledger.Holds.perm h (List.Perm.append_right _ ?_)
  have hothers : (addrs.erase a).flatMap own = (addrs.erase a).flatMap (vm.blocksAt size) :=
    List.flatMap_congr fun b hb =>
      hown b (List.mem_of_mem_erase hb) (hnodup.mem_erase_iff.1 hb).1
  refine (flatMap_perm_erase _ ha).trans ?_
  rw [hothers]
  exact (hblocks.append_right _).trans (flatMap_perm_erase _ ha).symm

/-! ### Writes to an object that keep its arrays -/

theorem Sound.withData (h : Sound c size none [] vm addrs) {o : Obj N} (ho : vm.heap a = some o)
    (hold : o.data.isString = false) (hnew : data.isString = false)
    (hrefs : ∀ b ∈ data.refs, (vm.heap b).isSome) (htable : ∀ t, data.table = some t → vm.TableOk t)
    (hblocks : data.blocks size a = o.data.blocks size a) :
    Sound c size none [] (vm.withData a o data) addrs := by
  have ha : a ∈ addrs := (h.heapOk.listed a).1 (by simp [ho])
  refine ⟨h.heapOk.withData ho hold hnew hrefs htable, h.books.perm ?_⟩
  refine (owned_perm ha ho).trans ?_
  rw [← hblocks]
  exact (owned_withData h.heapOk.linked.nodup ha).symm

theorem reachable_withData {o : Obj N} (ho : vm.heap a = some o) (hrefs : data.refs = o.data.refs)
    (b : Addr) : (vm.withData a o data).Reachable b ↔ vm.Reachable b := by
  have hrefs' : (vm.withData a o data).refs = vm.refs := by
    funext d
    simp only [refs]
    rw [dataAt_withData]
    by_cases hd : d = a
    · simp [hd, hrefs, dataAt, ho]
    · rw [if_neg hd]
  unfold Reachable
  rw [hrefs']
  rfl

/-! ### Chunks -/

theorem setChunk_eq {o : Obj N} {arity upvalueCount : ℕ} {chunk : Chunk N} {name : Option Addr}
    (ho : vm.heap a = some o) (hdata : o.data = .function arity upvalueCount chunk name)
    (f : Chunk N → Chunk N) :
    vm.setChunk a f = some (vm.withData a o (.function arity upvalueCount (f chunk) name)) := by
  have hat : vm.dataAt a = some (.function arity upvalueCount chunk name) := by
    simp [dataAt, ho, hdata]
  simp only [setChunk, hat, setData, ho]
  rfl

/-- What is known after the chunk of a function was written. -/
structure ChunkWritten (c : ℕ) (size : Sizes) (a : Addr) (data : Data N) (vm : VM N)
    (addrs : List Addr) (vm' : VM N) (addrs' : List Addr) : Prop where
  sound : Sound c size none [] vm' addrs'
  at_ : vm'.dataAt a = some data
  roots : SameRoots vm vm'
  globals : vm'.globals = vm.globals
  same : ∀ b, vm.Reachable b → b ≠ a → vm'.dataAt b = vm.dataAt b
  live : ∀ b, vm.Reachable b → (vm'.heap b).isSome
  length : addrs'.length ≤ addrs.length

/-- A function whose capacity has been changed; its arrays have the old sizes yet. -/
theorem ahead_ok (h : Sound c size none [] vm addrs) {o : Obj N} {arity upvalueCount : ℕ}
    {chunk : Chunk N} {name : Option Addr} (chunk' : Chunk N) (ho : vm.heap a = some o)
    (hdata : o.data = .function arity upvalueCount chunk name)
    (hvalues : chunk'.constants.values = chunk.constants.values) :
    HeapOk c (vm.withData a o (.function arity upvalueCount chunk' name)) addrs none ∧
      (∀ b, (vm.withData a o (.function arity upvalueCount chunk' name)).Reachable b ↔
        vm.Reachable b) ∧
      BooksWith size (vm.blocksAt size)
        (vm.withData a o (.function arity upvalueCount chunk' name)) addrs ∧
      ∀ b ∈ addrs, b ≠ a → vm.blocksAt size b =
        (vm.withData a o (.function arity upvalueCount chunk' name)).blocksAt size b := by
  have hrefs : (Data.function arity upvalueCount chunk' name).refs = o.data.refs := by
    rw [hdata]
    simp only [Data.refs, hvalues]
  refine ⟨h.heapOk.withData ho (by rw [hdata]; rfl) rfl (fun b hb => ?_) fun t ht => (by cases ht),
    reachable_withData ho hrefs, h.books, fun b _ hne => ?_⟩
  · have hat : vm.refs a = o.data.refs := refs_eq (by simp [dataAt, ho])
    refine h.heapOk.closed a (by simp [ho]) b ?_
    rw [hat, ← hrefs]
    exact hb
  · simp only [blocksAt]
    rw [dataAt_withData, if_neg hne]

/-- The array of the bytes and the one of the lines grow. -/
theorem growCode_runs (h : Sound c size none [] vm addrs) (ha : vm.Reachable a) {o : Obj N}
    {arity upvalueCount : ℕ} {chunk : Chunk N} {name : Option Addr} (ho : vm.heap a = some o)
    (hdata : o.data = .function arity upvalueCount chunk name) (hn : enough → addrs.length ≤ n)
    (capacity : ℕ) :
    Runs enough (vm.setChunk a (fun chunk => { chunk with capacity := capacity }) >>= fun v : VM N =>
        v.reallocate gc size n (some (.code a)) chunk.capacity capacity (.code a) >>= fun v : VM N =>
          v.reallocate gc size n (some (.lines a)) (size.int * chunk.capacity) (size.int * capacity)
            (.lines a)) fun vm' => ∃ addrs',
      ChunkWritten c size a (.function arity upvalueCount { chunk with capacity := capacity } name)
        vm addrs vm' addrs' := by
  rw [setChunk_eq ho hdata]
  obtain ⟨hok₁, hreach₁, hbooks₁, hown₁⟩ :=
    ahead_ok h { chunk with capacity := capacity } ho hdata rfl
  have hown : vm.blocksAt size a = [(.code a, chunk.capacity), (.lines a, size.int * chunk.capacity),
      (.constants a, size.value * chunk.constants.capacity), (.object a, size.function)] := by
    simp [blocksAt, dataAt, ho, hdata, Data.blocks, Data.arrays, Data.size]
  refine (growArray_runs hok₁ ((hreach₁ a).2 ha) hbooks₁ hown₁ (by rw [hown]) hn capacity).bind ?_
  rintro vm₂ ⟨addrs₂, hc₂, hok₂, hbooks₂, hown₂⟩
  have ha₂ : vm₂.Reachable a := (hc₂.reachable a).2 ((hreach₁ a).2 ha)
  refine (growArray_runs hok₂ ha₂ hbooks₂ hown₂ (by
      rw [Function.update_self]
      exact List.Perm.swap _ _ _)
    (fun he => hc₂.sublist.length_le.trans (hn he)) (size.int * capacity)).imp ?_
  rintro vm₃ ⟨addrs₃, hc₃, hok₃, hbooks₃, hown₃⟩
  have ha₃ : vm₃.Reachable a := (hc₃.reachable a).2 ha₂
  have hat : vm₃.dataAt a =
      some (.function arity upvalueCount { chunk with capacity := capacity } name) := by
    rw [hc₃.data a ha₂, hc₂.data a ((hreach₁ a).2 ha), dataAt_withData, if_pos rfl]
  refine ⟨addrs₃, ⟨hok₃, ?_⟩, hat, ?_, hc₃.globals.trans hc₂.globals, fun b hb hne => ?_,
    fun b hb => ?_, hc₃.sublist.length_le.trans hc₂.sublist.length_le⟩
  · refine hbooks₃.books hok₃.linked.nodup ((hok₃.listed a).1 (hok₃.reachable ha₃)) hown₃ ?_
    rw [Function.update_self]
    have hblocks : vm₃.blocksAt size a = [(.code a, capacity), (.lines a, size.int * capacity),
        (.constants a, size.value * chunk.constants.capacity), (.object a, size.function)] := by
      simp [blocksAt, hat, Data.blocks, Data.arrays, Data.size]
    rw [hblocks]
    exact List.Perm.swap _ _ _
  · have hroots := hc₂.roots.trans hc₃.roots
    exact ⟨hroots.stack, hroots.frames, hroots.openUpvalues, hroots.compilers, hroots.initString⟩
  · have hb₁ := (hreach₁ b).2 hb
    rw [hc₃.data b ((hc₂.reachable b).2 hb₁), hc₂.data b hb₁, dataAt_withData, if_neg hne]
  · exact hok₃.reachable ((hc₃.reachable b).2 ((hc₂.reachable b).2 ((hreach₁ b).2 hb)))

theorem third_perm {β : Type} (x y z w : β) : [x, y, z, w].Perm (z :: [x, y, w]) :=
  ((List.Perm.swap z y [w]).cons x).trans (List.Perm.swap z x [y, w])

/-- The array of the constants grows. -/
theorem growConstants_runs (h : Sound c size none [] vm addrs) (ha : vm.Reachable a) {o : Obj N}
    {arity upvalueCount : ℕ} {chunk : Chunk N} {name : Option Addr} (ho : vm.heap a = some o)
    (hdata : o.data = .function arity upvalueCount chunk name) (hn : enough → addrs.length ≤ n)
    (capacity : ℕ) :
    Runs enough (vm.setChunk a (fun chunk =>
        { chunk with constants := { chunk.constants with capacity := capacity } }) >>=
        fun v : VM N => v.reallocate gc size n (some (.constants a))
          (size.value * chunk.constants.capacity) (size.value * capacity) (.constants a)) fun vm' =>
      ∃ addrs', ChunkWritten c size a (.function arity upvalueCount
        { chunk with constants := { chunk.constants with capacity := capacity } } name)
        vm addrs vm' addrs' := by
  rw [setChunk_eq ho hdata]
  obtain ⟨hok₁, hreach₁, hbooks₁, hown₁⟩ := ahead_ok h
    { chunk with constants := { chunk.constants with capacity := capacity } } ho hdata rfl
  have hown : vm.blocksAt size a = [(.code a, chunk.capacity), (.lines a, size.int * chunk.capacity),
      (.constants a, size.value * chunk.constants.capacity), (.object a, size.function)] := by
    simp [blocksAt, dataAt, ho, hdata, Data.blocks, Data.arrays, Data.size]
  have hperm : (vm.blocksAt size a).Perm ((.constants a, size.value * chunk.constants.capacity) ::
      [(.code a, chunk.capacity), (.lines a, size.int * chunk.capacity),
        (.object a, size.function)]) := by
    rw [hown]
    exact third_perm _ _ _ _
  refine (growArray_runs hok₁ ((hreach₁ a).2 ha) hbooks₁ hown₁ hperm hn (size.value * capacity)).imp ?_
  rintro vm₂ ⟨addrs₂, hc₂, hok₂, hbooks₂, hown₂⟩
  have ha₂ : vm₂.Reachable a := (hc₂.reachable a).2 ((hreach₁ a).2 ha)
  have hat : vm₂.dataAt a = some (.function arity upvalueCount
      { chunk with constants := { chunk.constants with capacity := capacity } } name) := by
    rw [hc₂.data a ((hreach₁ a).2 ha), dataAt_withData, if_pos rfl]
  refine ⟨addrs₂, ⟨hok₂, ?_⟩, hat, ?_, hc₂.globals, fun b hb hne => ?_, fun b hb => ?_,
    hc₂.sublist.length_le⟩
  · refine hbooks₂.books hok₂.linked.nodup ((hok₂.listed a).1 (hok₂.reachable ha₂)) hown₂ ?_
    rw [Function.update_self]
    have hblocks : vm₂.blocksAt size a = [(.code a, chunk.capacity),
        (.lines a, size.int * chunk.capacity), (.constants a, size.value * capacity),
        (.object a, size.function)] := by
      simp [blocksAt, hat, Data.blocks, Data.arrays, Data.size]
    rw [hblocks]
    exact (third_perm _ _ _ _).symm
  · have hroots := hc₂.roots
    exact ⟨hroots.stack, hroots.frames, hroots.openUpvalues, hroots.compilers, hroots.initString⟩
  · rw [hc₂.data b ((hreach₁ b).2 hb), dataAt_withData, if_neg hne]
  · exact hok₂.reachable ((hc₂.reachable b).2 ((hreach₁ b).2 hb))

theorem ChunkWritten.refl (h : Sound c size none [] vm addrs) (hdata : vm.dataAt a = some data) :
    ChunkWritten c size a data vm addrs vm addrs :=
  ⟨h, hdata, SameRoots.refl vm, rfl, fun _ _ _ => rfl, fun _ hb => h.heapOk.reachable hb, le_refl _⟩

/-- A write to a chunk that keeps its capacities, after there was room. -/
theorem ChunkWritten.write {arity upvalueCount : ℕ} {chunk : Chunk N} {name : Option Addr}
    (h : ChunkWritten c size a (.function arity upvalueCount chunk name) vm addrs vm' addrs')
    (f : Chunk N → Chunk N) (hcapacity : (f chunk).capacity = chunk.capacity)
    (hconstants : (f chunk).constants.capacity = chunk.constants.capacity)
    (hrefs : ∀ b ∈ (f chunk).constants.values.flatMap Value.refs,
      b ∈ chunk.constants.values.flatMap Value.refs ∨ (vm'.heap b).isSome) :
    ∃ vm'', vm'.setChunk a f = some vm'' ∧
      ChunkWritten c size a (.function arity upvalueCount (f chunk) name) vm addrs vm'' addrs' := by
  obtain ⟨o, ho, hdata⟩ := Option.map_eq_some_iff.1 h.at_
  have hok := h.sound.heapOk
  have hroots := h.roots
  refine ⟨_, setChunk_eq ho hdata f, ?_, ?_, ⟨hroots.stack, hroots.frames, hroots.openUpvalues,
    hroots.compilers, hroots.initString⟩, h.globals, fun b hb hne => ?_, fun b hb => ?_, h.length⟩
  · refine h.sound.withData ho (by rw [hdata]; rfl) rfl (fun b hb => ?_) (fun t ht => by cases ht) ?_
    · have hold : ∀ b ∈ (Data.function arity upvalueCount chunk name).refs, (vm'.heap b).isSome := by
        intro b hb
        refine hok.closed a (by simp [ho]) b ?_
        rw [refs_eq h.at_]
        exact hb
      rcases List.mem_append.1 hb with hb | hb
      · exact hold b (List.mem_append_left _ hb)
      · exact (hrefs b hb).elim (fun hb => hold b (List.mem_append_right _ hb)) id
    · rw [hdata]
      simp only [Data.blocks, Data.arrays, Data.size, hcapacity, hconstants]
  · rw [dataAt_withData, if_pos rfl]
  · rw [dataAt_withData, if_neg hne]
    exact h.same b hb hne
  · rw [isSome_heap_iff, dataAt_withData]
    split
    · rfl
    · exact isSome_heap_iff.1 (h.live b hb)

theorem writeChunk_runs (h : Sound c size none [] vm addrs) (ha : vm.Reachable a)
    {arity upvalueCount : ℕ} {chunk : Chunk N} {name : Option Addr}
    (hat : vm.dataAt a = some (.function arity upvalueCount chunk name))
    (hn : enough → addrs.length ≤ n) (byte : UInt8) (line : ℕ) :
    Runs enough (vm.writeChunk gc size n a byte line) fun vm' => ∃ addrs',
      ChunkWritten c size a (.function arity upvalueCount (chunk.write byte line) name)
        vm addrs vm' addrs' := by
  obtain ⟨o, ho, hdata⟩ := Option.map_eq_some_iff.1 hat
  have hrun : vm.writeChunk gc size n a byte line =
      (if chunk.capacity < chunk.code.length + 1 then
        vm.setChunk a (fun chunk' => { chunk' with capacity := growCapacity chunk.capacity }) >>=
          fun v : VM N => v.reallocate gc size n (some (.code a)) chunk.capacity
            (growCapacity chunk.capacity) (.code a) >>= fun v : VM N =>
              v.reallocate gc size n (some (.lines a)) (size.int * chunk.capacity)
                (size.int * growCapacity chunk.capacity) (.lines a)
        else some vm) >>= fun v : VM N => v.setChunk a (Chunk.append byte line) := by
    simp only [writeChunk, hat, Option.bind_eq_bind]
    split
    · simp only [Option.bind_assoc]
      rfl
    · rfl
  have hroom : Runs enough (if chunk.capacity < chunk.code.length + 1 then
        vm.setChunk a (fun chunk' => { chunk' with capacity := growCapacity chunk.capacity }) >>=
          fun v : VM N => v.reallocate gc size n (some (.code a)) chunk.capacity
            (growCapacity chunk.capacity) (.code a) >>= fun v : VM N =>
              v.reallocate gc size n (some (.lines a)) (size.int * chunk.capacity)
                (size.int * growCapacity chunk.capacity) (.lines a)
        else some vm) fun vm' => ∃ addrs',
      ChunkWritten c size a (.function arity upvalueCount chunk.ensure name) vm addrs vm' addrs' := by
    unfold Chunk.ensure
    split
    · exact growCode_runs h ha ho hdata hn _
    · exact Runs.pure ⟨addrs, ChunkWritten.refl h hat⟩
  rw [hrun]
  refine hroom.bind ?_
  rintro vm₁ ⟨addrs₁, hwritten⟩
  obtain ⟨vm₂, hset, hwritten₂⟩ := hwritten.write (Chunk.append byte line) rfl rfl
    fun b hb => .inl hb
  rw [hset]
  exact Runs.pure ⟨addrs₁, hwritten₂⟩

theorem writeValueArray_runs (h : Sound c size none [] vm addrs) (ha : vm.Reachable a)
    {arity upvalueCount : ℕ} {chunk : Chunk N} {name : Option Addr}
    (hat : vm.dataAt a = some (.function arity upvalueCount chunk name))
    (hn : enough → addrs.length ≤ n) {value : Value N} (hvalue : ∀ b ∈ value.refs, vm.Reachable b) :
    Runs enough (vm.writeValueArray gc size n a value) fun vm' => ∃ addrs',
      ChunkWritten c size a (.function arity upvalueCount
        { chunk with constants := chunk.constants.write value } name) vm addrs vm' addrs' := by
  obtain ⟨o, ho, hdata⟩ := Option.map_eq_some_iff.1 hat
  let append : Chunk N → Chunk N := fun chunk => { chunk with
    constants := { chunk.constants with values := chunk.constants.values ++ [value] } }
  have hrun : vm.writeValueArray gc size n a value =
      (if chunk.constants.capacity < chunk.constants.values.length + 1 then
        vm.setChunk a (fun chunk' => { chunk' with constants :=
            { chunk'.constants with capacity := growCapacity chunk.constants.capacity } }) >>=
          fun v : VM N => v.reallocate gc size n (some (.constants a))
            (size.value * chunk.constants.capacity)
            (size.value * growCapacity chunk.constants.capacity) (.constants a)
        else some vm) >>= fun v : VM N => v.setChunk a append := by
    simp only [writeValueArray, hat, Option.bind_eq_bind]
    split
    · simp only [Option.bind_assoc]
      rfl
    · rfl
  have hroom : Runs enough (if chunk.constants.capacity < chunk.constants.values.length + 1 then
        vm.setChunk a (fun chunk' => { chunk' with constants :=
            { chunk'.constants with capacity := growCapacity chunk.constants.capacity } }) >>=
          fun v : VM N => v.reallocate gc size n (some (.constants a))
            (size.value * chunk.constants.capacity)
            (size.value * growCapacity chunk.constants.capacity) (.constants a)
        else some vm) fun vm' => ∃ addrs',
      ChunkWritten c size a (.function arity upvalueCount
        { chunk with constants := chunk.constants.ensure } name) vm addrs vm' addrs' := by
    unfold ValueArray.ensure
    split
    · exact growConstants_runs h ha ho hdata hn _
    · exact Runs.pure ⟨addrs, ChunkWritten.refl h hat⟩
  rw [hrun]
  refine hroom.bind ?_
  rintro vm₁ ⟨addrs₁, hwritten⟩
  obtain ⟨vm₂, hset, hwritten₂⟩ := hwritten.write append rfl rfl fun b hb => by
    simp only [append, List.flatMap_append, List.flatMap_singleton, List.mem_append] at hb
    exact hb.imp id fun hb => hwritten.live b (hvalue b hb)
  rw [hset]
  exact Runs.pure ⟨addrs₁, hwritten₂⟩

/-- `addConstant`; the constant need not be reachable. -/
theorem addConstant_runs (h : Sound c size none [] vm addrs) (ha : vm.Reachable a)
    {arity upvalueCount : ℕ} {chunk : Chunk N} {name : Option Addr}
    (hat : vm.dataAt a = some (.function arity upvalueCount chunk name))
    (hn : enough → addrs.length ≤ n) {value : Value N}
    (hvalue : ∀ b ∈ value.refs, (vm.heap b).isSome) :
    Runs enough (vm.addConstant gc size n a value) fun vm' => ∃ addrs',
      ChunkWritten c size a (.function arity upvalueCount
        { chunk with constants := chunk.constants.write value } name) vm addrs vm' addrs' ∧
      ∀ b, (vm.push value).Reachable b → b ≠ a → vm'.dataAt b = vm.dataAt b := by
  unfold addConstant
  refine (writeValueArray_runs (h.push value hvalue) (reachable_push (.inr ha)) hat hn
    fun b hb => reachable_push (.inl hb)).bind ?_
  rintro vm₁ ⟨addrs₁, hwritten⟩
  have hroots := hwritten.roots
  have hpopped : SameRoots vm vm₁.pop :=
    ⟨by simp [pop, hroots.stack, push], hroots.frames, hroots.openUpvalues, hroots.compilers,
      hroots.initString⟩
  exact Runs.pure ⟨addrs₁, ⟨hwritten.sound.pop, hwritten.at_, hpopped, hwritten.globals,
    fun b hb hne => hwritten.same b (reachable_push (.inr hb)) hne,
    fun b hb => hwritten.live b (reachable_push (.inr hb)), hwritten.length⟩, hwritten.same⟩

end VM

end Lox.Clox.Memory
