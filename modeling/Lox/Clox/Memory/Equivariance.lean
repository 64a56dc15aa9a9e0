import Lox.Clox.Memory.Similar

/-!
# Operations do not look at addresses

An operation on objects at other addresses is the same operation: what it is for is the same, up to
addresses, and it can be called in a similar memory whenever it can be called.

Between two operations a program may hold objects that no root refers to: the compiler takes a function
off the list of compilers before it makes it a constant of the enclosing one.
-/

namespace Lox.Clox.Memory

open HashTable Rounds Lox.Clox.Memory.VM

variable {N : Type}

/-! ### Operations at other addresses -/

def TableRef.rename (φ : Addr → Addr) : TableRef → TableRef
  | .globals => .globals
  | .strings => .strings
  | .methods a => .methods (φ a)
  | .fields a => .fields (φ a)

/-- The operation with objects at other addresses; `a` is the address of a new one. -/
def Operation.rename (φ : Addr → Addr) (a : Addr) : Operation N → Operation N
  | collect => collect
  | newClosure _ function => newClosure a (φ function)
  | newClass _ name => newClass a (φ name)
  | newInstance _ klass => newInstance a (φ klass)
  | newBoundMethod _ receiver method => newBoundMethod a (receiver.rename φ) (φ method)
  | newFunction _ => newFunction a
  | newNative _ => newNative a
  | newUpvalue _ slot => newUpvalue a slot
  | copyString _ text => copyString a text
  | concatenate _ first second => concatenate a (φ first) (φ second)
  | tableSet table key value => tableSet (table.rename φ) (φ key) (value.rename φ)
  | tableDelete key => tableDelete (φ key)
  | writeChunk function byte line => writeChunk (φ function) byte line
  | addConstant function value => addConstant (φ function) (value.rename φ)
  | assign b data => assign (φ b) (data.rename φ)

def Change.rename (φ : Addr → Addr) (change : Change N) : Change N :=
  ⟨change.written.map fun written => (written.1.map φ, written.2.rename φ),
    renameTable φ change.globals⟩

def Roots.rename (φ : Addr → Addr) (roots : Roots N) : Roots N :=
  ⟨roots.stack.map (Value.rename φ), roots.frames.map φ, roots.openUpvalues.map φ,
    roots.compilers.map φ⟩

/-- The machine with some more objects on the stack. -/
def VM.hold (held : List Addr) (vm : VM N) : VM N :=
  { vm with stack := vm.stack ++ held.map .obj }

/-- What the operation is given can be reached, or is held. -/
def Operation.Holds (held : List Addr) (vm : VM N) : Operation N → Prop
  | tableDelete key => vm.Reachable key ∧ vm.IsString key
  | addConstant _ value => ∀ b ∈ value.refs, (vm.hold held).Reachable b
  | _ => True

variable {vm vm' vm₁ vm₁' : VM N} {a : Addr} {φ : Addr → Addr} {op : Operation N} {held : List Addr}
  {change : Change N}

/-! ### What can be reached -/

theorem map_obj_rename (held : List Addr) :
    (held.map φ).map (Value.obj : Addr → Value N) = (held.map Value.obj).map (Value.rename φ) := by
  rw [List.map_map, List.map_map]
  rfl

theorem flatMap_refs_obj (held : List Addr) :
    (held.map (Value.obj : Addr → Value N)).flatMap Value.refs = held := by
  rw [List.flatMap_map]
  exact List.flatMap_singleton' held

theorem VM.mem_roots_hold {b : Addr} : b ∈ (vm.hold held).roots ↔ b ∈ held ∨ b ∈ vm.roots := by
  simp only [roots, VM.hold, List.flatMap_append, flatMap_refs_obj, List.mem_append]
  tauto

theorem VM.reachable_hold {b : Addr} (hb : vm.Reachable b) : (vm.hold held).Reachable b :=
  hb.mono (fun _ hr => .root (mem_roots_hold.2 (.inr hr))) fun _ _ _ hy => hy

theorem reachable_globals {b : Addr} (hb : b ∈ tableRefs vm.globals) : vm.Reachable b := by
  refine .root ?_
  simp only [roots, List.mem_append]
  tauto

theorem Similar.stack_of_hold (h : Similar φ (vm.hold held) (vm'.hold (held.map φ))) :
    vm'.stack = vm.stack.map (Value.rename φ) := by
  have hstack : vm'.stack ++ (held.map φ).map Value.obj
      = (vm.stack ++ held.map Value.obj).map (Value.rename φ) := h.stack
  rw [map_obj_rename, List.map_append] at hstack
  exact List.append_cancel_right hstack

theorem Similar.of_hold (h : Similar φ (vm.hold held) (vm'.hold (held.map φ))) : Similar φ vm vm' := by
  have hrerooted := h.reroot vm.stack vm.frames vm.openUpvalues vm.compilers fun a ha => by
    refine reachable_hold (.root ?_)
    simp only [VM.roots, List.mem_append]
    tauto
  have hframes : vm'.frames = vm.frames.map φ := h.frames
  have hopen : vm'.openUpvalues = vm.openUpvalues.map φ := h.openUpvalues
  have hcompilers : vm'.compilers = vm.compilers.map φ := h.compilers
  rw [← h.stack_of_hold, ← hframes, ← hopen, ← hcompilers] at hrerooted
  exact hrerooted

/-- What holds of the machine while the operation works. -/
theorem Similar.pushed (h : Similar φ (vm.hold held) (vm'.hold (held.map φ))) (hholds : op.Holds held vm)
    (a : Addr) : Similar φ (op.pushed vm) ((op.rename φ a).pushed vm') := by
  cases op with
  | addConstant function value =>
    have hrerooted := h.reroot (vm.stack ++ [value]) vm.frames vm.openUpvalues vm.compilers
      fun b hb => by
        rw [List.flatMap_append, List.flatMap_singleton, List.mem_append] at hb
        by_cases hvalue : b ∈ value.refs
        · exact hholds b hvalue
        · refine reachable_hold (.root ?_)
          simp only [VM.roots, List.mem_append]
          tauto
    have hframes : vm'.frames = vm.frames.map φ := h.frames
    have hopen : vm'.openUpvalues = vm.openUpvalues.map φ := h.openUpvalues
    have hcompilers : vm'.compilers = vm.compilers.map φ := h.compilers
    rw [List.map_append, ← h.stack_of_hold, ← hframes, ← hopen, ← hcompilers] at hrerooted
    exact hrerooted
  | _ => exact h.of_hold

/-! ### Where changes refer to -/

/-- What an operation writes refers to what it was given. -/
structure Change.Within (op : Operation N) (vm : VM N) (change : Change N) : Prop where
  target : ∀ a data, change.written = some (some a, data) → vm.Reachable a
  address : ∀ data, change.written = some (none, data) → op.address.isSome
  refs : ∀ t data, change.written = some (t, data) → ∀ b ∈ data.refs, (op.pushed vm).Reachable b
  globals : ∀ b ∈ tableRefs change.globals, vm.Reachable b

theorem Change.Within.none {globals : Table N} (h : ∀ b ∈ tableRefs globals, vm.Reachable b) :
    Change.Within op vm ⟨none, globals⟩ :=
  ⟨fun _ _ hw => (by cases hw), fun _ hw => (by cases hw), fun _ _ hw => (by cases hw), h⟩

theorem Change.Within.new {data : Data N} (haddress : op.address.isSome)
    (hrefs : ∀ b ∈ data.refs, vm.Reachable b) : Change.Within op vm ⟨some (.none, data), vm.globals⟩ where
  target a data' hw := by cases hw
  address _ _ := haddress
  refs t data' hw b hb := by
    obtain ⟨-, rfl⟩ := Prod.mk.inj (Option.some.inj hw)
    exact Operation.reachable_pushed (hrefs b hb)
  globals _ := reachable_globals

theorem Change.Within.at {a : Addr} {data : Data N} (ha : vm.Reachable a)
    (hrefs : ∀ b ∈ data.refs, (op.pushed vm).Reachable b) :
    Change.Within op vm ⟨some (some a, data), vm.globals⟩ where
  target a' data' hw := by
    obtain ⟨heq, -⟩ := Prod.mk.inj (Option.some.inj hw)
    obtain rfl := Option.some.inj heq
    exact ha
  address data' hw := by cases hw
  refs t data' hw b hb := by
    obtain ⟨-, rfl⟩ := Prod.mk.inj (Option.some.inj hw)
    exact hrefs b hb
  globals _ := reachable_globals

theorem reachable_refs {a b : Addr} {data : Data N} (ha : vm.Reachable a) (hdata : vm.dataAt a = some data)
    (hb : b ∈ data.refs) : vm.Reachable b := by
  refine ha.step ?_
  rw [refs_eq hdata]
  exact hb

/-- The table of an object refers to other objects, as long as they can be reached. -/
theorem Change.Within.table {table : TableRef} {t t' : Table N} (ht : vm.tableAt table = some t)
    (howner : ∀ a ∈ table.owner, vm.Reachable a) (hrefs : ∀ b ∈ tableRefs t', vm.Reachable b)
    (hchange : table.change vm t' = some change) : Change.Within op vm change := by
  have hobject : ∀ a, table.owner = some a →
      ((vm.dataAt a).map fun data : Data N =>
        (⟨some (some a, data.withTable t'), vm.globals⟩ : Change N)) = some change →
      Change.Within op vm change := by
    intro a ha hmap
    obtain ⟨data, hdata, rfl⟩ := Option.map_eq_some_iff.1 hmap
    refine Change.Within.at (howner a ha) fun b hb => Operation.reachable_pushed ?_
    by_cases hold : b ∈ data.refs
    · exact reachable_refs (howner a ha) hdata hold
    · cases data with
      | inst klass fields =>
        rcases List.mem_cons.1 hb with rfl | hb
        · exact absurd List.mem_cons_self hold
        · exact hrefs b hb
      | klass name methods =>
        rcases List.mem_cons.1 hb with rfl | hb
        · exact absurd List.mem_cons_self hold
        · exact hrefs b hb
      | _ => exact absurd hb hold
  cases table with
  | globals =>
    obtain rfl := Option.some.inj hchange
    exact .none hrefs
  | strings => cases hchange
  | methods a => exact hobject a rfl hchange
  | fields a => exact hobject a rfl hchange

theorem Operation.within (henabled : op.Enabled vm) (hmeant : op.change vm = some change) :
    Change.Within op vm change := by
  cases op with
  | collect =>
    obtain rfl := Option.some.inj hmeant
    exact .none fun _ => reachable_globals
  | newClosure a function =>
    obtain ⟨hreach, arity, upvalueCount, chunk, name, hat⟩ := henabled
    simp only [Operation.change, hat] at hmeant
    obtain rfl := Option.some.inj hmeant
    refine .new rfl fun b hb => ?_
    have hb' : b = function := by simpa [Data.refs, List.flatMap_replicate] using hb
    rw [hb']
    exact hreach
  | newClass a name =>
    obtain rfl := Option.some.inj hmeant
    refine .new rfl fun b hb => ?_
    have hb' : b = name := by simpa [Data.refs, tableRefs, initTable] using hb
    rw [hb']
    exact henabled
  | newInstance a klass =>
    obtain rfl := Option.some.inj hmeant
    refine .new rfl fun b hb => ?_
    have hb' : b = klass := by simpa [Data.refs, tableRefs, initTable] using hb
    rw [hb']
    exact henabled
  | newBoundMethod a receiver method =>
    obtain rfl := Option.some.inj hmeant
    refine .new rfl fun b hb => ?_
    rcases List.mem_append.1 hb with hb | hb
    · exact henabled.1 b hb
    · rw [List.mem_singleton.1 hb]
      exact henabled.2
  | newFunction a =>
    obtain rfl := Option.some.inj hmeant
    exact .new rfl fun b hb => by cases hb
  | newNative a =>
    obtain rfl := Option.some.inj hmeant
    exact .new rfl fun b hb => by cases hb
  | newUpvalue a slot =>
    obtain rfl := Option.some.inj hmeant
    exact .new rfl fun b hb => by cases hb
  | copyString a text =>
    obtain rfl := Option.some.inj hmeant
    exact .new rfl fun b hb => by cases hb
  | concatenate a first second =>
    obtain rfl := Option.some.inj hmeant
    exact .new rfl fun b hb => by cases hb
  | tableSet table key value =>
    obtain ⟨hne, howner, htable, hkey, hstring, hvalue⟩ := henabled
    obtain ⟨t, ht, hmeant⟩ := Option.bind_eq_some_iff.1 hmeant
    obtain ⟨result, hset, hmeant⟩ := Option.bind_eq_some_iff.1 hmeant
    refine .table ht howner (fun b hb => ?_) hmeant
    obtain ⟨entry, hentry, hb⟩ := List.mem_flatMap.1 hb
    rcases mem_tableSet hset hentry with rfl | rfl | hentry
    · cases hb
    · rcases List.mem_append.1 hb with hb | hb
      · obtain rfl : b = key := by simpa using hb
        exact hkey
      · exact hvalue b hb
    · exact reachable_tableRefs ht hne howner b (List.mem_flatMap.2 ⟨entry, hentry, hb⟩)
  | tableDelete key =>
    obtain ⟨result, hdelete, hmeant⟩ := Option.bind_eq_some_iff.1 hmeant
    obtain rfl := Option.some.inj hmeant
    refine .none fun b hb => ?_
    obtain ⟨entry, hentry, hb⟩ := List.mem_flatMap.1 hb
    rcases mem_tableDelete hdelete hentry with rfl | hentry
    · cases hb
    · exact reachable_globals (List.mem_flatMap.2 ⟨entry, hentry, hb⟩)
  | writeChunk function byte line =>
    obtain ⟨hreach, arity, upvalueCount, chunk, name, hat⟩ := henabled
    simp only [Operation.change, hat] at hmeant
    obtain rfl := Option.some.inj hmeant
    refine .at hreach fun b hb => reachable_refs hreach hat ?_
    simpa only [Data.refs, Chunk.constants_write] using hb
  | addConstant function value =>
    obtain ⟨hreach, ⟨arity, upvalueCount, chunk, name, hat⟩, -⟩ := henabled
    simp only [Operation.change, hat] at hmeant
    obtain rfl := Option.some.inj hmeant
    refine .at hreach fun b hb => ?_
    rcases List.mem_append.1 hb with hb | hb
    · exact Operation.reachable_pushed (reachable_refs hreach hat (List.mem_append_left _ hb))
    · simp only [ValueArray.values_write, List.flatMap_append, List.flatMap_singleton,
        List.mem_append] at hb
      rcases hb with hb | hb
      · exact Operation.reachable_pushed (reachable_refs hreach hat (List.mem_append_right _ hb))
      · exact reachable_push (.inl hb)
  | assign a data =>
    obtain ⟨-, hreach, hrefs⟩ := henabled
    obtain rfl := Option.some.inj hmeant
    exact .at hreach hrefs

/-! ### Operations do not look at addresses -/

theorem Similar.tableAt (h : Similar φ vm vm') {table : TableRef} {t : Table N} (hne : table ≠ .strings)
    (howner : ∀ a ∈ table.owner, vm.Reachable a) (ht : vm.tableAt table = some t) :
    vm'.tableAt (table.rename φ) = some (renameTable φ t) := by
  cases table with
  | globals =>
    obtain rfl := Option.some.inj ht
    exact congrArg some h.globals
  | strings => exact absurd rfl hne
  | methods a =>
    have hdata := h.data a (howner a rfl)
    simp only [VM.tableAt, TableRef.rename, hdata] at ht ⊢
    cases hat : vm.dataAt a with
    | none =>
      rw [hat] at ht
      cases ht
    | some data =>
      rw [hat] at ht
      cases data with
      | klass name methods =>
        obtain rfl := Option.some.inj ht
        rfl
      | _ => cases ht
  | fields a =>
    have hdata := h.data a (howner a rfl)
    simp only [VM.tableAt, TableRef.rename, hdata] at ht ⊢
    cases hat : vm.dataAt a with
    | none =>
      rw [hat] at ht
      cases ht
    | some data =>
      rw [hat] at ht
      cases data with
      | inst klass fields =>
        obtain rfl := Option.some.inj ht
        rfl
      | _ => cases ht

theorem Data.rename_withTable (t : Table N) (data : Data N) :
    (data.withTable t).rename φ = (data.rename φ).withTable (renameTable φ t) := by
  cases data with
  | _ => rfl

theorem Similar.tableChange (h : Similar φ vm vm') {table : TableRef}
    (howner : ∀ a ∈ table.owner, vm.Reachable a) (t : Table N) :
    (table.rename φ).change vm' (renameTable φ t) = (table.change vm t).map (Change.rename φ) := by
  have hobject : ∀ a, vm.Reachable a →
      ((vm'.dataAt (φ a)).map fun data : Data N =>
        (⟨some (some (φ a), data.withTable (renameTable φ t)), vm'.globals⟩ : Change N))
      = ((vm.dataAt a).map fun data : Data N =>
        (⟨some (some a, data.withTable t), vm.globals⟩ : Change N)).map (Change.rename φ) := by
    intro a ha
    rw [h.data a ha, h.globals, Option.map_map, Option.map_map]
    congr 1
    funext data
    simp only [Function.comp_apply, Change.rename, Option.map_some, Data.rename_withTable]
  cases table with
  | globals => rfl
  | strings => rfl
  | methods a => exact hobject a (howner a rfl)
  | fields a => exact hobject a (howner a rfl)

theorem Chunk.rename_write (byte : UInt8) (line : ℕ) (chunk : Chunk N) :
    (chunk.write byte line).rename φ = (chunk.rename φ).write byte line := by
  unfold Chunk.write Chunk.ensure
  by_cases hfull : chunk.capacity < chunk.code.length + 1
  · have hfull' : (chunk.rename φ).capacity < (chunk.rename φ).code.length + 1 := hfull
    rw [if_pos hfull, if_pos hfull']
    rfl
  · have hfull' : ¬ (chunk.rename φ).capacity < (chunk.rename φ).code.length + 1 := hfull
    rw [if_neg hfull, if_neg hfull']
    rfl

theorem ValueArray.rename_write (value : Value N) (array : ValueArray N) :
    (array.write value).rename φ = (array.rename φ).write (value.rename φ) := by
  have hlength : (array.rename φ).values.length = array.values.length := List.length_map _
  have hcapacity : (array.rename φ).capacity = array.capacity := rfl
  unfold ValueArray.write ValueArray.ensure
  rw [hlength, hcapacity]
  split
  · simp [ValueArray.rename]
  · simp [ValueArray.rename]

/-- What an operation is for is the same at other addresses. -/
theorem Similar.meant (h : Similar φ vm vm') (henabled : op.Enabled vm) (hholds : op.Holds held vm)
    (hmeant : op.change vm = some change) (a : Addr) :
    (op.rename φ a).change vm' = some (change.rename φ) := by
  cases op with
  | newClosure b function =>
    obtain ⟨hreach, arity, upvalueCount, chunk, name, hat⟩ := henabled
    have hat' : vm'.dataAt (φ function) = some (.function arity upvalueCount (chunk.rename φ)
        (name.map φ)) := by
      rw [h.data function hreach, hat]
      rfl
    simp only [Operation.change, hat] at hmeant
    obtain rfl := Option.some.inj hmeant
    simp [Operation.rename, Operation.change, hat', h.globals, Change.rename, Data.rename]
  | concatenate b first second =>
    obtain rfl := Option.some.inj hmeant
    obtain ⟨hfirst, hsecond⟩ := henabled
    simp only [Operation.rename, Operation.change, h.globals, h.chars hfirst, h.chars hsecond]
    rfl
  | tableSet table key value =>
    obtain ⟨hne, howner, htable, hkey, hstring, hvalue⟩ := henabled
    obtain ⟨t, ht, hmeant⟩ := Option.bind_eq_some_iff.1 hmeant
    obtain ⟨⟨new, t'⟩, hset, hmeant⟩ := Option.bind_eq_some_iff.1 hmeant
    have hkeys : KeysIn vm.Reachable t.entries := fun k v hmem =>
      reachable_tableRefs ht hne howner k (mem_tableRefs_key hmem)
    have hset' : HashTable.tableSet vm'.hash (φ key) (value.rename φ) (renameTable φ t)
        = some (new, renameTable φ t') := by
      rw [tableSet_rename h.renames hkeys hkey, hset]
      rfl
    have hchange := h.tableChange howner t'
    have hmeant' : table.change vm t' = some change := hmeant
    rw [hmeant'] at hchange
    simp only [Operation.rename, Operation.change, h.tableAt hne howner ht, hset', Option.bind_eq_bind,
      Option.bind_some]
    exact hchange
  | tableDelete key =>
    obtain ⟨result, hdelete, hmeant⟩ := Option.bind_eq_some_iff.1 hmeant
    obtain rfl := Option.some.inj hmeant
    have hkeys : KeysIn vm.Reachable vm.globals.entries := fun k v hmem =>
      reachable_globals (mem_tableRefs_key hmem)
    have hdelete' : HashTable.tableDelete vm'.hash (φ key) (renameTable φ vm.globals)
        = some (result.1, renameTable φ result.2) := by
      rw [tableDelete_rename h.renames hkeys hholds.1, hdelete]
      rfl
    simp only [Operation.rename, Operation.change, h.globals, hdelete', Option.bind_eq_bind,
      Option.bind_some, Option.pure_def]
    rfl
  | writeChunk function byte line =>
    obtain ⟨hreach, arity, upvalueCount, chunk, name, hat⟩ := henabled
    have hat' : vm'.dataAt (φ function) = some (.function arity upvalueCount (chunk.rename φ)
        (name.map φ)) := by
      rw [h.data function hreach, hat]
      rfl
    simp only [Operation.change, hat] at hmeant
    obtain rfl := Option.some.inj hmeant
    simp only [Operation.rename, Operation.change, hat', h.globals, ← Chunk.rename_write]
    rfl
  | addConstant function value =>
    obtain ⟨hreach, ⟨arity, upvalueCount, chunk, name, hat⟩, -⟩ := henabled
    have hat' : vm'.dataAt (φ function) = some (.function arity upvalueCount (chunk.rename φ)
        (name.map φ)) := by
      rw [h.data function hreach, hat]
      rfl
    have hconstants : (chunk.rename φ).constants = chunk.constants.rename φ := rfl
    simp only [Operation.change, hat] at hmeant
    obtain rfl := Option.some.inj hmeant
    simp only [Operation.rename, Operation.change, hat', h.globals, hconstants,
      ← ValueArray.rename_write]
    rfl
  | _ =>
    obtain rfl := Option.some.inj hmeant
    simp only [Operation.rename, Operation.change, h.globals]
    rfl

theorem Writes.rename {data data' : Data N} (h : Writes data data') :
    Writes (data.rename φ) (data'.rename φ) := by
  cases h with
  | closure function length => exact .closure _ (by rw [List.length_map, List.length_map, length])
  | upvalue location location' closed closed' => exact .upvalue _ _ _ _
  | function arity arity' upvalueCount upvalueCount' name name' capacity constants =>
    exact .function _ _ _ _ _ _ capacity (congrArg (ValueArray.rename φ) constants)

theorem Similar.enabled (h : Similar φ (op.pushed vm) ((op.rename φ a).pushed vm'))
    (h' : Similar φ vm vm') (henabled : op.Enabled vm) : (op.rename φ a).Enabled vm' := by
  cases op with
  | newClosure b function => exact ⟨h'.reachable henabled.1, h'.isFunction henabled.1 henabled.2⟩
  | newClass b name => exact h'.reachable henabled
  | newInstance b klass => exact h'.reachable henabled
  | newBoundMethod b receiver method =>
    refine ⟨fun d hd => ?_, h'.reachable henabled.2⟩
    rw [Value.refs_rename] at hd
    obtain ⟨e, he, rfl⟩ := List.mem_map.1 hd
    exact h'.reachable (henabled.1 e he)
  | concatenate b first second => exact ⟨h'.reachable henabled.1, h'.reachable henabled.2⟩
  | tableSet table key value =>
    obtain ⟨hne, howner, htable, hkey, hstring, hvalue⟩ := henabled
    obtain ⟨t, ht⟩ := Option.isSome_iff_exists.1 htable
    refine ⟨?_, ?_, ?_, h'.reachable hkey, h'.isString hkey hstring, fun d hd => ?_⟩
    · cases table with
      | strings => exact absurd rfl hne
      | _ => exact fun heq => by cases heq
    · intro d hd
      cases table with
      | globals => cases hd
      | strings => cases hd
      | methods b =>
        obtain rfl := Option.some.inj hd
        exact h'.reachable (howner b rfl)
      | fields b =>
        obtain rfl := Option.some.inj hd
        exact h'.reachable (howner b rfl)
    · rw [h'.tableAt hne howner ht]
      rfl
    · rw [Value.refs_rename] at hd
      obtain ⟨e, he, rfl⟩ := List.mem_map.1 hd
      exact h'.reachable (hvalue e he)
  | writeChunk function byte line =>
    exact ⟨h'.reachable henabled.1, h'.isFunction henabled.1 henabled.2⟩
  | addConstant function value =>
    obtain ⟨hreach, hfunction, hlive⟩ := henabled
    refine ⟨h'.reachable hreach, h'.isFunction hreach hfunction, fun d hd => ?_⟩
    rw [Value.refs_rename] at hd
    obtain ⟨e, he, rfl⟩ := List.mem_map.1 hd
    have hheap : (vm'.heap (φ e)).isSome = (vm.heap e).isSome := h.heap (reachable_push (.inl he))
    rw [hheap]
    exact hlive e he
  | assign b data =>
    obtain ⟨⟨old, hold, hwrites⟩, hreach, hrefs⟩ := henabled
    refine ⟨⟨old.rename φ, ?_, ?_⟩, h'.reachable hreach, fun d hd => ?_⟩
    · rw [h'.data b hreach, hold]
      rfl
    · exact hwrites.rename
    · rw [Data.refs_rename] at hd
      obtain ⟨e, he, rfl⟩ := List.mem_map.1 hd
      exact h'.reachable (hrefs e he)
  | _ => trivial

theorem Similar.enabled_of_hold (h : Similar φ (vm.hold held) (vm'.hold (held.map φ)))
    (hholds : op.Holds held vm) (henabled : op.Enabled vm) (a : Addr) : (op.rename φ a).Enabled vm' :=
  (h.pushed hholds a).enabled h.of_hold henabled

theorem Similar.holds (h : Similar φ (vm.hold held) (vm'.hold (held.map φ)))
    (hholds : op.Holds held vm) (a : Addr) : (op.rename φ a).Holds (held.map φ) vm' := by
  cases op with
  | tableDelete key => exact ⟨h.of_hold.reachable hholds.1, h.of_hold.isString hholds.1 hholds.2⟩
  | addConstant function value =>
    intro b hb
    rw [Value.refs_rename] at hb
    obtain ⟨e, he, rfl⟩ := List.mem_map.1 hb
    exact h.reachable (hholds e he)
  | _ => trivial

end Lox.Clox.Memory
