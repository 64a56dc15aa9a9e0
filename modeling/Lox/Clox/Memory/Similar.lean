import Lox.Clox.Memory.Lifetime

/-!
# Memories that differ in addresses

A collection of garbage changes which addresses are free, so programs that collect at different times
have their objects at different addresses.  `Similar φ vm vm'` says that this is the only difference:
the objects that can be reached in `vm` are at the addresses that `φ` gives in `vm'`, with the same
fields, and the roots refer to the same objects.
-/

namespace Lox.Clox.Memory

open HashTable Lox.Clox.Memory.VM

variable {N : Type}

/-! ### Other addresses -/

def Value.rename (φ : Addr → Addr) : Value N → Value N
  | .obj a => .obj (φ a)
  | .nil => .nil
  | .bool b => .bool b
  | .number n => .number n

/-- A table with its keys and its values at other addresses. -/
abbrev renameTable (φ : Addr → Addr) (t : Table N) : Table N := t.rename φ (Value.rename φ)

def ValueArray.rename (φ : Addr → Addr) (array : ValueArray N) : ValueArray N :=
  { array with values := array.values.map (Value.rename φ) }

def Chunk.rename (φ : Addr → Addr) (chunk : Chunk N) : Chunk N :=
  { chunk with constants := chunk.constants.rename φ }

def Data.rename (φ : Addr → Addr) : Data N → Data N
  | .boundMethod receiver method => .boundMethod (receiver.rename φ) (φ method)
  | .native => .native
  | .inst of fields => .inst (φ of) (renameTable φ fields)
  | .klass name methods => .klass (φ name) (renameTable φ methods)
  | .function arity upvalueCount chunk name =>
    .function arity upvalueCount (chunk.rename φ) (name.map φ)
  | .closure code upvalues => .closure (φ code) (upvalues.map (Option.map φ))
  | .string text textHash => .string text textHash
  | .upvalue location closed => .upvalue location (closed.rename φ)

variable {φ ψ : Addr → Addr}

/-! ### References -/

@[simp] theorem Value.refs_rename (value : Value N) : (value.rename φ).refs = value.refs.map φ := by
  cases value with
  | _ => rfl

theorem flatMap_refs_rename (values : List (Value N)) :
    (values.map (Value.rename φ)).flatMap Value.refs = (values.flatMap Value.refs).map φ := by
  rw [List.flatMap_map, List.map_flatMap]
  exact List.flatMap_congr fun value _ => value.refs_rename

theorem toList_map (a : Option Addr) : (a.map φ).toList = a.toList.map φ := by
  cases a with
  | _ => rfl

@[simp] theorem tableRefs_rename (t : Table N) : tableRefs (renameTable φ t) = (tableRefs t).map φ := by
  show (t.entries.map (Entry.rename φ (Value.rename φ))).flatMap _ = _
  rw [List.flatMap_map, tableRefs, List.map_flatMap]
  apply List.flatMap_congr
  intro entry _
  show (entry.key.map φ).toList ++ (entry.value.rename φ).refs = _
  rw [toList_map, Value.refs_rename, List.map_append]

@[simp] theorem Data.refs_rename (data : Data N) : (data.rename φ).refs = data.refs.map φ := by
  cases data with
  | boundMethod receiver method => simp [Data.rename, Data.refs]
  | native => rfl
  | inst klass fields => simp only [Data.rename, Data.refs, tableRefs_rename, List.map_cons]
  | klass name methods => simp only [Data.rename, Data.refs, tableRefs_rename, List.map_cons]
  | function arity upvalueCount chunk name =>
    show (name.map φ).toList ++ (chunk.constants.values.map (Value.rename φ)).flatMap Value.refs = _
    rw [toList_map, flatMap_refs_rename, Data.refs, List.map_append]
  | closure function upvalues =>
    show φ function :: (upvalues.map (Option.map φ)).flatMap Option.toList = _
    rw [List.flatMap_map, Data.refs, List.map_cons, List.map_flatMap]
    congr 1
    exact List.flatMap_congr fun upvalue _ => toList_map upvalue
  | string chars hash => rfl
  | upvalue location closed => exact closed.refs_rename

/-! ### Only the addresses that occur matter -/

theorem Value.rename_congr {value : Value N} (h : ∀ a ∈ value.refs, φ a = ψ a) :
    value.rename φ = value.rename ψ := by
  cases value with
  | obj a => exact congrArg Value.obj (h a List.mem_cons_self)
  | _ => rfl

theorem map_rename_congr {values : List (Value N)} (h : ∀ a ∈ values.flatMap Value.refs, φ a = ψ a) :
    values.map (Value.rename φ) = values.map (Value.rename ψ) := by
  apply List.map_congr_left
  intro value hvalue
  exact Value.rename_congr fun a ha => h a (List.mem_flatMap.2 ⟨value, hvalue, ha⟩)

theorem map_congr_toList {a : Option Addr} (h : ∀ b ∈ a.toList, φ b = ψ b) : a.map φ = a.map ψ := by
  cases a with
  | none => rfl
  | some b => exact congrArg some (h b List.mem_cons_self)

theorem renameTable_congr {t : Table N} (h : ∀ a ∈ tableRefs t, φ a = ψ a) :
    renameTable φ t = renameTable ψ t := by
  have hentries : t.entries.map (Entry.rename φ (Value.rename φ))
      = t.entries.map (Entry.rename ψ (Value.rename ψ)) := by
    apply List.map_congr_left
    intro entry hentry
    have hrefs : ∀ a ∈ entry.key.toList ++ entry.value.refs, φ a = ψ a :=
      fun a ha => h a (List.mem_flatMap.2 ⟨entry, hentry, ha⟩)
    have hkey := map_congr_toList fun a ha => hrefs a (List.mem_append_left _ ha)
    have hvalue := Value.rename_congr fun a ha => hrefs a (List.mem_append_right _ ha)
    simp only [Entry.rename, hkey, hvalue]
  simp only [renameTable, HashTable.rename, hentries]

theorem Data.rename_congr {data : Data N} (h : ∀ a ∈ data.refs, φ a = ψ a) :
    data.rename φ = data.rename ψ := by
  cases data with
  | boundMethod receiver method =>
    have hreceiver := Value.rename_congr fun a ha => h a (List.mem_append_left _ ha)
    have hmethod : φ method = ψ method := h method (List.mem_append_right _ List.mem_cons_self)
    simp only [Data.rename, hreceiver, hmethod]
  | native => rfl
  | inst klass fields =>
    have hklass : φ klass = ψ klass := h klass List.mem_cons_self
    have hfields := renameTable_congr fun a ha => h a (List.mem_cons_of_mem klass ha)
    simp only [Data.rename, hklass, hfields]
  | klass name methods =>
    have hname : φ name = ψ name := h name List.mem_cons_self
    have hmethods := renameTable_congr fun a ha => h a (List.mem_cons_of_mem name ha)
    simp only [Data.rename, hname, hmethods]
  | function arity upvalueCount chunk name =>
    have hname := map_congr_toList fun a ha => h a (List.mem_append_left _ ha)
    have hvalues := map_rename_congr fun a ha => h a (List.mem_append_right _ ha)
    simp only [Data.rename, Chunk.rename, ValueArray.rename, hname, hvalues]
  | closure function upvalues =>
    have hfunction : φ function = ψ function := h function List.mem_cons_self
    have hupvalues : upvalues.map (Option.map φ) = upvalues.map (Option.map ψ) := by
      apply List.map_congr_left
      intro upvalue hupvalue
      refine map_congr_toList fun a ha => h a (List.mem_cons_of_mem function ?_)
      exact List.mem_flatMap.2 ⟨upvalue, hupvalue, ha⟩
    simp only [Data.rename, hfunction, hupvalues]
  | string chars hash => rfl
  | upvalue location closed =>
    have hclosed : closed.rename φ = closed.rename ψ := Value.rename_congr h
    simp only [Data.rename, hclosed]

theorem Value.rename_id : (Value.rename id : Value N → Value N) = id := by
  funext value
  cases value with
  | _ => rfl

theorem renameTable_id (t : Table N) : renameTable id t = t := by
  rw [renameTable, Value.rename_id, rename_id]

theorem Data.rename_id : (Data.rename id : Data N → Data N) = id := by
  funext data
  cases data with
  | inst klass fields => simp only [Data.rename, renameTable_id, id_eq]
  | klass name methods => simp only [Data.rename, renameTable_id, id_eq]
  | _ => simp [Data.rename, Chunk.rename, ValueArray.rename, Value.rename_id]

/-! ### Similar memories -/

/-- `vm'` is `vm` with the objects that can be reached at other addresses. -/
structure Similar (φ : Addr → Addr) (vm vm' : VM N) : Prop where
  stack : vm'.stack = vm.stack.map (Value.rename φ)
  frames : vm'.frames = vm.frames.map φ
  openUpvalues : vm'.openUpvalues = vm.openUpvalues.map φ
  compilers : vm'.compilers = vm.compilers.map φ
  initString : vm'.initString = vm.initString.map φ
  globals : vm'.globals = renameTable φ vm.globals
  data : ∀ a, vm.Reachable a → vm'.dataAt (φ a) = (vm.dataAt a).map (Data.rename φ)
  injective : ∀ a b, vm.Reachable a → vm.Reachable b → φ a = φ b → a = b

namespace Similar

variable {vm vm' : VM N} {a : Addr}

theorem refl (vm : VM N) : Similar id vm vm where
  stack := by simp [Value.rename_id]
  frames := by simp
  openUpvalues := by simp
  compilers := by simp
  initString := by simp
  globals := (renameTable_id vm.globals).symm
  data a _ := by simp [Data.rename_id]
  injective a b _ _ heq := heq

theorem roots (h : Similar φ vm vm') : vm'.roots = vm.roots.map φ := by
  simp only [VM.roots, h.stack, h.frames, h.openUpvalues, h.compilers, h.initString, h.globals,
    flatMap_refs_rename, tableRefs_rename, toList_map, List.map_append]

theorem refs (h : Similar φ vm vm') (ha : vm.Reachable a) : vm'.refs (φ a) = (vm.refs a).map φ := by
  simp only [VM.refs, h.data a ha]
  cases vm.dataAt a with
  | none => rfl
  | some data => exact data.refs_rename

/-- What can be reached in one memory can be reached in the other. -/
theorem reachable (h : Similar φ vm vm') (ha : vm.Reachable a) : vm'.Reachable (φ a) := by
  have hboth : vm.Reachable a ∧ vm'.Reachable (φ a) := by
    refine ha.induct (P := fun b => vm.Reachable b ∧ vm'.Reachable (φ b)) (fun r hr => ?_) ?_
    · refine ⟨.root hr, .root ?_⟩
      rw [h.roots]
      exact List.mem_map_of_mem hr
    · rintro x y ⟨hx, hx'⟩ hy
      refine ⟨hx.step hy, hx'.step ?_⟩
      rw [h.refs hx]
      exact List.mem_map_of_mem hy
  exact hboth.2

theorem hash (h : Similar φ vm vm') (ha : vm.Reachable a) : vm'.hash (φ a) = vm.hash a := by
  simp only [VM.hash, h.data a ha]
  cases vm.dataAt a with
  | none => rfl
  | some data =>
    cases data with
    | _ => rfl

theorem chars (h : Similar φ vm vm') (ha : vm.Reachable a) : vm'.chars (φ a) = vm.chars a := by
  simp only [VM.chars, h.data a ha]
  cases vm.dataAt a with
  | none => rfl
  | some data =>
    cases data with
    | _ => rfl

theorem heap (h : Similar φ vm vm') (ha : vm.Reachable a) :
    (vm'.heap (φ a)).isSome = (vm.heap a).isSome := by
  have hdata := congrArg Option.isSome (h.data a ha)
  simpa [dataAt] using hdata

theorem isString (h : Similar φ vm vm') (ha : vm.Reachable a) (hstring : vm.IsString a) :
    vm'.IsString (φ a) := by
  obtain ⟨chars, hash, hdata⟩ := hstring
  refine ⟨chars, hash, ?_⟩
  rw [h.data a ha, hdata]
  rfl

theorem isFunction (h : Similar φ vm vm') (ha : vm.Reachable a) (hfunction : vm.IsFunction a) :
    vm'.IsFunction (φ a) := by
  obtain ⟨arity, upvalueCount, chunk, name, hdata⟩ := hfunction
  refine ⟨arity, upvalueCount, chunk.rename φ, name.map φ, ?_⟩
  rw [h.data a ha, hdata]
  rfl

/-- The tables of the one memory are those of the other. -/
theorem renames (h : Similar φ vm vm') :
    Renames φ (Value.rename φ : Value N → Value N) vm.hash vm'.hash vm.Reachable where
  injective := h.injective
  hash _ := h.hash
  isNil value := by
    cases value with
    | _ => rfl
  nil := rfl
  true_ := rfl

/-- Addresses that do not occur do not matter. -/
theorem congr (h : Similar φ vm vm') (hsame : ∀ a, vm.Reachable a → ψ a = φ a) :
    Similar ψ vm vm' := by
  have hroots : ∀ a ∈ vm.roots, φ a = ψ a := fun a ha => (hsame a (.root ha)).symm
  simp only [VM.roots, List.mem_append] at hroots
  refine ⟨?_, ?_, ?_, ?_, ?_, ?_, fun a ha => ?_, fun a b ha hb heq => ?_⟩
  · rw [h.stack]
    exact map_rename_congr fun a ha => hroots a (by tauto)
  · rw [h.frames]
    exact List.map_congr_left fun a ha => hroots a (by tauto)
  · rw [h.openUpvalues]
    exact List.map_congr_left fun a ha => hroots a (by tauto)
  · rw [h.compilers]
    exact List.map_congr_left fun a ha => hroots a (by tauto)
  · rw [h.initString]
    exact map_congr_toList fun a ha => hroots a (by tauto)
  · rw [h.globals]
    exact renameTable_congr fun a ha => hroots a (by tauto)
  · rw [hsame a ha, h.data a ha]
    cases hdata : vm.dataAt a with
    | none => rfl
    | some data =>
      refine congrArg some (Data.rename_congr fun b hb => (hsame b (ha.step ?_)).symm)
      rw [refs_eq hdata]
      exact hb
  · rw [hsame a ha, hsame b hb] at heq
    exact h.injective a b ha hb heq

/-- The roots may become others that could be reached. -/
theorem reroot (h : Similar φ vm vm') (stack : List (Value N))
    (frames openUpvalues compilers : List Addr)
    (hroots : ∀ a, a ∈ stack.flatMap Value.refs ∨ a ∈ frames ∨ a ∈ openUpvalues ∨ a ∈ compilers →
      vm.Reachable a) :
    Similar φ
      { vm with
        stack := stack, frames := frames, openUpvalues := openUpvalues, compilers := compilers }
      { vm' with
        stack := stack.map (Value.rename φ), frames := frames.map φ
        openUpvalues := openUpvalues.map φ, compilers := compilers.map φ } := by
  have hreach : ∀ a, VM.Reachable { vm with
      stack := stack, frames := frames, openUpvalues := openUpvalues, compilers := compilers } a →
      vm.Reachable a := by
    intro a ha
    refine ha.mono (fun r hr => ?_) fun _ _ _ hy => hy
    have hold : ∀ b, b ∈ tableRefs vm.globals ∨ b ∈ vm.initString.toList → vm.Reachable b := by
      intro b hb
      refine .root ?_
      simp only [VM.roots, List.mem_append]
      tauto
    simp only [VM.roots, List.mem_append] at hr
    rcases hr with ((((hr | hr) | hr) | hr) | hr) | hr
    · exact hroots r (.inl hr)
    · exact hroots r (.inr (.inl hr))
    · exact hroots r (.inr (.inr (.inl hr)))
    · exact hold r (.inl hr)
    · exact hroots r (.inr (.inr (.inr hr)))
    · exact hold r (.inr hr)
  exact ⟨rfl, rfl, rfl, rfl, h.initString, h.globals, fun a ha => h.data a (hreach a ha),
    fun a b ha hb => h.injective a b (hreach a ha) (hreach b hb)⟩

end Similar

end Lox.Clox.Memory
