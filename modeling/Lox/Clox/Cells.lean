import Lox.Clox.Soundness.Step

/-!
# Captured variables as cells

What `vm.c` does for captured variables is a way to make this machine work: a variable that is captured
becomes a cell on the heap, which all closures that capture it share, and nothing has to be done when
it leaves the stack.  As long as it is on the stack, its slot shows what is in the cell.

* `heapCells` is this machine, and `Shows` says that the two machines are in the same state: an upvalue
  that points into the stack is the cell with the value that it points to.
* `Sim` adds that the cells of the variables on the stack are those of the list of open upvalues.
* Everything that `run` does at the top of the stack, above all captured variables, it does in the
  same way on both machines.
-/

namespace Lox.Clox

variable {N : Type}

/-! ### The machine with cells -/

/-- The cells of the variables on the stack. -/
abbrev Cells := ℕ → Option Addr

instance : Tracking Cells where
  emptyCollection _ := none
  truncate top cells slot := if slot < top then cells slot else none

/-- What is in a cell. -/
def VM.readCell (a : Addr) (vm : VM N Cells) : Option (Value N) :=
  match vm.objects[a]? with
  | some (.upvalue none value) => some value
  | _ => none

/-- Put a value into a cell; the slot of the variable shows it. -/
def VM.writeCell (a : Addr) (value : Value N) (vm : VM N Cells) : Option (VM N Cells) :=
  match vm.objects[a]? with
  | some (.upvalue none _) => some
      { vm with
        objects := vm.objects.set a (.upvalue none value)
        stack := fun slot => if vm.upvalues slot = some a then value else vm.stack slot }
  | _ => none

theorem VM.writeCell_eq {a : Addr} {v : Value N} {vm : VM N Cells}
    (h : vm.objects[a]? = some (.upvalue none v)) (value : Value N) :
    vm.writeCell a value = some
      { vm with
        objects := vm.objects.set a (.upvalue none value)
        stack := fun slot => if vm.upvalues slot = some a then value else vm.stack slot } := by
  simp only [writeCell, h]

/-- Variables as cells, once they are captured. -/
def heapCells : Variables N Cells where
  getLocal slot vm :=
    match vm.upvalues slot with
    | some a => vm.readCell a
    | none => some (vm.stack slot)
  setLocal slot value vm :=
    match vm.upvalues slot with
    | some a => vm.writeCell a value
    | none => some { vm with stack := Function.update vm.stack slot value }
  getUpvalue := VM.readCell
  setUpvalue := VM.writeCell
  captureUpvalue slot vm :=
    match vm.upvalues slot with
    | some a => some (a, vm)
    | none =>
      let (a, vm') := vm.allocate (.upvalue none (vm.stack slot))
      some (a, { vm' with upvalues := Function.update vm.upvalues slot (some a) })
  closeUpvalues _ vm := some vm

/-! ### The same state -/

/-- An upvalue as a cell. -/
def Obj.cell (stack : ℕ → Value N) : Obj N → Obj N
  | .upvalue (some location) _ => .upvalue none (stack location)
  | o => o

/-- Two machines in the same state, apart from what they keep to find the captured variables. -/
structure Shows (vm : VM N (List Addr)) (vm' : VM N Cells) : Prop where
  frames : vm'.frames = vm.frames
  stack : vm'.stack = vm.stack
  stackTop : vm'.stackTop = vm.stackTop
  globals : vm'.globals = vm.globals
  objects : vm'.objects = vm.objects.map (Obj.cell vm.stack)
  stdout : vm'.stdout = vm.stdout
  stderr : vm'.stderr = vm.stderr
  clock : vm'.clock = vm.clock
  ticks : vm'.ticks = vm.ticks

/-- The cells are the open upvalues, and all of them are of variables below `m`. -/
structure Sim (m : ℕ) (vm : VM N (List Addr)) (vm' : VM N Cells) : Prop extends Shows vm vm' where
  cells : ∀ j a, vm'.upvalues j = some a ↔ OpenAt vm.objects a j ∧ a ∈ vm.upvalues
  below : ∀ a j, OpenAt vm.objects a j → j < m

/-- Both machines go on, or both stop with the same result; the cells that are known are those of
variables that are still on the stack. -/
inductive SimOutcome : Outcome N (List Addr) → Outcome N Cells → Prop where
  | running {m : ℕ} {vm : VM N (List Addr)} {vm' : VM N Cells} (h : Sim m vm vm') :
      SimOutcome (.running vm) (.running vm')
  | finished (result : InterpretResult) {vm : VM N (List Addr)} {vm' : VM N Cells}
      (h : Shows vm vm') (free : ∀ j, vm'.stackTop ≤ j → vm'.upvalues j = none) :
      SimOutcome (.finished result vm) (.finished result vm')

/-- Both calls go on, or both report the same error. -/
inductive SimCall (m : ℕ) : Bool × VM N (List Addr) → Bool × VM N Cells → Prop where
  | done {vm : VM N (List Addr)} {vm' : VM N Cells} (h : Sim m vm vm') :
      SimCall m (true, vm) (true, vm')
  | failed {vm : VM N (List Addr)} {vm' : VM N Cells} (h : Sim m vm vm') (message : String) :
      SimCall m (false, vm.runtimeError message) (false, vm'.runtimeError message)

section Rules

variable {α β γ δ : Type} {R : α → β → Prop} {Q : γ → δ → Prop}

theorem rel_bind {x : Option α} {y : Option β} {f : α → Option γ} {g : β → Option δ}
    (h : Option.Rel R x y) (hfg : ∀ a b, R a b → Option.Rel Q (f a) (g b)) :
    Option.Rel Q (x.bind f) (y.bind g) := by
  cases h with
  | none => exact .none
  | some h => exact hfg _ _ h

/-- Both do the same first. -/
theorem rel_bind_same {x : Option α} {f : α → Option γ} {g : α → Option δ}
    (hfg : ∀ a, x = some a → Option.Rel Q (f a) (g a)) : Option.Rel Q (x.bind f) (x.bind g) := by
  cases x with
  | none => exact .none
  | some a => exact hfg a rfl

end Rules

namespace Sim

variable {m : ℕ} {vm : VM N (List Addr)} {vm' : VM N Cells}

/-! ### The stack -/

theorem cell_congr {stack stack' : ℕ → Value N} {objects : List (Obj N)}
    (h : ∀ a l, OpenAt objects a l → stack' l = stack l) :
    objects.map (Obj.cell stack') = objects.map (Obj.cell stack) := by
  apply List.map_congr_left
  intro o ho
  obtain ⟨a, ha⟩ := List.getElem?_of_mem ho
  cases o with
  | upvalue location v =>
    cases location with
    | none => rfl
    | some l =>
      have hl : stack' l = stack l := h a l ⟨v, ha⟩
      simp only [Obj.cell, hl]
  | _ => rfl

theorem setStack (h : Sim m vm vm') (stack : ℕ → Value N) (top : ℕ)
    (hkept : ∀ j < m, stack j = vm.stack j) : Sim m { vm with stack := stack, stackTop := top }
      { vm' with stack := stack, stackTop := top } where
  frames := h.frames
  stack := rfl
  stackTop := rfl
  globals := h.globals
  objects := h.objects.trans (cell_congr fun a l ha => hkept l (h.below a l ha)).symm
  stdout := h.stdout
  stderr := h.stderr
  clock := h.clock
  ticks := h.ticks
  cells := h.cells
  below := h.below

theorem push (h : Sim m vm vm') (hm : m ≤ vm.stackTop) (value : Value N) :
    Sim m (vm.push value) (vm'.push value) := by
  have hpushed := h.setStack (Function.update vm.stack vm.stackTop value) (vm.stackTop + 1)
    fun j hj => Function.update_of_ne (by omega) _ _
  unfold VM.push
  rw [h.stack, h.stackTop]
  exact hpushed

theorem poke (h : Sim m vm vm') {d : ℕ} (hm : m + d + 1 ≤ vm.stackTop) (value : Value N) :
    Sim m (vm.poke d value) (vm'.poke d value) := by
  have hpoked := h.setStack (Function.update vm.stack (vm.stackTop - 1 - d) value) vm.stackTop
    fun j hj => Function.update_of_ne (by omega) _ _
  unfold VM.poke
  rw [h.stack, h.stackTop]
  exact hpoked

theorem peek (h : Sim m vm vm') (d : ℕ) : vm'.peek d = vm.peek d := by
  simp only [VM.peek, h.stack, h.stackTop]

theorem truncate (h : Sim m vm vm') {top : ℕ} (hm : m ≤ top) :
    Sim m (vm.truncate top) (vm'.truncate top) where
  frames := h.frames
  stack := h.stack
  stackTop := rfl
  globals := h.globals
  objects := h.objects
  stdout := h.stdout
  stderr := h.stderr
  clock := h.clock
  ticks := h.ticks
  cells j a := by
    show (if j < top then vm'.upvalues j else none) = some a ↔ _
    split
    · exact h.cells j a
    · rename_i hge
      constructor
      · intro hnone
        cases hnone
      · rintro ⟨hopen, -⟩
        have hj : j < m := h.below a j hopen
        omega
  below := h.below

theorem pop (h : Sim m vm vm') {n : ℕ} (hm : m + n ≤ vm.stackTop) : Sim m (vm.pop n) (vm'.pop n) := by
  have htruncated : Sim m (vm.truncate (vm.stackTop - n)) (vm'.truncate (vm.stackTop - n)) :=
    h.truncate (by omega)
  unfold VM.pop
  rw [h.stackTop]
  exact htruncated

/-- `n` values are replaced by one. -/
theorem replace (h : Sim m vm vm') {n : ℕ} (hm : m + n ≤ vm.stackTop) (value : Value N) :
    Sim m ((vm.pop n).push value) ((vm'.pop n).push value) := by
  refine (h.pop hm).push ?_ value
  show m ≤ vm.stackTop - n
  omega

/-! ### Objects -/

theorem get (h : Sim m vm vm') (a : Addr) :
    vm'.objects[a]? = (vm.objects[a]?).map (Obj.cell vm.stack) := by
  rw [h.objects, List.getElem?_map]

theorem asClosure (h : Sim m vm vm') (a : Addr) : vm'.asClosure a = vm.asClosure a := by
  simp only [VM.asClosure, h.get]
  cases vm.objects[a]? with
  | none => rfl
  | some o =>
    cases o with
    | upvalue location v =>
      cases location with
      | _ => rfl
    | _ => rfl

theorem asClass (h : Sim m vm vm') (value : Value N) : vm'.asClass value = vm.asClass value := by
  cases value with
  | obj a =>
    simp only [VM.asClass, h.get]
    cases vm.objects[a]? with
    | none => rfl
    | some o =>
      cases o with
      | upvalue location v =>
        cases location with
        | _ => rfl
      | _ => rfl
  | _ => rfl

theorem asInstance (h : Sim m vm vm') (value : Value N) :
    vm'.asInstance value = vm.asInstance value := by
  cases value with
  | obj a =>
    simp only [VM.asInstance, h.get]
    cases vm.objects[a]? with
    | none => rfl
    | some o =>
      cases o with
      | upvalue location v =>
        cases location with
        | _ => rfl
      | _ => rfl
  | _ => rfl

theorem printValue (h : Sim m vm vm') (value : Value N) :
    vm'.printValue value = vm.printValue value := by
  cases value with
  | obj a =>
    simp only [VM.printValue, h.get, h.asClosure, h.asClass]
    cases vm.objects[a]? with
    | none => rfl
    | some o =>
      cases o with
      | upvalue location v =>
        cases location with
        | _ => rfl
      | _ => rfl
  | _ => rfl

theorem cell_eq {stack : ℕ → Value N} {o : Obj N} (ho : ∀ l v, o ≠ .upvalue (some l) v) :
    Obj.cell stack o = o := by
  cases o with
  | upvalue location v =>
    cases location with
    | none => rfl
    | some l => exact absurd rfl (ho l v)
  | _ => rfl

/-- An object that is not an open upvalue is allocated. -/
theorem allocate (h : Sim m vm vm') {o : Obj N} (ho : ∀ l v, o ≠ .upvalue (some l) v) :
    (vm'.allocate o).1 = (vm.allocate o).1 ∧ Sim m (vm.allocate o).2 (vm'.allocate o).2 := by
  have hopen : ∀ a j, OpenAt (vm.allocate o).2.objects a j ↔ OpenAt vm.objects a j :=
    fun a j => openAt_append ho
  refine ⟨by simp [VM.allocate, h.objects], ⟨h.frames, h.stack, h.stackTop, h.globals, ?_, h.stdout,
    h.stderr, h.clock, h.ticks⟩, fun j a => ?_, fun a j ha => h.below a j ((hopen a j).1 ha)⟩
  · show vm'.objects ++ [o] = (vm.objects ++ [o]).map (Obj.cell vm.stack)
    rw [List.map_append, ← h.objects, List.map_singleton, cell_eq ho]
  · show vm'.upvalues j = some a ↔ OpenAt (vm.allocate o).2.objects a j ∧ a ∈ vm.upvalues
    rw [hopen]
    exact h.cells j a

/-- An object is changed that is not an open upvalue. -/
theorem update (h : Sim m vm vm') {a : Addr} {old o : Obj N} (hold : vm.objects[a]? = some old)
    (hclosed : ∀ l v, old ≠ .upvalue (some l) v) (ho : ∀ l v, o ≠ .upvalue (some l) v) :
    Sim m (vm.update a o) (vm'.update a o) := by
  have hopen : ∀ b j, OpenAt (vm.objects.set a o) b j ↔ OpenAt vm.objects b j :=
    fun b j => openAt_set hold hclosed ho
  refine ⟨⟨h.frames, h.stack, h.stackTop, h.globals, ?_, h.stdout, h.stderr, h.clock, h.ticks⟩,
    fun j b => ?_, fun b j hb => h.below b j ((hopen b j).1 hb)⟩
  · show vm'.objects.set a o = (vm.objects.set a o).map (Obj.cell vm.stack)
    rw [List.map_set, ← h.objects, cell_eq ho]
  · show vm'.upvalues j = some b ↔ OpenAt (vm.objects.set a o) b j ∧ b ∈ vm.upvalues
    rw [hopen]
    exact h.cells j b

/-! ### Other parts of the state -/

theorem setFrames (h : Sim m vm vm') (frames : List CallFrame) :
    Sim m { vm with frames := frames } { vm' with frames := frames } :=
  ⟨⟨rfl, h.stack, h.stackTop, h.globals, h.objects, h.stdout, h.stderr, h.clock, h.ticks⟩, h.cells,
    h.below⟩

theorem setGlobals (h : Sim m vm vm') (globals : Table N) :
    Sim m { vm with globals := globals } { vm' with globals := globals } :=
  ⟨⟨h.frames, h.stack, h.stackTop, rfl, h.objects, h.stdout, h.stderr, h.clock, h.ticks⟩, h.cells,
    h.below⟩

theorem setStdout (h : Sim m vm vm') (stdout : List (Printed N)) :
    Sim m { vm with stdout := stdout } { vm' with stdout := stdout } :=
  ⟨⟨h.frames, h.stack, h.stackTop, h.globals, h.objects, rfl, h.stderr, h.clock, h.ticks⟩, h.cells,
    h.below⟩

theorem setTicks (h : Sim m vm vm') (ticks : ℕ) :
    Sim m { vm with ticks := ticks } { vm' with ticks := ticks } :=
  ⟨⟨h.frames, h.stack, h.stackTop, h.globals, h.objects, h.stdout, h.stderr, h.clock, rfl⟩, h.cells,
    h.below⟩

theorem jumpTo (h : Sim m vm vm') (ip : ℕ) : Sim m (vm.jumpTo ip) (vm'.jumpTo ip) := by
  unfold VM.jumpTo
  rw [h.frames]
  exact h.setFrames _

/-- The list is emptied, and so are the cells that are known; the upvalues stay as they are. -/
theorem runtimeError (h : Sim m vm vm') (message : String) :
    Sim m (vm.runtimeError message) (vm'.runtimeError message) := by
  have htrace : (vm'.runtimeError message).stderr = (vm.runtimeError message).stderr := by
    simp only [VM.runtimeError, VM.resetStack, h.frames, h.stderr, h.asClosure]
  refine ⟨⟨rfl, h.stack, rfl, h.globals, h.objects, h.stdout, htrace, h.clock, h.ticks⟩, fun j a => ?_,
    h.below⟩
  constructor
  · intro hnone
    cases hnone
  · rintro ⟨-, hmem⟩
    cases hmem

/-! ### Outcomes -/

theorem goOn (h : Sim m vm vm') : Option.Rel SimOutcome vm.goOn vm'.goOn := .some (.running h)

theorem fail (h : Sim m vm vm') (message : String) :
    Option.Rel SimOutcome (vm.fail message) (vm'.fail message) :=
  .some (.finished _ (h.runtimeError message).toShows fun _ _ => rfl)

theorem check {r : Option (Bool × VM N (List Addr))} {r' : Option (Bool × VM N Cells)}
    (h : Option.Rel (SimCall m) r r') : Option.Rel SimOutcome (VM.check r) (VM.check r') := by
  cases h with
  | none => exact .none
  | some hcall =>
    cases hcall with
    | done h => exact .some (.running h)
    | failed h message => exact h.fail message

/-! ### Calls -/

variable {argCount : ℕ}

theorem call (h : Sim m vm vm') (closure : Addr) (argCount : ℕ) :
    Option.Rel (SimCall m) (vm.call closure argCount) (vm'.call closure argCount) := by
  simp only [VM.call, h.asClosure, h.frames, h.stackTop]
  refine rel_bind_same fun r _ => ?_
  obtain ⟨function, us⟩ := r
  simp only
  split
  · exact .some (.failed h _)
  · split
    · exact .some (.failed h _)
    · have hframes := h.setFrames (⟨closure, 0, vm.stackTop - argCount - 1⟩ :: vm.frames)
      rw [h.stackTop] at hframes
      exact .some (.done hframes)

theorem callClass (h : Sim m vm vm') {klass : Addr} {methods : Table N}
    (hm : m + argCount + 1 ≤ vm.stackTop) :
    Option.Rel (SimCall m) (vm.callClass klass methods argCount)
      (vm'.callClass klass methods argCount) := by
  obtain ⟨haddr, hallocated⟩ := h.allocate (o := .inst klass Table.empty)
    fun l v heq => by cases heq
  have hpoked := hallocated.poke (d := argCount) hm (.obj (vm.allocate (.inst klass Table.empty)).1)
  unfold VM.callClass
  simp only [haddr]
  split
  · exact rel_bind_same fun method _ => hpoked.call method argCount
  · split
    · exact .some (.done (hpoked.runtimeError _))
    · exact .some (.done hpoked)

theorem callNative (h : Sim m vm vm') (hm : m + argCount + 1 ≤ vm.stackTop) :
    Sim m (vm.callNative argCount) (vm'.callNative argCount) := by
  have hticks := h.setTicks (vm.ticks + 1)
  have hreplaced := hticks.replace (n := argCount + 1) hm (.number (vm.clock vm.ticks))
  unfold VM.callNative
  rw [h.clock, h.ticks]
  rw [h.clock] at hreplaced
  exact hreplaced

theorem callValue (h : Sim m vm vm') (callee : Value N) (hm : m + argCount + 1 ≤ vm.stackTop) :
    Option.Rel (SimCall m) (vm.callValue callee argCount) (vm'.callValue callee argCount) := by
  have hfailed : Option.Rel (SimCall m)
      (some (false, vm.runtimeError "Can only call functions and classes."))
      (some (false, vm'.runtimeError "Can only call functions and classes.")) :=
    .some (.failed h _)
  cases callee with
  | obj a =>
    simp only [VM.callValue, h.get]
    cases vm.objects[a]? with
    | none => exact .none
    | some o =>
      cases o with
      | closure function upvalues => exact h.call a argCount
      | upvalue location v =>
        cases location with
        | _ => exact hfailed
      | klass name methods => exact h.callClass hm
      | inst klass fields => exact hfailed
      | boundMethod receiver method => exact (h.poke hm receiver).call method argCount
      | native => exact .some (.done (h.callNative hm))
  | _ => exact hfailed

theorem invokeFromClass (h : Sim m vm vm') (methods : Table N) (name : Name) :
    Option.Rel (SimCall m) (vm.invokeFromClass methods name argCount)
      (vm'.invokeFromClass methods name argCount) := by
  unfold VM.invokeFromClass
  split
  · exact .some (.failed h _)
  · exact rel_bind_same fun method _ => h.call method argCount

theorem invoke (h : Sim m vm vm') (name : Name) (hm : m + argCount + 1 ≤ vm.stackTop) :
    Option.Rel (SimCall m) (vm.invoke name argCount) (vm'.invoke name argCount) := by
  simp only [VM.invoke, h.peek, h.asInstance, h.asClass]
  split
  · exact .some (.failed h _)
  · split
    · rename_i value _
      exact (h.poke hm value).callValue value hm
    · exact rel_bind_same fun r _ => h.invokeFromClass r.2.2 name

theorem bindMethod (h : Sim m vm vm') (methods : Table N) (name : Name) (hm : m + 1 ≤ vm.stackTop) :
    Option.Rel (SimCall m) (vm.bindMethod methods name) (vm'.bindMethod methods name) := by
  simp only [VM.bindMethod, h.peek]
  split
  · exact .some (.failed h _)
  · refine rel_bind_same fun method _ => ?_
    obtain ⟨haddr, hallocated⟩ := h.allocate (o := .boundMethod (vm.peek 0) method)
      fun l v heq => by cases heq
    simp only [haddr]
    exact .some (.done (hallocated.replace hm _))

/-! ### Instructions -/

theorem binaryOp (h : Sim m vm vm') (op : N → N → Value N) (hm : m + 2 ≤ vm.stackTop) :
    Option.Rel SimOutcome (vm.binaryOp op) (vm'.binaryOp op) := by
  simp only [VM.binaryOp, h.peek]
  split
  · exact (h.replace hm _).goOn
  · exact h.fail _

theorem add [Double N] (h : Sim m vm vm') (hm : m + 2 ≤ vm.stackTop) :
    Option.Rel SimOutcome vm.add vm'.add := by
  simp only [VM.add, h.peek]
  split
  · exact (h.replace hm _).goOn
  · exact (h.replace hm _).goOn
  · exact h.fail _

theorem negate [Double N] (h : Sim m vm vm') (hm : m + 1 ≤ vm.stackTop) :
    Option.Rel SimOutcome vm.negate vm'.negate := by
  simp only [VM.negate, h.peek]
  split
  · exact (h.replace hm _).goOn
  · exact h.fail _

theorem constant (h : Sim m vm vm') (hm : m ≤ vm.stackTop) (k : UInt8) (function : ObjFunction N) :
    Option.Rel SimOutcome (vm.constant k function) (vm'.constant k function) := by
  unfold VM.constant
  split
  · exact (h.push hm _).goOn
  · exact (h.push hm _).goOn
  · exact .none

theorem getGlobal (h : Sim m vm vm') (hm : m ≤ vm.stackTop) (name : Name) :
    Option.Rel SimOutcome (vm.getGlobal name) (vm'.getGlobal name) := by
  simp only [VM.getGlobal, h.globals]
  split
  · exact (h.push hm _).goOn
  · exact h.fail _

theorem setGlobal (h : Sim m vm vm') (name : Name) :
    Option.Rel SimOutcome (vm.setGlobal name) (vm'.setGlobal name) := by
  simp only [VM.setGlobal, h.globals, h.peek]
  split
  · exact (h.setGlobals _).goOn
  · exact h.fail _

theorem getProperty (h : Sim m vm vm') (hm : m + 1 ≤ vm.stackTop) (name : Name) :
    Option.Rel SimOutcome (vm.getProperty name) (vm'.getProperty name) := by
  simp only [VM.getProperty, h.peek, h.asInstance, h.asClass]
  split
  · exact h.fail _
  · split
    · exact (h.replace hm _).goOn
    · exact rel_bind_same fun r _ => check (h.bindMethod r.2.2 name hm)

theorem setProperty (h : Sim m vm vm') (hm : m + 2 ≤ vm.stackTop) (name : Name) :
    Option.Rel SimOutcome (vm.setProperty name) (vm'.setProperty name) := by
  simp only [VM.setProperty, h.peek, h.asInstance]
  split
  · exact h.fail _
  · rename_i a klass fields hinstance
    obtain ⟨-, hold⟩ := VM.asInstance_eq_some.1 hinstance
    have hupdated := h.update (o := .inst klass (fields.set name (vm.peek 0))) hold
      (fun _ _ heq => by cases heq) fun _ _ heq => by cases heq
    exact (hupdated.replace hm _).goOn

theorem defineMethod (h : Sim m vm vm') (hm : m + 1 ≤ vm.stackTop) (name : Name) :
    Option.Rel SimOutcome (vm.defineMethod name) (vm'.defineMethod name) := by
  simp only [VM.defineMethod, h.peek, h.asClass]
  refine rel_bind_same fun r hr => ?_
  obtain ⟨a, className, methods⟩ := r
  obtain ⟨-, hold⟩ := VM.asClass_eq_some.1 hr
  have hupdated := h.update (o := .klass className (methods.set name (vm.peek 0))) hold
    (fun _ _ heq => by cases heq) fun _ _ heq => by cases heq
  exact (hupdated.pop hm).goOn

theorem inherit_ (h : Sim m vm vm') (hm : m + 1 ≤ vm.stackTop) :
    Option.Rel SimOutcome vm.inherit_ vm'.inherit_ := by
  simp only [VM.inherit_, h.peek, h.asClass]
  split
  · exact h.fail _
  · refine rel_bind_same fun r hr => ?_
    obtain ⟨a, className, methods⟩ := r
    obtain ⟨-, hold⟩ := VM.asClass_eq_some.1 hr
    exact ((h.update hold (fun _ _ heq => by cases heq) fun _ _ heq => by cases heq).pop hm).goOn

theorem superInvoke (h : Sim m vm vm') (hm : m + 1 ≤ vm.stackTop) (name : Name) :
    Option.Rel SimOutcome (vm.superInvoke name argCount) (vm'.superInvoke name argCount) := by
  simp only [VM.superInvoke, h.peek, h.asClass]
  exact rel_bind_same fun r _ => check ((h.pop hm).invokeFromClass r.2.2 name)

theorem getSuper (h : Sim m vm vm') (hm : m + 2 ≤ vm.stackTop) (name : Name) :
    Option.Rel SimOutcome (vm.getSuper name) (vm'.getSuper name) := by
  simp only [VM.getSuper, h.peek, h.asClass]
  refine rel_bind_same fun r _ => check (Sim.bindMethod (h.pop (by omega)) r.2.2 name ?_)
  show m + 1 ≤ vm.stackTop - 1
  omega

end Sim

end Lox.Clox
