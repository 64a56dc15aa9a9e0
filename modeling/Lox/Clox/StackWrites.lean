import Lox.Clox.Classes
import Lox.Clox.Frames
import Lox.Clox.Soundness.Memory

/-!
# What instructions write

An instruction changes values of the stack at the top only, where it takes values off and puts others
there.  The exceptions are the assignment of a local variable and that of a captured variable that is
still on the stack (`execute_stack`).
-/

namespace Lox.Clox

variable {N : Type}

/-- The value in the stack slot `j` is still there. -/
def StackKept (j : ℕ) (vm : VM N (List Addr)) (r : Option (Outcome N (List Addr))) : Prop :=
  ∀ o, r = some o → o.vm.stack j = vm.stack j

/-- The same for a call. -/
def StackKeptCall (j : ℕ) (vm : VM N (List Addr)) (r : Option (Bool × VM N (List Addr))) : Prop :=
  ∀ ok vm', r = some (ok, vm') → vm'.stack j = vm.stack j

section Rules

variable {j : ℕ} {vm vm₁ : VM N (List Addr)}

theorem stackKept_none : StackKept j vm none := by
  intro o ho
  cases ho

theorem stackKept_bind {α : Type} {x : Option α} {k : α → Option (Outcome N (List Addr))}
    (h : ∀ a, x = some a → StackKept j vm (k a)) : StackKept j vm (x >>= k) := by
  intro o ho
  obtain ⟨a, ha, hk⟩ := Option.bind_eq_some_iff.1 ho
  exact h a ha o hk

theorem stackKept_goOn (h : vm₁.stack j = vm.stack j) : StackKept j vm vm₁.goOn := by
  intro o ho
  obtain rfl := Option.some.inj ho
  exact h

theorem stackKept_fail (message : String) : StackKept j vm (vm.fail message) := by
  intro o ho
  obtain rfl := Option.some.inj ho
  rfl

theorem stackKept_check {r : Option (Bool × VM N (List Addr))} (h : StackKeptCall j vm r) :
    StackKept j vm (VM.check r) := by
  intro o ho
  match r, ho with
  | some (true, vm'), ho =>
    obtain rfl := Option.some.inj ho
    exact h _ _ rfl
  | some (false, vm'), ho =>
    obtain rfl := Option.some.inj ho
    exact h _ _ rfl

theorem stackKeptCall_some {ok : Bool} (h : vm₁.stack j = vm.stack j) :
    StackKeptCall j vm (some (ok, vm₁)) := by
  intro ok' vm' h'
  obtain ⟨-, rfl⟩ := Prod.mk.inj (Option.some.inj h')
  exact h

theorem stackKeptCall_bind {α : Type} {x : Option α} {k : α → Option (Bool × VM N (List Addr))}
    (h : ∀ a, x = some a → StackKeptCall j vm (k a)) : StackKeptCall j vm (x >>= k) := by
  intro ok vm' hr
  obtain ⟨a, ha, hk⟩ := Option.bind_eq_some_iff.1 hr
  exact h a ha ok vm' hk

/-- A change above the slot does not matter. -/
theorem StackKeptCall.of_eq {r : Option (Bool × VM N (List Addr))} (h : StackKeptCall j vm₁ r)
    (heq : vm₁.stack j = vm.stack j) : StackKeptCall j vm r :=
  fun ok vm' hr => (h ok vm' hr).trans heq

/-- A push above the slot. -/
theorem push_stack {vm : VM N (List Addr)} (value : Value N) (h : j < vm.stackTop) :
    (vm.push value).stack j = vm.stack j :=
  Function.update_of_ne h.ne _ _

theorem poke_stack {d : ℕ} (value : Value N) (h : j + d + 1 < vm.stackTop) :
    (vm.poke d value).stack j = vm.stack j := by
  unfold VM.poke
  exact Function.update_of_ne (by omega) _ _

/-- `n` values are replaced by one. -/
theorem replace_stack {n : ℕ} (value : Value N) (h : j + n < vm.stackTop) :
    ((vm.pop n).push value).stack j = vm.stack j := by
  refine push_stack value ?_
  change j < vm.stackTop - n
  omega

/-! ### Calls -/

variable {argCount : ℕ}

theorem call_stack (closure : Addr) : StackKeptCall j vm (vm.call closure argCount) := by
  refine stackKeptCall_bind fun r _ => ?_
  obtain ⟨f, us⟩ := r
  simp only
  split
  · exact stackKeptCall_some rfl
  · split
    · exact stackKeptCall_some rfl
    · exact stackKeptCall_some rfl

theorem callClass_stack {klass : Addr} {methods : Table N} (h : j + argCount + 1 < vm.stackTop) :
    StackKeptCall j vm (vm.callClass klass methods argCount) := by
  have hpoke : ((vm.allocate (.inst klass Table.empty)).2.poke argCount
      (.obj vm.objects.length)).stack j = vm.stack j := poke_stack _ h
  unfold VM.callClass
  simp only
  split
  · exact stackKeptCall_bind fun method _ => (call_stack method).of_eq hpoke
  · split
    · exact stackKeptCall_some hpoke
    · exact stackKeptCall_some hpoke

theorem callValue_stack {callee : Value N} (h : j + argCount + 1 < vm.stackTop) :
    StackKeptCall j vm (vm.callValue callee argCount) := by
  unfold VM.callValue
  split
  · split
    · exact (call_stack _).of_eq (poke_stack _ h)
    · exact callClass_stack h
    · have hnative : (vm.callNative argCount).stack j = vm.stack j := by
        have htop : j < ({ vm with ticks := vm.ticks + 1 }.pop (argCount + 1)).stackTop :=
          Nat.lt_sub_of_add_lt h
        exact push_stack _ htop
      exact stackKeptCall_some hnative
    · exact call_stack _
    · exact stackKeptCall_some rfl
    · intro ok vm' hr
      cases hr
  · exact stackKeptCall_some rfl

theorem invokeFromClass_stack {methods : Table N} {name : Name} :
    StackKeptCall j vm (vm.invokeFromClass methods name argCount) := by
  unfold VM.invokeFromClass
  split
  · exact stackKeptCall_some rfl
  · exact stackKeptCall_bind fun method _ => call_stack method

theorem invoke_stack {name : Name} (h : j + argCount + 1 < vm.stackTop) :
    StackKeptCall j vm (vm.invoke name argCount) := by
  unfold VM.invoke
  split
  · exact stackKeptCall_some rfl
  · split
    · rename_i value _
      have htop : j + argCount + 1 < (vm.poke argCount value).stackTop := h
      exact (callValue_stack htop).of_eq (poke_stack _ h)
    · exact stackKeptCall_bind fun r _ => invokeFromClass_stack

theorem bindMethod_stack {methods : Table N} {name : Name} (h : j + 1 < vm.stackTop) :
    StackKeptCall j vm (vm.bindMethod methods name) := by
  unfold VM.bindMethod
  split
  · exact stackKeptCall_some rfl
  · refine stackKeptCall_bind fun method _ => stackKeptCall_some ?_
    have htop : j + 1 < (vm.allocate (.boundMethod (vm.peek 0) method)).2.stackTop := h
    exact replace_stack _ htop

/-! ### Captured variables -/

theorem closeUpvalues_stack {last : ℕ} {vm vm' : VM N (List Addr)}
    (h : closeUpvalues last vm = some vm') : vm'.stack = vm.stack := by
  simp only [closeUpvalues, Option.bind_eq_bind, Option.bind_eq_some_iff, Prod.exists] at h
  obtain ⟨upvalues, objects, -, h⟩ := h
  obtain rfl := Option.some.inj h
  rfl

/-- An assignment of a captured variable writes where its upvalue points to. -/
theorem setUpvalue_stack {a : Addr} {value : Value N} {vm' : VM N (List Addr)}
    (h : setUpvalue a value vm = some vm') (hj : ¬ OpenAt vm.objects a j) :
    vm'.stack j = vm.stack j := by
  unfold setUpvalue at h
  split at h
  · rename_i location closed ho
    obtain rfl := Option.some.inj h
    refine Function.update_of_ne ?_ _ _
    rintro rfl
    exact hj ⟨closed, ho⟩
  · obtain rfl := Option.some.inj h
    rfl
  · cases h

theorem makeClosure_stack {slots : ℕ} {enclosing : List (Option Addr)} {f : ObjFunction N}
    {us : List Upvalue} (h : j < vm.stackTop) :
    StackKept j vm (vm.makeClosure openUpvalues slots enclosing f us) := by
  refine stackKept_bind fun r hr => stackKept_goOn ?_
  obtain ⟨as, vm'⟩ := r
  exact (congrFun (captures_stack hr).1 j).trans (push_stack _ h)

/-! ### Instructions -/

theorem binaryOp_stack (op : N → N → Value N) (h : j + 2 < vm.stackTop) :
    StackKept j vm (vm.binaryOp op) := by
  unfold VM.binaryOp
  split
  · exact stackKept_goOn (replace_stack _ h)
  · exact stackKept_fail _

end Rules

/-- The slots that an instruction leaves alone: `j` is below what it takes off the stack, and is not
the variable that it assigns. -/
structure Spares (frame : CallFrame) (us : List (Option Addr)) (vm : VM N (List Addr)) (i : Instr)
    (j : ℕ) : Prop where
  below : j + i.pops < vm.stackTop
  caller : i = .return_ → j < frame.slots
  variable_ : ∀ k, i = .setLocal k → j ≠ frame.slots + k.toNat
  upvalue : ∀ k a, i = .setUpvalue k → us[k.toNat]? = some (some a) → ¬ OpenAt vm.objects a j

/-- An instruction keeps the values of all other slots. -/
theorem execute_stack [Double N] {frame : CallFrame} {rest : List CallFrame} {f : ObjFunction N}
    {us : List (Option Addr)} {vm : VM N (List Addr)} {i : Instr} {j : ℕ}
    (h : Spares frame us vm i j) :
    StackKept j vm (execute openUpvalues frame rest f us vm i) := by
  have hbelow := h.below
  have hlt : j < vm.stackTop := by omega
  cases i with
  | nil | true_ | false_ => exact stackKept_goOn (push_stack _ hlt)
  | pop => exact stackKept_goOn rfl
  | jump d => exact stackKept_goOn rfl
  | equal => exact stackKept_goOn (replace_stack _ hbelow)
  | not => exact stackKept_goOn (replace_stack _ hbelow)
  | greater | less | subtract | multiply | divide => exact binaryOp_stack _ hbelow
  | constant k =>
    simp only [execute, VM.constant]
    split
    · exact stackKept_goOn (push_stack _ hlt)
    · exact stackKept_goOn (push_stack _ hlt)
    · exact stackKept_none
  | getLocal slot => exact stackKept_bind fun value _ => stackKept_goOn (push_stack _ hlt)
  | setLocal slot =>
    refine stackKept_bind fun vm' hvm => ?_
    obtain rfl := Option.some.inj hvm
    exact stackKept_goOn (Function.update_of_ne (h.variable_ slot rfl) _ _)
  | getGlobal k =>
    refine stackKept_bind fun name _ => ?_
    unfold VM.getGlobal
    split
    · exact stackKept_goOn (push_stack _ hlt)
    · exact stackKept_fail _
  | defineGlobal k => exact stackKept_bind fun name _ => stackKept_goOn rfl
  | setGlobal k =>
    refine stackKept_bind fun name _ => ?_
    unfold VM.setGlobal
    split
    · exact stackKept_goOn rfl
    · exact stackKept_fail _
  | getUpvalue slot =>
    exact stackKept_bind fun a _ => stackKept_bind fun v _ => stackKept_goOn (push_stack _ hlt)
  | setUpvalue slot =>
    refine stackKept_bind fun a ha => stackKept_bind fun vm' hvm => stackKept_goOn ?_
    exact setUpvalue_stack hvm (h.upvalue slot a rfl (Option.join_eq_some_iff.1 ha))
  | add =>
    simp only [execute, VM.add]
    split
    · exact stackKept_goOn (replace_stack _ hbelow)
    · exact stackKept_goOn (replace_stack _ hbelow)
    · exact stackKept_fail _
  | negate =>
    simp only [execute, VM.negate]
    split
    · exact stackKept_goOn (replace_stack _ hbelow)
    · exact stackKept_fail _
  | jumpIfFalse d =>
    simp only [execute]
    split
    · exact stackKept_goOn rfl
    · exact stackKept_goOn rfl
  | loop d =>
    simp only [execute]
    split
    · exact stackKept_none
    · exact stackKept_goOn rfl
  | print => exact stackKept_bind fun p _ => stackKept_goOn rfl
  | call argCount => exact stackKept_check (callValue_stack hbelow)
  | method k =>
    exact stackKept_bind fun name _ => stackKept_bind fun r _ => stackKept_goOn rfl
  | closure k captures => exact stackKept_bind fun g _ => makeClosure_stack hlt
  | closeUpvalue =>
    exact stackKept_bind fun vm' hvm => stackKept_goOn (congrFun (closeUpvalues_stack hvm) j)
  | getProperty k =>
    refine stackKept_bind fun name _ => ?_
    unfold VM.getProperty
    split
    · exact stackKept_fail _
    · split
      · exact stackKept_goOn (replace_stack _ hbelow)
      · exact stackKept_bind fun r _ => stackKept_check (bindMethod_stack hbelow)
  | setProperty k =>
    refine stackKept_bind fun name _ => ?_
    unfold VM.setProperty
    split
    · exact stackKept_fail _
    · refine stackKept_goOn (push_stack _ ?_)
      change j < vm.stackTop - 2
      exact Nat.lt_sub_of_add_lt hbelow
  | inherit =>
    simp only [execute, VM.inherit_]
    split
    · exact stackKept_fail _
    · exact stackKept_bind fun r _ => stackKept_goOn rfl
  | invoke k argCount => exact stackKept_bind fun name _ => stackKept_check (invoke_stack hbelow)
  | class_ k =>
    refine stackKept_bind fun name _ => stackKept_goOn ?_
    have htop : j < (vm.allocate (.klass name Table.empty)).2.stackTop := hlt
    exact push_stack _ htop
  | superInvoke k argCount =>
    refine stackKept_bind fun name _ => stackKept_bind fun r _ => stackKept_check ?_
    have hsame : (vm.pop 1).stack j = vm.stack j := rfl
    exact invokeFromClass_stack.of_eq hsame
  | getSuper k =>
    refine stackKept_bind fun name _ => stackKept_bind fun r _ => stackKept_check ?_
    have hsame : (vm.pop 1).stack j = vm.stack j := rfl
    refine (bindMethod_stack ?_).of_eq hsame
    have htwo : j + 2 < vm.stackTop := hbelow
    change j + 1 < vm.stackTop - 1
    omega
  | return_ =>
    refine stackKept_bind fun vm' hvm => ?_
    have hstack := congrFun (closeUpvalues_stack hvm) j
    simp only
    split
    · intro o ho
      obtain rfl := Option.some.inj ho
      exact hstack
    · refine stackKept_goOn ((push_stack _ ?_).trans hstack)
      exact h.caller rfl

end Lox.Clox
