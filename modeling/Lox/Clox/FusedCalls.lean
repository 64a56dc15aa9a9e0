import Lox.Clox.VM

/-!
# The fused call instructions

`OP_INVOKE` and `OP_SUPER_INVOKE` look a method up and call it at once.  Here each is compared with
the two instructions it stands for: the receiver below the arguments is replaced by what
`OP_GET_PROPERTY` or `OP_GET_SUPER` makes of it, and then `OP_CALL` is executed.  The only difference
is the bound method that the two instructions leave in the heap.
-/

namespace Lox.Clox

variable {N β : Type}

namespace VM

/-! ### The two instructions -/

/-- Replace the value at the distance in place by what an instruction makes of it: it is executed as
if this value and the operands were on top of the stack. -/
def inPlace [Tracking β] (distance : ℕ) (operands : List (Value N))
    (instruction : VM N β → Option (Outcome N β)) (vm : VM N β) : Option (Outcome N β) :=
  match instruction (operands.foldl (fun vm value => vm.push value) (vm.pop distance)) with
  | some (.running vm') => some (.running { vm' with
      stack := Function.update vm.stack (vm.stackTop - 1 - distance) (vm'.peek 0)
      stackTop := vm.stackTop })
  | outcome => outcome

/-- Execute an instruction after another one, unless that one has failed. -/
def andThen (instruction : VM N β → Option (Outcome N β)) :
    Option (Outcome N β) → Option (Outcome N β)
  | some (.running vm) => instruction vm
  | outcome => outcome

/-! ### The same outcome -/

/-- The same state, but for a bound method that was allocated last. -/
def UpToBoundMethod (vm vm' : VM N β) : Prop :=
  vm' = vm ∨ ∃ receiver method, vm' = (vm.allocate (.boundMethod receiver method)).2

/-- What an error leaves of the state: nothing of the stack, and the message is not compared. -/
def afterError (vm : VM N β) : VM N β := { vm with stack := fun _ => .nil, stderr := [] }

/-- Both fail, or both succeed. -/
def SameOutcome : Option (Outcome N β) → Option (Outcome N β) → Prop
  | none, none => True
  | some (.running vm), some (.running vm') => UpToBoundMethod vm vm'
  | some (.finished result vm), some (.finished result' vm') =>
      result = .runtimeError ∧ result' = .runtimeError ∧
        UpToBoundMethod vm.afterError vm'.afterError
  | _, _ => False

variable {vm : VM N β}

theorem SameOutcome.check_refl (result : Option (Bool × VM N β)) :
    SameOutcome (check result) (check result) := by
  match result with
  | none => trivial
  | some (true, vm) => exact .inl rfl
  | some (false, vm) => exact ⟨rfl, rfl, .inl rfl⟩

theorem asClosure_allocate_boundMethod (a : Addr) (receiver : Value N) (method : Addr) :
    (vm.allocate (.boundMethod receiver method)).2.asClosure a = vm.asClosure a := by
  unfold asClosure allocate
  simp only
  rcases Nat.lt_trichotomy a vm.objects.length with h | rfl | h
  · rw [List.getElem?_append_left h]
  · simp
  · rw [List.getElem?_eq_none (by simpa using h), List.getElem?_eq_none h.le]

variable [Tracking β]

/-- A bound method more in the heap changes nothing in a call. -/
theorem SameOutcome.call_allocate (receiver : Value N) (method closure : Addr) (argCount : ℕ) :
    SameOutcome (check (vm.call closure argCount))
      (check ((vm.allocate (.boundMethod receiver method)).2.call closure argCount)) := by
  have htrace : (vm.allocate (.boundMethod receiver method)).2.frames = vm.frames := rfl
  unfold call
  rw [asClosure_allocate_boundMethod, htrace]
  cases vm.asClosure closure with
  | none => trivial
  | some c =>
    obtain ⟨function, upvalues⟩ := c
    simp only [Option.bind_eq_bind, Option.bind_some]
    split
    · exact ⟨rfl, rfl, .inr ⟨receiver, method, rfl⟩⟩
    · split
      · exact ⟨rfl, rfl, .inr ⟨receiver, method, rfl⟩⟩
      · exact .inr ⟨receiver, method, rfl⟩

/-- The call of a bound method that took the place of its receiver. -/
theorem SameOutcome.call_boundMethod (method : Addr) (argCount : ℕ) :
    SameOutcome (check (vm.call method argCount)) (check (callValue (.obj vm.objects.length) argCount
      ((vm.allocate (.boundMethod (vm.peek argCount) method)).2.poke argCount
        (.obj vm.objects.length)))) := by
  have hback : (((vm.allocate (.boundMethod (vm.peek argCount) method)).2.poke argCount
      (.obj vm.objects.length)).poke argCount (vm.peek argCount))
        = (vm.allocate (.boundMethod (vm.peek argCount) method)).2 := by
    simp only [poke, peek, allocate, Function.update_idem, Function.update_eq_self]
  have hbound : ((vm.allocate (.boundMethod (vm.peek argCount) method)).2.poke argCount
      (.obj vm.objects.length)).objects[vm.objects.length]?
        = some (.boundMethod (vm.peek argCount) method) := List.getElem?_concat_length
  rw [callValue]
  simp only [hbound, hback]
  exact call_allocate (vm.peek argCount) method method argCount

omit [Tracking β] in
@[simp]
theorem peek_poke (argCount : ℕ) (value : Value N) :
    (vm.poke argCount value).peek argCount = value := by
  simp [peek, poke]

end VM

open VM

section Expansion

variable {vm : VM N (List Addr)}

/-- `invokeFromClass` is `bindMethod` below the arguments and then a call: `stack` and `top` are the
stack as `bindMethod` finds it. -/
theorem sameOutcome_bindMethod {methods : Table N} {name : Name} {argCount top : ℕ}
    {stack : ℕ → Value N} {operands : List (Value N)}
    {instruction : VM N (List Addr) → Option (Outcome N (List Addr))}
    (hreceiver : stack (top - 1) = vm.peek argCount)
    (hbind : instruction (operands.foldl (fun vm value => vm.push value) (vm.pop argCount))
      = check ({ vm with stack := stack, stackTop := top }.bindMethod methods name)) :
    SameOutcome (check (vm.invokeFromClass methods name argCount))
      (andThen (fun vm => check (vm.callValue (vm.peek argCount) argCount))
        (vm.inPlace argCount operands instruction)) := by
  unfold VM.invokeFromClass
  cases hmethod : methods name with
  | none =>
    simp only [inPlace, hbind, bindMethod, hmethod]
    exact ⟨rfl, rfl, .inl rfl⟩
  | some value =>
    cases value with
    | obj method =>
      set bound := (vm.allocate (.boundMethod (vm.peek argCount) method)).2.poke argCount
        (.obj vm.objects.length) with hbound
      have hplaced : vm.inPlace argCount operands instruction = some (.running bound) := by
        have hpeek : { vm with stack := stack, stackTop := top }.peek 0 = vm.peek argCount :=
          hreceiver
        simp only [inPlace, hbind, bindMethod, hmethod, asMethod, hpeek, check, Option.bind_eq_bind,
          Option.bind_some, Option.pure_def, peek_push_zero]
        rfl
      simp only [hplaced, andThen, hbound, peek_poke]
      exact SameOutcome.call_boundMethod method argCount
    | nil | bool | number | string =>
      simp only [inPlace, hbind, bindMethod, hmethod]
      trivial

variable [Double N] (frame : CallFrame) (frames : List CallFrame) (function : ObjFunction N)
  (upvalues : List (Option Addr)) (vm) (k argCount : UInt8)

theorem sameOutcome_invoke :
    SameOutcome (execute openUpvalues frame frames function upvalues vm (.invoke k argCount))
      (andThen (fun vm => execute openUpvalues frame frames function upvalues vm (.call argCount))
        (vm.inPlace argCount.toNat [] fun vm =>
          execute openUpvalues frame frames function upvalues vm (.getProperty k))) := by
  simp only [execute]
  cases stringAt function.constants k with
  | none => trivial
  | some name =>
    simp only [Option.bind_eq_bind, Option.bind_some]
    have hreceiver : (vm.pop argCount.toNat).peek 0 = vm.peek argCount.toNat := by
      simp [peek, pop, truncate, Nat.sub_right_comm]
    have hinstance : (vm.pop argCount.toNat).asInstance ((vm.pop argCount.toNat).peek 0)
        = vm.asInstance (vm.peek argCount.toNat) := by
      rw [hreceiver]
      rfl
    unfold invoke
    cases hcase : vm.asInstance (vm.peek argCount.toNat) with
    | none =>
      have hfail : vm.inPlace argCount.toNat [] (fun vm => vm.getProperty name)
          = (vm.pop argCount.toNat).fail "Only instances have properties." := by
        simp only [inPlace, getProperty, List.foldl_nil, hinstance, hcase]
        rfl
      rw [hfail]
      exact ⟨rfl, rfl, .inl rfl⟩
    | some found =>
      obtain ⟨a, klass, fields⟩ := found
      cases hfield : fields name with
      | some value =>
        -- The receiver makes way for the field, and what is called is the same in both.
        have hplace : vm.inPlace argCount.toNat [] (fun vm => vm.getProperty name)
            = some (.running (vm.poke argCount.toNat value)) := by
          simp only [inPlace, getProperty, List.foldl_nil, hinstance, hcase, hfield, goOn,
            peek_push_zero]
          rfl
        simp only [hplace, andThen, peek_poke, hfield]
        exact SameOutcome.check_refl _
      | none =>
        have hclass : (vm.pop argCount.toNat).asClass (.obj klass) = vm.asClass (.obj klass) := rfl
        cases hmethods : vm.asClass (.obj klass) with
        | none =>
          have hplace : vm.inPlace argCount.toNat [] (fun vm => vm.getProperty name) = none := by
            simp [inPlace, getProperty, hinstance, hcase, hfield, hclass, hmethods]
          rw [hplace]
          simp only [hfield, hmethods]
          trivial
        | some found =>
          obtain ⟨_, _, methods⟩ := found
          simp only [hfield, hmethods]
          refine sameOutcome_bindMethod hreceiver ?_
          simp only [List.foldl_nil, getProperty, hinstance, hcase, hfield, hclass, hmethods,
            Option.bind_eq_bind, Option.bind_some]
          rfl

theorem sameOutcome_superInvoke (h : (Instr.superInvoke k argCount).reads ≤ vm.stackTop) :
    SameOutcome (execute openUpvalues frame frames function upvalues vm (.superInvoke k argCount))
      (andThen (fun vm => execute openUpvalues frame frames function upvalues vm (.call argCount))
        ((vm.pop 1).inPlace argCount.toNat [vm.peek 0] fun vm =>
          execute openUpvalues frame frames function upvalues vm (.getSuper k))) := by
  simp only [execute]
  cases stringAt function.constants k with
  | none => trivial
  | some name =>
    simp only [Option.bind_eq_bind, Option.bind_some, superInvoke]
    have htop : argCount.toNat + 2 ≤ vm.stackTop := h
    -- `OP_GET_SUPER` finds the superclass again, one slot above the receiver.
    set pushed := ((vm.pop 1).pop argCount.toNat).push (vm.peek 0) with hpushed
    have hclass : pushed.asClass (pushed.peek 0) = vm.asClass (vm.peek 0) := by
      rw [hpushed, peek_push_zero]
      rfl
    have hreceiver : pushed.stack (vm.stackTop - 1 - argCount.toNat - 1)
        = (vm.pop 1).peek argCount.toNat := by
      have hslot : vm.stackTop - 1 - argCount.toNat - 1 = vm.stackTop - 1 - 1 - argCount.toNat := by
        omega
      rw [hpushed]
      simp only [push, pop, truncate, peek]
      rw [Function.update_of_ne (by omega), hslot]
    cases hmethods : vm.asClass (vm.peek 0) with
    | none =>
      have hplace : (vm.pop 1).inPlace argCount.toNat [vm.peek 0] (fun vm => vm.getSuper name)
          = none := by
        simp [inPlace, getSuper, ← hpushed, hclass, hmethods]
      rw [hplace]
      trivial
    | some found =>
      obtain ⟨_, _, methods⟩ := found
      refine sameOutcome_bindMethod hreceiver ?_
      simp only [List.foldl_cons, List.foldl_nil, ← hpushed, getSuper, hclass, hmethods,
        Option.bind_eq_bind, Option.bind_some]
      rfl

/-- In every state a fused instruction does what its two instructions do.  The operands of
`OP_SUPER_INVOKE` are the receiver, the arguments and the superclass; without them nothing is defined,
and `OP_INVOKE` needs no such condition. -/
theorem fused_calls :
    SameOutcome (execute openUpvalues frame frames function upvalues vm (.invoke k argCount))
      (andThen (fun vm => execute openUpvalues frame frames function upvalues vm (.call argCount))
        (vm.inPlace argCount.toNat [] fun vm =>
          execute openUpvalues frame frames function upvalues vm (.getProperty k))) ∧
    ((Instr.superInvoke k argCount).reads ≤ vm.stackTop →
      SameOutcome (execute openUpvalues frame frames function upvalues vm (.superInvoke k argCount))
        (andThen (fun vm => execute openUpvalues frame frames function upvalues vm (.call argCount))
          ((vm.pop 1).inPlace argCount.toNat [vm.peek 0] fun vm =>
            execute openUpvalues frame frames function upvalues vm (.getSuper k)))) :=
  ⟨sameOutcome_invoke vm frame frames function upvalues k argCount,
    sameOutcome_superInvoke vm frame frames function upvalues k argCount⟩

end Expansion

/-- A machine that is about to invoke `m` of the class 1 on an instance. -/
def invoking : VM ℤ (List Addr) where
  frames := []
  stack
    | 0 => .obj 2
    | _ => .obj 1
  stackTop := 2
  globals := Table.empty
  upvalues := []
  objects := [.closure ⟨0, 0, [], [], none⟩ [], .klass "A".toList (Table.empty.set "m".toList (.obj 0)),
    .inst 1 Table.empty]
  stdout := []
  stderr := []
  clock _ := 0
  ticks := 0

theorem fused_calls_invoking :
    (Instr.superInvoke 0 0).reads ≤ invoking.stackTop ∧
      SameOutcome
        (execute openUpvalues ⟨0, 0, 0⟩ [] ⟨0, 0, [], [.string "m".toList], none⟩ [] invoking
          (.superInvoke 0 0))
        (andThen (fun vm => execute openUpvalues ⟨0, 0, 0⟩ []
            ⟨0, 0, [], [.string "m".toList], none⟩ [] vm (.call 0))
          ((invoking.pop 1).inPlace 0 [invoking.peek 0] fun vm =>
            execute openUpvalues ⟨0, 0, 0⟩ [] ⟨0, 0, [], [.string "m".toList], none⟩ [] vm
              (.getSuper 0))) :=
  ⟨by decide, (fused_calls invoking ⟨0, 0, 0⟩ [] ⟨0, 0, [], [.string "m".toList], none⟩ [] 0 0).2
    (by decide)⟩

end Lox.Clox
