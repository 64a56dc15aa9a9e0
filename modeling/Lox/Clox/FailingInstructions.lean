import Lox.Clox.Frames
import Lox.Clox.HashTable

/-!
# What an error leaves alone

An instruction that reports an error changes no global variable, no field and no method.  In the
model of the machine tables are finite maps, and `OP_SET_GLOBAL` looks whether the name is there.
`vm.c` sets it and, if it was new, deletes it again: `setGlobalEntry` does this to the hash table,
and `setGlobalEntry_spec` says that it comes to the same.
-/

namespace Lox.Clox

variable {N β : Type}

/-! ### Instructions that report an error -/

/-- The instruction has called `runtimeError`, or makes `run` return an error. -/
def Reports (vm : VM N β) (o : Outcome N β) : Prop :=
  o.vm.stderr ≠ vm.stderr ∨ ∃ vm', o = .finished .runtimeError vm'

/-- The variables, fields and methods are what they were. -/
structure VM.SameData (vm vm' : VM N β) : Prop where
  globals : vm'.globals = vm.globals
  fields : ∀ (a : Addr) klass fields, vm.objects[a]? = some (.inst klass fields) →
    vm'.objects[a]? = some (.inst klass fields)
  methods : ∀ (a : Addr) name methods, vm.objects[a]? = some (.klass name methods) →
    vm'.objects[a]? = some (.klass name methods)

/-- If an error is reported, the data are what they were. -/
def ErrorKeeps (vm : VM N β) (r : Option (Outcome N β)) : Prop :=
  ∀ o, r = some o → Reports vm o → vm.SameData o.vm

/-- The same for a call: an error may be reported even though the result is success. -/
def ErrorKeepsCall (vm : VM N β) (r : Option (Bool × VM N β)) : Prop :=
  ∀ ok vm', r = some (ok, vm') → (vm'.stderr ≠ vm.stderr ∨ ok = false) → vm.SameData vm'

section Rules

variable {vm vm₁ : VM N β}

/-- Objects that are allocated change no other. -/
theorem VM.SameData.of_append {vm' : VM N β} (hglobals : vm'.globals = vm.globals)
    {new : List (Obj N)} (hobjects : vm'.objects = vm.objects ++ new) : vm.SameData vm' := by
  have hkept : ∀ (a : Addr) (o : Obj N), vm.objects[a]? = some o → vm'.objects[a]? = some o := by
    intro a o ho
    rw [hobjects, List.getElem?_append_left (List.getElem?_eq_some_iff.1 ho).1, ho]
  exact ⟨hglobals, fun a _ _ => hkept a _, fun a _ _ => hkept a _⟩

theorem errorKeeps_none : ErrorKeeps vm none := by
  intro o h
  cases h

theorem errorKeeps_bind {α : Type} {x : Option α} {k : α → Option (Outcome N β)}
    (h : ∀ a, x = some a → ErrorKeeps vm (k a)) : ErrorKeeps vm (x >>= k) := by
  intro o hk
  obtain ⟨a, ha, hk⟩ := Option.bind_eq_some_iff.1 hk
  exact h a ha o hk

/-- An instruction that reports nothing. -/
theorem errorKeeps_goOn (h : vm₁.stderr = vm.stderr) : ErrorKeeps vm vm₁.goOn := by
  rintro o ho (hreports | ⟨vm', rfl⟩)
  · obtain rfl := Option.some.inj ho
    exact absurd h hreports
  · cases ho

theorem errorKeepsCall_bind {α : Type} {x : Option α} {k : α → Option (Bool × VM N β)}
    (h : ∀ a, x = some a → ErrorKeepsCall vm (k a)) : ErrorKeepsCall vm (x >>= k) := by
  intro ok vm' hk
  obtain ⟨a, ha, hk⟩ := Option.bind_eq_some_iff.1 hk
  exact h a ha ok vm' hk

theorem errorKeepsCall_success (h : vm₁.stderr = vm.stderr) :
    ErrorKeepsCall vm (some (true, vm₁)) := by
  rintro ok vm' hr (hreports | rfl)
  · obtain ⟨-, rfl⟩ := Prod.mk.inj (Option.some.inj hr)
    exact absurd h hreports
  · cases hr

variable [Tracking β]

/-- `runtimeError` empties the stack and nothing else. -/
theorem errorKeepsCall_error (hglobals : vm₁.globals = vm.globals) {new : List (Obj N)}
    (hobjects : vm₁.objects = vm.objects ++ new) (ok : Bool) (message : String) :
    ErrorKeepsCall vm (some (ok, vm₁.runtimeError message)) := by
  intro ok' vm' hr _
  obtain ⟨-, rfl⟩ := Prod.mk.inj (Option.some.inj hr)
  have hkept : (vm₁.runtimeError message).objects = vm.objects ++ new := hobjects
  exact .of_append hglobals hkept

theorem errorKeeps_fail (message : String) : ErrorKeeps vm (vm.fail message) := by
  intro o ho _
  obtain rfl := Option.some.inj ho
  have hkept : (vm.runtimeError message).objects = vm.objects ++ [] := (List.append_nil _).symm
  exact .of_append rfl hkept

omit [Tracking β] in
theorem errorKeeps_check {r : Option (Bool × VM N β)} (h : ErrorKeepsCall vm r) :
    ErrorKeeps vm (VM.check r) := by
  intro o ho hreports
  match r with
  | none => cases ho
  | some (true, vm') =>
    obtain rfl := Option.some.inj ho
    refine h true vm' rfl (hreports.imp_right ?_)
    rintro ⟨_, hfinished⟩
    cases hfinished
  | some (false, vm') =>
    obtain rfl := Option.some.inj ho
    exact h false vm' rfl (.inr rfl)

end Rules

/-! ### Calls -/

section Calls

variable [Tracking β] {vm vm₁ : VM N β} {argCount : ℕ}

theorem call_errorKeeps (closure : Addr) (hglobals : vm₁.globals = vm.globals)
    {new : List (Obj N)} (hobjects : vm₁.objects = vm.objects ++ new)
    (hstderr : vm₁.stderr = vm.stderr) : ErrorKeepsCall vm (vm₁.call closure argCount) := by
  refine errorKeepsCall_bind fun r _ => ?_
  obtain ⟨function, upvalues⟩ := r
  simp only
  split
  · exact errorKeepsCall_error hglobals hobjects _ _
  · split
    · exact errorKeepsCall_error hglobals hobjects _ _
    · exact errorKeepsCall_success hstderr

theorem callClass_errorKeeps {klass : Addr} {methods : Table N} (hglobals : vm₁.globals = vm.globals)
    (hobjects : vm₁.objects = vm.objects) (hstderr : vm₁.stderr = vm.stderr) :
    ErrorKeepsCall vm (vm₁.callClass klass methods argCount) := by
  -- The new instance is the only object that is not as before, with or without an error.
  set called := (vm₁.allocate (.inst klass Table.empty)).2.poke argCount (.obj vm₁.objects.length)
    with hcalled
  have hnew : called.objects = vm.objects ++ [.inst klass Table.empty] := by
    rw [← hobjects]
    rfl
  have hglobals : called.globals = vm.globals := hglobals
  have hstderr : called.stderr = vm.stderr := hstderr
  unfold VM.callClass
  simp only
  split
  · exact errorKeepsCall_bind fun method _ => call_errorKeeps method hglobals hnew hstderr
  · split
    · exact errorKeepsCall_error hglobals hnew _ _
    · exact errorKeepsCall_success hstderr

theorem callValue_errorKeeps {callee : Value N} (hglobals : vm₁.globals = vm.globals)
    (hobjects : vm₁.objects = vm.objects) (hstderr : vm₁.stderr = vm.stderr) :
    ErrorKeepsCall vm (vm₁.callValue callee argCount) := by
  have hsame : vm₁.objects = vm.objects ++ [] := by rw [hobjects, List.append_nil]
  have herror : ErrorKeepsCall vm
      (some (false, vm₁.runtimeError "Can only call functions and classes.")) :=
    errorKeepsCall_error hglobals hsame _ _
  cases callee with
  | obj a =>
    simp only [VM.callValue]
    cases vm₁.objects[a]? with
    | none =>
      intro ok vm' hr
      cases hr
    | some o =>
      cases o with
      | boundMethod receiver method => exact call_errorKeeps method hglobals hsame hstderr
      | klass name methods => exact callClass_errorKeeps hglobals hobjects hstderr
      | native => exact errorKeepsCall_success hstderr
      | closure f upvalues => exact call_errorKeeps a hglobals hsame hstderr
      | upvalue location closed => exact herror
      | inst klass fields => exact herror
  | nil | bool b | number n | string s => exact herror

theorem invokeFromClass_errorKeeps {methods : Table N} {name : Name}
    (hglobals : vm₁.globals = vm.globals) (hobjects : vm₁.objects = vm.objects)
    (hstderr : vm₁.stderr = vm.stderr) :
    ErrorKeepsCall vm (vm₁.invokeFromClass methods name argCount) := by
  have hsame : vm₁.objects = vm.objects ++ [] := by rw [hobjects, List.append_nil]
  unfold VM.invokeFromClass
  split
  · exact errorKeepsCall_error hglobals hsame _ _
  · exact errorKeepsCall_bind fun method _ => call_errorKeeps method hglobals hsame hstderr

theorem invoke_errorKeeps {name : Name} : ErrorKeepsCall vm (vm.invoke name argCount) := by
  unfold VM.invoke
  split
  · exact errorKeepsCall_error rfl (List.append_nil _).symm _ _
  · split
    · exact callValue_errorKeeps rfl rfl rfl
    · exact errorKeepsCall_bind fun _ _ => invokeFromClass_errorKeeps rfl rfl rfl

theorem bindMethod_errorKeeps {methods : Table N} {name : Name} (hglobals : vm₁.globals = vm.globals)
    (hobjects : vm₁.objects = vm.objects) (hstderr : vm₁.stderr = vm.stderr) :
    ErrorKeepsCall vm (vm₁.bindMethod methods name) := by
  have hsame : vm₁.objects = vm.objects ++ [] := by rw [hobjects, List.append_nil]
  unfold VM.bindMethod
  split
  · exact errorKeepsCall_error hglobals hsame _ _
  · exact errorKeepsCall_bind fun method _ => errorKeepsCall_success hstderr

end Calls

/-! ### All instructions -/

section Instructions

variable [Tracking β] {vm : VM N β}

theorem binaryOp_errorKeeps (op : N → N → Value N) : ErrorKeeps vm (vm.binaryOp op) := by
  unfold VM.binaryOp
  split
  · exact errorKeeps_goOn rfl
  · exact errorKeeps_fail _

theorem execute_errorKeeps [Double N] {ops : Variables N β} (hops : ops.Local) (frame : CallFrame)
    (frames : List CallFrame) (function : ObjFunction N) (upvalues : List (Option Addr))
    (i : Instr) : ErrorKeeps vm (execute ops frame frames function upvalues vm i) := by
  cases i with
  | nil | true_ | false_ | pop | equal | not | jump => exact errorKeeps_goOn rfl
  | greater | less | subtract | multiply | divide => exact binaryOp_errorKeeps _
  | constant k =>
    simp only [execute, VM.constant]
    split
    · exact errorKeeps_goOn rfl
    · exact errorKeeps_goOn rfl
    · exact errorKeeps_none
  | getLocal slot => exact errorKeeps_bind fun value _ => errorKeeps_goOn rfl
  | setLocal slot =>
    exact errorKeeps_bind fun vm' h => errorKeeps_goOn (hops.setLocal _ _ _ _ h).stderr
  | getGlobal k =>
    refine errorKeeps_bind fun name _ => ?_
    unfold VM.getGlobal
    split
    · exact errorKeeps_goOn rfl
    · exact errorKeeps_fail _
  | defineGlobal k => exact errorKeeps_bind fun name _ => errorKeeps_goOn rfl
  | setGlobal k =>
    refine errorKeeps_bind fun name _ => ?_
    unfold VM.setGlobal
    split
    · exact errorKeeps_goOn rfl
    · exact errorKeeps_fail _
  | getUpvalue slot =>
    exact errorKeeps_bind fun a _ => errorKeeps_bind fun value _ => errorKeeps_goOn rfl
  | setUpvalue slot =>
    exact errorKeeps_bind fun a _ => errorKeeps_bind fun vm' h =>
      errorKeeps_goOn (hops.setUpvalue _ _ _ _ h).stderr
  | add =>
    simp only [execute, VM.add]
    split
    · exact errorKeeps_goOn rfl
    · exact errorKeeps_goOn rfl
    · exact errorKeeps_fail _
  | negate =>
    simp only [execute, VM.negate]
    split
    · exact errorKeeps_goOn rfl
    · exact errorKeeps_fail _
  | jumpIfFalse offset =>
    simp only [execute]
    split
    · exact errorKeeps_goOn rfl
    · exact errorKeeps_goOn rfl
  | print => exact errorKeeps_bind fun printed _ => errorKeeps_goOn rfl
  | loop offset =>
    simp only [execute]
    split
    · exact errorKeeps_none
    · exact errorKeeps_goOn rfl
  | call argCount => exact errorKeeps_check (callValue_errorKeeps rfl rfl rfl)
  | method k =>
    exact errorKeeps_bind fun name _ => errorKeeps_bind fun c _ => errorKeeps_goOn rfl
  | closure k us =>
    refine errorKeeps_bind fun f _ => errorKeeps_bind fun r h => errorKeeps_goOn ?_
    exact (captures_same hops h).stderr
  | closeUpvalue =>
    exact errorKeeps_bind fun vm' h => errorKeeps_goOn (hops.closeUpvalues _ _ _ h).stderr
  | getProperty k =>
    refine errorKeeps_bind fun name _ => ?_
    unfold VM.getProperty
    split
    · exact errorKeeps_fail _
    · split
      · exact errorKeeps_goOn rfl
      · exact errorKeeps_bind fun _ _ => errorKeeps_check (bindMethod_errorKeeps rfl rfl rfl)
  | setProperty k =>
    refine errorKeeps_bind fun name _ => ?_
    unfold VM.setProperty
    split
    · exact errorKeeps_fail _
    · exact errorKeeps_goOn rfl
  | inherit =>
    simp only [execute, VM.inherit_]
    split
    · exact errorKeeps_fail _
    · exact errorKeeps_bind fun _ _ => errorKeeps_goOn rfl
  | invoke k argCount =>
    exact errorKeeps_bind fun name _ => errorKeeps_check invoke_errorKeeps
  | class_ k => exact errorKeeps_bind fun name _ => errorKeeps_goOn rfl
  | superInvoke k argCount =>
    exact errorKeeps_bind fun name _ => errorKeeps_bind fun c _ =>
      errorKeeps_check (invokeFromClass_errorKeeps rfl rfl rfl)
  | getSuper k =>
    exact errorKeeps_bind fun name _ => errorKeeps_bind fun c _ =>
      errorKeeps_check (bindMethod_errorKeeps rfl rfl rfl)
  | return_ =>
    refine errorKeeps_bind fun vm' h => ?_
    have hstderr := (hops.closeUpvalues _ _ _ h).stderr
    simp only
    split
    · rintro o ho (hreports | ⟨vm'', rfl⟩)
      · obtain rfl := Option.some.inj ho
        exact absurd hstderr hreports
      · cases ho
    · exact errorKeeps_goOn hstderr

end Instructions

/-! ### The hash table of the globals -/

section Globals

open HashTable

variable (hash : Name → UInt32)

/-- `OP_SET_GLOBAL` on the hash table: whether the name was new, and the table. -/
def setGlobalEntry (name : Name) (value : Value N) (t : HashTable Name (Value N)) :
    Option (Bool × HashTable Name (Value N)) := do
  let (isNewKey, t) ← tableSet hash name value t
  if isNewKey then do
    let (_, t) ← tableDelete hash name t
    return (true, t)
  else return (false, t)

/-- What an instruction does to the hash table; `value` is the value on top of the stack. -/
def globalsAfter (constants : List (Constant N)) (value : Value N)
    (t : HashTable Name (Value N)) : Instr → Option (HashTable Name (Value N))
  | .defineGlobal k => do
      let name ← stringAt constants k
      let (_, t) ← tableSet hash name value t
      return t
  | .setGlobal k => do
      let name ← stringAt constants k
      let (_, t) ← setGlobalEntry hash name value t
      return t
  | _ => some t

variable {hash}

/-- A name that is set and deleted again leaves no trace, whether the table was resized or not. -/
theorem setGlobalEntry_spec {t : HashTable Name (Value N)} {globals : Table N}
    (h : Represents hash t globals) (name : Name) (value : Value N) :
    ∃ t', setGlobalEntry hash name value t = some ((globals name).isNone, t') ∧
      Represents hash t'
        (if (globals name).isNone then globals else Function.update globals name (some value)) := by
  obtain ⟨t₁, hset, h₁⟩ := tableSet_spec h name value
  cases hname : globals name with
  | some old =>
    rw [hname] at hset
    exact ⟨t₁, by simp [setGlobalEntry, hset], by simpa using h₁⟩
  | none =>
    rw [hname] at hset
    obtain ⟨t₂, hdelete, h₂, -⟩ := tableDelete_spec h₁ name
    have hback : Function.update (Function.update globals name (some value)) name none = globals := by
      rw [Function.update_idem, Function.update_eq_self_iff.2 hname.symm]
    rw [hback] at h₂
    exact ⟨t₂, by simp [setGlobalEntry, hset, hdelete], by simpa using h₂⟩

end Globals

/-- An instruction that reports an error leaves the globals, every field of every instance and every
method of every class as they were; and so does what it does to a hash table of the globals. -/
theorem error_keeps_data [Double N] (vm : VM N (List Addr)) (o : Outcome N (List Addr))
    (h : step vm = some o) (hreports : Reports vm o) :
    vm.SameData o.vm ∧ ∀ hash t i constants, vm.current = some (i, constants) →
      HashTable.Represents hash t vm.globals →
      ∃ t', globalsAfter hash constants (vm.peek 0) t i = some t' ∧
        HashTable.Represents hash t' vm.globals := by
  unfold step stepWith at h
  cases hframes : vm.frames with
  | nil => simp [hframes] at h
  | cons frame frames =>
    simp only [hframes, Option.bind_eq_bind, Option.bind_eq_some_iff, Prod.exists] at h
    obtain ⟨function, upvalues, hclosure, i, hfetch, h⟩ := h
    split at h
    · cases h
    have hdata := execute_errorKeeps openUpvalues_local _ _ _ _ _ o h hreports
    refine ⟨⟨hdata.globals, hdata.fields, hdata.methods⟩, fun hash t j constants hcurrent ht => ?_⟩
    simp only [VM.current, hframes, hclosure, hfetch, List.head?_cons, Option.bind_eq_bind,
      Option.bind_some, Option.pure_def, Option.some.injEq, Prod.mk.injEq] at hcurrent
    obtain ⟨rfl, rfl⟩ := hcurrent
    -- Only two instructions write to the table; of these, the first cannot fail.
    have hquiet : ∀ {vm' : VM N (List Addr)}, o = .running vm' → vm'.stderr ≠ vm.stderr := by
      rintro vm' rfl
      refine hreports.resolve_right fun hfinished => ?_
      obtain ⟨vm₁, hfinished⟩ := hfinished
      cases hfinished
    cases i with
    | defineGlobal k =>
      obtain ⟨name, -, h⟩ := Option.bind_eq_some_iff.1 h
      exact (hquiet (Option.some.inj h).symm rfl).elim
    | setGlobal k =>
      obtain ⟨name, hname, h⟩ := Option.bind_eq_some_iff.1 h
      unfold VM.setGlobal at h
      split at h
      · exact (hquiet (Option.some.inj h).symm rfl).elim
      · rename_i hnone
        have hundefined : vm.globals name = none := hnone
        obtain ⟨t', hset, ht'⟩ := setGlobalEntry_spec ht name (vm.peek 0)
        refine ⟨t', by simp [globalsAfter, hname, hset], ?_⟩
        simpa [hundefined] using ht'
    | _ => exact ⟨t, rfl, ht⟩

/-- A machine that is about to set the global `a`, which is not defined. -/
def settingUndefined : VM ℤ (List Addr) where
  frames := [⟨0, 0, 0⟩]
  stack _ := .number 1
  stackTop := 2
  globals := Table.empty
  upvalues := []
  objects := [.closure ⟨0, 0, [OpCode.setGlobal.byte, 0], [.string "a".toList], none⟩ []]
  stdout := []
  stderr := []
  clock _ := 0
  ticks := 0

theorem error_keeps_data_undefined : ∃ o, step settingUndefined = some o ∧
    Reports settingUndefined o ∧ settingUndefined.SameData o.vm ∧
    ∃ t', globalsAfter (fun _ => 0) [.string "a".toList] (settingUndefined.peek 0)
        HashTable.initTable (.setGlobal 0) = some t' ∧
      HashTable.Represents (fun _ => 0) t' settingUndefined.globals := by
  have hstep : step settingUndefined
      = some (.finished .runtimeError ({ settingUndefined with frames := [⟨0, 2, 0⟩] }.runtimeError
          "Undefined variable 'a'.")) := rfl
  have hreports : Reports settingUndefined (.finished .runtimeError
      ({ settingUndefined with frames := [⟨0, 2, 0⟩] }.runtimeError "Undefined variable 'a'.")) :=
    .inr ⟨_, rfl⟩
  obtain ⟨hdata, hglobals⟩ := error_keeps_data settingUndefined _ hstep hreports
  exact ⟨_, hstep, hreports, hdata, hglobals (fun _ => 0) _ _ _ rfl HashTable.represents_init⟩

end Lox.Clox
