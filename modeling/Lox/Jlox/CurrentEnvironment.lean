import Lox.Jlox.Distances

/-!
# The current environment of jlox is always put back

`executeBlock` changes the current environment and puts it back in its `finally`; `visitClassStmt`
enters the environment for `super` and leaves it by `environment.enclosing`, with nothing between
that could throw.  So every function of the interpreter, however it ends, leaves the current
environment as it found it.
-/

namespace Lox.Jlox

open Interpreter

variable {N α β : Type}

/-- However the function ends, the current environment is the one there was before. -/
def Restores (f : Run N α) : Prop :=
  ∀ s, (f s).2.environment = s.environment

/-! ### Rules -/

namespace Restores

theorem pure (a : α) : Restores (Pure.pure a : Run N α) := fun _ => rfl

theorem stop (why : Stop N) : Restores (Interpreter.stop why : Run N α) := fun _ => rfl

theorem throw_ (token : Token N) (message : String) :
    Restores (Interpreter.throw_ token message : Run N α) := fun _ => rfl

theorem get : Restores (Interpreter.get : Run N (Interpreter N)) := fun _ => rfl

theorem modify {f : Interpreter N → Interpreter N} (h : ∀ s, (f s).environment = s.environment) :
    Restores (Interpreter.modify f) := h

theorem bind {f : Run N α} {g : α → Run N β} (hf : Restores f) (hg : ∀ a, Restores (g a)) :
    Restores (f >>= g) := by
  intro s
  change (Run.bind f g s).2.environment = s.environment
  unfold Run.bind
  have hfs := hf s
  cases h : f s with
  | mk result s' =>
    rw [h] at hfs
    cases result with
    | error why => exact hfs
    | ok a => exact (hg a s').trans hfs

theorem ite {c : Prop} [Decidable c] {f g : Run N α} (hf : Restores f) (hg : Restores g) :
    Restores (if c then f else g) := by
  split
  · exact hf
  · exact hg

end Restores

/-! ### Environments and objects -/

theorem newEnvironment_restores (enclosing : Ref) :
    Restores (newEnvironment enclosing : Run N Ref) := fun _ => rfl

theorem define_restores (a : Ref) (name : Name) (value : Value N) (creator : Declaration) :
    Restores (define a name value creator) := fun _ => rfl

theorem setValue_restores (a : Ref) (name : Name) (value : Value N) :
    Restores (setValue a name value) := fun _ => rfl

theorem newObject_restores (o : Object N) : Restores (newObject o) := fun _ => rfl

theorem access_restores (use : Use) (name : Name) (binding : Binding) :
    Restores (access use name binding : Run N Unit) := fun _ => rfl

theorem operate_restores (r : Except (RuntimeError N) (Value N)) : Restores (operate r) := by
  cases r with
  | ok v => exact .pure v
  | error e => exact .stop _

theorem getGlobal_restores (name : Token N) : Restores (getGlobal name) := by
  refine .bind .get fun s => ?_
  cases holder s.environments name.lexeme s.environments.length 0 with
  | some a => exact .pure _
  | none => exact .throw_ name _

theorem assign_restores (a : Ref) (name : Token N) (value : Value N) :
    Restores (assign a name value) := by
  refine .bind .get fun s => ?_
  cases holder s.environments name.lexeme s.environments.length a with
  | some a => exact setValue_restores a name.lexeme value
  | none => exact .throw_ name _

theorem getAt_restores (a : Ref) (distance : ℕ) (name : Name) :
    Restores (getAt a distance name : Run N (Value N)) := by
  refine .bind .get fun s => ?_
  cases ancestor s.environments distance a with
  | some a => exact .pure _
  | none => exact .stop _

theorem assignAt_restores (a : Ref) (distance : ℕ) (name : Name) (value : Value N) :
    Restores (assignAt a distance name value) := by
  refine .bind .get fun s => ?_
  cases ancestor s.environments distance a with
  | some a => exact setValue_restores a name value
  | none => exact .stop _

theorem bind_restores (f : LoxFunction N) (object : Value N) : Restores (bind f object) :=
  .bind (newEnvironment_restores f.closure) fun a =>
    .bind (define_restores a _ object _) fun _ => .pure _

/-- A method found for an object: it is bound, and the bound function is a new object. -/
theorem boundMethod_restores (f : LoxFunction N) (object : Value N) :
    Restores (bind f object >>= fun f => newObject (.function f)) :=
  .bind (bind_restores f object) fun f => newObject_restores (.function f)

theorem getProperty_restores (object : Value N) (klass : LoxClass (LoxFunction N))
    (fields : Name → Option (Value N)) (name : Token N) :
    Restores (getProperty object klass fields name) := by
  unfold getProperty
  cases fields name.lexeme with
  | some v => exact .pure v
  | none =>
    cases klass.findMethod name.lexeme with
    | some method => exact boundMethod_restores method object
    | none => exact .throw_ name _

theorem modifyObject_restores (v : Value N) (f : Object N → Object N) :
    Restores (modifyObject v f) := by
  cases v with
  | obj a => exact .modify fun _ => rfl
  | _ => exact .pure ()

theorem lookUpVariable_restores (name : Token N) (distance : Option Binding) :
    Restores (lookUpVariable name distance) := by
  cases distance with
  | none => exact getGlobal_restores name
  | some b =>
    exact .bind (access_restores .read name.lexeme b) fun _ => .bind .get fun s =>
      getAt_restores s.environment b.distance name.lexeme

theorem assignVariable_restores (name : Token N) (value : Value N) (distance : Option Binding) :
    Restores (assignVariable name value distance) := by
  cases distance with
  | none => exact assign_restores 0 name value
  | some b =>
    exact .bind (access_restores .assign name.lexeme b) fun _ => .bind .get fun s =>
      assignAt_restores s.environment b.distance name.lexeme value

theorem castClass_restores (v : Value N) : Restores (castClass v) := by
  refine .bind .get fun s => ?_
  cases objectOf v s with
  | none => exact .stop _
  | some o =>
    cases o with
    | class_ c => exact .pure c
    | _ => exact .stop _

theorem castInstance_restores (v : Value N) : Restores (castInstance v) := by
  refine .bind .get fun s => ?_
  split
  · exact .pure ()
  · exact .pure ()
  · exact .stop _

theorem visitSuper_restores (method : Token N) (distance : Option Binding) :
    Restores (visitSuper method distance) := by
  cases distance with
  | none => exact .stop _
  | some b =>
    refine .bind (access_restores .super_ _ b) fun _ => .bind .get fun s => ?_
    refine .bind (getAt_restores s.environment b.distance _) fun v => ?_
    refine .bind (castClass_restores v) fun superclass => ?_
    refine .bind (getAt_restores s.environment (b.distance - 1) _) fun object => ?_
    refine .bind (castInstance_restores object) fun _ => ?_
    cases superclass.findMethod method.lexeme with
    | some f => exact boundMethod_restores f object
    | none => exact .throw_ method _

/-! ### Calls -/

section Calls

variable {evaluate : Expr N (Option Binding) → Run N (Value N)}
  {execute : Place → Stmt N (Option Binding) → Run N Unit}

/-- Whatever the statements do, `finally` puts the environment back. -/
theorem executeBlock_restores (p : Place) (statements : List (Stmt N (Option Binding))) (a : Ref) :
    Restores (executeBlock execute p statements a) := fun _ => rfl

theorem defineParameters_restores (a : Ref) (p : Place) (params : List (Token N)) :
    ∀ i arguments, Restores (defineParameters a p i params arguments : Run N Unit) := by
  induction params with
  | nil => exact fun i arguments => .pure ()
  | cons param params ih =>
    intro i arguments
    cases arguments with
    | nil => exact .stop _
    | cons v vs =>
      exact .bind (define_restores a param.lexeme v _) fun _ => ih (i + 1) vs

theorem catchReturn_restores {body : Run N Unit} (h : Restores body) :
    Restores (catchReturn body) := by
  intro s
  have hs := h s
  unfold catchReturn
  split
  · rename_i heq
    rw [heq] at hs
    exact hs
  · rename_i heq
    rw [heq] at hs
    exact hs
  · rename_i heq
    rw [heq] at hs
    exact hs

theorem callFunction_restores (f : LoxFunction N) (arguments : List (Value N)) :
    Restores (callFunction execute f arguments) := by
  refine .bind (.bind (newEnvironment_restores f.closure) fun a => ?_) fun v => ?_
  · refine .bind (defineParameters_restores a f.place f.params 0 arguments) fun _ => ?_
    exact catchReturn_restores (executeBlock_restores f.place f.body a)
  · exact .ite (getAt_restores f.closure 0 _) (.pure v)

theorem callClass_restores (c : LoxClass (LoxFunction N)) (arguments : List (Value N)) :
    Restores (callClass execute c arguments) := by
  refine .bind (newObject_restores _) fun object => .bind ?_ fun _ => .pure object
  unfold callInitializer
  cases c.findMethod "init".toList with
  | none => exact .pure ()
  | some initializer =>
    refine .bind (bind_restores initializer object) fun f => ?_
    exact .bind (callFunction_restores f arguments) fun _ => .pure ()

theorem checkArity_restores (paren : Token N) (arity size : ℕ) :
    Restores (checkArity paren arity size) :=
  .ite (.throw_ paren _) (.pure ())

theorem visitCall_restores (callee : Value N) (paren : Token N) (arguments : List (Value N)) :
    Restores (visitCall execute callee paren arguments) := by
  refine .bind .get fun s => ?_
  cases objectOf callee s with
  | none => exact .throw_ paren _
  | some o =>
    cases o with
    | clock => exact .bind (checkArity_restores paren 0 _) fun _ => fun _ => rfl
    | function f =>
      exact .bind (checkArity_restores paren f.params.length _) fun _ =>
        callFunction_restores f arguments
    | class_ c =>
      exact .bind (checkArity_restores paren (classArity c) _) fun _ =>
        callClass_restores c arguments
    | instance_ klass fields => exact .throw_ paren _

end Calls

/-! ### Expressions -/

section Bodies

variable {evaluate : Expr N (Option Binding) → Run N (Value N)}
  {execute : Place → Stmt N (Option Binding) → Run N Unit}

theorem visitGet_restores (object : Value N) (name : Token N) :
    Restores (visitGet object name) := by
  refine .bind .get fun s => ?_
  cases objectOf object s with
  | none => exact .throw_ name _
  | some o =>
    cases o with
    | instance_ klass fields => exact getProperty_restores object klass fields name
    | _ => exact .throw_ name _

theorem checkInstance_restores (object : Value N) (name : Token N) :
    Restores (checkInstance object name) := by
  refine .bind .get fun s => ?_
  cases objectOf object s with
  | none => exact .throw_ name _
  | some o =>
    cases o with
    | instance_ klass fields => exact .pure ()
    | _ => exact .throw_ name _

theorem evaluateList_restores (he : ∀ e, Restores (evaluate e))
    (es : List (Expr N (Option Binding))) : Restores (evaluateList evaluate es) := by
  induction es with
  | nil => exact .pure []
  | cons e es ih => exact .bind (he e) fun v => .bind ih fun vs => .pure (v :: vs)

/-- One case for each kind of expression. -/
theorem evaluateBody_restores [Boxed N] (he : ∀ e, Restores (evaluate e))
    (e : Expr N (Option Binding)) : Restores (evaluateBody evaluate execute e) := by
  cases e with
  | assign name value distance =>
    exact .bind (he value) fun v => .bind (assignVariable_restores name v distance) fun _ => .pure v
  | binary left operator right =>
    exact .bind (he left) fun l => .bind (he right) fun r => operate_restores _
  | call callee paren arguments =>
    exact .bind (he callee) fun v => .bind (evaluateList_restores he arguments) fun vs =>
      visitCall_restores v paren vs
  | get object name => exact .bind (he object) fun v => visitGet_restores v name
  | grouping expression => exact he expression
  | literal value => exact .pure _
  | logical left operator right =>
    exact .bind (he left) fun v => .ite (.pure v) (he right)
  | set object name value =>
    exact .bind (he object) fun o => .bind (checkInstance_restores o name) fun _ =>
      .bind (he value) fun v => .bind (modifyObject_restores o _) fun _ => .pure v
  | super_ keyword method distance => exact visitSuper_restores method distance
  | this_ keyword distance => exact lookUpVariable_restores keyword distance
  | unary operator right => exact .bind (he right) fun v => operate_restores _
  | variable_ name distance => exact lookUpVariable_restores name distance

/-! ### Statements -/

omit evaluate execute in
theorem visitSuperclass_restores (superclass : Option (Token N × Option Binding)) :
    Restores (visitSuperclass superclass) := by
  cases superclass with
  | none => exact .pure none
  | some c =>
    refine .bind (lookUpVariable_restores c.1 c.2) fun v => .bind .get fun s => ?_
    cases objectOf v s with
    | none => exact .throw_ c.1 _
    | some o =>
      cases o with
      | class_ klass => exact .pure _
      | _ => exact .throw_ c.1 _

/-- The environment that is entered for `super` encloses itself in the one before, to which
`environment.enclosing` leads back. -/
theorem makeClass_restores (p : Place) (name : Token N)
    (superclass : Option (Value N × LoxClass (LoxFunction N)))
    (methods : List (Stmt N (Option Binding))) :
    Restores (makeClass p name superclass methods) := by
  intro s
  cases superclass with
  | none => rfl
  | some c => rw [makeClass_some]

theorem visitClass_restores (p : Place) (name : Token N)
    (superclass : Option (Token N × Option Binding)) (methods : List (Stmt N (Option Binding))) :
    Restores (visitClass p name superclass methods) := by
  refine .bind (visitSuperclass_restores superclass) fun c => .bind .get fun s => ?_
  refine .bind (define_restores s.environment name.lexeme .nil _) fun _ => ?_
  refine .bind (makeClass_restores p name c methods) fun klass => .bind .get fun s => ?_
  exact assign_restores s.environment name klass

theorem evaluateOption_restores (he : ∀ e, Restores (evaluate e))
    (o : Option (Expr N (Option Binding))) : Restores (evaluateOption evaluate o) := by
  cases o with
  | none => exact .pure Value.nil
  | some e => exact he e

/-- One case for each kind of statement. -/
theorem executeBody_restores (he : ∀ e, Restores (evaluate e)) (hs : ∀ p s, Restores (execute p s))
    (p : Place) (s : Stmt N (Option Binding)) : Restores (executeBody evaluate execute p s) := by
  cases s with
  | block statements =>
    exact .bind .get fun s => .bind (newEnvironment_restores s.environment) fun a =>
      executeBlock_restores p statements a
  | class_ name superclass methods => exact visitClass_restores p name superclass methods
  | expression expression => exact .bind (he expression) fun _ => .pure ()
  | function name params body =>
    exact .bind .get fun s => .bind (newObject_restores _) fun f =>
      define_restores s.environment name.lexeme f _
  | if_ condition thenBranch elseBranch =>
    refine .bind (he condition) fun v => .ite (hs (0 :: p) thenBranch) ?_
    cases elseBranch with
    | none => exact .pure ()
    | some elseBranch => exact hs (1 :: p) elseBranch
  | print expression => exact .bind (he expression) fun v => .modify fun _ => rfl
  | return_ keyword value => exact .bind (evaluateOption_restores he value) fun v => .stop _
  | var name initializer =>
    exact .bind (evaluateOption_restores he initializer) fun v => .bind .get fun s =>
      define_restores s.environment name.lexeme v _
  | while_ condition body =>
    refine .bind (he condition) fun v => .ite ?_ (.pure ())
    exact .bind (hs (0 :: p) body) fun _ => hs p (.while_ condition body)
  | null => exact .stop _

theorem executeList_restores (hs : ∀ p s, Restores (execute p s)) (p : Place)
    (ss : List (Stmt N (Option Binding))) : ∀ i, Restores (executeList execute p i ss) := by
  induction ss with
  | nil => exact fun i => .pure ()
  | cons s ss ih => exact fun i => .bind (hs (i :: p) s) fun _ => ih (i + 1)

end Bodies

theorem evaluate_execute_restores [Boxed N] (n : ℕ) :
    (∀ e : Expr N (Option Binding), Restores (evaluate n e)) ∧
      ∀ (p : Place) (s : Stmt N (Option Binding)), Restores (execute n p s) := by
  induction n with
  | zero => exact ⟨fun _ => .stop _, fun _ _ => .stop _⟩
  | succ n ih =>
    exact ⟨fun e => evaluateBody_restores ih.1 e, fun p s => executeBody_restores ih.1 ih.2 p s⟩

/-- The lines of a session, each with the steps it takes: what a line did to the interpreter stays,
also if it ended in an error. -/
def session [Boxed N] : List (ℕ × List (Stmt N (Option Binding))) → Interpreter N → Interpreter N
  | [], s => s
  | line :: lines, s => session lines (interpret line.1 line.2 s).2

theorem session_restores [Boxed N] (lines : List (ℕ × List (Stmt N (Option Binding)))) :
    ∀ s, (session lines s).environment = s.environment := by
  induction lines with
  | nil => exact fun s => rfl
  | cons line lines ih =>
    intro s
    have hline : Restores (interpret line.1 line.2) :=
      executeList_restores (evaluate_execute_restores line.1).2 [] line.2 0
    exact (ih _).trans (hline s)

/-- Every expression and every statement, in every state and however it ends, leaves the current
environment as it was; and after any lines of a session it is `globals`. -/
theorem environment_restored [Boxed N] :
    (∀ n (e : Expr N (Option Binding)) s, (evaluate n e s).2.environment = s.environment) ∧
    (∀ n p (st : Stmt N (Option Binding)) s, (execute n p st s).2.environment = s.environment) ∧
    ∀ (lines : List (ℕ × List (Stmt N (Option Binding)))) (clock : ℕ → N),
      (session lines (init clock)).environment = 0 :=
  ⟨fun n e s => (evaluate_execute_restores n).1 e s,
    fun n p st s => (evaluate_execute_restores n).2 p st s,
    fun lines clock => session_restores lines (init clock)⟩

end Lox.Jlox
