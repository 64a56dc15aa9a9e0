import Lox.Jlox.Scopes
import Lox.Jlox.Parser
import Mathlib.Data.List.Nodup

/-!
# What the resolver of jlox reports as declared twice

`declare` reports a name that the innermost scope has already, and `define` marks it ready.  Every
visitor calls the two in turn, but `visitClassStmt` calls `declare` twice.  Where no scope is open
that does nothing; in a block or a function every class is reported as declared twice, and is never
ready.  Everywhere else the error is reported exactly where a scope has two declarations of a name.
-/

namespace Lox.Jlox

open Resolver

variable {N D α β : Type}

/-! ### Declarations in a program -/

namespace Stmt

/-- The names that a statement declares in the scope it stands in; a branch or the body of a loop has
no scope of its own. -/
def declared : Stmt N D → List Name
  | .class_ name _ _ | .function name _ _ | .var name _ => [name.lexeme]
  | .if_ _ thenBranch none => thenBranch.declared
  | .if_ _ thenBranch (some elseBranch) => thenBranch.declared ++ elseBranch.declared
  | .while_ _ body => body.declared
  | .block _ | .expression _ | .print _ | .return_ _ _ | .null => []

mutual

/-- A scope in the statement, of a block or of the parameters and the body of a function, has two
declarations of one name. -/
def Redeclares : Stmt N D → Prop
  | .block body => ¬ (body.flatMap declared).Nodup ∨ RedeclaresList body
  | .class_ _ _ methods => RedeclaresMethods methods
  | .function _ params body =>
      ¬ (params.map (·.lexeme) ++ body.flatMap declared).Nodup ∨ RedeclaresList body
  | .if_ _ thenBranch none => thenBranch.Redeclares
  | .if_ _ thenBranch (some elseBranch) => thenBranch.Redeclares ∨ elseBranch.Redeclares
  | .while_ _ body => body.Redeclares
  | .expression _ | .print _ | .return_ _ _ | .var _ _ | .null => False

/-- So does a scope in one of the statements. -/
def RedeclaresList : List (Stmt N D) → Prop
  | [] => False
  | s :: ss => s.Redeclares ∨ RedeclaresList ss

/-- So does a scope in one of the methods. -/
def RedeclaresMethods : List (Stmt N D) → Prop
  | [] => False
  | .function _ params body :: methods =>
      (¬ (params.map (·.lexeme) ++ body.flatMap declared).Nodup ∨ RedeclaresList body) ∨
        RedeclaresMethods methods
  | _ :: methods => RedeclaresMethods methods

end

mutual

/-- No class is declared where a scope is open; `inside` says whether one is open around the
statement. -/
def ClassesGlobal (inside : Bool) : Stmt N D → Prop
  | .block body => ClassesGlobalList true body
  | .class_ _ _ methods => inside = false ∧ ClassesGlobalMethods methods
  | .function _ _ body => ClassesGlobalList true body
  | .if_ _ thenBranch none => thenBranch.ClassesGlobal inside
  | .if_ _ thenBranch (some elseBranch) =>
      thenBranch.ClassesGlobal inside ∧ elseBranch.ClassesGlobal inside
  | .while_ _ body => body.ClassesGlobal inside
  | .expression _ | .print _ | .return_ _ _ | .var _ _ | .null => True

/-- No statement of the list declares a class where a scope is open. -/
def ClassesGlobalList (inside : Bool) : List (Stmt N D) → Prop
  | [] => True
  | s :: ss => s.ClassesGlobal inside ∧ ClassesGlobalList inside ss

/-- No method declares a class. -/
def ClassesGlobalMethods : List (Stmt N D) → Prop
  | [] => True
  | .function _ _ body :: methods => ClassesGlobalList true body ∧ ClassesGlobalMethods methods
  | _ :: methods => ClassesGlobalMethods methods

end

end Stmt

/-! ### Declarations as they are resolved -/

/-- The error is among those reported. -/
def Redeclared (errors : List (Token N × String)) : Prop :=
  ∃ t, (t, "Already a variable with this name in this scope.") ∈ errors

/-- If a scope is open, the name is marked as defined in it, and a use of it in this scope is not
reported. -/
def Marked (name : Token N) (r : Resolver) : Prop :=
  r.scopes ≠ [] → (peekScope name.lexeme r.scopes).any (·.ready) ∧
    ∀ use : Token N, use.lexeme = name.lexeme → (resolveVariable use r).errors = []

/-- What `resolveFunction` does before the body. -/
def enterFunction (type : FunctionType) (p : Place) (params : List (Token N)) : Resolve N Unit := do
  modify fun r => { r with currentFunction := type }
  beginScope
  declareParameters p 0 params

/-- What `visitFunctionStmt` does before the body. -/
def enterFunctionStmt (p : Place) (name : Token N) (params : List (Token N)) : Resolve N Unit := do
  declare name (.statement p)
  define name (.statement p)
  enterFunction .function p params

/-- What `visitClassStmt` does before it opens scopes. -/
def declareClass (p : Place) (name : Token N) (superclass : Option (Token N × Unit)) :
    Resolve N (Option (Token N × Option Binding)) := do
  modify fun r => { r with currentClass := .class_ }
  declare name (.statement p)
  declare name (.statement p)
  resolveSuperclass name superclass

/-- What `visitClassStmt` does before the methods. -/
def enterClass (p : Place) (name : Token N) (superclass : Option (Token N × Unit)) :
    Resolve N Unit := do
  let superclass ← declareClass p name superclass
  when superclass.isSome do
    beginScope
    put "super".toList true (.super_ p)
  beginScope
  put "this".toList true (.this_ p)

namespace Stmt

mutual

/-- Every declaration in the statement, the statement included, is marked as defined once it has been
resolved, on the way from `r`. -/
def DefinesAll (p : Place) : Stmt N Unit → Resolver → Prop
  | .block body, r => DefinesAllList p 0 body (beginScope r : Reported N Unit).resolver
  | .class_ name superclass methods, r =>
      Marked name (resolveStmt p (.class_ name superclass methods) r).resolver ∧
        DefinesAllMethods p 0 methods (enterClass p name superclass r).resolver
  | .function name params body, r =>
      Marked name (resolveStmt p (.function name params body) r).resolver ∧
        (∀ t ∈ params, Marked t (enterFunctionStmt p name params r).resolver) ∧
        DefinesAllList p 0 body (enterFunctionStmt p name params r).resolver
  | .var name initializer, r => Marked name (resolveStmt p (.var name initializer) r).resolver
  | .if_ condition thenBranch none, r =>
      thenBranch.DefinesAll (0 :: p) (resolveExpr condition r).resolver
  | .if_ condition thenBranch (some elseBranch), r =>
      thenBranch.DefinesAll (0 :: p) (resolveExpr condition r).resolver ∧
        elseBranch.DefinesAll (1 :: p)
          (resolveStmt (0 :: p) thenBranch (resolveExpr condition r).resolver).resolver
  | .while_ condition body, r => body.DefinesAll (0 :: p) (resolveExpr condition r).resolver
  | .expression _, _ | .print _, _ | .return_ _ _, _ | .null, _ => True

/-- Every declaration in the list is marked as defined once it has been resolved. -/
def DefinesAllList (p : Place) (i : ℕ) : List (Stmt N Unit) → Resolver → Prop
  | [], _ => True
  | s :: ss, r => s.DefinesAll (i :: p) r ∧
      DefinesAllList p (i + 1) ss (resolveStmt (i :: p) s r).resolver

/-- Every declaration in the methods is marked as defined once it has been resolved. -/
def DefinesAllMethods (p : Place) (i : ℕ) : List (Stmt N Unit) → Resolver → Prop
  | [], _ => True
  | .function name params body :: methods, r =>
      (∀ t ∈ params, Marked t (enterFunction (methodType name) (i :: p) params r).resolver) ∧
      DefinesAllList (i :: p) 0 body (enterFunction (methodType name) (i :: p) params r).resolver ∧
      DefinesAllMethods p (i + 1) methods
        (resolveFunction (methodType name) (i :: p) params (resolveStmts (i :: p) 0 body) r).resolver
  | _ :: methods, r => DefinesAllMethods p (i + 1) methods r

end

end Stmt

/-! ### Scopes -/

/-- The names have been added to the innermost scope, if there is one. -/
structure Adds (names : List Name) (scopes scopes' : List Scope) : Prop where
  tail : scopes'.tail = scopes.tail
  nil : scopes' = [] ↔ scopes = []
  peek : ∀ name, (peekScope name scopes').isSome ↔
    (peekScope name scopes).isSome ∨ scopes ≠ [] ∧ name ∈ names

theorem Adds.refl (scopes : List Scope) : Adds [] scopes scopes :=
  ⟨rfl, Iff.rfl, fun name => by simp⟩

theorem Adds.trans {names names' : List Name} {scopes scopes' scopes'' : List Scope}
    (h : Adds names scopes scopes') (h' : Adds names' scopes' scopes'') :
    Adds (names ++ names') scopes scopes'' := by
  refine ⟨h'.tail.trans h.tail, h'.nil.trans h.nil, fun name => ?_⟩
  rw [h'.peek, h.peek, List.mem_append, ne_eq, ne_eq, h.nil]
  tauto

theorem Adds.put (name : Name) (entry : Entry) (scopes : List Scope) :
    Adds [name] scopes (putScope name entry scopes) := by
  cases scopes with
  | nil => exact ⟨rfl, Iff.rfl, fun n => by simp [putScope, peekScope]⟩
  | cons scope scopes =>
    refine ⟨rfl, by simp [putScope], fun n => ?_⟩
    by_cases hn : n = name
    · simp [putScope, peekScope, hn]
    · simp [putScope, peekScope, hn]

/-- One of the names cannot be added to the innermost scope: it is there, or comes twice. -/
def Clash (names : List Name) (scopes : List Scope) : Prop :=
  scopes ≠ [] ∧ ¬ (names.Nodup ∧ ∀ name ∈ names, peekScope name scopes = none)

theorem clash_nil (scopes : List Scope) : ¬ Clash [] scopes := by
  simp [Clash]

theorem clash_global (names : List Name) : ¬ Clash names [] := by
  simp [Clash]

theorem clash_empty (names : List Name) (scopes : List Scope) :
    Clash names (empty :: scopes) ↔ ¬ names.Nodup := by
  simp [Clash, peekScope, Resolver.empty]

theorem clash_singleton (name : Name) (scopes : List Scope) :
    Clash [name] scopes ↔ (peekScope name scopes).isSome := by
  cases scopes with
  | nil => simp [Clash, peekScope]
  | cons scope scopes => simp [Clash, peekScope, Option.isSome_iff_ne_none]

/-- Names one after the other: the first clash, or the others do, after them. -/
theorem Adds.clash {names names' : List Name} {scopes scopes' : List Scope}
    (h : Adds names scopes scopes') :
    Clash (names ++ names') scopes ↔ Clash names scopes ∨ Clash names' scopes' := by
  unfold Clash
  rw [ne_eq, ne_eq, h.nil, ← and_or_left, ← not_and_or]
  refine and_congr_right fun hne => not_congr ?_
  have hpeek : ∀ name, peekScope name scopes' = none ↔
      peekScope name scopes = none ∧ name ∉ names := by
    intro name
    have := h.peek name
    rw [← Option.not_isSome_iff_eq_none, ← Option.not_isSome_iff_eq_none, this]
    tauto
  rw [List.nodup_append]
  simp only [hpeek, List.mem_append]
  constructor
  · rintro ⟨⟨hnodup, hnodup', hdisjoint⟩, hnone⟩
    exact ⟨⟨hnodup, fun name hname => hnone name (.inl hname)⟩, hnodup', fun name hname =>
      ⟨hnone name (.inr hname), fun hmem => hdisjoint name hmem name hname rfl⟩⟩
  · rintro ⟨⟨hnodup, hnone⟩, hnodup', hrest⟩
    refine ⟨⟨hnodup, hnodup', ?_⟩, ?_⟩
    · rintro name hname _ hname' rfl
      exact (hrest name hname').2 hname
    · rintro name (hname | hname)
      · exact hnone name hname
      · exact (hrest name hname).1

/-! ### Rules -/

theorem redeclared_nil : ¬ Redeclared ([] : List (Token N × String)) := by
  simp [Redeclared]

theorem redeclared_append (errors errors' : List (Token N × String)) :
    Redeclared (errors ++ errors') ↔ Redeclared errors ∨ Redeclared errors' := by
  simp [Redeclared, exists_or]

/-- The resolver adds the names to the innermost scope; and, if `ok`, it reports a redeclaration
exactly if they clash there, or if there is one inside. -/
structure Registers (ok : Prop) (names : List Name) (inner : Prop) (m : Resolve N α) (r : Resolver) :
    Prop where
  scopes : Adds names r.scopes (m r).resolver.scopes
  errors : ok → (Redeclared (m r).errors ↔ Clash names r.scopes ∨ inner)

/-- The function leaves the scopes alone, and reports no redeclaration. -/
def Quiet (m : Resolve N α) : Prop :=
  ∀ r, (m r).resolver.scopes = r.scopes ∧ ¬ Redeclared (m r).errors

namespace Quiet

theorem pure (a : α) : Quiet (Pure.pure a : Resolve N α) := fun _ => ⟨rfl, redeclared_nil⟩

theorem get : Quiet (Resolver.get : Resolve N Resolver) := fun _ => ⟨rfl, redeclared_nil⟩

theorem modify {f : Resolver → Resolver} (h : ∀ r, (f r).scopes = r.scopes) :
    Quiet (Resolver.modify f : Resolve N Unit) := fun r => ⟨h r, redeclared_nil⟩

theorem bind {m : Resolve N α} {f : α → Resolve N β} (hm : Quiet m) (hf : ∀ a, Quiet (f a)) :
    Quiet (m >>= f) := by
  intro r
  obtain ⟨hscopes, herrors⟩ := hm r
  obtain ⟨hscopes', herrors'⟩ := hf (m r).value (m r).resolver
  refine ⟨hscopes'.trans hscopes, fun h => ?_⟩
  rcases (redeclared_append _ _).1 h with h | h
  · exact herrors h
  · exact herrors' h

/-- Another error. -/
theorem errorWhen (c : Bool) (token : Token N) {message : String}
    (h : message ≠ "Already a variable with this name in this scope.") :
    Quiet (when c (Resolver.error token message)) := by
  cases c with
  | false => exact .pure ()
  | true =>
    refine fun r => ⟨rfl, ?_⟩
    rintro ⟨t, ht⟩
    have heq : (t, "Already a variable with this name in this scope.") = (token, message) :=
      List.mem_singleton.1 ht
    exact h (Prod.ext_iff.1 heq).2.symm

theorem registers {m : Resolve N α} (h : Quiet m) (ok : Prop) (r : Resolver) :
    Registers ok [] False m r := by
  refine ⟨?_, fun _ => ?_⟩
  · rw [(h r).1]
    exact .refl _
  · simp [(h r).2, clash_nil]

end Quiet

namespace Registers

variable {ok ok' inner inner' : Prop} {names names' : List Name} {m : Resolve N α} {r : Resolver}

theorem imp (h : Registers ok names inner m r) (hok : ok' → ok)
    (hinner : inner ↔ inner') : Registers ok' names inner' m r :=
  ⟨h.scopes, fun hok' => (h.errors (hok hok')).trans (or_congr_right hinner)⟩

/-- One after the other: the second call finds the names of the first. -/
theorem bind {f : α → Resolve N β} (hm : Registers ok names inner m r)
    (hf : Registers ok names' inner' (f (m r).value) (m r).resolver) :
    Registers ok (names ++ names') (inner ∨ inner') (m >>= f) r := by
  refine ⟨hm.scopes.trans hf.scopes, fun hok => ?_⟩
  change Redeclared ((m r).errors ++ (f (m r).value (m r).resolver).errors) ↔ _
  rw [redeclared_append, hm.errors hok, hf.errors hok, hm.scopes.clash]
  tauto

/-- First something quiet. -/
theorem quiet_bind {f : α → Resolve N β} (hm : Quiet m)
    (hf : Registers ok names inner (f (m r).value) (m r).resolver) :
    Registers ok names inner (m >>= f) r := by
  have h := (hm.registers ok r).bind hf
  exact ⟨h.scopes, fun hok => (h.errors hok).trans (by tauto)⟩

/-- Something quiet in the end. -/
theorem bind_quiet {f : α → Resolve N β} (hm : Registers ok names inner m r)
    (hf : ∀ a, Quiet (f a)) : Registers ok names inner (m >>= f) r := by
  have h := hm.bind ((hf (m r).value).registers ok (m r).resolver)
  rw [List.append_nil] at h
  exact ⟨h.scopes, fun hok => (h.errors hok).trans (by tauto)⟩

end Registers

/-! ### Expressions -/

theorem resolveLocal_quiet (name : Token N) : Quiet (resolveLocal name) :=
  .bind .get fun _ => .pure _

theorem resolveVariable_quiet (name : Token N) : Quiet (resolveVariable name) :=
  .bind .get fun _ => .bind (.errorWhen _ name (by decide)) fun _ => resolveLocal_quiet name

theorem resolveThis_quiet (keyword : Token N) : Quiet (resolveThis keyword) := by
  refine .bind .get fun r => ?_
  split
  · exact .bind (.errorWhen true keyword (by decide)) fun _ => .pure none
  · exact resolveLocal_quiet keyword

theorem resolveSuper_quiet (keyword : Token N) : Quiet (resolveSuper keyword) :=
  .bind .get fun _ => .bind (.errorWhen _ keyword (by decide)) fun _ =>
    .bind (.errorWhen _ keyword (by decide)) fun _ => resolveLocal_quiet keyword

mutual

theorem resolveExpr_quiet : ∀ e : Expr N Unit, Quiet (resolveExpr e)
  | .assign name value _ =>
    .bind (resolveExpr_quiet value) fun _ => .bind (resolveLocal_quiet name) fun _ => .pure _
  | .binary left _ right =>
    .bind (resolveExpr_quiet left) fun _ => .bind (resolveExpr_quiet right) fun _ => .pure _
  | .call callee _ arguments =>
    .bind (resolveExpr_quiet callee) fun _ => .bind (resolveExprs_quiet arguments) fun _ => .pure _
  | .get object _ => .bind (resolveExpr_quiet object) fun _ => .pure _
  | .grouping expression => .bind (resolveExpr_quiet expression) fun _ => .pure _
  | .literal _ => .pure _
  | .logical left _ right =>
    .bind (resolveExpr_quiet left) fun _ => .bind (resolveExpr_quiet right) fun _ => .pure _
  | .set object _ value =>
    .bind (resolveExpr_quiet value) fun _ => .bind (resolveExpr_quiet object) fun _ => .pure _
  | .super_ keyword _ _ => .bind (resolveSuper_quiet keyword) fun _ => .pure _
  | .this_ keyword _ => .bind (resolveThis_quiet keyword) fun _ => .pure _
  | .unary _ right => .bind (resolveExpr_quiet right) fun _ => .pure _
  | .variable_ name _ => .bind (resolveVariable_quiet name) fun _ => .pure _

theorem resolveExprs_quiet : ∀ es : List (Expr N Unit), Quiet (resolveExprs es)
  | [] => .pure []
  | e :: es =>
    .bind (resolveExpr_quiet e) fun _ => .bind (resolveExprs_quiet es) fun _ => .pure _

end

theorem resolveOption_quiet (o : Option (Expr N Unit)) : Quiet (resolveOption o) := by
  cases o with
  | none => exact .pure none
  | some e => exact .bind (resolveExpr_quiet e) fun _ => .pure _

theorem resolveSuperclass_quiet (name : Token N) (superclass : Option (Token N × Unit)) :
    Quiet (resolveSuperclass name superclass) := by
  cases superclass with
  | none => exact .pure none
  | some c =>
    exact .bind (.errorWhen _ c.1 (by decide)) fun _ => .bind (.modify fun _ => rfl) fun _ =>
      .bind (resolveVariable_quiet c.1) fun _ => .pure _

theorem resolveReturn_quiet (keyword : Token N) (hasValue : Bool) :
    Quiet (resolveReturn keyword hasValue) :=
  .bind .get fun _ => .bind (.errorWhen _ keyword (by decide)) fun _ =>
    .errorWhen _ keyword (by decide)

/-! ### Names -/

theorem errorWhen_resolver (c : Bool) (token : Token N) (message : String) (r : Resolver) :
    (when c (Resolver.error token message) r).resolver = r := by
  cases c <;> rfl

theorem declare_scopes (name : Token N) (declaration : Declaration) (r : Resolver) :
    (declare name declaration r).resolver.scopes =
      putScope name.lexeme ⟨false, declaration⟩ r.scopes :=
  congrArg (fun r' : Resolver => putScope name.lexeme ⟨false, declaration⟩ r'.scopes)
    (errorWhen_resolver (peekScope name.lexeme r.scopes).isSome name _ r)

theorem declare_errors (name : Token N) (declaration : Declaration) (r : Resolver) :
    (declare name declaration r).errors = if (peekScope name.lexeme r.scopes).isSome then
      [(name, "Already a variable with this name in this scope.")] else [] := by
  change [] ++ ((when (peekScope name.lexeme r.scopes).isSome (Resolver.error name
    "Already a variable with this name in this scope.") r : Reported N Unit).errors ++ []) = _
  rw [List.nil_append, List.append_nil]
  cases (peekScope name.lexeme r.scopes).isSome <;> rfl

/-- `declare` reports the name exactly if the innermost scope has it. -/
theorem declare_registers (ok : Prop) (name : Token N) (declaration : Declaration) (r : Resolver) :
    Registers ok [name.lexeme] False (declare name declaration) r := by
  refine ⟨?_, fun _ => ?_⟩
  · rw [declare_scopes]
    exact .put name.lexeme _ r.scopes
  · rw [clash_singleton, or_false, declare_errors]
    by_cases h : (peekScope name.lexeme r.scopes).isSome
    · simp [h, Redeclared]
    · rw [if_neg h]
      exact iff_of_false redeclared_nil h

theorem define_scopes (name : Token N) (declaration : Declaration) (r : Resolver) :
    (define name declaration r).resolver.scopes =
      putScope name.lexeme ⟨true, declaration⟩ r.scopes := rfl

/-- `define` adds nothing to what `declare` has added. -/
theorem define_registers (ok : Prop) (name : Token N) (declaration : Declaration)
    {r r' : Resolver} (h : Adds [name.lexeme] r.scopes r'.scopes) :
    Registers ok [] False (define name declaration) r' := by
  have hput := Adds.put name.lexeme ⟨true, declaration⟩ r'.scopes
  refine ⟨⟨hput.tail, hput.nil, fun n => (hput.peek n).trans ?_⟩, fun _ => ?_⟩
  · constructor
    · rintro (hn | ⟨hne, hn⟩)
      · exact .inl hn
      · rw [ne_eq, h.nil] at hne
        exact .inl ((h.peek n).2 (.inr ⟨hne, hn⟩))
    · rintro (hn | ⟨-, hn⟩)
      · exact .inl hn
      · simp at hn
  · simp only [or_false, clash_nil, iff_false]
    exact redeclared_nil

theorem declareParameters_registers (ok : Prop) (p : Place) (params : List (Token N)) :
    ∀ i r, Registers ok (params.map (·.lexeme)) False (declareParameters p i params) r := by
  induction params with
  | nil => exact fun i r => (Quiet.pure ()).registers ok r
  | cons param params ih =>
    intro i r
    have hdeclare := declare_registers ok param (.parameter p i) r
    have h := hdeclare.bind (f := fun _ => define param (.parameter p i) >>= fun _ =>
      declareParameters p (i + 1) params)
      ((define_registers ok param (.parameter p i) hdeclare.scopes).bind (ih (i + 1) _))
    exact h.imp id (by simp)

/-! ### Functions and classes -/

/-- What is done in a scope of its own leaves the scopes as they were. -/
theorem resolveFunction_scopes {names : List Name} {ok inner : Prop} (type : FunctionType) (p : Place)
    (params : List (Token N)) {body : Resolve N α} {r : Resolver}
    (hbody : Registers ok names inner body (enterFunction type p params r).resolver) :
    (resolveFunction type p params body r).resolver.scopes = r.scopes := by
  have hparams := (declareParameters_registers True p params 0
    { r with currentFunction := type, scopes := empty :: r.scopes }).scopes
  change (body (enterFunction type p params r).resolver).resolver.scopes.tail = r.scopes
  rw [hbody.scopes.tail]
  exact hparams.tail

/-- The parameters and the names of the body are in one scope, which has nothing else. -/
theorem resolveFunction_registers {names : List Name} {ok inner : Prop} (type : FunctionType)
    (p : Place) (params : List (Token N)) {body : Resolve N α} {r : Resolver}
    (hbody : Registers ok names inner body (enterFunction type p params r).resolver) :
    Registers ok [] (¬ (params.map (·.lexeme) ++ names).Nodup ∨ inner)
      (resolveFunction type p params body) r := by
  refine ⟨?_, fun hok => ?_⟩
  · rw [resolveFunction_scopes type p params hbody]
    exact .refl _
  · have hparams := declareParameters_registers ok p params 0
      { r with currentFunction := type, scopes := empty :: r.scopes }
    have hboth := (hparams.bind (f := fun _ => body) hbody).errors hok
    rw [clash_empty, false_or] at hboth
    have herrors : (resolveFunction type p params body r).errors =
        (declareParameters p 0 params
          { r with currentFunction := type, scopes := empty :: r.scopes }).errors ++
        (body (enterFunction type p params r).resolver).errors := by
      change [] ++ ([] ++ ([] ++ (_ ++ (_ ++ ([] ++ ([] ++ [])))))) = _
      simp only [List.nil_append, List.append_nil]
      rfl
    rw [herrors]
    simp only [clash_nil, false_or]
    exact hboth

/-- The name of a class comes twice, so every class in an open scope is reported. -/
theorem declareClass_registers (ok : Prop) (p : Place) (name : Token N)
    (superclass : Option (Token N × Unit)) (r : Resolver) :
    Registers ok [name.lexeme, name.lexeme] False (declareClass p name superclass) r := by
  have hsecond : ∀ r, Registers ok [name.lexeme] False (declare name (.statement p) >>= fun _ =>
      resolveSuperclass name superclass) r := fun r =>
    .bind_quiet (declare_registers ok name (.statement p) r) fun _ =>
      resolveSuperclass_quiet name superclass
  have h := (declare_registers ok name (.statement p) { r with currentClass := .class_ }).bind
    (f := fun _ => declare name (.statement p) >>= fun _ => resolveSuperclass name superclass)
    (hsecond _)
  have hmodify : Quiet (modify fun r => { r with currentClass := .class_ } : Resolve N Unit) :=
    .modify fun _ => rfl
  have hclass := Registers.quiet_bind (r := r) (f := fun _ => declare name (.statement p) >>=
    fun _ => declare name (.statement p) >>= fun _ => resolveSuperclass name superclass) hmodify h
  exact hclass.imp id (by simp)

theorem declareClass_scopes (p : Place) (name : Token N) (superclass : Option (Token N × Unit))
    (r : Resolver) :
    (declareClass p name superclass r).resolver.scopes =
      putScope name.lexeme ⟨false, .statement p⟩ r.scopes := by
  have hquiet := (resolveSuperclass_quiet name superclass (declare name (.statement p)
    (declare name (.statement p) { r with currentClass := .class_ }).resolver).resolver).1
  rw [declare_scopes, declare_scopes, putScope_putScope] at hquiet
  exact hquiet

/-- The scopes around the methods: the name of the class is declared, and not defined. -/
theorem enterClass_scopes (p : Place) (name : Token N) (superclass : Option (Token N × Unit))
    (r : Resolver) :
    (enterClass p name superclass r).resolver.scopes = thisScope p ::
      classScopes p superclass.isSome (putScope name.lexeme ⟨false, .statement p⟩ r.scopes) := by
  rw [← declareClass_scopes p name superclass r]
  cases superclass <;> rfl

/-- The rest of a class: what the methods do is in scopes of their own. -/
theorem resolveClass_scopes {names : List Name} {ok inner : Prop} (p : Place) (name : Token N)
    (superclass : Option (Token N × Unit)) {methods : Resolve N α} {r : Resolver}
    (hmethods : Registers ok names inner methods (enterClass p name superclass r).resolver) :
    (resolveClass p name superclass methods r).resolver.scopes =
      putScope name.lexeme ⟨false, .statement p⟩ r.scopes := by
  have htail := hmethods.scopes.tail
  rw [enterClass_scopes] at htail
  cases superclass with
  | none =>
    change (methods (enterClass p name none r).resolver).resolver.scopes.tail = _
    rw [htail]
    rfl
  | some c =>
    change (methods (enterClass p name (some c) r).resolver).resolver.scopes.tail.tail = _
    rw [htail]
    rfl

theorem resolveClass_errors (p : Place) (name : Token N) (superclass : Option (Token N × Unit))
    (methods : Resolve N α) (r : Resolver) :
    (resolveClass p name superclass methods r).errors =
      (declareClass p name superclass r).errors ++
        (methods (enterClass p name superclass r).resolver).errors := by
  cases superclass with
  | none =>
    change [] ++ ([] ++ (_ ++ (_ ++ ([] ++ ([] ++ ([] ++ ([] ++ (_ ++ ([] ++ ([] ++ ([] ++ []))))))))))) =
      ([] ++ (_ ++ (_ ++ []))) ++ _
    simp only [List.nil_append, List.append_nil, List.append_assoc]
    rfl
  | some c =>
    change [] ++ ([] ++ (_ ++ (_ ++ (_ ++ (([] ++ []) ++ ([] ++ ([] ++ (_ ++ ([] ++ ([] ++
      ([] ++ []))))))))))) = ([] ++ (_ ++ (_ ++ _))) ++ _
    simp only [List.nil_append, List.append_nil, List.append_assoc]
    rfl

/-- A class where no scope is open reports what its methods report. -/
theorem resolveClass_registers {ok inner : Prop} (p : Place) (name : Token N)
    (superclass : Option (Token N × Unit)) {methods : Resolve N α} {r : Resolver}
    (hok : ok → r.scopes = [])
    (hmethods : Registers ok [] inner methods (enterClass p name superclass r).resolver) :
    Registers ok [name.lexeme] inner (resolveClass p name superclass methods) r := by
  refine ⟨?_, fun h => ?_⟩
  · rw [resolveClass_scopes p name superclass hmethods]
    exact .put name.lexeme _ r.scopes
  · have hdeclare := (declareClass_registers ok p name superclass r).errors h
    have hinner := hmethods.errors h
    rw [resolveClass_errors, redeclared_append, hdeclare, hinner, hok h]
    simp only [clash_nil, clash_global, false_or]

/-! ### Statements -/

/-- Something done in a block, in a scope that is empty at first. -/
theorem block_registers {names : List Name} {ok inner : Prop} {body : Resolve N α} {f : α → β}
    {r : Resolver} (hbody : Registers ok names inner body { r with scopes := empty :: r.scopes }) :
    Registers ok [] (¬ names.Nodup ∨ inner)
      (beginScope >>= fun _ => body >>= fun a => endScope >>= fun _ => Pure.pure (f a)) r := by
  refine ⟨?_, fun hok => ?_⟩
  · change Adds [] r.scopes (body { r with scopes := empty :: r.scopes }).resolver.scopes.tail
    rw [hbody.scopes.tail]
    exact .refl _
  · have herrors := hbody.errors hok
    rw [clash_empty] at herrors
    change Redeclared ([] ++ ((body { r with scopes := empty :: r.scopes }).errors ++ ([] ++ []))) ↔ _
    simp only [List.nil_append, List.append_nil, clash_nil, false_or]
    exact herrors

theorem not_isEmpty_of_nil_iff {scopes scopes' : List Scope} (h : scopes' = [] ↔ scopes = []) :
    (!scopes'.isEmpty) = !scopes.isEmpty := by
  cases scopes with
  | nil => simp [h.2 rfl]
  | cons scope scopes =>
    have hne : scopes' ≠ [] := fun hnil => by simpa using h.1 hnil
    simp [hne]

theorem enterFunction_isEmpty (type : FunctionType) (p : Place) (params : List (Token N))
    (r : Resolver) : (!(enterFunction type p params r).resolver.scopes.isEmpty) = true := by
  have h := (declareParameters_registers True p params 0
    { r with currentFunction := type, scopes := empty :: r.scopes }).scopes.nil
  exact not_isEmpty_of_nil_iff h

theorem enterFunctionStmt_isEmpty (p : Place) (name : Token N) (params : List (Token N))
    (r : Resolver) : (!(enterFunctionStmt p name params r).resolver.scopes.isEmpty) = true :=
  enterFunction_isEmpty .function p params _

mutual

theorem resolveStmt_registers : ∀ (s : Stmt N Unit) (p : Place) (r : Resolver),
    Registers (s.ClassesGlobal (!r.scopes.isEmpty)) s.declared s.Redeclares (resolveStmt p s) r
  | .block body, p, r => by
    have hbody := resolveStmts_registers body p 0 { r with scopes := empty :: r.scopes }
    exact block_registers (hbody.imp (fun h => h) Iff.rfl)
  | .class_ name superclass methods, p, r => by
    have hmethods := resolveMethods_registers methods p 0 (enterClass p name superclass r).resolver
    have hglobal : (Stmt.class_ name superclass methods).ClassesGlobal (!r.scopes.isEmpty) →
        r.scopes = [] := fun h => by simpa using h.1
    have hclass := resolveClass_registers p name superclass hglobal
      (hmethods.imp (fun h => h.2) Iff.rfl)
    exact .bind_quiet hclass fun _ => .pure _
  | .expression expression, p, r =>
    (Quiet.bind (resolveExpr_quiet expression) fun _ => .pure _).registers _ r
  | .function name params body, p, r => by
    have hdeclare := declare_registers
      ((Stmt.function name params body).ClassesGlobal (!r.scopes.isEmpty)) name (.statement p) r
    have hdefine := define_registers
      ((Stmt.function name params body).ClassesGlobal (!r.scopes.isEmpty)) name (.statement p)
      hdeclare.scopes
    have hbody := resolveStmts_registers body p 0 (enterFunctionStmt p name params r).resolver
    rw [enterFunctionStmt_isEmpty] at hbody
    have hfunction := resolveFunction_registers
      (r := (define name (.statement p) (declare name (.statement p) r).resolver).resolver)
      .function p params hbody
    have h := hdeclare.bind (f := fun _ => define name (.statement p) >>= fun _ =>
      resolveFunction .function p params (resolveStmts p 0 body) >>= fun body =>
      Pure.pure (Stmt.function name params body)) (hdefine.bind (hfunction.bind_quiet fun _ => .pure _))
    exact h.imp (fun h => h) (by simp [Stmt.Redeclares])
  | .if_ condition thenBranch none, p, r => by
    have hthen := resolveStmt_registers thenBranch (0 :: p) (resolveExpr condition r).resolver
    rw [(resolveExpr_quiet condition r).1] at hthen
    exact .quiet_bind (resolveExpr_quiet condition) (.bind_quiet (hthen.imp (fun h => h) Iff.rfl)
      fun _ => .pure _)
  | .if_ condition thenBranch (some elseBranch), p, r => by
    have hthen := resolveStmt_registers thenBranch (0 :: p) (resolveExpr condition r).resolver
    have helse := resolveStmt_registers elseBranch (1 :: p)
      (resolveStmt (0 :: p) thenBranch (resolveExpr condition r).resolver).resolver
    rw [not_isEmpty_of_nil_iff hthen.scopes.nil, (resolveExpr_quiet condition r).1] at helse
    rw [(resolveExpr_quiet condition r).1] at hthen
    refine .quiet_bind (resolveExpr_quiet condition) (.bind (hthen.imp (fun h => h.1) Iff.rfl) ?_)
    exact .bind_quiet (helse.imp (fun h => h.2) Iff.rfl) fun _ => .pure _
  | .print expression, p, r =>
    (Quiet.bind (resolveExpr_quiet expression) fun _ => .pure _).registers _ r
  | .return_ keyword value, p, r =>
    (Quiet.bind (resolveReturn_quiet keyword _) fun _ =>
      .bind (resolveOption_quiet value) fun _ => .pure _).registers _ r
  | .var name initializer, p, r => by
    have hdeclare := declare_registers
      ((Stmt.var name initializer).ClassesGlobal (!r.scopes.isEmpty)) name (.statement p) r
    have hadds : Adds [name.lexeme] r.scopes
        (resolveOption initializer (declare name (.statement p) r).resolver).resolver.scopes := by
      rw [(resolveOption_quiet initializer _).1]
      exact hdeclare.scopes
    have hdefine := define_registers
      ((Stmt.var name initializer).ClassesGlobal (!r.scopes.isEmpty)) name (.statement p) hadds
    have h := hdeclare.bind (f := fun _ => resolveOption initializer >>= fun initializer =>
      define name (.statement p) >>= fun _ => Pure.pure (Stmt.var name initializer))
      (.quiet_bind (resolveOption_quiet initializer) (hdefine.bind_quiet fun _ => .pure _))
    exact h.imp (fun h => h) (by simp [Stmt.Redeclares])
  | .while_ condition body, p, r => by
    have hbody := resolveStmt_registers body (0 :: p) (resolveExpr condition r).resolver
    rw [(resolveExpr_quiet condition r).1] at hbody
    exact .quiet_bind (resolveExpr_quiet condition) (.bind_quiet (hbody.imp (fun h => h) Iff.rfl)
      fun _ => .pure _)
  | .null, p, r => (Quiet.pure _).registers _ r

theorem resolveStmts_registers : ∀ (ss : List (Stmt N Unit)) (p : Place) (i : ℕ) (r : Resolver),
    Registers (Stmt.ClassesGlobalList (!r.scopes.isEmpty) ss) (ss.flatMap Stmt.declared)
      (Stmt.RedeclaresList ss) (resolveStmts p i ss) r
  | [], p, i, r => (Quiet.pure _).registers _ r
  | s :: ss, p, i, r => by
    have hs := resolveStmt_registers s (i :: p) r
    have hss := resolveStmts_registers ss p (i + 1) (resolveStmt (i :: p) s r).resolver
    rw [not_isEmpty_of_nil_iff hs.scopes.nil] at hss
    have h := (hs.imp (fun h : Stmt.ClassesGlobalList _ (s :: ss) => h.1) Iff.rfl).bind
      (f := fun s => resolveStmts p (i + 1) ss >>= fun ss => Pure.pure (s :: ss))
      (.bind_quiet (hss.imp (fun h => h.2) Iff.rfl) fun _ => .pure _)
    exact h

theorem resolveMethods_registers : ∀ (methods : List (Stmt N Unit)) (p : Place) (i : ℕ)
    (r : Resolver), Registers (Stmt.ClassesGlobalMethods methods) []
      (Stmt.RedeclaresMethods methods) (resolveMethods p i methods) r
  | [], p, i, r => (Quiet.pure _).registers _ r
  | .function name params body :: methods, p, i, r => by
    have hbody := resolveStmts_registers body (i :: p) 0
      (enterFunction (methodType name) (i :: p) params r).resolver
    rw [enterFunction_isEmpty] at hbody
    have hfunction := resolveFunction_registers (methodType name) (i :: p) params hbody
    have hmethods := resolveMethods_registers methods p (i + 1) (resolveFunction (methodType name)
      (i :: p) params (resolveStmts (i :: p) 0 body) r).resolver
    have h := (hfunction.imp (fun h : Stmt.ClassesGlobalMethods
      (Stmt.function name params body :: methods) => h.1) Iff.rfl).bind
      (f := fun body => resolveMethods p (i + 1) methods >>= fun methods =>
        Pure.pure (Stmt.function name params body :: methods))
      (.bind_quiet (hmethods.imp (fun h => h.2) Iff.rfl) fun _ => .pure _)
    exact h
  | .block _ :: methods, p, i, r | .class_ _ _ _ :: methods, p, i, r
  | .expression _ :: methods, p, i, r | .if_ _ _ _ :: methods, p, i, r
  | .print _ :: methods, p, i, r | .return_ _ _ :: methods, p, i, r | .var _ _ :: methods, p, i, r
  | .while_ _ _ :: methods, p, i, r | .null :: methods, p, i, r =>
    resolveMethods_registers methods p (i + 1) r

end

/-! ### Marks -/

/-- A name that is ready is marked. -/
theorem marked_of_ready {name : Token N} {r : Resolver}
    (h : r.scopes ≠ [] → (peekScope name.lexeme r.scopes).any (·.ready)) : Marked name r := by
  refine fun hne => ⟨h hne, fun use huse => ?_⟩
  have hready : ((peekScope use.lexeme r.scopes).any (!·.ready)) = false := by
    have hany := h hne
    rw [huse]
    cases hpeek : peekScope name.lexeme r.scopes with
    | none => rfl
    | some entry => simpa [hpeek] using hany
  change [] ++ ((when ((peekScope use.lexeme r.scopes).any (!·.ready)) (Resolver.error use
    "Can't read local variable in its own initializer.") r : Reported N Unit).errors ++ ([] ++ [])) = []
  rw [hready]
  rfl

theorem marked_of_define {name : Token N} {declaration : Declaration} {scopes : List Scope}
    {r : Resolver} (h : r.scopes = putScope name.lexeme ⟨true, declaration⟩ scopes) :
    Marked name r := by
  refine marked_of_ready fun hne => ?_
  cases scopes with
  | nil => exact absurd h hne
  | cons scope scopes => simp [h, putScope, peekScope]

/-- After `declare` alone the name is marked only if there is no scope. -/
theorem marked_of_declare_iff {name : Token N} {declaration : Declaration} {scopes : List Scope}
    {r : Resolver} (h : r.scopes = putScope name.lexeme ⟨false, declaration⟩ scopes) :
    Marked name r ↔ scopes = [] := by
  constructor
  · intro hmarked
    cases scopes with
    | nil => rfl
    | cons scope scopes =>
      have hready := (hmarked (by simp [h, putScope])).1
      simp [h, putScope, peekScope] at hready
  · rintro rfl
    exact fun hne => absurd h hne

theorem declareParameters_scopes (p : Place) (params : List (Token N)) :
    ∀ i r scope rest, r.scopes = scope :: rest →
      (declareParameters p i params r : Reported N Unit).resolver.scopes =
        parameterScope p i params scope :: rest := by
  induction params with
  | nil => exact fun i r scope rest h => h
  | cons param params ih =>
    intro i r scope rest h
    refine ih (i + 1) _ _ rest ?_
    change putScope _ _ (declare param (.parameter p i) r).resolver.scopes = _
    rw [declare_scopes, putScope_putScope, h]
    rfl

/-- The parameters are ready before the body. -/
theorem marked_of_parameter (type : FunctionType) (p : Place) (params : List (Token N))
    (r : Resolver) : ∀ t ∈ params, Marked t (enterFunction type p params r).resolver := by
  intro t ht
  refine marked_of_ready fun _ => ?_
  have hscopes : (enterFunction type p params r).resolver.scopes =
      parameterScope p 0 params empty :: r.scopes :=
    declareParameters_scopes p params 0 _ empty r.scopes rfl
  have hsome := ((declareParameters_registers True p params 0
    { r with currentFunction := type, scopes := empty :: r.scopes }).scopes.peek t.lexeme).2
    (.inr ⟨by simp, List.mem_map_of_mem ht⟩)
  have hpeek : (peekScope t.lexeme (enterFunction type p params r).resolver.scopes).isSome := hsome
  rw [hscopes] at hpeek ⊢
  obtain ⟨entry, hentry⟩ := Option.isSome_iff_exists.1 hpeek
  rw [hentry]
  exact ready_parameterScope ready_empty t.lexeme entry hentry

mutual

/-- All declarations of a statement are marked exactly if no class in it is declared where a scope is
open. -/
theorem definesAll_iff : ∀ (s : Stmt N Unit) (p : Place) (r : Resolver),
    s.DefinesAll p r ↔ s.ClassesGlobal (!r.scopes.isEmpty)
  | .block body, p, r => definesAllList_iff body p 0 _
  | .class_ name superclass methods, p, r => by
    have hscopes := resolveClass_scopes p name superclass
      (resolveMethods_registers methods p 0 (enterClass p name superclass r).resolver)
    have hmarked := marked_of_declare_iff (r := (resolveStmt p (.class_ name superclass methods)
      r).resolver) hscopes
    simp only [Stmt.DefinesAll, Stmt.ClassesGlobal, hmarked,
      definesAllMethods_iff methods p 0 (enterClass p name superclass r).resolver]
    simp
  | .function name params body, p, r => by
    have hscopes := resolveFunction_scopes
      (r := (define name (.statement p) (declare name (.statement p) r).resolver).resolver)
      .function p params
      (resolveStmts_registers body p 0 (enterFunctionStmt p name params r).resolver)
    have hmarked : Marked name (resolveStmt p (.function name params body) r).resolver :=
      marked_of_define hscopes
    have hparams : ∀ t ∈ params, Marked t (enterFunctionStmt p name params r).resolver :=
      marked_of_parameter .function p params _
    simp only [Stmt.DefinesAll, Stmt.ClassesGlobal,
      definesAllList_iff body p 0 (enterFunctionStmt p name params r).resolver,
      enterFunctionStmt_isEmpty]
    exact ⟨fun h => h.2.2, fun h => ⟨hmarked, hparams, h⟩⟩
  | .var name initializer, p, r => by
    have hmarked : Marked name (resolveStmt p (.var name initializer) r).resolver :=
      marked_of_define (define_scopes name (.statement p)
        (resolveOption initializer (declare name (.statement p) r).resolver).resolver)
    exact iff_of_true hmarked trivial
  | .if_ condition thenBranch none, p, r => by
    have hthen := definesAll_iff thenBranch (0 :: p) (resolveExpr condition r).resolver
    rw [(resolveExpr_quiet condition r).1] at hthen
    exact hthen
  | .if_ condition thenBranch (some elseBranch), p, r => by
    have hthen := definesAll_iff thenBranch (0 :: p) (resolveExpr condition r).resolver
    have helse := definesAll_iff elseBranch (1 :: p)
      (resolveStmt (0 :: p) thenBranch (resolveExpr condition r).resolver).resolver
    rw [not_isEmpty_of_nil_iff (resolveStmt_registers thenBranch (0 :: p) _).scopes.nil,
      (resolveExpr_quiet condition r).1] at helse
    rw [(resolveExpr_quiet condition r).1] at hthen
    exact and_congr hthen helse
  | .while_ condition body, p, r => by
    have hbody := definesAll_iff body (0 :: p) (resolveExpr condition r).resolver
    rw [(resolveExpr_quiet condition r).1] at hbody
    exact hbody
  | .expression _, p, r | .print _, p, r | .return_ _ _, p, r | .null, p, r => Iff.rfl

theorem definesAllList_iff : ∀ (ss : List (Stmt N Unit)) (p : Place) (i : ℕ) (r : Resolver),
    Stmt.DefinesAllList p i ss r ↔ Stmt.ClassesGlobalList (!r.scopes.isEmpty) ss
  | [], p, i, r => Iff.rfl
  | s :: ss, p, i, r => by
    have hs := definesAll_iff s (i :: p) r
    have hss := definesAllList_iff ss p (i + 1) (resolveStmt (i :: p) s r).resolver
    rw [not_isEmpty_of_nil_iff (resolveStmt_registers s (i :: p) r).scopes.nil] at hss
    exact and_congr hs hss

theorem definesAllMethods_iff : ∀ (methods : List (Stmt N Unit)) (p : Place) (i : ℕ) (r : Resolver),
    Stmt.DefinesAllMethods p i methods r ↔ Stmt.ClassesGlobalMethods methods
  | [], p, i, r => Iff.rfl
  | .function name params body :: methods, p, i, r => by
    have hbody := definesAllList_iff body (i :: p) 0
      (enterFunction (methodType name) (i :: p) params r).resolver
    rw [enterFunction_isEmpty] at hbody
    have hmethods := definesAllMethods_iff methods p (i + 1) (resolveFunction (methodType name)
      (i :: p) params (resolveStmts (i :: p) 0 body) r).resolver
    have hparams := marked_of_parameter (methodType name) (i :: p) params r
    exact ⟨fun h => ⟨hbody.1 h.2.1, hmethods.1 h.2.2⟩,
      fun h => ⟨hparams, hbody.2 h.1, hmethods.2 h.2⟩⟩
  | .block _ :: methods, p, i, r | .class_ _ _ _ :: methods, p, i, r
  | .expression _ :: methods, p, i, r | .if_ _ _ _ :: methods, p, i, r
  | .print _ :: methods, p, i, r | .return_ _ _ :: methods, p, i, r | .var _ _ :: methods, p, i, r
  | .while_ _ _ :: methods, p, i, r | .null :: methods, p, i, r =>
    definesAllMethods_iff methods p (i + 1) r

end

/-- The resolver reports a redeclaration exactly if some scope has two declarations of a name, and
marks every declaration as defined once it has been resolved: both are so exactly if no class is
declared in a block or a function. -/
theorem resolver_declares_iff (program : List (Stmt N Unit)) :
    ((Redeclared (resolve program).errors ↔ Stmt.RedeclaresList program) ∧
      Stmt.DefinesAllList [] 0 program ⟨[], .none_, .none_⟩) ↔
    Stmt.ClassesGlobalList false program := by
  have hdefines := definesAllList_iff program [] 0 ⟨[], .none_, .none_⟩
  constructor
  · exact fun h => hdefines.1 h.2
  · intro h
    refine ⟨?_, hdefines.2 h⟩
    have herrors := (resolveStmts_registers program [] 0 ⟨[], .none_, .none_⟩).errors h
    simp only [clash_global, false_or] at herrors
    exact herrors

/-- The tokens of `{ class A { } }`. -/
def classInBlock : List (Token ℕ) :=
  [⟨.leftBrace, "\x7b".toList, .nil, 1⟩, ⟨.class_, "class".toList, .nil, 1⟩,
    ⟨.identifier, "A".toList, .nil, 1⟩, ⟨.leftBrace, "\x7b".toList, .nil, 1⟩,
    ⟨.rightBrace, "\x7d".toList, .nil, 1⟩, ⟨.rightBrace, "\x7d".toList, .nil, 1⟩,
    ⟨.eof, [], .nil, 1⟩]

/-- The class in `{ class A { } }` is reported, though it is the only declaration there is. -/
theorem resolver_reports_local_class :
    ¬ ∀ (tokens : List (Token ℕ)) (program : List (Stmt ℕ Unit)) (p : Parser ℕ),
      parse tokens = .ok program p → p.errors = [] →
      (Redeclared (resolve program).errors ↔ Stmt.RedeclaresList program) ∧
        Stmt.DefinesAllList [] 0 program ⟨[], .none_, .none_⟩ := by
  intro hclaim
  have hreported := (hclaim classInBlock [.block [.class_ ⟨.identifier, "A".toList, .nil, 1⟩ none []]]
    _ rfl rfl).1
  have hredeclares := hreported.1 ⟨⟨.identifier, "A".toList, .nil, 1⟩, List.mem_singleton.2 rfl⟩
  simp [Stmt.RedeclaresList, Stmt.Redeclares, Stmt.RedeclaresMethods, Stmt.declared] at hredeclares

end Lox.Jlox
