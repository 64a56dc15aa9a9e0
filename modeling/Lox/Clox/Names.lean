import Lox.Clox.Factor.Program

/-!
# Names in parsed programs

`this` and `super` are keywords, so no variable of a program can have one of these names: the
locals of that name are only those the compiler adds itself.  `Expr.Named` and `Stmt.Named` say it
of a tree, with the other thing the grammar ensures: a branch or a loop body is not a declaration.
`program_named` proves both for every tree read from a source.
-/

namespace Lox.Clox

variable {N : Type}

/-- A name that a variable can have. -/
def PlainName (n : Name) : Prop := n ≠ "this".toList ∧ n ≠ "super".toList

mutual

/-- The variables in an expression have plain names. -/
def Expr.Named : Expr N → Prop
  | .nil | .true_ | .false_ | .number _ | .string _ | .this_ | .super_ _ => True
  | .grouping e => e.Named
  | .unary _ e => e.Named
  | .binary _ l r => l.Named ∧ r.Named
  | .and_ l r => l.Named ∧ r.Named
  | .or_ l r => l.Named ∧ r.Named
  | .variable_ name => PlainName name
  | .assign name e => PlainName name ∧ e.Named
  | .call callee args => callee.Named ∧ Expr.AllNamed args
  | .get object _ => object.Named
  | .set object _ value => object.Named ∧ value.Named
  | .invoke object _ args => object.Named ∧ Expr.AllNamed args
  | .superInvoke _ args => Expr.AllNamed args

/-- The variables in expressions have plain names. -/
def Expr.AllNamed : List (Expr N) → Prop
  | [] => True
  | e :: es => e.Named ∧ Expr.AllNamed es

end

/-- The variables in an optional expression have plain names. -/
def Expr.OptionNamed : Option (Expr N) → Prop
  | none => True
  | some e => e.Named

/-- The variables in the first clause of a `for` have plain names. -/
def ForInit.Named : ForInit N → Prop
  | .empty => True
  | .var name init => PlainName name ∧ Expr.OptionNamed init
  | .expression e => e.Named

/-- A superclass, if there is one, has a plain name. -/
def SuperclassNamed : Option Name → Prop
  | none => True
  | some name => PlainName name

/-- A statement that is not a declaration. -/
def Stmt.Simple : Stmt N → Prop
  | .var _ _ | .function _ _ _ | .class_ _ _ _ => False
  | _ => True

mutual

/-- The variables in a statement have plain names, and its branches declare nothing. -/
def Stmt.Named : Stmt N → Prop
  | .expression e | .print e => e.Named
  | .var name init => PlainName name ∧ Expr.OptionNamed init
  | .block body => Stmt.AllNamed body
  | .if_ condition thenBranch none => condition.Named ∧ thenBranch.Named ∧ thenBranch.Simple
  | .if_ condition thenBranch (some elseBranch) =>
      condition.Named ∧ (thenBranch.Named ∧ thenBranch.Simple) ∧
        elseBranch.Named ∧ elseBranch.Simple
  | .while_ condition body => condition.Named ∧ body.Named ∧ body.Simple
  | .for_ init condition increment body =>
      init.Named ∧ Expr.OptionNamed condition ∧ Expr.OptionNamed increment ∧
        body.Named ∧ body.Simple
  | .function name params body =>
      PlainName name ∧ (∀ p ∈ params, PlainName p) ∧ Stmt.AllNamed body
  | .return_ value => Expr.OptionNamed value
  | .class_ name superclass methods =>
      PlainName name ∧ SuperclassNamed superclass ∧ Stmt.AllNamed methods

/-- All statements are as `Stmt.Named` says. -/
def Stmt.AllNamed : List (Stmt N) → Prop
  | [] => True
  | s :: ss => s.Named ∧ Stmt.AllNamed ss

end

/-- What `statement` returns. -/
def Stmt.NamedSimple (s : Stmt N) : Prop := s.Named ∧ s.Simple

/-! ### Tokens -/

/-- An identifier token has a plain name. -/
def Token.Named (t : Token) : Prop := t.type = .identifier → PlainName t.lexeme

/-- All tokens a cursor holds or will get are named. -/
structure Cursor.Named (c : Cursor) : Prop where
  current : c.current.Named
  previous : c.previous.Named
  pending : ∀ t ∈ c.scanner.pending, t.Named

/-- What a parser returns satisfies `Q`, and it leaves a named cursor. -/
def Yields {α : Type} (Q : α → Prop) (r : Option (α × Cursor)) : Prop :=
  ∀ a c, r = some (a, c) → Q a ∧ c.Named

section Yields

variable {α β : Type} {Q : α → Prop} {R : β → Prop}

theorem Yields.pure {a : α} {c : Cursor} (ha : Q a) (hc : c.Named) : Yields Q (some (a, c)) := by
  intro a' c' h
  obtain ⟨rfl, rfl⟩ := Prod.mk.inj (Option.some.inj h)
  exact ⟨ha, hc⟩

theorem Yields.none : Yields Q none := fun _ _ h => by cases h

theorem Yields.bind {r : Option (α × Cursor)} {k : α × Cursor → Option (β × Cursor)}
    (hr : Yields Q r) (hk : ∀ a c, Q a → c.Named → Yields R (k (a, c))) : Yields R (r.bind k) := by
  intro b c' h
  obtain ⟨⟨a, c⟩, hac, h⟩ := Option.bind_eq_some_iff.1 h
  obtain ⟨ha, hc⟩ := hr a c hac
  exact hk a c ha hc b c' h

theorem Yields.ite {b : Bool} {r s : Option (α × Cursor)} (hr : Yields Q r) (hs : Yields Q s) :
    Yields Q (if b then r else s) := by
  split
  · exact hr
  · exact hs

theorem advance_named {c c' : Cursor} (hc : c.Named) (h : Pratt.advance c = some c') :
    c'.Named ∧ c'.previous = c.current := by
  unfold Pratt.advance Scanner.scanToken at h
  cases hp : c.scanner.pending with
  | nil =>
    simp only [hp, Scanner.eofToken] at h
    rw [if_neg (by simp)] at h
    obtain rfl := Option.some.inj h
    exact ⟨⟨fun h => (by cases h), hc.current, hc.pending⟩, rfl⟩
  | cons t ts =>
    simp only [hp] at h
    split at h
    · cases h
    · obtain rfl := Option.some.inj h
      have hp' := hc.pending
      rw [hp] at hp'
      exact ⟨⟨hp' t (by simp), hc.current, fun u hu => hp' u (by simp [hu])⟩, rfl⟩

theorem Yields.advance {c : Cursor} {k : Cursor → Option (β × Cursor)} (hc : c.Named)
    (hk : ∀ c', c'.Named → c'.previous = c.current → Yields R (k c')) :
    Yields R ((Pratt.advance c).bind k) := by
  intro b c'' h
  obtain ⟨c', hc', h⟩ := Option.bind_eq_some_iff.1 h
  obtain ⟨hn, hp⟩ := advance_named hc hc'
  exact hk c' hn hp b c'' h

theorem Yields.consume {t : TokenType} {c : Cursor} {k : Cursor → Option (β × Cursor)}
    (hc : c.Named) (hk : ∀ c', c'.Named → Yields R (k c')) :
    Yields R ((Pratt.consume t c).bind k) := by
  unfold Pratt.consume
  split
  · exact Yields.advance hc fun c' h _ => hk c' h
  · exact Yields.none

theorem Yields.identifier {c : Cursor} {k : Cursor → Option (β × Cursor)}
    (hc : c.Named) (hk : ∀ c', c'.Named → PlainName c'.previous.lexeme → Yields R (k c')) :
    Yields R ((Pratt.consume .identifier c).bind k) := by
  unfold Pratt.consume
  split
  · rename_i hcheck
    refine Yields.advance hc fun c' h hp => hk c' h ?_
    rw [hp]
    exact hc.current (by simpa [Pratt.check] using hcheck)
  · exact Yields.none

end Yields

/-- A parser that keeps cursors named and returns trees that satisfy `Q`. -/
def Parses {α : Type} (Q : α → Prop) (f : Cursor → Option (α × Cursor)) : Prop :=
  ∀ c, c.Named → Yields Q (f c)

/-! ### Expressions -/

section Expressions

variable {g : Cursor → Option (Expr N × Cursor)} (hg : Parses Expr.Named g)
include hg

theorem argumentLoop_named (n : ℕ) : Parses Expr.AllNamed (Pratt.argumentLoop g n) := by
  induction n with
  | zero => exact fun _ _ => Yields.none
  | succ n ih =>
    intro c hc
    unfold Pratt.argumentLoop
    refine Yields.bind (hg c hc) fun e c he hc => ?_
    simp only
    split
    · refine Yields.advance hc fun c hc _ => Yields.bind (ih c hc) fun es c hes hc => ?_
      exact Yields.pure ⟨he, hes⟩ hc
    · exact Yields.pure ⟨he, trivial⟩ hc

theorem argumentList_named (n : ℕ) : Parses Expr.AllNamed (Pratt.argumentList g n) := by
  intro c hc
  unfold Pratt.argumentList
  split
  · exact Yields.consume hc fun c hc => Yields.pure trivial hc
  · refine Yields.bind (argumentLoop_named hg n c hc) fun es c hes hc => ?_
    exact Yields.consume hc fun c hc => Yields.pure hes hc

theorem namedVariable_named {t : Token} (ht : PlainName t.lexeme) (canAssign : Bool) :
    Parses Expr.Named (Pratt.namedVariable g t canAssign) := by
  intro c hc
  unfold Pratt.namedVariable
  split
  · refine Yields.advance hc fun c hc _ => Yields.bind (hg c hc) fun e c he hc => ?_
    exact Yields.pure ⟨ht, he⟩ hc
  · exact Yields.pure ht hc

theorem super_named (n : ℕ) : Parses Expr.Named (Pratt.super_ g n) := by
  intro c hc
  unfold Pratt.super_
  refine Yields.consume hc fun c hc => Yields.consume hc fun c hc => ?_
  simp only
  split
  · refine Yields.advance hc fun c hc _ => Yields.bind (argumentList_named hg n c hc) ?_
    exact fun es c hes hc => Yields.pure hes hc
  · exact Yields.pure trivial hc

theorem dot_named (n : ℕ) {left : Expr N} (hl : left.Named) (canAssign : Bool) :
    Parses Expr.Named (Pratt.dot g n left canAssign) := by
  intro c hc
  unfold Pratt.dot
  refine Yields.consume hc fun c hc => ?_
  simp only
  split
  · refine Yields.advance hc fun c hc _ => Yields.bind (hg c hc) fun e c he hc => ?_
    exact Yields.pure ⟨hl, he⟩ hc
  · split
    · refine Yields.advance hc fun c hc _ => Yields.bind (argumentList_named hg n c hc) ?_
      exact fun es c hes hc => Yields.pure ⟨hl, hes⟩ hc
    · exact Yields.pure hl hc

end Expressions

/-- `Parses` at every precedence. -/
def ParsesAll (g : Pratt.PrecedenceParser N) : Prop := ∀ p, Parses Expr.Named (g p)

theorem prefixExpr_named [Double N] {g : Pratt.PrecedenceParser N} (hg : ParsesAll g) (n : ℕ)
    {rule : ParseFn} (canAssign : Bool) {c : Cursor} (hc : c.Named)
    (hrule : (getRule c.previous.type).prefixRule = some rule) :
    Yields Expr.Named (Pratt.prefixExpr g n rule canAssign c) := by
  cases rule with
  | grouping =>
    refine Yields.bind (hg _ c hc) fun e c he hc => ?_
    exact Yields.consume hc fun c hc => Yields.pure he hc
  | unary =>
    simp only [Pratt.prefixExpr]
    cases Pratt.unaryOp c.previous.type with
    | none => exact Yields.none
    | some op => exact Yields.bind (hg _ c hc) fun e c he hc => Yields.pure he hc
  | variable_ =>
    refine namedVariable_named (hg _) (hc.previous ?_) canAssign c hc
    revert hrule
    cases c.previous.type <;> simp [getRule]
  | string => exact Yields.pure trivial hc
  | number => exact Yields.pure trivial hc
  | literal =>
    simp only [Pratt.prefixExpr]
    split
    · exact Yields.pure trivial hc
    · exact Yields.pure trivial hc
    · exact Yields.pure trivial hc
    · exact Yields.none
  | super_ => exact super_named (hg _) n c hc
  | this_ => exact Yields.pure trivial hc
  | call | dot | binary | and_ | or_ => exact Yields.none

theorem infixExpr_named {g : Pratt.PrecedenceParser N} (hg : ParsesAll g) (n : ℕ) (rule : ParseFn)
    {left : Expr N} (hl : left.Named) (canAssign : Bool) :
    Parses Expr.Named (Pratt.infixExpr g n rule left canAssign) := by
  intro c hc
  cases rule with
  | binary =>
    simp only [Pratt.infixExpr]
    cases Pratt.binaryOp c.previous.type with
    | none => exact Yields.none
    | some op => exact Yields.bind (hg _ c hc) fun e c he hc => Yields.pure ⟨hl, he⟩ hc
  | call =>
    exact Yields.bind (argumentList_named (hg _) n c hc) fun es c hes hc => Yields.pure ⟨hl, hes⟩ hc
  | dot => exact dot_named (hg _) n hl canAssign c hc
  | and_ => exact Yields.bind (hg _ c hc) fun e c he hc => Yields.pure ⟨hl, he⟩ hc
  | or_ => exact Yields.bind (hg _ c hc) fun e c he hc => Yields.pure ⟨hl, he⟩ hc
  | _ => exact Yields.none

theorem infixLoop_named {g : Pratt.PrecedenceParser N} (hg : ParsesAll g) (p : Precedence)
    (canAssign : Bool) (n : ℕ) : ∀ left : Expr N, left.Named →
    Parses Expr.Named (Pratt.infixLoop g n p canAssign left) := by
  induction n with
  | zero => exact fun _ _ _ _ => Yields.none
  | succ n ih =>
    intro left hl c hc
    unfold Pratt.infixLoop
    split
    · refine Yields.advance hc fun c hc _ => ?_
      cases (getRule c.previous.type).infixRule with
      | none => exact Yields.none
      | some rule =>
        refine Yields.bind (infixExpr_named hg n rule hl canAssign c hc) fun e c he hc => ?_
        exact ih e he c hc
    · exact Yields.pure hl hc

theorem parsePrecedence_named [Double N] (n : ℕ) :
    ParsesAll (N := N) (Pratt.parsePrecedence n) := by
  induction n with
  | zero => exact fun _ _ _ => Yields.none
  | succ n ih =>
    intro p c hc
    unfold Pratt.parsePrecedence
    refine Yields.advance hc fun c hc _ => ?_
    cases hrule : (getRule c.previous.type).prefixRule with
    | none => exact Yields.none
    | some rule =>
      refine Yields.bind (prefixExpr_named ih n _ hc hrule) fun e c he hc => ?_
      refine Yields.bind (infixLoop_named ih p _ n e he c hc) fun e c he hc => ?_
      simp only
      split
      · exact Yields.none
      · exact Yields.pure he hc

theorem expression_named [Double N] (n : ℕ) :
    Parses Expr.Named (Pratt.expression (N := N) n) :=
  parsePrecedence_named n .assignment

/-! ### Statements -/

section Statements

variable {g : Cursor → Option (Expr N × Cursor)} {d t : Cursor → Option (Stmt N × Cursor)}

theorem blockLoop_named (hd : Parses Stmt.Named d) (n : ℕ) :
    Parses Stmt.AllNamed (Pratt.blockLoop d n) := by
  induction n with
  | zero => exact fun _ _ => Yields.none
  | succ n ih =>
    intro c hc
    unfold Pratt.blockLoop
    refine Yields.ite (Yields.pure trivial hc) ?_
    refine Yields.bind (hd c hc) fun s c hs hc => Yields.bind (ih c hc) fun ss c hss hc => ?_
    exact Yields.pure ⟨hs, hss⟩ hc

theorem block_named (hd : Parses Stmt.Named d) (n : ℕ) :
    Parses Stmt.AllNamed (Pratt.block d n) := by
  intro c hc
  refine Yields.bind (blockLoop_named hd n c hc) fun ss c hss hc => ?_
  exact Yields.consume hc fun c hc => Yields.pure hss hc

theorem parameterLoop_named (n : ℕ) :
    Parses (fun names => ∀ p ∈ names, PlainName p) (Pratt.parameterLoop n) := by
  induction n with
  | zero => exact fun _ _ => Yields.none
  | succ n ih =>
    intro c hc
    unfold Pratt.parameterLoop
    refine Yields.identifier hc fun c hc hp => ?_
    simp only
    split
    · refine Yields.advance hc fun c' hc' _ => Yields.bind (ih c' hc') fun names c'' hns hc'' => ?_
      refine Yields.pure (fun p hmem => ?_) hc''
      rcases List.mem_cons.1 hmem with rfl | hmem
      · exact hp
      · exact hns p hmem
    · exact Yields.pure (by simpa using hp) hc

theorem parameters_named (n : ℕ) :
    Parses (fun names => ∀ p ∈ names, PlainName p) (Pratt.parameters n) := by
  intro c hc
  exact Yields.ite (Yields.pure (by simp) hc) (parameterLoop_named n c hc)

theorem function_named (hd : Parses Stmt.Named d) (n : ℕ) :
    Parses (fun r => (∀ p ∈ r.1, PlainName p) ∧ Stmt.AllNamed r.2) (Pratt.function d n) := by
  intro c hc
  refine Yields.consume hc fun c hc => Yields.bind (parameters_named n c hc) fun ps c hps hc => ?_
  refine Yields.consume hc fun c hc => Yields.consume hc fun c hc => ?_
  exact Yields.bind (block_named hd n c hc) fun ss c hss hc => Yields.pure ⟨hps, hss⟩ hc

theorem namedFunction_named (hd : Parses Stmt.Named d) (n : ℕ) :
    Parses Stmt.Named (Pratt.namedFunction d n) := by
  intro c hc
  refine Yields.identifier hc fun c hc hp => Yields.bind (function_named hd n c hc) ?_
  exact fun r c hr hc => Yields.pure ⟨hp, hr⟩ hc

theorem methodLoop_named (hd : Parses Stmt.Named d) (n : ℕ) :
    Parses Stmt.AllNamed (Pratt.methodLoop d n) := by
  induction n with
  | zero => exact fun _ _ => Yields.none
  | succ n ih =>
    intro c hc
    unfold Pratt.methodLoop
    refine Yields.ite (Yields.pure trivial hc) ?_
    refine Yields.bind (namedFunction_named hd n c hc) fun s c hs hc => ?_
    exact Yields.bind (ih c hc) fun ss c hss hc => Yields.pure ⟨hs, hss⟩ hc

theorem superclassClause_named : Parses SuperclassNamed Pratt.superclassClause := by
  intro c hc
  refine Yields.ite (Yields.advance hc fun c hc _ => Yields.identifier hc fun c hc hp => ?_) ?_
  · exact Yields.pure hp hc
  · exact Yields.pure trivial hc

theorem classDeclaration_named (hd : Parses Stmt.Named d) (n : ℕ) :
    Parses Stmt.Named (Pratt.classDeclaration d n) := by
  intro c hc
  refine Yields.identifier hc fun c hc hp => ?_
  refine Yields.bind (superclassClause_named c hc) fun superclass c hsup hc => ?_
  refine Yields.consume hc fun c hc => Yields.bind (methodLoop_named hd n c hc) fun ms c hms hc => ?_
  exact Yields.consume hc fun c hc => Yields.pure ⟨hp, hsup, hms⟩ hc

theorem varDeclaration_named (hg : Parses Expr.Named g) :
    Parses (fun r => PlainName r.1 ∧ Expr.OptionNamed r.2) (Pratt.varDeclaration g) := by
  intro c hc
  refine Yields.identifier hc fun c hc hp => ?_
  simp only
  split
  · refine Yields.advance hc fun c' hc' _ => Yields.bind (hg c' hc') fun e c'' he hc'' => ?_
    exact Yields.consume hc'' fun c hc => Yields.pure ⟨hp, he⟩ hc
  · exact Yields.consume hc fun c hc => Yields.pure ⟨hp, trivial⟩ hc

theorem expressionStatement_named (hg : Parses Expr.Named g) :
    Parses Expr.Named (Pratt.expressionStatement g) := by
  intro c hc
  refine Yields.bind (hg c hc) fun e c he hc => ?_
  exact Yields.consume hc fun c hc => Yields.pure he hc

theorem forInitializer_named (hg : Parses Expr.Named g) :
    Parses ForInit.Named (Pratt.forInitializer g) := by
  intro c hc
  refine Yields.ite (Yields.advance hc fun c hc _ => Yields.pure trivial hc) (Yields.ite ?_ ?_)
  · refine Yields.advance hc fun c hc _ => Yields.bind (varDeclaration_named hg c hc) ?_
    exact fun r c hr hc => Yields.pure hr hc
  · exact Yields.bind (expressionStatement_named hg c hc) fun e c he hc => Yields.pure he hc

theorem forClause_named (hg : Parses Expr.Named g) (close : TokenType) :
    Parses Expr.OptionNamed (Pratt.forClause g close) := by
  intro c hc
  refine Yields.ite (Yields.advance hc fun c hc _ => Yields.pure trivial hc) ?_
  refine Yields.bind (hg c hc) fun e c he hc => ?_
  exact Yields.consume hc fun c hc => Yields.pure he hc

theorem forStatement_named (hg : Parses Expr.Named g) (ht : Parses Stmt.NamedSimple t) :
    Parses Stmt.NamedSimple (Pratt.forStatement g t) := by
  intro c hc
  refine Yields.consume hc fun c hc => ?_
  refine Yields.bind (forInitializer_named hg c hc) fun init c hinit hc => ?_
  refine Yields.bind (forClause_named hg _ c hc) fun condition c hcond hc => ?_
  refine Yields.bind (forClause_named hg _ c hc) fun increment c hincr hc => ?_
  exact Yields.bind (ht c hc) fun s c hs hc => Yields.pure ⟨⟨hinit, hcond, hincr, hs⟩, trivial⟩ hc

theorem ifStatement_named (hg : Parses Expr.Named g) (ht : Parses Stmt.NamedSimple t) :
    Parses Stmt.NamedSimple (Pratt.ifStatement g t) := by
  intro c hc
  refine Yields.consume hc fun c hc => Yields.bind (hg c hc) fun e c he hc => ?_
  refine Yields.consume hc fun c hc => Yields.bind (ht c hc) fun s c hs hc => ?_
  simp only
  split
  · refine Yields.advance hc fun c' hc' _ => Yields.bind (ht c' hc') fun s' c'' hs' hc'' => ?_
    exact Yields.pure ⟨⟨he, hs, hs'⟩, trivial⟩ hc''
  · exact Yields.pure ⟨⟨he, hs⟩, trivial⟩ hc

theorem returnStatement_named (hg : Parses Expr.Named g) :
    Parses Stmt.NamedSimple (Pratt.returnStatement g) := by
  intro c hc
  refine Yields.bind (forClause_named hg _ c hc) fun e c he hc => ?_
  exact Yields.pure ⟨he, trivial⟩ hc

theorem whileStatement_named (hg : Parses Expr.Named g) (ht : Parses Stmt.NamedSimple t) :
    Parses Stmt.NamedSimple (Pratt.whileStatement g t) := by
  intro c hc
  refine Yields.consume hc fun c hc => Yields.bind (hg c hc) fun e c he hc => ?_
  refine Yields.consume hc fun c hc => Yields.bind (ht c hc) fun s c hs hc => ?_
  exact Yields.pure ⟨⟨he, hs⟩, trivial⟩ hc

theorem statementBody_named [Double N] (hd : Parses Stmt.Named d) (ht : Parses Stmt.NamedSimple t)
    (n : ℕ) : Parses Stmt.NamedSimple (Pratt.statementBody d t n) := by
  intro c hc
  have hg := expression_named (N := N) n
  refine Yields.ite ?_ (Yields.ite ?_ (Yields.ite ?_ (Yields.ite ?_ (Yields.ite ?_
    (Yields.ite ?_ ?_)))))
  · refine Yields.advance hc fun c hc _ => ?_
    exact Yields.bind (expressionStatement_named hg c hc) fun e c he hc =>
      Yields.pure ⟨he, trivial⟩ hc
  · refine Yields.advance hc fun c hc _ => ?_
    exact Yields.bind (block_named hd n c hc) fun ss c hss hc =>
      Yields.pure ⟨hss, trivial⟩ hc
  · exact Yields.advance hc fun c hc _ => ifStatement_named hg ht c hc
  · exact Yields.advance hc fun c hc _ => whileStatement_named hg ht c hc
  · exact Yields.advance hc fun c hc _ => forStatement_named hg ht c hc
  · exact Yields.advance hc fun c hc _ => returnStatement_named hg c hc
  · exact Yields.bind (expressionStatement_named hg c hc) fun e c he hc =>
      Yields.pure ⟨he, trivial⟩ hc

theorem declarationBody_named [Double N] (hd : Parses Stmt.Named d) (ht : Parses Stmt.NamedSimple t)
    (n : ℕ) : Parses Stmt.Named (Pratt.declarationBody d t n) := by
  intro c hc
  refine Yields.ite ?_ (Yields.ite ?_ (Yields.ite ?_ fun s c' h => ?_))
  · refine Yields.advance hc fun c hc _ => ?_
    refine Yields.bind (varDeclaration_named (expression_named n) c hc) ?_
    exact fun r c hr hc => Yields.pure hr hc
  · exact Yields.advance hc fun c hc _ => namedFunction_named hd n c hc
  · exact Yields.advance hc fun c hc _ => classDeclaration_named hd n c hc
  · exact ⟨(ht c hc s c' h).1.1, (ht c hc s c' h).2⟩

end Statements

theorem statement_declaration_named [Double N] (n : ℕ) :
    Parses Stmt.NamedSimple (Pratt.statement (N := N) n) ∧
      Parses Stmt.Named (Pratt.declaration (N := N) n) := by
  induction n with
  | zero =>
    constructor
    · intro c _
      unfold Pratt.statement
      exact Yields.none
    · intro c _
      unfold Pratt.declaration
      exact Yields.none
  | succ n ih =>
    constructor
    · intro c hc
      unfold Pratt.statement
      exact statementBody_named ih.2 ih.1 n c hc
    · intro c hc
      unfold Pratt.declaration
      exact declarationBody_named ih.2 ih.1 n c hc

/-! ### Sources -/

theorem Lexer.checkKeyword_identifier {start length : ℕ} {rest : String} {type : TokenType}
    {x : Lexer} (h : x.checkKeyword start length rest type = .identifier)
    (hl : x.length = start + length) (hr : (x.start.drop start).take length = rest.toList) :
    type = .identifier := by
  unfold Lexer.checkKeyword at h
  rwa [if_pos (by simp [hl, hr])] at h

/-- The words `this` and `super` are no identifiers. -/
theorem Lexer.identifierType_plain {x : Lexer} (hx : x.length ≤ x.start.length)
    (h : x.identifierType = .identifier) :
    PlainName (x.makeToken .identifier).lexeme := by
  have hlen : (x.start.take x.length).length = x.length := by simpa using hx
  constructor
  · intro heq
    have heq' : x.start.take x.length = ['t', 'h', 'i', 's'] := heq
    have hl : x.length = 4 := by rw [heq'] at hlen; exact hlen.symm
    rw [hl] at heq'
    obtain ⟨rest, hs⟩ : ∃ rest, x.start = 't' :: 'h' :: 'i' :: 's' :: rest :=
      ⟨x.start.drop 4, by rw [← List.take_append_drop 4 x.start, heq']; rfl⟩
    simp only [Lexer.identifierType, hs, hl] at h
    simpa using Lexer.checkKeyword_identifier h (by rw [hl]) (by simp [hs])
  · intro heq
    have heq' : x.start.take x.length = ['s', 'u', 'p', 'e', 'r'] := heq
    have hl : x.length = 5 := by rw [heq'] at hlen; exact hlen.symm
    rw [hl] at heq'
    obtain ⟨rest, hs⟩ : ∃ rest, x.start = 's' :: 'u' :: 'p' :: 'e' :: 'r' :: rest :=
      ⟨x.start.drop 5, by rw [← List.take_append_drop 5 x.start, heq']; rfl⟩
    simp only [Lexer.identifierType, hs] at h
    simpa using Lexer.checkKeyword_identifier h (by rw [hl]) (by simp [hs])

theorem Lexer.scanToken_named (x : Lexer) : x.scanToken.1.Named := by
  intro h
  unfold Lexer.scanToken at h ⊢
  rcases hw : skipWhitespace x.current x.line with ⟨current, line⟩
  simp only [hw] at h ⊢
  cases current with
  | nil => simp [Lexer.makeToken] at h
  | cons c rest =>
    simp only at h ⊢
    split at h
    · rename_i halpha
      rw [if_pos halpha]
      simp only [Lexer.identifier, Lexer.makeToken] at h ⊢
      rw [h]
      exact Lexer.identifierType_plain (by simp [Lexer.length]) h
    · split at h
      · simp [Lexer.number, Lexer.makeToken] at h
      · exfalso
        revert h
        split <;> simp [Lexer.makeToken, Lexer.errorToken, Lexer.operator, Lexer.string] <;>
          (try split) <;> (try split) <;> simp

theorem Lexer.scanLoop_named (n : ℕ) : ∀ x : Lexer, ∀ t ∈ (scanLoop n x).pending, t.Named := by
  induction n with
  | zero => intro x t ht; simp [scanLoop] at ht
  | succ n ih =>
    intro x t ht
    simp only [scanLoop] at ht
    split at ht
    · simp at ht
    · simp only [List.mem_cons] at ht
      rcases ht with rfl | ht
      · exact Lexer.scanToken_named x
      · exact ih _ t ht

theorem programLoop_named [Double N] (n : ℕ) : ∀ (c : Cursor) (ts : List (Stmt N)), c.Named →
    Pratt.programLoop n c = some ts → Stmt.AllNamed ts := by
  induction n with
  | zero => intro c ts _ h; cases h
  | succ n ih =>
    intro c ts hc h
    unfold Pratt.programLoop at h
    split at h
    · simp only [Option.bind_eq_bind, Option.bind_eq_some_iff] at h
      obtain ⟨_, -, h⟩ := h
      obtain rfl := Option.some.inj h
      trivial
    · simp only [Option.bind_eq_bind, Option.bind_eq_some_iff, Prod.exists] at h
      obtain ⟨s, c', hs, ss, hss, h⟩ := h
      obtain rfl := Option.some.inj h
      obtain ⟨hn, hc'⟩ := (statement_declaration_named n).2 c hc s c' hs
      exact ⟨hn, ih c' ss hc' hss⟩

/-- No variable of a program is called `this` or `super`. -/
theorem program_named [Double N] {n : ℕ} {source : List Char} {ts : List (Stmt N)}
    (h : Pratt.program n (scanAll source) = some ts) : Stmt.AllNamed ts := by
  simp only [Pratt.program, Option.bind_eq_bind, Option.bind_eq_some_iff] at h
  obtain ⟨c, hadv, h⟩ := h
  have heof : (scanAll source).eofToken.Named := fun h => by cases h
  have hstart : Cursor.Named ⟨(scanAll source).eofToken, (scanAll source).eofToken, scanAll source⟩ :=
    ⟨heof, heof, Lexer.scanLoop_named _ _⟩
  exact programLoop_named n c ts (advance_named hstart hadv).1 h

end Lox.Clox
