import Lox.Clox.Compiler

/-!
# The globals of the compiler

`current` and `currentClass` are restored by hand: by `endCompiler` and at the end of
`classDeclaration`.  Here they are followed through all functions of `compiler.c`, for any source and
with any number of errors: when a function of the compiler returns, the chain of compilers is as long
as before, and the chain of class compilers is the same (`compileLoop_restores`).
-/

namespace Lox.Clox

variable {N : Type}

/-- `current` and `currentClass` are again what they were; functions may have noted captured
variables in the compilers of the chain. -/
structure Restores (s s' : State N) : Prop where
  compilers : s'.compilers.length = s.compilers.length
  chunks : s'.chunks.length = s.chunks.length
  classes : s'.classes = s.classes

namespace Restores

variable {s s₁ s₂ : State N}

theorem refl (s : State N) : Restores s s := ⟨rfl, rfl, rfl⟩

theorem trans (h₁ : Restores s s₁) (h₂ : Restores s₁ s₂) : Restores s s₂ :=
  ⟨h₂.compilers.trans h₁.compilers, h₂.chunks.trans h₁.chunks, h₂.classes.trans h₁.classes⟩

/-! ### Errors, tokens and code -/

theorem error (h : Restores s s₁) (message : String) : Restores s (s₁.error message) :=
  h.trans ⟨rfl, rfl, rfl⟩

theorem errorIf (h : Restores s s₁) (c : Prop) [Decidable c] (message : String) :
    Restores s (if c then s₁.error message else s₁) := by
  split
  · exact h.error message
  · exact h

theorem errorAtCurrentIf (h : Restores s s₁) (c : Prop) [Decidable c] (message : String) :
    Restores s (if c then s₁.errorAtCurrent message else s₁) := by
  split
  · exact h.trans ⟨rfl, rfl, rfl⟩
  · exact h

theorem errors (errors : List String) : ∀ {s₁ : State N}, Restores s s₁ →
    Restores s (errors.foldl (fun s m => s.error m) s₁) := by
  induction errors with
  | nil =>
    intro s₁ h
    exact h
  | cons m errors ih =>
    intro s₁ h
    exact ih (h.error m)

theorem advance (h : Restores s s₁) : Restores s s₁.advance := h.trans ⟨rfl, rfl, rfl⟩

theorem consume (h : Restores s s₁) (type : TokenType) (message : String) :
    Restores s (s₁.consume type message) := by
  unfold State.consume
  split
  · exact h.advance
  · exact h.trans ⟨rfl, rfl, rfl⟩

theorem emitByte (h : Restores s s₁) (byte : UInt8) : Restores s (s₁.emitByte byte) :=
  h.trans ⟨rfl, by simp [State.emitByte], rfl⟩

theorem emitBytes (h : Restores s s₁) (byte₁ byte₂ : UInt8) :
    Restores s (s₁.emitBytes byte₁ byte₂) :=
  (h.emitByte byte₁).emitByte byte₂

theorem emitLoop (h : Restores s s₁) (loopStart : ℕ) : Restores s (s₁.emitLoop loopStart) := by
  unfold State.emitLoop
  exact ((h.emitByte _).errorIf _ _).emitBytes _ _

theorem emitJump (h : Restores s s₁) (instruction : OpCode) :
    Restores s (s₁.emitJump instruction).2 :=
  ((h.emitByte _).emitByte _).emitByte _

theorem emitReturn (h : Restores s s₁) : Restores s s₁.emitReturn := by
  unfold State.emitReturn
  simp only
  split
  · exact (h.emitBytes _ _).emitByte _
  · exact (h.emitByte _).emitByte _

theorem patchJump (h : Restores s s₁) (offset : ℕ) : Restores s (s₁.patchJump offset) := by
  unfold State.patchJump
  exact (h.errorIf _ _).trans ⟨rfl, by simp, rfl⟩

theorem mapCurrent (h : Restores s s₁) (f : Compiler N → Compiler N) :
    Restores s (s₁.mapCurrent f) :=
  h.trans ⟨by simp [State.mapCurrent], rfl, rfl⟩

theorem makeConstant (h : Restores s s₁) (value : Constant N) :
    Restores s (s₁.makeConstant value).2 := by
  unfold State.makeConstant
  simp only
  split
  · exact (h.mapCurrent _).error _
  · exact h.mapCurrent _

theorem identifierConstant (h : Restores s s₁) (name : Token) :
    Restores s (s₁.identifierConstant name).2 :=
  h.makeConstant _

theorem emitConstant (h : Restores s s₁) (value : Constant N) : Restores s (s₁.emitConstant value) :=
  (h.makeConstant value).emitBytes _ _

/-! ### Scopes and variables -/

theorem endScope (h : Restores s s₁) : Restores s s₁.endScope := by
  have hdrop : ∀ (flags : List Bool) {s₂ : State N}, Restores s s₂ →
      Restores s (flags.foldl (fun s isCaptured => s.emitByte (dropOp isCaptured).byte) s₂) := by
    intro flags
    induction flags with
    | nil =>
      intro s₂ h₂
      exact h₂
    | cons flag flags ih =>
      intro s₂ h₂
      exact ih (h₂.emitByte _)
  unfold State.endScope
  split
  · exact h
  · rename_i c cs hcs
    exact hdrop _ (h.trans ⟨by simp [hcs], rfl, rfl⟩)

end Restores

theorem resolveUpvalue_length (name : Name) : ∀ cs : List (Compiler N),
    (resolveUpvalue name cs).2.1.length = cs.length
  | [] => rfl
  | [c] => rfl
  | c :: e :: cs => by
    have ih := resolveUpvalue_length name (e :: cs)
    simp only [resolveUpvalue]
    split
    · rfl
    · split
      · rename_i hcs
        rw [hcs] at ih
        simpa using ih
      · rename_i hcs
        rw [hcs] at ih
        simpa using ih

namespace Restores

variable {s s₁ s₂ : State N}

theorem resolveVariable (h : Restores s s₁) (name : Token) :
    Restores s (s₁.resolveVariable name).2 := by
  have hlength := resolveUpvalue_length name.lexeme s₁.compilers
  unfold State.resolveVariable
  split
  · exact h.errors _
  · split
    · rename_i cs errors hcs
      rw [hcs] at hlength
      exact .errors _ (h.trans ⟨hlength, rfl, rfl⟩)
    · rename_i cs errors hcs
      rw [hcs] at hlength
      have hchain : Restores s { s₁ with compilers := cs } := h.trans ⟨hlength, rfl, rfl⟩
      exact (Restores.errors errors hchain).identifierConstant name

theorem addLocal (h : Restores s s₁) (name : Name) : Restores s (s₁.addLocal name) := by
  unfold State.addLocal
  split
  · exact h.error _
  · exact h.mapCurrent _

theorem declareVariable (h : Restores s s₁) : Restores s s₁.declareVariable := by
  unfold State.declareVariable
  split
  · exact h
  · simp only
    split
    · exact h.addLocal _
    · exact (h.error _).addLocal _

theorem parseVariable (h : Restores s s₁) (message : String) :
    Restores s (s₁.parseVariable message).2 := by
  have hdeclared := (h.consume .identifier message).declareVariable
  unfold State.parseVariable
  simp only
  split
  · exact hdeclared
  · exact hdeclared.identifierConstant _

theorem markInitialized (h : Restores s s₁) : Restores s s₁.markInitialized := by
  unfold State.markInitialized
  split
  · exact h
  · exact h.mapCurrent _

theorem defineVariable (h : Restores s s₁) (global : UInt8) :
    Restores s (s₁.defineVariable global) := by
  unfold State.defineVariable
  split
  · exact h.markInitialized
  · exact h.emitBytes _ _

theorem initClass (h : Restores s s₁) :
    Restores { s with classes := ⟨false⟩ :: s.classes } { s₁ with classes := ⟨false⟩ :: s₁.classes } :=
  ⟨h.compilers, h.chunks, by simp [h.classes]⟩

end Restores

/-! ### Expressions -/

/-- Every run of `f` restores the globals. -/
def AlwaysRestores (f : State N → Option (State N)) : Prop := ∀ s s', f s = some s' → Restores s s'

section Expressions

variable {f : State N → Option (State N)} (hf : AlwaysRestores f)

include hf

theorem AlwaysRestores.after {s s₁ s₂ : State N} (h : f s₁ = some s₂) (hs : Restores s s₁) :
    Restores s s₂ :=
  hs.trans (hf s₁ s₂ h)

theorem argumentLoop_restores (n : ℕ) : ∀ {argCount argCount' : UInt8} {s s₁ s' : State N},
    Restores s s₁ → argumentLoop f n argCount s₁ = some (argCount', s') → Restores s s' := by
  induction n with
  | zero =>
    intro argCount argCount' s s₁ s' _ h
    cases h
  | succ n ih =>
    intro argCount argCount' s s₁ s' hs h
    simp only [argumentLoop, Option.bind_eq_bind, Option.bind_eq_some_iff] at h
    obtain ⟨s₂, h₂, h⟩ := h
    have hs₂ := (hf.after h₂ hs).errorIf (argCount = 255) "Can't have more than 255 arguments."
    generalize (if argCount = 255 then s₂.error "Can't have more than 255 arguments." else s₂) = s₃
      at h hs₂
    split at h
    · exact ih hs₂.advance h
    · obtain ⟨-, rfl⟩ := Prod.mk.inj (Option.some.inj h)
      exact hs₂

theorem argumentList_restores {n : ℕ} {argCount : UInt8} {s s₁ s' : State N} (hs : Restores s s₁)
    (h : argumentList f n s₁ = some (argCount, s')) : Restores s s' := by
  simp only [argumentList, Option.bind_eq_bind] at h
  split at h
  · obtain ⟨-, rfl⟩ := Prod.mk.inj (Option.some.inj h)
    exact hs.consume _ _
  · simp only [Option.bind_eq_some_iff, Prod.exists] at h
    obtain ⟨k, s₂, h₂, h⟩ := h
    obtain ⟨-, rfl⟩ := Prod.mk.inj (Option.some.inj h)
    exact (argumentLoop_restores hf n hs h₂).consume _ _

theorem namedVariable_restores {name : Token} {canAssign : Bool} {s s₁ s' : State N}
    (hs : Restores s s₁) (h : namedVariable f name canAssign s₁ = some s') : Restores s s' := by
  have hresolved := hs.resolveVariable name
  simp only [namedVariable, Option.bind_eq_bind] at h
  split at h
  · obtain ⟨s₂, h₂, h⟩ := Option.bind_eq_some_iff.1 h
    obtain rfl := Option.some.inj h
    exact (hf.after h₂ hresolved.advance).emitBytes _ _
  · obtain rfl := Option.some.inj h
    exact hresolved.emitBytes _ _

theorem dot_restores {n : ℕ} {canAssign : Bool} {s s₁ s' : State N} (hs : Restores s s₁)
    (h : dot f n canAssign s₁ = some s') : Restores s s' := by
  have hname := (hs.consume .identifier "Expect property name after '.'.").identifierConstant
    (s₁.consume .identifier "Expect property name after '.'.").parser.previous
  simp only [dot, Option.bind_eq_bind] at h
  split at h
  · obtain ⟨s₂, h₂, h⟩ := Option.bind_eq_some_iff.1 h
    obtain rfl := Option.some.inj h
    exact (hf.after h₂ hname.advance).emitBytes _ _
  · split at h
    · simp only [Option.bind_eq_some_iff, Prod.exists] at h
      obtain ⟨k, s₂, h₂, h⟩ := h
      obtain rfl := Option.some.inj h
      exact ((argumentList_restores hf hname.advance h₂).emitBytes _ _).emitByte _
    · obtain rfl := Option.some.inj h
      exact hname.emitBytes _ _

omit hf in
theorem Restores.checkSuper {s s₁ : State N} (hs : Restores s s₁) : Restores s s₁.checkSuper := by
  unfold State.checkSuper
  split
  · exact hs.error _
  · split
    · exact hs
    · exact hs.error _

theorem super_restores {n : ℕ} {s s₁ s' : State N} (hs : Restores s s₁)
    (h : super_ f n s₁ = some s') : Restores s s' := by
  simp only [super_, Option.bind_eq_bind, Option.bind_eq_some_iff] at h
  obtain ⟨s₂, h₂, h⟩ := h
  have hs₂ := namedVariable_restores hf (((hs.checkSuper.consume _ _).consume _ _).identifierConstant
    _) h₂
  split at h
  · simp only [Option.bind_eq_some_iff, Prod.exists] at h
    obtain ⟨k, s₃, h₃, s₄, h₄, h⟩ := h
    obtain rfl := Option.some.inj h
    exact ((namedVariable_restores hf (argumentList_restores hf hs₂.advance h₃) h₄).emitBytes
      _ _).emitByte _
  · simp only [Option.bind_eq_some_iff] at h
    obtain ⟨s₃, h₃, h⟩ := h
    obtain rfl := Option.some.inj h
    exact (namedVariable_restores hf hs₂ h₃).emitBytes _ _

end Expressions

section Precedence

variable [Double N] {f : Precedence → State N → Option (State N)} (hf : ∀ p, AlwaysRestores (f p))

include hf

theorem applyRule_restores {n : ℕ} {rule : ParseFn} {canAssign : Bool} {s s₁ s' : State N}
    (hs : Restores s s₁) (h : applyRule f n rule canAssign s₁ = some s') : Restores s s' := by
  cases rule with
  | grouping =>
    simp only [applyRule, grouping, Option.bind_eq_bind, Option.bind_eq_some_iff] at h
    obtain ⟨s₂, h₂, h⟩ := h
    obtain rfl := Option.some.inj h
    exact ((hf _).after h₂ hs).consume _ _
  | call =>
    simp only [applyRule, call, Option.bind_eq_bind, Option.bind_eq_some_iff, Prod.exists] at h
    obtain ⟨k, s₂, h₂, h⟩ := h
    obtain rfl := Option.some.inj h
    exact (argumentList_restores (hf _) hs h₂).emitBytes _ _
  | dot => exact dot_restores (hf _) hs h
  | unary =>
    simp only [applyRule, unary, Option.bind_eq_bind, Option.bind_eq_some_iff] at h
    obtain ⟨s₂, h₂, h⟩ := h
    obtain rfl := Option.some.inj h
    have hs₂ := (hf _).after h₂ hs
    split
    · exact hs₂.emitByte _
    · exact hs₂.emitByte _
    · exact hs₂
  | binary =>
    simp only [applyRule, binary, Option.bind_eq_bind, Option.bind_eq_some_iff] at h
    obtain ⟨s₂, h₂, h⟩ := h
    obtain rfl := Option.some.inj h
    have hs₂ := (hf _).after h₂ hs
    split <;> first | exact hs₂.emitByte _ | exact hs₂.emitBytes _ _ | exact hs₂
  | variable_ => exact namedVariable_restores (hf _) hs h
  | string =>
    obtain rfl := Option.some.inj h
    exact hs.emitConstant _
  | number =>
    obtain rfl := Option.some.inj h
    exact hs.emitConstant _
  | literal =>
    obtain rfl := Option.some.inj h
    unfold literal
    split
    · exact hs.emitByte _
    · exact hs.emitByte _
    · exact hs.emitByte _
    · exact hs
  | and_ =>
    simp only [applyRule, and_, Option.bind_eq_bind, Option.bind_eq_some_iff] at h
    obtain ⟨s₂, h₂, h⟩ := h
    obtain rfl := Option.some.inj h
    exact ((hf _).after h₂ ((hs.emitJump _).emitByte _)).patchJump _
  | or_ =>
    simp only [applyRule, or_, Option.bind_eq_bind, Option.bind_eq_some_iff] at h
    obtain ⟨s₂, h₂, h⟩ := h
    obtain rfl := Option.some.inj h
    exact ((hf _).after h₂
      ((((hs.emitJump _).emitJump _).patchJump _).emitByte _)).patchJump _
  | super_ => exact super_restores (hf _) hs h
  | this_ =>
    simp only [applyRule, this_] at h
    split at h
    · obtain rfl := Option.some.inj h
      exact hs.error _
    · exact namedVariable_restores (hf _) hs h

theorem infixLoop_restores (n : ℕ) : ∀ {precedence : Precedence} {canAssign : Bool}
    {s s₁ s' : State N}, Restores s s₁ → infixLoop f n precedence canAssign s₁ = some s' →
    Restores s s' := by
  induction n with
  | zero =>
    intro precedence canAssign s s₁ s' _ h
    cases h
  | succ n ih =>
    intro precedence canAssign s s₁ s' hs h
    simp only [infixLoop] at h
    split at h
    · split at h
      · cases h
      · simp only [Option.bind_eq_bind, Option.bind_eq_some_iff] at h
        obtain ⟨s₂, h₂, h⟩ := h
        exact ih (applyRule_restores hf hs.advance h₂) h
    · obtain rfl := Option.some.inj h
      exact hs

end Precedence

theorem parsePrecedence_restores [Double N] (n : ℕ) :
    ∀ p, AlwaysRestores (parsePrecedence (N := N) n p) := by
  induction n with
  | zero =>
    intro p s s' h
    cases h
  | succ n ih =>
    intro p s s' h
    have hs := (Restores.refl s).advance
    simp only [parsePrecedence] at h
    split at h
    · obtain rfl := Option.some.inj h
      exact hs.error _
    · simp only [Option.bind_eq_bind, Option.bind_eq_some_iff] at h
      obtain ⟨s₁, h₁, s₂, h₂, h⟩ := h
      have hs₂ := infixLoop_restores ih n (applyRule_restores ih hs h₁) h₂
      split at h
      · obtain rfl := Option.some.inj h
        exact hs₂.advance.error _
      · obtain rfl := Option.some.inj h
        exact hs₂

/-! ### Statements -/

section Statements

variable {f st d : State N → Option (State N)}

theorem expressionStatement_restores (hf : AlwaysRestores f) {s s₁ s' : State N}
    (hs : Restores s s₁) (h : expressionStatement f s₁ = some s') : Restores s s' := by
  simp only [expressionStatement, Option.bind_eq_bind, Option.bind_eq_some_iff] at h
  obtain ⟨s₂, h₂, h⟩ := h
  obtain rfl := Option.some.inj h
  exact ((hf.after h₂ hs).consume _ _).emitByte _

theorem printStatement_restores (hf : AlwaysRestores f) {s s₁ s' : State N} (hs : Restores s s₁)
    (h : printStatement f s₁ = some s') : Restores s s' := by
  simp only [printStatement, Option.bind_eq_bind, Option.bind_eq_some_iff] at h
  obtain ⟨s₂, h₂, h⟩ := h
  obtain rfl := Option.some.inj h
  exact ((hf.after h₂ hs).consume _ _).emitByte _

theorem varDeclaration_restores (hf : AlwaysRestores f) {s s₁ s' : State N} (hs : Restores s s₁)
    (h : varDeclaration f s₁ = some s') : Restores s s' := by
  have hs₁ := hs.parseVariable "Expect variable name."
  simp only [varDeclaration, Option.bind_eq_bind] at h
  split at h
  · obtain ⟨s₂, h₂, h⟩ := Option.bind_eq_some_iff.1 h
    obtain rfl := Option.some.inj h
    exact ((hf.after h₂ hs₁.advance).consume _ _).defineVariable _
  · obtain rfl := Option.some.inj h
    exact ((hs₁.emitByte _).consume _ _).defineVariable _

theorem returnStatement_restores (hf : AlwaysRestores f) {s s₁ s' : State N} (hs : Restores s s₁)
    (h : returnStatement f s₁ = some s') : Restores s s' := by
  have hs₁ := hs.errorIf (s₁.type = .script) "Can't return from top-level code."
  simp only [returnStatement, Option.bind_eq_bind] at h
  generalize (if s₁.type = .script then s₁.error "Can't return from top-level code." else s₁) = s₂
    at h hs₁
  split at h
  · obtain rfl := Option.some.inj h
    exact hs₁.advance.emitReturn
  · have hs₂ := hs₁.errorIf (s₂.type = .initializer) "Can't return a value from an initializer."
    generalize (if s₂.type = .initializer then
      s₂.error "Can't return a value from an initializer." else s₂) = s₃ at h hs₂
    obtain ⟨s₄, h₄, h⟩ := Option.bind_eq_some_iff.1 h
    obtain rfl := Option.some.inj h
    exact ((hf.after h₄ hs₂).consume _ _).emitByte _

theorem ifStatement_restores (hf : AlwaysRestores f) (hst : AlwaysRestores st) {s s₁ s' : State N}
    (hs : Restores s s₁) (h : ifStatement f st s₁ = some s') : Restores s s' := by
  simp only [ifStatement, Option.bind_eq_bind, Option.bind_eq_some_iff] at h
  obtain ⟨s₂, h₂, s₃, h₃, h⟩ := h
  have hs₃ := hst.after h₃ ((((hf.after h₂ (hs.consume _ _)).consume _ _).emitJump _).emitByte _)
  split at h
  · obtain ⟨s₅, h₅, h⟩ := Option.bind_eq_some_iff.1 h
    obtain rfl := Option.some.inj h
    exact (hst.after h₅ (((hs₃.emitJump _).patchJump _).emitByte _).advance).patchJump _
  · obtain rfl := Option.some.inj h
    exact (((hs₃.emitJump _).patchJump _).emitByte _).patchJump _

theorem whileStatement_restores (hf : AlwaysRestores f) (hst : AlwaysRestores st)
    {s s₁ s' : State N} (hs : Restores s s₁) (h : whileStatement f st s₁ = some s') :
    Restores s s' := by
  simp only [whileStatement, Option.bind_eq_bind, Option.bind_eq_some_iff] at h
  obtain ⟨s₂, h₂, s₃, h₃, h⟩ := h
  obtain rfl := Option.some.inj h
  have hs₃ := hst.after h₃ ((((hf.after h₂ (hs.consume _ _)).consume _ _).emitJump _).emitByte _)
  exact ((hs₃.emitLoop _).patchJump _).emitByte _

theorem forInitializer_restores (hf : AlwaysRestores f) {s s₁ s' : State N} (hs : Restores s s₁)
    (h : forInitializer f s₁ = some s') : Restores s s' := by
  unfold forInitializer at h
  split at h
  · obtain rfl := Option.some.inj h
    exact hs.advance
  · split at h
    · exact varDeclaration_restores hf hs.advance h
    · exact expressionStatement_restores hf hs h

theorem forCondition_restores (hf : AlwaysRestores f) {s s₁ s' : State N} {exitJump : Option ℕ}
    (hs : Restores s s₁) (h : forCondition f s₁ = some (exitJump, s')) : Restores s s' := by
  simp only [forCondition, Option.bind_eq_bind] at h
  split at h
  · obtain ⟨-, rfl⟩ := Prod.mk.inj (Option.some.inj h)
    exact hs.advance
  · obtain ⟨s₂, h₂, h⟩ := Option.bind_eq_some_iff.1 h
    obtain ⟨-, rfl⟩ := Prod.mk.inj (Option.some.inj h)
    exact (((hf.after h₂ hs).consume _ _).emitJump _).emitByte _

theorem forIncrement_restores (hf : AlwaysRestores f) {s s₁ s' : State N} {loopStart start : ℕ}
    (hs : Restores s s₁) (h : forIncrement f loopStart s₁ = some (start, s')) : Restores s s' := by
  simp only [forIncrement, Option.bind_eq_bind] at h
  split at h
  · obtain ⟨-, rfl⟩ := Prod.mk.inj (Option.some.inj h)
    exact hs.advance
  · obtain ⟨s₂, h₂, h⟩ := Option.bind_eq_some_iff.1 h
    obtain ⟨-, rfl⟩ := Prod.mk.inj (Option.some.inj h)
    exact ((((hf.after h₂ (hs.emitJump _)).emitByte _).consume _ _).emitLoop _).patchJump _

theorem Restores.beginScope {s s₁ : State N} (hs : Restores s s₁) : Restores s s₁.beginScope :=
  hs.mapCurrent _

theorem forStatement_restores (hf : AlwaysRestores f) (hst : AlwaysRestores st) {s s₁ s' : State N}
    (hs : Restores s s₁) (h : forStatement f st s₁ = some s') : Restores s s' := by
  simp only [forStatement, Option.bind_eq_bind, Option.bind_eq_some_iff, Prod.exists] at h
  obtain ⟨s₂, h₂, exitJump, s₃, h₃, start, s₄, h₄, s₅, h₅, h⟩ := h
  obtain rfl := Option.some.inj h
  have hs₂ := forInitializer_restores hf (hs.beginScope.consume _ _) h₂
  have hs₄ := forIncrement_restores hf (forCondition_restores hf hs₂ h₃) h₄
  have hs₅ := (hst.after h₅ hs₄).emitLoop start
  split
  · exact ((hs₅.patchJump _).emitByte _).endScope
  · exact hs₅.endScope

/-! ### Functions and classes -/

theorem blockLoop_restores (hd : AlwaysRestores d) (n : ℕ) : ∀ {s s₁ s' : State N},
    Restores s s₁ → blockLoop d n s₁ = some s' → Restores s s' := by
  induction n with
  | zero =>
    intro s s₁ s' _ h
    cases h
  | succ n ih =>
    intro s s₁ s' hs h
    simp only [blockLoop, Option.bind_eq_bind] at h
    split at h
    · obtain rfl := Option.some.inj h
      exact hs
    · obtain ⟨s₂, h₂, h⟩ := Option.bind_eq_some_iff.1 h
      exact ih (hd.after h₂ hs) h

theorem block_restores (hd : AlwaysRestores d) {n : ℕ} {s s₁ s' : State N} (hs : Restores s s₁)
    (h : block d n s₁ = some s') : Restores s s' := by
  simp only [block, Option.bind_eq_bind, Option.bind_eq_some_iff] at h
  obtain ⟨s₂, h₂, h⟩ := h
  obtain rfl := Option.some.inj h
  exact (blockLoop_restores hd n hs h₂).consume _ _

theorem parameterLoop_restores (n : ℕ) : ∀ {s s₁ s' : State N}, Restores s s₁ →
    parameterLoop n s₁ = some s' → Restores s s' := by
  induction n with
  | zero =>
    intro s s₁ s' _ h
    cases h
  | succ n ih =>
    intro s s₁ s' hs h
    have hs₁ := hs.mapCurrent fun c => { c with arity := c.arity + 1 }
    simp only [parameterLoop] at h
    have hs₂ := hs₁.errorAtCurrentIf
      (((s₁.mapCurrent fun c => { c with arity := c.arity + 1 }).compilers.head?.map
        (·.arity)).getD 0 > 255) "Can't have more than 255 parameters."
    generalize (if ((s₁.mapCurrent fun c => { c with arity := c.arity + 1 }).compilers.head?.map
        (·.arity)).getD 0 > 255 then (s₁.mapCurrent fun c => { c with arity := c.arity + 1
          }).errorAtCurrent "Can't have more than 255 parameters."
      else s₁.mapCurrent fun c => { c with arity := c.arity + 1 }) = s₂ at h hs₂
    have hs₃ := (hs₂.parseVariable "Expect parameter name.").defineVariable
      (s₂.parseVariable "Expect parameter name.").1
    split at h
    · exact ih hs₃.advance h
    · obtain rfl := Option.some.inj h
      exact hs₃

theorem parameters_restores {n : ℕ} {s s₁ s' : State N} (hs : Restores s s₁)
    (h : parameters n s₁ = some s') : Restores s s' := by
  unfold parameters at h
  split at h
  · obtain rfl := Option.some.inj h
    exact hs
  · exact parameterLoop_restores n hs h

theorem Restores.emitCaptures (upvalues : List Upvalue) : ∀ {s s₁ : State N}, Restores s s₁ →
    Restores s (s₁.emitCaptures upvalues) := by
  induction upvalues with
  | nil =>
    intro s s₁ hs
    exact hs
  | cons u upvalues ih =>
    intro s s₁ hs
    exact ih (hs.emitBytes _ _)

/-- `endCompiler` takes the innermost compiler away. -/
theorem endCompiler_restores {s s₁ s' : State N} {function : ObjFunction N} {upvalues : List Upvalue}
    (h : s₁.endCompiler = some (function, upvalues, s')) {c : Compiler N} {code : List UInt8}
    (hs : Restores { s with compilers := c :: s.compilers, chunks := code :: s.chunks } s₁) :
    Restores s s' := by
  have hreturn := hs.emitReturn
  unfold State.endCompiler at h
  simp only at h
  split at h
  · rename_i c' cs code' codes hcs hcodes
    obtain ⟨-, -, rfl⟩ : _ ∧ _ ∧ _ = s' := by simpa using h
    have hcompilers := hreturn.compilers
    have hchunks := hreturn.chunks
    rw [hcs] at hcompilers
    rw [hcodes] at hchunks
    exact ⟨by simpa using hcompilers, by simpa using hchunks, hreturn.classes⟩
  · cases h

theorem function_restores (hd : AlwaysRestores d) {n : ℕ} {type : FunctionType} {s s₁ s' : State N}
    (hs : Restores s s₁) (h : function d n type s₁ = some s') : Restores s s' := by
  simp only [function, Option.bind_eq_bind, Option.bind_eq_some_iff, Prod.exists] at h
  obtain ⟨s₂, h₂, s₃, h₃, fn, upvalues, s₄, h₄, h⟩ := h
  obtain rfl := Option.some.inj h
  -- Between `initCompiler` and `endCompiler` the chain is one longer.
  have hinner : Restores (s₁.initCompiler type) s₃ := by
    have hs₂ := parameters_restores ((Restores.refl (s₁.initCompiler type)).beginScope.consume _ _) h₂
    exact block_restores hd ((hs₂.consume _ _).consume _ _) h₃
  have hs₄ : Restores s₁ s₄ := endCompiler_restores h₄ hinner
  exact hs.trans (((hs₄.makeConstant _).emitBytes _ _).emitCaptures upvalues)

theorem method_restores (hd : AlwaysRestores d) {n : ℕ} {s s₁ s' : State N} (hs : Restores s s₁)
    (h : method d n s₁ = some s') : Restores s s' := by
  simp only [method, Option.bind_eq_bind, Option.bind_eq_some_iff] at h
  obtain ⟨s₂, h₂, h⟩ := h
  obtain rfl := Option.some.inj h
  exact (function_restores hd ((hs.consume _ _).identifierConstant _) h₂).emitBytes _ _

theorem methodLoop_restores (hd : AlwaysRestores d) (n : ℕ) : ∀ {s s₁ s' : State N},
    Restores s s₁ → methodLoop d n s₁ = some s' → Restores s s' := by
  induction n with
  | zero =>
    intro s s₁ s' _ h
    cases h
  | succ n ih =>
    intro s s₁ s' hs h
    simp only [methodLoop, Option.bind_eq_bind] at h
    split at h
    · obtain rfl := Option.some.inj h
      exact hs
    · obtain ⟨s₂, h₂, h⟩ := Option.bind_eq_some_iff.1 h
      exact ih (method_restores hd hs h₂) h

/-- A class with a superclass is noted in its own class compiler only. -/
theorem superclassClause_restores (hf : AlwaysRestores f) {className : Token} {s s₁ s' : State N}
    {k : ClassCompiler}
    (hs : Restores { s with classes := k :: s.classes } s₁)
    (h : superclassClause f className s₁ = some s') :
    ∃ k', Restores { s with classes := k' :: s.classes } s' := by
  simp only [superclassClause, Option.bind_eq_bind] at h
  split at h
  · simp only [Option.bind_eq_some_iff] at h
    obtain ⟨s₂, h₂, s₃, h₃, h⟩ := h
    obtain rfl := Option.some.inj h
    have hs₂ := namedVariable_restores hf (hs.advance.consume _ _) h₂
    have hs₃ := namedVariable_restores hf
      ((((hs₂.errorIf _ _).beginScope).addLocal _).defineVariable _) h₃
    have hinherit := hs₃.emitByte OpCode.inherit.byte
    exact ⟨⟨true⟩, hinherit.compilers, hinherit.chunks, by simp [hinherit.classes]⟩
  · obtain rfl := Option.some.inj h
    exact ⟨k, hs⟩

/-- `currentClass = currentClass->enclosing`. -/
theorem endClass_restores {s s₁ : State N} {k : ClassCompiler}
    (hs : Restores { s with classes := k :: s.classes } s₁) : Restores s s₁.endClass := by
  have hscope : Restores { s with classes := k :: s.classes }
      (if (s₁.classes.head?.map (·.hasSuperclass)).getD false then s₁.endScope else s₁) := by
    split
    · exact hs.endScope
    · exact hs
  refine ⟨hscope.compilers, hscope.chunks, ?_⟩
  have htail := congrArg List.tail hscope.classes
  exact htail

theorem classDeclaration_restores (hf : AlwaysRestores f) (hd : AlwaysRestores d) {n : ℕ}
    {s s₁ s' : State N} (hs : Restores s s₁) (h : classDeclaration f d n s₁ = some s') :
    Restores s s' := by
  simp only [classDeclaration, Option.bind_eq_bind, Option.bind_eq_some_iff] at h
  obtain ⟨s₂, h₂, s₃, h₃, s₄, h₄, h⟩ := h
  obtain rfl := Option.some.inj h
  have hdefined := ((((Restores.refl s₁).consume .identifier "Expect class name.").identifierConstant
    (s₁.consume .identifier "Expect class name.").parser.previous).declareVariable.emitBytes
      OpCode.class_.byte ((s₁.consume .identifier "Expect class name.").identifierConstant
        (s₁.consume .identifier "Expect class name.").parser.previous).1).defineVariable
          ((s₁.consume .identifier "Expect class name.").identifierConstant
            (s₁.consume .identifier "Expect class name.").parser.previous).1
  obtain ⟨k, hs₂⟩ := superclassClause_restores hf hdefined.initClass h₂
  have hs₄ := methodLoop_restores hd n ((namedVariable_restores hf hs₂ h₃).consume _ _) h₄
  exact hs.trans (endClass_restores ((hs₄.consume _ _).emitByte _))

theorem funDeclaration_restores (hd : AlwaysRestores d) {n : ℕ} {s s₁ s' : State N}
    (hs : Restores s s₁) (h : funDeclaration d n s₁ = some s') : Restores s s' := by
  simp only [funDeclaration, Option.bind_eq_bind, Option.bind_eq_some_iff] at h
  obtain ⟨s₂, h₂, h⟩ := h
  obtain rfl := Option.some.inj h
  exact (function_restores hd (hs.parseVariable _).markInitialized h₂).defineVariable _

variable [Double N]

theorem expression_restores (n : ℕ) : AlwaysRestores (expression (N := N) n) :=
  parsePrecedence_restores n .assignment

theorem statementBody_restores (hd : AlwaysRestores d) (hst : AlwaysRestores st) {n : ℕ}
    {s s' : State N} (h : statementBody d st n s = some s') : Restores s s' := by
  have hs := Restores.refl s
  have hf := expression_restores (N := N) n
  simp only [statementBody, Option.bind_eq_bind] at h
  split at h
  · exact printStatement_restores hf hs.advance h
  split at h
  · obtain ⟨s₂, h₂, h⟩ := Option.bind_eq_some_iff.1 h
    obtain rfl := Option.some.inj h
    exact (block_restores hd hs.advance.beginScope h₂).endScope
  split at h
  · exact ifStatement_restores hf hst hs.advance h
  split at h
  · exact whileStatement_restores hf hst hs.advance h
  split at h
  · exact forStatement_restores hf hst hs.advance h
  split at h
  · exact returnStatement_restores hf hs.advance h
  · exact expressionStatement_restores hf hs h

omit [Double N] in
theorem Restores.synchronizeIf {s s₁ : State N} (hs : Restores s s₁) :
    Restores s (if s₁.parser.panicMode then s₁.synchronize else s₁) := by
  split
  · exact hs.trans ⟨rfl, rfl, rfl⟩
  · exact hs

theorem declarationBody_restores (hd : AlwaysRestores d) (hst : AlwaysRestores st) {n : ℕ}
    {s s' : State N} (h : declarationBody d st n s = some s') : Restores s s' := by
  have hs := Restores.refl s
  have hf := expression_restores (N := N) n
  simp only [declarationBody, Option.bind_eq_bind] at h
  split at h
  · obtain ⟨s₂, h₂, h⟩ := Option.bind_eq_some_iff.1 h
    obtain rfl := Option.some.inj h
    exact (varDeclaration_restores hf hs.advance h₂).synchronizeIf
  split at h
  · obtain ⟨s₂, h₂, h⟩ := Option.bind_eq_some_iff.1 h
    obtain rfl := Option.some.inj h
    exact (funDeclaration_restores hd hs.advance h₂).synchronizeIf
  split at h
  · obtain ⟨s₂, h₂, h⟩ := Option.bind_eq_some_iff.1 h
    obtain rfl := Option.some.inj h
    exact (classDeclaration_restores hf hd hs.advance h₂).synchronizeIf
  · obtain ⟨s₂, h₂, h⟩ := Option.bind_eq_some_iff.1 h
    obtain rfl := Option.some.inj h
    exact (hst.after h₂ hs).synchronizeIf

theorem statement_declaration_restores (n : ℕ) :
    AlwaysRestores (statement (N := N) n) ∧ AlwaysRestores (declaration (N := N) n) := by
  induction n with
  | zero =>
    refine ⟨fun s s' h => ?_, fun s s' h => ?_⟩
    · simp [statement] at h
    · simp [declaration] at h
  | succ n ih =>
    refine ⟨fun s s' h => ?_, fun s s' h => ?_⟩
    · rw [statement] at h
      exact statementBody_restores ih.2 ih.1 h
    · rw [declaration] at h
      exact declarationBody_restores ih.2 ih.1 h

theorem compileLoop_restores (n : ℕ) : ∀ {s s' : State N}, compileLoop n s = some s' →
    Restores s s' := by
  induction n with
  | zero =>
    intro s s' h
    cases h
  | succ n ih =>
    intro s s' h
    simp only [compileLoop, Option.bind_eq_bind] at h
    split at h
    · obtain rfl := Option.some.inj h
      exact (Restores.refl s).advance
    · obtain ⟨s₁, h₁, h⟩ := Option.bind_eq_some_iff.1 h
      exact ((statement_declaration_restores n).2 _ _ h₁).trans (ih h)

end Statements

end Lox.Clox
