import Lox.Clox.CompilerState
import Lox.Clox.Scanner

/-!
# The compiler of clox always comes back

`consume` does not advance on an error, and at the end of the source `advance` reads `TOKEN_EOF`
again and again, so a single call may leave the parser where it was.  What does decrease is
`Tokens.left`, the number of tokens before the end: `Passes` says that it does not grow, and that the
current token is the same where it did not shrink, and `Eats` that a token was read unless the
source had ended.  Every expression, statement and declaration eats a token, and so does a method,
whose block starts with a declaration if nothing was read before it.
-/

namespace Lox.Clox

variable {N α β : Type}

/-- The function returns, with a result for which `post` holds. -/
def Returns (r : Option α) (post : α → Prop) : Prop := ∃ a, r = some a ∧ post a

namespace Returns

variable {r r' : Option α} {P : α → Prop} {Q : β → Prop}

theorem value {a : α} (h : P a) : Returns (some a) P := ⟨a, rfl, h⟩

theorem bind {f : α → Option β} (h : Returns r P) (hf : ∀ a, P a → Returns (f a) Q) :
    Returns (r >>= f) Q := by
  obtain ⟨a, ha, hP⟩ := h
  rw [ha]
  exact hf a hP

theorem ite {c : Prop} [Decidable c] (ht : c → Returns r P) (he : ¬ c → Returns r' P) :
    Returns (if c then r else r') P := by
  by_cases h : c
  · rw [if_pos h]
    exact ht h
  · rw [if_neg h]
    exact he h

theorem imp {P' : α → Prop} (h : Returns r P) (himp : ∀ a, P a → P' a) : Returns r P' := by
  obtain ⟨a, ha, hP⟩ := h
  exact ⟨a, ha, himp a hP⟩

end Returns

/-! ### The tokens ahead -/

/-- The current token and those that `scanToken` has still to return before the end. -/
structure Tokens where
  current : Token
  pending : List Token

/-- The tokens before the end of the source. -/
def Tokens.left (ts : Tokens) : ℕ := ts.pending.length + if ts.current.type = .eof then 0 else 1

def Parser.ahead (p : Parser) : Tokens := ⟨p.current, p.scanner.pending⟩

def State.ahead (s : State N) : Tokens := s.parser.ahead

theorem Tokens.left_le (ts : Tokens) : ts.left ≤ ts.pending.length + 1 := by
  unfold Tokens.left
  by_cases h : ts.current.type = .eof
  · simp [h]
  · simp [h]

/-- No token comes back, and the current one stays where none was read. -/
structure Passes (ts ts' : Tokens) : Prop where
  le : ts'.left ≤ ts.left
  stays : ts.current.type ≠ .eof → ts'.left = ts.left → ts'.current = ts.current

/-- A token was read, unless the source had ended. -/
structure Eats (ts ts' : Tokens) : Prop where
  le : ts'.left ≤ ts.left
  lt : ts.current.type ≠ .eof → ts'.left < ts.left

theorem Passes.refl (ts : Tokens) : Passes ts ts := ⟨le_refl _, fun _ _ => rfl⟩

theorem Passes.trans {ts ts₁ ts₂ : Tokens} (h₁ : Passes ts ts₁) (h₂ : Passes ts₁ ts₂) :
    Passes ts ts₂ := by
  refine ⟨h₂.le.trans h₁.le, fun hne hleft => ?_⟩
  have hfirst : ts₁.current = ts.current := h₁.stays hne (le_antisymm h₁.le (hleft ▸ h₂.le))
  have hsecond : ts₂.current = ts₁.current :=
    h₂.stays (hfirst ▸ hne) (le_antisymm h₂.le (hleft ▸ h₁.le))
  exact hsecond.trans hfirst

theorem Eats.passes {ts ts' : Tokens} (h : Eats ts ts') : Passes ts ts' :=
  ⟨h.le, fun hne hleft => absurd hleft (Nat.ne_of_lt (h.lt hne))⟩

theorem Eats.then {ts ts₁ ts₂ : Tokens} (h₁ : Eats ts ts₁) (h₂ : Passes ts₁ ts₂) : Eats ts ts₂ :=
  ⟨h₂.le.trans h₁.le, fun hne => lt_of_le_of_lt h₂.le (h₁.lt hne)⟩

/-- A token was read, unless the source or a block had ended. -/
structure EatsInside (ts ts' : Tokens) : Prop where
  passes : Passes ts ts'
  lt : ts.current.type ≠ .eof → ts.current.type ≠ .rightBrace → ts'.left < ts.left

theorem EatsInside.then {ts ts₁ ts₂ : Tokens} (h₁ : EatsInside ts ts₁) (h₂ : Passes ts₁ ts₂) :
    EatsInside ts ts₂ :=
  ⟨h₁.passes.trans h₂, fun heof hbrace => lt_of_le_of_lt h₂.le (h₁.lt heof hbrace)⟩

theorem Passes.inside {ts ts₁ ts₂ : Tokens} (h₁ : Passes ts ts₁) (h₂ : EatsInside ts₁ ts₂) :
    EatsInside ts ts₂ := by
  refine ⟨h₁.trans h₂.passes, fun heof hbrace => ?_⟩
  by_cases hleft : ts₁.left = ts.left
  · have hcurrent := h₁.stays heof hleft
    rw [← hleft]
    exact h₂.lt (hcurrent ▸ heof) (hcurrent ▸ hbrace)
  · exact lt_of_le_of_lt h₂.passes.le (lt_of_le_of_ne h₁.le hleft)

/-! ### Errors, code and variables leave the tokens alone -/

theorem Parser.ahead_errorAt (token : Token) (message : String) (p : Parser) :
    (p.errorAt token message).ahead = p.ahead := by
  unfold Parser.errorAt
  split <;> rfl

namespace State

variable (s : State N)

@[simp] theorem ahead_error (message : String) : (s.error message).ahead = s.ahead :=
  Parser.ahead_errorAt _ _ _

@[simp] theorem ahead_errorAtCurrent (message : String) :
    (s.errorAtCurrent message).ahead = s.ahead :=
  Parser.ahead_errorAt _ _ _

@[simp] theorem ahead_ite (c : Prop) [Decidable c] (s₁ s₂ : State N) :
    (if c then s₁ else s₂).ahead = if c then s₁.ahead else s₂.ahead := by
  split <;> rfl

@[simp] theorem ahead_errors (messages : List String) :
    (messages.foldl (fun s m => s.error m) s).ahead = s.ahead := by
  induction messages generalizing s with
  | nil => rfl
  | cons m messages ih => simp [ih]

@[simp] theorem ahead_emitByte (byte : UInt8) : (s.emitByte byte).ahead = s.ahead := rfl

@[simp] theorem ahead_emitBytes (byte₁ byte₂ : UInt8) :
    (s.emitBytes byte₁ byte₂).ahead = s.ahead := rfl

@[simp] theorem ahead_emitJump (instruction : OpCode) :
    (s.emitJump instruction).2.ahead = s.ahead := rfl

@[simp] theorem ahead_emitLoop (loopStart : ℕ) : (s.emitLoop loopStart).ahead = s.ahead := by
  simp [emitLoop]

@[simp] theorem ahead_emitReturn : s.emitReturn.ahead = s.ahead := by
  simp [emitReturn]

@[simp] theorem ahead_mapCurrent (f : Compiler N → Compiler N) :
    (s.mapCurrent f).ahead = s.ahead := rfl

@[simp] theorem ahead_makeConstant (value : Constant N) :
    (s.makeConstant value).2.ahead = s.ahead := by
  unfold makeConstant
  simp only
  split
  · simp
  · rfl

@[simp] theorem ahead_identifierConstant (name : Token) :
    (s.identifierConstant name).2.ahead = s.ahead :=
  s.ahead_makeConstant _

@[simp] theorem ahead_emitConstant (value : Constant N) : (s.emitConstant value).ahead = s.ahead :=
  s.ahead_makeConstant value

@[simp] theorem ahead_patchJump (offset : ℕ) : (s.patchJump offset).ahead = s.ahead := by
  have hchunks : ∀ (s : State N) chunks, ({ s with chunks := chunks } : State N).ahead = s.ahead :=
    fun _ _ => rfl
  simp [patchJump, hchunks]

@[simp] theorem ahead_initCompiler (type : FunctionType) : (s.initCompiler type).ahead = s.ahead :=
  rfl

@[simp] theorem ahead_beginScope : s.beginScope.ahead = s.ahead := rfl

@[simp] theorem ahead_drops (flags : List Bool) :
    (flags.foldl (fun s isCaptured => s.emitByte (dropOp isCaptured).byte) s).ahead = s.ahead := by
  induction flags generalizing s with
  | nil => rfl
  | cons flag flags ih => simp [ih]

@[simp] theorem ahead_endScope : s.endScope.ahead = s.ahead := by
  unfold endScope
  split
  · rfl
  · exact ahead_drops _ _

@[simp] theorem ahead_resolveVariable (name : Token) :
    (s.resolveVariable name).2.ahead = s.ahead := by
  have hcompilers : ∀ cs, ({ s with compilers := cs } : State N).ahead = s.ahead := fun _ => rfl
  unfold resolveVariable
  split
  · simp
  · split <;> simp [hcompilers]

@[simp] theorem ahead_addLocal (name : Name) : (s.addLocal name).ahead = s.ahead := by
  simp [addLocal]

@[simp] theorem ahead_declareVariable : s.declareVariable.ahead = s.ahead := by
  simp [declareVariable]

@[simp] theorem ahead_markInitialized : s.markInitialized.ahead = s.ahead := by
  simp [markInitialized]

@[simp] theorem ahead_defineVariable (global : UInt8) :
    (s.defineVariable global).ahead = s.ahead := by
  simp [defineVariable]

@[simp] theorem ahead_emitCaptures (upvalues : List Upvalue) :
    (s.emitCaptures upvalues).ahead = s.ahead := by
  unfold emitCaptures
  induction upvalues generalizing s with
  | nil => rfl
  | cons u upvalues ih => simp [ih]

@[simp] theorem ahead_checkSuper : s.checkSuper.ahead = s.ahead := by
  unfold checkSuper
  split
  · simp
  · simp

end State

/-! ### Reading tokens -/

theorem Parser.left_advanceLoop (ts : List Token) : ∀ p : Parser,
    (p.advanceLoop ts).ahead.left ≤ ts.length := by
  induction ts with
  | nil =>
    intro p
    simp [advanceLoop, ahead, Tokens.left, Scanner.eofToken]
  | cons t ts ih =>
    intro p
    simp only [advanceLoop]
    split
    · exact (ih _).trans (Nat.le_succ _)
    · exact Tokens.left_le _

theorem Parser.eats_advance (p : Parser) : Eats p.ahead p.advance.ahead := by
  have hleft : p.advance.ahead.left ≤ p.ahead.pending.length := left_advanceLoop _ _
  refine ⟨hleft.trans (Nat.le_add_right _ _), fun hne => ?_⟩
  simp only [Tokens.left, if_neg hne]
  exact Nat.lt_succ_of_le hleft

/-- `advance` goes on until the current token is not an error token. -/
theorem Parser.current_advance (p : Parser) : p.advance.current.type ≠ .error := by
  have hloop : ∀ (ts : List Token) (p : Parser), (p.advanceLoop ts).current.type ≠ .error := by
    intro ts
    induction ts with
    | nil =>
      intro p
      simp [advanceLoop, Scanner.eofToken]
    | cons t ts ih =>
      intro p
      simp only [advanceLoop]
      split
      · exact ih _
      · assumption
  exact hloop _ _

theorem Parser.previous_advance (p : Parser) : p.advance.previous = p.current := by
  have hloop : ∀ (ts : List Token) (p : Parser), (p.advanceLoop ts).previous = p.previous := by
    intro ts
    induction ts with
    | nil => intro p; rfl
    | cons t ts ih =>
      intro p
      simp only [advanceLoop]
      split
      · rw [ih, Parser.errorAtCurrent, Parser.errorAt]
        split <;> rfl
      · rfl
  exact hloop _ _

/-- Where the loop of `synchronize` stops. -/
def Parser.Synchronized (p : Parser) : Prop :=
  p.previous.type = .eof ∨ p.previous.type = .semicolon ∨ startsStatement p.current.type = true

theorem Parser.Synchronized.stays {p : Parser} (h : p.Synchronized) (n : ℕ) :
    p.synchronizeLoop n = p := by
  cases n with
  | zero => rfl
  | succ n =>
    simp only [synchronizeLoop]
    split
    · rfl
    · rename_i heof
      split
      · rfl
      · rename_i hsemicolon
        rw [if_pos ((h.resolve_left heof).resolve_left hsemicolon)]

theorem Parser.synchronizeLoop_succ {p : Parser} (h : ¬ p.Synchronized) (n : ℕ) :
    p.synchronizeLoop (n + 1) = p.advance.synchronizeLoop n := by
  unfold Synchronized at h
  push Not at h
  simp [synchronizeLoop, h]

theorem Parser.synchronizeLoop_passes (n : ℕ) : ∀ p : Parser,
    Passes p.ahead (p.synchronizeLoop n).ahead := by
  induction n with
  | zero =>
    intro p
    exact .refl _
  | succ n ih =>
    intro p
    by_cases h : p.Synchronized
    · rw [h.stays]
      exact .refl _
    · rw [synchronizeLoop_succ h]
      exact p.eats_advance.passes.trans (ih _)

/-- With a round more than tokens left, the loop of `synchronize` stops by itself: it reads a token in
each round, and after the end has been read it is the previous token. -/
theorem Parser.synchronizeLoop_synchronized (n : ℕ) : ∀ p : Parser, p.ahead.left < n →
    (p.synchronizeLoop n).Synchronized := by
  induction n with
  | zero =>
    intro p hn
    omega
  | succ n ih =>
    intro p hn
    by_cases h : p.Synchronized
    · rw [h.stays]
      exact h
    · rw [synchronizeLoop_succ h]
      by_cases heof : p.current.type = .eof
      · have hend : p.advance.Synchronized := .inl (p.previous_advance ▸ heof)
        rw [hend.stays]
        exact hend
      · have hlt := p.eats_advance.lt heof
        exact ih _ (by omega)

theorem synchronize_synchronized (s : State N) : s.synchronize.parser.Synchronized := by
  apply Parser.synchronizeLoop_synchronized
  exact Nat.lt_succ_of_le (Tokens.left_le _)

section Reading

variable {ts : Tokens} {s : State N}

theorem eats_advance (s : State N) : Eats s.ahead s.advance.ahead := s.parser.eats_advance

theorem Passes.advance (h : Passes ts s.ahead) : Passes ts s.advance.ahead :=
  h.trans (eats_advance s).passes

theorem Passes.consume (h : Passes ts s.ahead) (type : TokenType) (message : String) :
    Passes ts (s.consume type message).ahead := by
  unfold State.consume
  split
  · exact h.advance
  · simpa using h

theorem Passes.parseVariable (h : Passes ts s.ahead) (message : String) :
    Passes ts (s.parseVariable message).2.ahead := by
  have hconsume := h.consume .identifier message
  unfold State.parseVariable
  simp only
  split
  · simpa using hconsume
  · simpa using hconsume

theorem Passes.synchronize (h : Passes ts s.ahead) : Passes ts s.synchronize.ahead :=
  h.trans (Parser.synchronizeLoop_passes _ { s.parser with panicMode := false })

/-- A token of a known type that is not `TOKEN_EOF` is before the end. -/
theorem ne_eof_of_check {type : TokenType} (h : s.check type = true) (hne : type ≠ .eof) :
    s.ahead.current.type ≠ .eof := by
  have htype : s.parser.current.type = type := by simpa [State.check] using h
  exact htype ▸ hne

end Reading

/-! ### Expressions -/

/-- With `k` tokens left at most, `f` returns, and it has eaten one. -/
def EatsWithin (k : ℕ) (f : State N → Option (State N)) : Prop :=
  ∀ s, s.ahead.left ≤ k → Returns (f s) fun s' => Eats s.ahead s'.ahead

section Expressions

variable {k : ℕ} {f : State N → Option (State N)} (hf : EatsWithin k f) {ts : Tokens}
  (hk : ts.left ≤ k)

include hf hk

theorem EatsWithin.after {s : State N} (hs : Passes ts s.ahead) :
    Returns (f s) fun s' => Passes ts s'.ahead :=
  (hf s (hs.le.trans hk)).imp fun _ h => hs.trans h.passes

/-- A comma is eaten in every round. -/
theorem argumentLoop_returns (n : ℕ) : ∀ (argCount : UInt8) (s : State N), Passes ts s.ahead →
    s.ahead.left < n → Returns (argumentLoop f n argCount s) fun r => Passes ts r.2.ahead := by
  induction n with
  | zero =>
    intro argCount s _ hn
    omega
  | succ n ih =>
    intro argCount s hs hn
    refine Returns.bind (hf s (hs.le.trans hk)) fun s₁ hs₁ => ?_
    have hs₂ : (if argCount = 255 then s₁.error "Can't have more than 255 arguments." else s₁).ahead
        = s₁.ahead := by simp
    generalize (if argCount = 255 then s₁.error "Can't have more than 255 arguments." else s₁) = s₂
      at hs₂
    refine Returns.ite (fun hcomma => ?_) fun _ => .value ?_
    · have heats := (eats_advance s₂).lt (ne_eof_of_check hcomma (by decide))
      have hle := hs₁.le
      refine ih _ _ (hs.trans ?_) ?_
      · exact (hs₂ ▸ hs₁.passes).trans (eats_advance s₂).passes
      · rw [hs₂] at heats
        omega
    · exact hs.trans (hs₂ ▸ hs₁.passes)

theorem argumentList_returns {n : ℕ} (hn : ts.left < n) {s : State N} (hs : Passes ts s.ahead) :
    Returns (argumentList f n s) fun r => Passes ts r.2.ahead := by
  simp only [argumentList]
  refine Returns.ite (fun _ => .value (hs.consume _ _)) fun _ => ?_
  refine Returns.bind (argumentLoop_returns hf hk n 0 s hs (lt_of_le_of_lt hs.le hn))
    fun r hr => .value ?_
  exact hr.consume _ _

theorem namedVariable_returns (name : Token) (canAssign : Bool) {s : State N}
    (hs : Passes ts s.ahead) :
    Returns (namedVariable f name canAssign s) fun s' => Passes ts s'.ahead := by
  have hresolved : Passes ts (s.resolveVariable name).2.ahead := by simpa using hs
  simp only [namedVariable]
  refine Returns.ite (fun _ => ?_) fun _ => .value (by simpa using hs)
  refine Returns.bind (hf.after hk hresolved.advance) fun s₁ hs₁ => .value ?_
  simpa using hs₁

theorem dot_returns {n : ℕ} (hn : ts.left < n) (canAssign : Bool) {s : State N}
    (hs : Passes ts s.ahead) : Returns (dot f n canAssign s) fun s' => Passes ts s'.ahead := by
  have hname : Passes ts ((s.consume .identifier "Expect property name after '.'.").identifierConstant
      (s.consume .identifier "Expect property name after '.'.").parser.previous).2.ahead := by
    simpa using hs.consume _ _
  simp only [dot]
  refine Returns.ite (fun _ => ?_) fun _ => Returns.ite (fun _ => ?_) fun _ => .value ?_
  · refine Returns.bind (hf.after hk hname.advance) fun s₁ hs₁ => .value ?_
    simpa using hs₁
  · refine Returns.bind (argumentList_returns hf hk hn hname.advance) ?_
    intro r hr
    exact .value (by simpa using hr)
  · simpa using hname

theorem super_returns {n : ℕ} (hn : ts.left < n) {s : State N} (hs : Passes ts s.ahead) :
    Returns (super_ f n s) fun s' => Passes ts s'.ahead := by
  have hstart : Passes ts s.checkSuper.ahead := by simpa using hs
  have hname := (hstart.consume .dot "Expect '.' after 'super'.").consume .identifier
    "Expect superclass method name."
  simp only [super_]
  refine Returns.bind (namedVariable_returns hf hk _ _ (by simpa using hname)) fun s₁ hs₁ => ?_
  refine Returns.ite (fun _ => ?_) fun _ => ?_
  · refine Returns.bind (argumentList_returns hf hk hn hs₁.advance) ?_
    intro r hr
    refine Returns.bind (namedVariable_returns hf hk _ _ hr) fun s₃ hs₃ => .value ?_
    simpa using hs₃
  · refine Returns.bind (namedVariable_returns hf hk _ _ hs₁) fun s₂ hs₂ => .value ?_
    simpa using hs₂

end Expressions

/-- A token type with a precedence has an infix rule. -/
theorem infixRule_of_precedence {type : TokenType} (h : 1 ≤ (getRule type).precedence.toNat) :
    ∃ rule, (getRule type).infixRule = some rule := by
  cases type <;> first | exact ⟨_, rfl⟩ | exact absurd h (by decide)

theorem one_le_next (p : Precedence) : 1 ≤ p.next.toNat := by
  cases p <;> decide

section Precedence

variable [Double N] {k : ℕ} {f : Precedence → State N → Option (State N)}
  (hf : ∀ p : Precedence, 1 ≤ p.toNat → EatsWithin k (f p)) {ts : Tokens} (hk : ts.left ≤ k)

include hf hk

theorem applyRule_returns {n : ℕ} (hn : ts.left < n) (rule : ParseFn) (canAssign : Bool)
    {s : State N} (hs : Passes ts s.ahead) :
    Returns (applyRule f n rule canAssign s) fun s' => Passes ts s'.ahead := by
  have hexpression := hf .assignment (by decide)
  cases rule with
  | grouping =>
    simp only [applyRule, grouping]
    refine Returns.bind (hexpression.after hk hs) fun s₁ hs₁ => .value ?_
    exact hs₁.consume _ _
  | call =>
    simp only [applyRule, call]
    refine Returns.bind (argumentList_returns hexpression hk hn hs) ?_
    intro r hr
    exact .value (by simpa using hr)
  | dot => exact dot_returns hexpression hk hn canAssign hs
  | unary =>
    simp only [applyRule, unary]
    refine Returns.bind ((hf .unary (by decide)).after hk hs) fun s₁ hs₁ => .value ?_
    split <;> simpa using hs₁
  | binary =>
    simp only [applyRule, binary]
    refine Returns.bind ((hf _ (one_le_next _)).after hk hs) fun s₁ hs₁ => .value ?_
    split <;> simpa using hs₁
  | variable_ => exact namedVariable_returns hexpression hk _ _ hs
  | string => exact .value (by simpa [string] using hs)
  | number => exact .value (by simpa [number] using hs)
  | literal =>
    refine .value ?_
    unfold literal
    split <;> simpa using hs
  | and_ =>
    simp only [applyRule, and_]
    refine Returns.bind ((hf .and (by decide)).after hk (by simpa using hs)) fun s₁ hs₁ => .value ?_
    simpa using hs₁
  | or_ =>
    simp only [applyRule, or_]
    refine Returns.bind ((hf .or (by decide)).after hk (by simpa using hs)) fun s₁ hs₁ => .value ?_
    simpa using hs₁
  | super_ => exact super_returns hexpression hk hn hs
  | this_ =>
    simp only [applyRule, this_]
    refine Returns.ite (fun _ => .value ?_) fun _ => ?_
    · simpa using hs
    · exact namedVariable_returns hexpression hk _ _ hs

omit hk in
/-- An operator is eaten in every round. -/
theorem infixLoop_returns {precedence : Precedence} (hp : 1 ≤ precedence.toNat) (canAssign : Bool)
    (n : ℕ) : ∀ s : State N, s.ahead.left ≤ k → s.ahead.left < n →
      Returns (infixLoop f n precedence canAssign s) fun s' => Passes s.ahead s'.ahead := by
  induction n with
  | zero =>
    intro s _ hn
    omega
  | succ n ih =>
    intro s hk hn
    simp only [infixLoop]
    refine Returns.ite (fun hle => ?_) fun _ => .value (.refl _)
    have hoperator : 1 ≤ (getRule s.parser.current.type).precedence.toNat := hp.trans hle
    have heof : s.ahead.current.type ≠ .eof := by
      intro heof
      have htype : s.parser.current.type = .eof := heof
      rw [htype] at hoperator
      exact absurd hoperator (by decide)
    have heats := (eats_advance s).lt heof
    obtain ⟨rule, hrule⟩ := infixRule_of_precedence hoperator
    have hprevious : (getRule s.advance.parser.previous.type).infixRule = some rule := by
      rw [← hrule]
      exact congrArg (fun t : Token => (getRule t.type).infixRule) s.parser.previous_advance
    simp only [hprevious]
    refine Returns.bind (applyRule_returns hf (by omega) (by omega) rule canAssign (.refl _))
      fun s₁ hs₁ => ?_
    have hle₁ := hs₁.le
    refine (ih s₁ (by omega) (by omega)).imp fun s₂ hs₂ => ?_
    exact (eats_advance s).passes.trans (hs₁.trans hs₂)

end Precedence

/-- With a level of fuel more than tokens left, an expression is compiled and a token is eaten: one
level of the recursion reads a token, or it is the last. -/
theorem parsePrecedence_returns [Double N] (n : ℕ) : ∀ p : Precedence, 1 ≤ p.toNat →
    ∀ s : State N, s.ahead.left < n →
      Returns (parsePrecedence n p s) fun s' => Eats s.ahead s'.ahead := by
  induction n with
  | zero =>
    intro p _ s hn
    omega
  | succ n ih =>
    intro p hp s hn
    have heats := eats_advance s
    simp only [parsePrecedence]
    by_cases heof : s.parser.current.type = .eof
    · have hrule : (getRule s.advance.parser.previous.type).prefixRule = none := by
        rw [show s.advance.parser.previous = s.parser.current from s.parser.previous_advance, heof]
        rfl
      simp only [hrule]
      exact .value (by simpa using heats)
    · have hlt := heats.lt heof
      have hbelow : ∀ p : Precedence, 1 ≤ p.toNat →
          EatsWithin s.advance.ahead.left (parsePrecedence (N := N) n p) := by
        intro p hp s₁ hs₁
        exact ih p hp s₁ (by omega)
      split
      · exact .value (by simpa using heats)
      · refine Returns.bind (applyRule_returns hbelow (le_refl _) (by omega) _ _ (.refl _))
          fun s₁ hs₁ => ?_
        have hle₁ := hs₁.le
        refine Returns.bind (infixLoop_returns hbelow hp _ n s₁ hle₁ (by omega)) fun s₂ hs₂ => ?_
        have hs := hs₁.trans hs₂
        refine Returns.ite (fun _ => .value ?_) fun _ => .value (heats.then hs)
        simpa using heats.then hs.advance

/-! ### Statements -/

section Statements

variable {k : ℕ} {f st d : State N → Option (State N)} (hf : EatsWithin k f) (hst : EatsWithin k st)
  (hd : EatsWithin k d) {ts : Tokens} (hk : ts.left ≤ k)

section Expression

include hf hk

theorem expressionStatement_returns {s : State N} (hs : Passes ts s.ahead) :
    Returns (expressionStatement f s) fun s' => Passes ts s'.ahead := by
  simp only [expressionStatement]
  refine Returns.bind (hf.after hk hs) fun s₁ hs₁ => .value ?_
  simpa using hs₁.consume _ _

theorem printStatement_returns {s : State N} (hs : Passes ts s.ahead) :
    Returns (printStatement f s) fun s' => Passes ts s'.ahead := by
  simp only [printStatement]
  refine Returns.bind (hf.after hk hs) fun s₁ hs₁ => .value ?_
  simpa using hs₁.consume _ _

theorem varDeclaration_returns {s : State N} (hs : Passes ts s.ahead) :
    Returns (varDeclaration f s) fun s' => Passes ts s'.ahead := by
  have hname := hs.parseVariable "Expect variable name."
  simp only [varDeclaration]
  refine Returns.ite (fun _ => ?_) fun _ => .value ?_
  · refine Returns.bind (hf.after hk hname.advance) fun s₁ hs₁ => .value ?_
    simpa using hs₁.consume _ _
  · have hnil : Passes ts ((s.parseVariable "Expect variable name.").2.emitByte
        OpCode.nil.byte).ahead := by simpa using hname
    simpa using hnil.consume _ _

theorem returnStatement_returns {s : State N} (hs : Passes ts s.ahead) :
    Returns (returnStatement f s) fun s' => Passes ts s'.ahead := by
  have hs₁ : Passes ts (if s.type = .script then s.error "Can't return from top-level code."
      else s).ahead := by simpa using hs
  simp only [returnStatement]
  generalize (if s.type = .script then s.error "Can't return from top-level code." else s) = s₁
    at hs₁
  refine Returns.ite (fun _ => .value ?_) fun _ => ?_
  · simpa using hs₁.advance
  · refine Returns.bind (hf.after hk (by simpa using hs₁)) fun s₂ hs₂ => .value ?_
    simpa using hs₂.consume _ _

theorem forInitializer_returns {s : State N} (hs : Passes ts s.ahead) :
    Returns (forInitializer f s) fun s' => Passes ts s'.ahead := by
  refine Returns.ite (fun _ => .value hs.advance) fun _ => Returns.ite (fun _ => ?_) fun _ => ?_
  · exact varDeclaration_returns hf hk hs.advance
  · exact expressionStatement_returns hf hk hs

theorem forCondition_returns {s : State N} (hs : Passes ts s.ahead) :
    Returns (forCondition f s) fun r => Passes ts r.2.ahead := by
  simp only [forCondition]
  refine Returns.ite (fun _ => .value hs.advance) fun _ => ?_
  refine Returns.bind (hf.after hk hs) fun s₁ hs₁ => .value ?_
  simpa using hs₁.consume _ _

theorem forIncrement_returns (loopStart : ℕ) {s : State N} (hs : Passes ts s.ahead) :
    Returns (forIncrement f loopStart s) fun r => Passes ts r.2.ahead := by
  simp only [forIncrement]
  refine Returns.ite (fun _ => .value hs.advance) fun _ => ?_
  refine Returns.bind (hf.after hk (by simpa using hs)) fun s₁ hs₁ => .value ?_
  have hpop : Passes ts (s₁.emitByte OpCode.pop.byte).ahead := by simpa using hs₁
  simpa using hpop.consume _ _

include hst

theorem ifStatement_returns {s : State N} (hs : Passes ts s.ahead) :
    Returns (ifStatement f st s) fun s' => Passes ts s'.ahead := by
  simp only [ifStatement]
  refine Returns.bind (hf.after hk (hs.consume _ _)) fun s₁ hs₁ => ?_
  refine Returns.bind (hst.after hk (by simpa using hs₁.consume _ _)) fun s₂ hs₂ => ?_
  refine Returns.ite (fun _ => ?_) fun _ => .value (by simpa using hs₂)
  have helse : Passes ts (((s₂.emitJump .jump).2.patchJump
      ((s₁.consume .rightParen "Expect ')' after condition.").emitJump .jumpIfFalse).1).emitByte
        OpCode.pop.byte).ahead := by simpa using hs₂
  refine Returns.bind (hst.after hk helse.advance) fun s₃ hs₃ => .value ?_
  simpa using hs₃

theorem whileStatement_returns {s : State N} (hs : Passes ts s.ahead) :
    Returns (whileStatement f st s) fun s' => Passes ts s'.ahead := by
  simp only [whileStatement]
  refine Returns.bind (hf.after hk (hs.consume _ _)) fun s₁ hs₁ => ?_
  refine Returns.bind (hst.after hk (by simpa using hs₁.consume _ _)) fun s₂ hs₂ => .value ?_
  simpa using hs₂

theorem forStatement_returns {s : State N} (hs : Passes ts s.ahead) :
    Returns (forStatement f st s) fun s' => Passes ts s'.ahead := by
  have hscope : Passes ts s.beginScope.ahead := by simpa using hs
  simp only [forStatement]
  refine Returns.bind (forInitializer_returns hf hk (hscope.consume _ _)) fun s₁ hs₁ => ?_
  refine Returns.bind (forCondition_returns hf hk hs₁) fun r hr => ?_
  refine Returns.bind (forIncrement_returns hf hk _ hr) fun r' hr' => ?_
  refine Returns.bind (hst.after hk hr') fun s₂ hs₂ => .value ?_
  split <;> simpa using hs₂

end Expression

/-! ### Functions and classes -/

include hd hk

/-- The block of a function reads a token unless it is empty. -/
theorem blockLoop_returns (n : ℕ) : ∀ s : State N, Passes ts s.ahead → s.ahead.left < n →
    Returns (blockLoop d n s) fun s' => EatsInside s.ahead s'.ahead := by
  induction n with
  | zero =>
    intro s _ hn
    omega
  | succ n ih =>
    intro s hs hn
    simp only [blockLoop]
    refine Returns.ite (fun hend => .value ⟨.refl _, fun heof hbrace => ?_⟩) fun hin => ?_
    · have hstop : s.ahead.current.type = .rightBrace ∨ s.ahead.current.type = .eof := by
        simpa [State.check, State.ahead, Parser.ahead] using hend
      exact absurd (hstop.resolve_left hbrace) heof
    · have heof : s.ahead.current.type ≠ .eof := by
        intro heof
        have htype : s.parser.current.type = .eof := heof
        simp [State.check, htype] at hin
      refine Returns.bind (hd s (hs.le.trans hk)) fun s₁ hs₁ => ?_
      have hlt := hs₁.lt heof
      refine (ih s₁ (hs.trans hs₁.passes) (by omega)).imp fun s₂ hs₂ => ?_
      have heats := hs₁.then hs₂.passes
      exact ⟨heats.passes, fun heof _ => heats.lt heof⟩

theorem block_returns {n : ℕ} {s : State N} (hs : Passes ts s.ahead) (hn : s.ahead.left < n) :
    Returns (block d n s) fun s' => EatsInside s.ahead s'.ahead := by
  simp only [block]
  refine Returns.bind (blockLoop_returns hd hk n s hs hn) fun s₁ hs₁ => .value ?_
  exact hs₁.then ((Passes.refl s₁.ahead).consume _ _)

omit hd hk in
/-- A comma is eaten in every round. -/
theorem parameterLoop_returns (n : ℕ) : ∀ s : State N, Passes ts s.ahead → s.ahead.left < n →
    Returns (parameterLoop n s) fun s' => Passes ts s'.ahead := by
  induction n with
  | zero =>
    intro s _ hn
    omega
  | succ n ih =>
    intro s hs hn
    simp only [parameterLoop]
    have hs₁ : (if ((s.mapCurrent fun c => { c with arity := c.arity + 1 }).compilers.head?.map
        (·.arity)).getD 0 > 255 then (s.mapCurrent fun c => { c with arity := c.arity + 1
          }).errorAtCurrent "Can't have more than 255 parameters."
        else s.mapCurrent fun c => { c with arity := c.arity + 1 }).ahead = s.ahead := by simp
    generalize (if ((s.mapCurrent fun c => { c with arity := c.arity + 1 }).compilers.head?.map
        (·.arity)).getD 0 > 255 then (s.mapCurrent fun c => { c with arity := c.arity + 1
          }).errorAtCurrent "Can't have more than 255 parameters."
      else s.mapCurrent fun c => { c with arity := c.arity + 1 }) = s₁ at hs₁
    have hs₂ := (Passes.refl s₁.ahead).parseVariable "Expect parameter name."
    rw [hs₁] at hs₂
    have hs₃ : ((s₁.parseVariable "Expect parameter name.").2.defineVariable
        (s₁.parseVariable "Expect parameter name.").1).ahead
          = (s₁.parseVariable "Expect parameter name.").2.ahead := by simp
    generalize (s₁.parseVariable "Expect parameter name.").2.defineVariable
      (s₁.parseVariable "Expect parameter name.").1 = s₃ at hs₃
    rw [← hs₃] at hs₂
    refine Returns.ite (fun hcomma => ?_) fun _ => .value (hs.trans hs₂)
    have heats := (eats_advance s₃).lt (ne_eof_of_check hcomma (by decide))
    have hle := hs₂.le
    exact ih _ (hs.trans hs₂.advance) (by omega)

omit hd hk in
theorem parameters_returns {n : ℕ} {s : State N} (hs : Passes ts s.ahead) (hn : s.ahead.left < n) :
    Returns (parameters n s) fun s' => Passes ts s'.ahead :=
  Returns.ite (fun _ => .value hs) fun _ => parameterLoop_returns n s hs hn

omit hd hk in
theorem endCompiler_returns {s s₁ : State N} {type : FunctionType}
    (h : Restores (s.initCompiler type) s₁) :
    Returns s₁.endCompiler fun r => r.2.2.ahead = s₁.ahead := by
  have hreturn := h.emitReturn
  have hcompilers := hreturn.compilers
  have hchunks := hreturn.chunks
  unfold State.endCompiler
  simp only
  split
  · exact .value s₁.ahead_emitReturn
  · rename_i hnone
    cases hcs : s₁.emitReturn.compilers with
    | nil =>
      rw [hcs] at hcompilers
      simp [State.initCompiler] at hcompilers
    | cons c cs =>
      cases hcodes : s₁.emitReturn.chunks with
      | nil =>
        rw [hcodes] at hchunks
        simp [State.initCompiler] at hchunks
      | cons code codes => exact absurd hcodes (hnone c cs code codes hcs)

/-- What a function reads before its block may be nothing, but then the block eats a token. -/
theorem function_returns (hrestores : AlwaysRestores d) {n : ℕ} (hn : ts.left < n)
    (type : FunctionType) {s : State N} (hs : Passes ts s.ahead) :
    Returns (function d n type s) fun s' => EatsInside s.ahead s'.ahead := by
  have hscope : Passes s.ahead (s.initCompiler type).beginScope.ahead := .refl _
  have hparen := hscope.consume .leftParen "Expect '(' after function name."
  have hle := hs.le
  have hle₁ := hparen.le
  obtain ⟨s₁, h₁, hs₁⟩ := parameters_returns (n := n) hparen (by omega)
  have hopen := (hs₁.consume .rightParen "Expect ')' after parameters.").consume .leftBrace
    "Expect '\x7b' before function body."
  have hle₂ := hopen.le
  obtain ⟨s₂, h₂, hs₂⟩ := block_returns hd hk (hs.trans hopen) (n := n) (by omega)
  have hinner : Restores (s.initCompiler type) s₂ := by
    have hr₁ := parameters_restores ((Restores.refl (s.initCompiler type)).beginScope.consume _ _) h₁
    exact block_restores hrestores ((hr₁.consume _ _).consume _ _) h₂
  obtain ⟨r, h₃, hs₃⟩ := endCompiler_returns hinner
  simp only [function, h₁, h₂, h₃, Option.bind_eq_bind, Option.bind_some]
  refine .value ?_
  simpa [hs₃] using hopen.inside hs₂

theorem method_returns (hrestores : AlwaysRestores d) {n : ℕ} (hn : ts.left < n) {s : State N}
    (hs : Passes ts s.ahead) :
    Returns (method d n s) fun s' => EatsInside s.ahead s'.ahead := by
  have hname : Passes s.ahead ((s.consume .identifier "Expect method name.").identifierConstant
      (s.consume .identifier "Expect method name.").parser.previous).2.ahead := by
    simpa using (Passes.refl s.ahead).consume .identifier "Expect method name."
  simp only [method]
  refine Returns.bind (function_returns hd hk hrestores hn _ (hs.trans hname)) fun s₁ hs₁ => .value ?_
  simpa using hname.inside hs₁

/-- The loop over methods goes on only before the end of the class and of the source, where a method
eats a token. -/
theorem methodLoop_returns (hrestores : AlwaysRestores d) (n : ℕ) : ∀ s : State N,
    Passes ts s.ahead → s.ahead.left + 1 < n →
      Returns (methodLoop d n s) fun s' => Passes ts s'.ahead := by
  induction n with
  | zero =>
    intro s _ hn
    omega
  | succ n ih =>
    intro s hs hn
    simp only [methodLoop]
    refine Returns.ite (fun _ => .value hs) fun hin => ?_
    have hinside : s.ahead.current.type ≠ .rightBrace ∧ s.ahead.current.type ≠ .eof := by
      simpa [State.check, State.ahead, Parser.ahead] using hin
    refine Returns.bind (method_returns hd (hs.le.trans hk) hrestores (by omega) (.refl _))
      fun s₁ hs₁ => ?_
    have hlt := hs₁.lt hinside.2 hinside.1
    exact ih s₁ (hs.trans hs₁.passes) (by omega)

theorem funDeclaration_returns (hrestores : AlwaysRestores d) {n : ℕ} (hn : ts.left < n)
    {s : State N} (hs : Passes ts s.ahead) :
    Returns (funDeclaration d n s) fun s' => Passes ts s'.ahead := by
  have hname : Passes ts (s.parseVariable "Expect function name.").2.markInitialized.ahead := by
    simpa using hs.parseVariable "Expect function name."
  simp only [funDeclaration]
  refine Returns.bind (function_returns hd hk hrestores hn _ hname) fun s₁ hs₁ => .value ?_
  simpa using hname.trans hs₁.passes

omit hd in
include hf in
theorem superclassClause_returns (className : Token) {s : State N} (hs : Passes ts s.ahead) :
    Returns (superclassClause f className s) fun s' => Passes ts s'.ahead := by
  simp only [superclassClause]
  refine Returns.ite (fun _ => ?_) fun _ => .value hs
  refine Returns.bind (namedVariable_returns hf hk _ _ (hs.advance.consume _ _)) fun s₁ hs₁ => ?_
  refine Returns.bind (namedVariable_returns hf hk _ _ (by simpa using hs₁)) fun s₂ hs₂ => .value ?_
  exact hs₂

omit hd hk in
theorem ahead_endClass (s : State N) : s.endClass.ahead = s.ahead := by
  have hclasses : ∀ (s : State N) classes, ({ s with classes := classes } : State N).ahead = s.ahead :=
    fun _ _ => rfl
  simp [State.endClass, hclasses]

include hf in
theorem classDeclaration_returns (hrestores : AlwaysRestores d) {n : ℕ} (hn : ts.left + 1 < n)
    {s : State N} (hs : Passes ts s.ahead) :
    Returns (classDeclaration f d n s) fun s' => Passes ts s'.ahead := by
  have hclasses : ∀ (s : State N) classes, ({ s with classes := classes } : State N).ahead = s.ahead :=
    fun _ _ => rfl
  have hname := hs.consume .identifier "Expect class name."
  simp only [classDeclaration]
  refine Returns.bind (superclassClause_returns hf hk _ (by simpa [hclasses] using hname))
    fun s₁ hs₁ => ?_
  refine Returns.bind (namedVariable_returns hf hk _ _ hs₁) fun s₂ hs₂ => ?_
  have hbrace := hs₂.consume .leftBrace "Expect '\x7b' before class body."
  have hle := hbrace.le
  refine Returns.bind (methodLoop_returns hd hk hrestores n _ hbrace (by omega)) fun s₃ hs₃ => .value ?_
  simpa [ahead_endClass] using hs₃.consume _ _

end Statements

/-! ### The whole source -/

section Program

variable [Double N]

theorem expression_returns {k n : ℕ} (h : k < n) : EatsWithin k (expression (N := N) n) :=
  fun s hs => parsePrecedence_returns n .assignment (by decide) s (lt_of_le_of_lt hs h)

omit [Double N] in
/-- What comes after a keyword has fewer tokens to read. -/
theorem keyword_returns {s : State N} {type : TokenType} (h : s.check type = true)
    (hne : type ≠ .eof) {r : Option (State N)}
    (hr : s.advance.ahead.left < s.ahead.left → Returns r fun s' => Passes s.advance.ahead s'.ahead) :
    Returns r fun s' => Eats s.ahead s'.ahead := by
  have heats := eats_advance s
  exact (hr (heats.lt (ne_eof_of_check h hne))).imp fun s' hs' => heats.then hs'

variable {st d : State N → Option (State N)} {n : ℕ} {s : State N}

theorem statementBody_returns (hst : ∀ k < s.ahead.left, EatsWithin k st)
    (hd : ∀ k < s.ahead.left, EatsWithin k d) (hn : s.ahead.left < n) :
    Returns (statementBody d st n s) fun s' => Eats s.ahead s'.ahead := by
  simp only [statementBody]
  refine Returns.ite (fun h => keyword_returns h (by decide) fun hlt => ?_) fun _ => ?_
  · exact printStatement_returns (expression_returns (hlt.trans hn)) (le_refl _) (.refl _)
  refine Returns.ite (fun h => keyword_returns h (by decide) fun hlt => ?_) fun _ => ?_
  · refine Returns.bind (block_returns (hd _ hlt) (le_refl _) (.refl _) (hlt.trans hn))
      fun s₁ hs₁ => .value ?_
    simpa using hs₁.passes
  refine Returns.ite (fun h => keyword_returns h (by decide) fun hlt => ?_) fun _ => ?_
  · exact ifStatement_returns (expression_returns (hlt.trans hn)) (hst _ hlt) (le_refl _) (.refl _)
  refine Returns.ite (fun h => keyword_returns h (by decide) fun hlt => ?_) fun _ => ?_
  · exact whileStatement_returns (expression_returns (hlt.trans hn)) (hst _ hlt) (le_refl _) (.refl _)
  refine Returns.ite (fun h => keyword_returns h (by decide) fun hlt => ?_) fun _ => ?_
  · exact forStatement_returns (expression_returns (hlt.trans hn)) (hst _ hlt) (le_refl _) (.refl _)
  refine Returns.ite (fun h => keyword_returns h (by decide) fun hlt => ?_) fun _ => ?_
  · exact returnStatement_returns (expression_returns (hlt.trans hn)) (le_refl _) (.refl _)
  · simp only [expressionStatement]
    refine Returns.bind (expression_returns hn s (le_refl _)) fun s₁ hs₁ => .value ?_
    simpa using hs₁.then ((Passes.refl s₁.ahead).consume _ _)

/-- A declaration that reports an error still eats what it has read, and `synchronize` only goes
on from there. -/
theorem declarationBody_returns (hst : EatsWithin s.ahead.left st)
    (hd : ∀ k < s.ahead.left, EatsWithin k d) (hrestores : AlwaysRestores d)
    (hn : s.ahead.left < n) :
    Returns (declarationBody d st n s) fun s' => Eats s.ahead s'.ahead := by
  have hsynchronize : ∀ s₁ : State N, Eats s.ahead s₁.ahead →
      Returns (pure (if s₁.parser.panicMode then s₁.synchronize else s₁))
        fun s' => Eats s.ahead s'.ahead := by
    intro s₁ hs₁
    refine .value (hs₁.then ?_)
    split
    · exact (Passes.refl _).synchronize
    · exact .refl _
  simp only [declarationBody]
  refine Returns.ite (fun h => ?_) fun _ => Returns.ite (fun h => ?_) fun _ =>
    Returns.ite (fun h => ?_) fun _ => ?_
  · refine Returns.bind (keyword_returns h (by decide) fun hlt => ?_) hsynchronize
    exact varDeclaration_returns (expression_returns (hlt.trans hn)) (le_refl _) (.refl _)
  · refine Returns.bind (keyword_returns h (by decide) fun hlt => ?_) hsynchronize
    exact funDeclaration_returns (hd _ hlt) (le_refl _) hrestores (hlt.trans hn) (.refl _)
  · refine Returns.bind (keyword_returns h (by decide) fun hlt => ?_) hsynchronize
    exact classDeclaration_returns (expression_returns (hlt.trans hn)) (hd _ hlt) (le_refl _) hrestores
      (by omega) (.refl _)
  · exact Returns.bind (hst s (le_refl _)) hsynchronize

/-- A statement or a declaration is compiled with three levels of fuel for each token left. -/
theorem statement_declaration_returns (n : ℕ) :
    (∀ s : State N, 3 * s.ahead.left + 1 < n →
      Returns (statement n s) fun s' => Eats s.ahead s'.ahead) ∧
    ∀ s : State N, 3 * s.ahead.left + 2 < n →
      Returns (declaration n s) fun s' => Eats s.ahead s'.ahead := by
  induction n with
  | zero => exact ⟨fun s hn => by omega, fun s hn => by omega⟩
  | succ n ih =>
    obtain ⟨ihst, ihd⟩ := ih
    refine ⟨fun s hn => ?_, fun s hn => ?_⟩
    · exact statementBody_returns (fun k hk s' hs' => ihst s' (by omega))
        (fun k hk s' hs' => ihd s' (by omega)) (by omega)
    · exact declarationBody_returns (fun s' hs' => ihst s' (by omega))
        (fun k hk s' hs' => ihd s' (by omega)) (statement_declaration_restores n).2 (by omega)

theorem compileLoop_returns (n : ℕ) : ∀ s : State N, 3 * s.ahead.left + 3 < n →
    Returns (compileLoop n s) fun s' => Passes s.ahead s'.ahead := by
  induction n with
  | zero =>
    intro s hn
    omega
  | succ n ih =>
    intro s hn
    simp only [compileLoop]
    refine Returns.ite (fun _ => .value (eats_advance s).passes) fun hin => ?_
    have heof : s.ahead.current.type ≠ .eof := by
      simpa [State.check, State.ahead, Parser.ahead] using hin
    refine Returns.bind ((statement_declaration_returns n).2 s (by omega)) fun s₁ hs₁ => ?_
    have hlt := hs₁.lt heof
    exact (ih s₁ (by omega)).imp fun s₂ hs₂ => hs₁.passes.trans hs₂

/-- `compile` returns for every source, be it a program or not.  Its functions call each other and
loop no more than three levels deep for each token; the loop of `synchronize`, which is bounded by the
tokens left, has come to a place where it stops, and that of `advance` to a token that is no error. -/
theorem compile_terminates (source : List Char) :
    (∀ m, ∃ r, compile (N := N) (3 * (scanAll source).pending.length + 4 + m) (scanAll source)
      = some r) ∧
    (∀ s : State N, s.synchronize.parser.Synchronized) ∧
    ∀ s : State N, s.advance.parser.current.type ≠ .error := by
  refine ⟨fun m => ?_, synchronize_synchronized, fun s => s.parser.current_advance⟩
  have hleft : (State.start (N := N) (scanAll source)).advance.ahead.left
      ≤ (scanAll source).pending.length := Parser.left_advanceLoop _ _
  obtain ⟨s, hs, -⟩ := compileLoop_returns (3 * (scanAll source).pending.length + 4 + m)
    (State.start (N := N) (scanAll source)).advance (by omega)
  have hscript : State.start (N := N) (scanAll source)
      = ({ State.start (N := N) (scanAll source) with compilers := [], chunks := [] } :
          State N).initCompiler .script := rfl
  have hrestores := (Restores.refl (State.start (N := N) (scanAll source))).advance.trans
    (compileLoop_restores _ hs)
  obtain ⟨r, hr, -⟩ := endCompiler_returns (hscript ▸ hrestores)
  simp [compile, compileState, hs, hr]

end Program

end Lox.Clox
