import Lox.Clox.Factor.Expr
import Lox.ToClox

/-!
# Where the tokens parse, no syntax error is reported

`Lox.Clox.Factor.Expr` says what happens if the single pass reports no error.  Here it may report
errors, but not about the syntax: where the Pratt parser returns a tree with no more than 255
arguments to a call, `expression` reads the same tokens and reports only errors about names, about
`this` and `super`, and about sizes.
-/

namespace Lox.Clox

variable {N : Type}

/-- The messages `expression` has that are not about the syntax. -/
def notSyntax : List String :=
  ["Can't read local variable in its own initializer.",
    "Too many closure variables in function.",
    "Too many constants in one chunk.",
    "Too much code to jump over.",
    "Can't use 'this' outside of a class.",
    "Can't use 'super' outside of a class.",
    "Can't use 'super' in a class with no superclass."]

/-- From `s` the parser has come to the cursor in `s'`, and no syntax error has been reported on
the way. -/
structure Tolerates (s s' : State N) (c : Cursor) : Prop where
  cursor : s'.cursor = c
  errors : ∃ es, s'.parser.errors = s.parser.errors ++ es ∧ ∀ e ∈ es, e.message ∈ notSyntax

section Tolerates

variable {s s₁ s₂ : State N} {c c₂ : Cursor}

theorem Tolerates.refl (s : State N) : Tolerates s s s.cursor := ⟨rfl, [], by simp, by simp⟩

theorem Tolerates.trans (h₁ : Tolerates s s₁ c) (h₂ : Tolerates s₁ s₂ c₂) :
    Tolerates s s₂ c₂ := by
  obtain ⟨es₁, h₁, hes₁⟩ := h₁.errors
  obtain ⟨es₂, h, hes₂⟩ := h₂.errors
  refine ⟨h₂.cursor, es₁ ++ es₂, by rw [h, h₁, List.append_assoc], fun e he => ?_⟩
  exact (List.mem_append.1 he).elim (hes₁ e) (hes₂ e)

/-- A step that leaves the parser alone. -/
theorem Tolerates.of_tokens (h : Tolerates s s₁ c) (hp : s₂.parser = s₁.parser) :
    Tolerates s s₂ c := by
  obtain ⟨hcursor, herrors⟩ := h
  refine ⟨?_, hp ▸ herrors⟩
  rw [← hcursor, State.cursor, hp]
  rfl

theorem Tolerates.error (h : Tolerates s s₁ c) (m : String) (hm : m ∈ notSyntax) :
    Tolerates s (s₁.error m) c := by
  refine h.trans ?_
  rw [← h.cursor]
  unfold State.error Parser.error Parser.errorAt
  split
  · exact .refl s₁
  · refine ⟨rfl, [_], rfl, fun e he => ?_⟩
    obtain rfl := List.mem_singleton.1 he
    exact hm

theorem Tolerates.errorList (h : Tolerates s s₁ c) {ms : List String}
    (hms : ∀ m ∈ ms, m ∈ notSyntax) : Tolerates s (ms.foldl (fun s m => s.error m) s₁) c := by
  induction ms generalizing s₁ with
  | nil => exact h
  | cons m ms ih => exact ih (h.error m (hms m (by simp))) fun m' hm' => hms m' (by simp [hm'])

/-! ### Tokens -/

theorem Tolerates.advance (h : Tolerates s s₁ c) (hc : Pratt.advance c = some c₂) :
    Tolerates s s₁.advance c₂ := by
  refine h.trans ?_
  rw [← h.cursor] at hc
  unfold Pratt.advance Scanner.scanToken at hc
  unfold State.advance Parser.advance
  simp only [State.cursor, Parser.cursor] at hc
  cases hp : s₁.parser.scanner.pending with
  | nil =>
    simp only [hp, Parser.advanceLoop] at hc ⊢
    rw [if_neg (by simp [Scanner.eofToken])] at hc
    refine ⟨?_, [], by simp, by simp⟩
    rw [← Option.some.inj hc]
    simp only [State.cursor, Parser.cursor]
    cases hscanner : s₁.parser.scanner
    simp_all [Scanner.eofToken]
  | cons t ts =>
    simp only [hp, Parser.advanceLoop] at hc ⊢
    split at hc
    · cases hc
    · rename_i ht
      rw [if_neg ht]
      exact ⟨Option.some.inj hc, [], by simp, by simp⟩

theorem Tolerates.check (h : Tolerates s s₁ c) (type : TokenType) :
    s₁.check type = Pratt.check type c := by
  rw [← h.cursor]
  rfl

theorem Tolerates.consume (h : Tolerates s s₁ c) {type : TokenType} (m : String)
    (hc : Pratt.consume type c = some c₂) : Tolerates s (s₁.consume type m) c₂ := by
  unfold Pratt.consume at hc
  unfold State.consume
  rw [h.check]
  split at hc
  · rename_i hcheck
    rw [if_pos hcheck]
    exact h.advance hc
  · cases hc

/-! ### Constants, variables, jumps -/

theorem Tolerates.makeConstant (h : Tolerates s s₁ c) (v : Constant N) :
    Tolerates s (s₁.makeConstant v).2 c := by
  unfold State.makeConstant
  simp only
  split
  · refine Tolerates.error (h.of_tokens ?_) _ (by simp [notSyntax])
    rfl
  · exact h.of_tokens rfl

theorem ownInitializer_notSyntax (b : Bool) : ∀ m ∈ ownInitializer b, m ∈ notSyntax := by
  cases b <;> simp [ownInitializer, notSyntax]

theorem addUpvalue_notSyntax (i : UInt8) (b : Bool) (k : Compiler N) :
    ∀ m ∈ (addUpvalue i b k).2.2, m ∈ notSyntax := by
  unfold addUpvalue
  split
  · simp
  · split <;> simp [notSyntax]

theorem resolveUpvalue_notSyntax (name : Name) (cs : List (Compiler N)) :
    ∀ m ∈ (resolveUpvalue name cs).2.2, m ∈ notSyntax := by
  fun_induction resolveUpvalue name cs with
  | case1 | case2 => simp
  | case3 c e cs slot uninitialized h i c' errors hadd =>
    intro m hm
    rcases List.mem_append.1 hm with hm | hm
    · exact ownInitializer_notSyntax _ m hm
    · have h := addUpvalue_notSyntax (UInt8.ofNat slot) true c m
      exact h (by simp_all)
  | case4 c e cs hlocal upvalue cs' errors hup i c' errors' hadd ih =>
    intro m hm
    rcases List.mem_append.1 hm with hm | hm
    · exact ih m (by simp_all)
    · have h := addUpvalue_notSyntax (UInt8.ofNat upvalue) false c m
      exact h (by simp_all)
  | case5 c e cs hlocal cs' errors hup ih =>
    intro m hm
    exact ih m (by simp_all)

theorem Tolerates.resolveVariable (h : Tolerates s s₁ c) (name : Token) :
    Tolerates s (s₁.resolveVariable name).2 c := by
  unfold State.resolveVariable
  split
  · exact h.errorList (ownInitializer_notSyntax _)
  · have hms := resolveUpvalue_notSyntax name.lexeme s₁.compilers
    split <;> rename_i hup <;> rw [hup] at hms
    · refine Tolerates.errorList (h.of_tokens ?_) hms
      rfl
    · refine Tolerates.makeConstant (Tolerates.errorList (h.of_tokens ?_) hms) _
      rfl

theorem Tolerates.patchJump (h : Tolerates s s₁ c) (offset : ℕ) :
    Tolerates s (s₁.patchJump offset) c := by
  unfold State.patchJump
  simp only
  split
  · exact (h.error "Too much code to jump over." (by simp [notSyntax])).of_tokens rfl
  · exact h.of_tokens rfl

theorem Tolerates.checkSuper (h : Tolerates s s₁ c) : Tolerates s s₁.checkSuper c := by
  unfold State.checkSuper
  split
  · exact h.error _ (by simp [notSyntax])
  · split
    · exact h
    · exact h.error _ (by simp [notSyntax])

end Tolerates

/-! ### Expressions -/

/-- A function of `compiler.c` that reads the tokens its counterpart reads, if the tree fits. -/
def Follows (f : State N → Option (State N)) (g : Cursor → Option (Expr N × Cursor)) : Prop :=
  ∀ s₀ s c e c', Tolerates s₀ s c → g c = some (e, c') → e.Fits →
    ∃ s', f s = some s' ∧ Tolerates s₀ s' c'

/-- `parsePrecedence` and its counterpart. -/
def FollowsAll (f : Precedence → State N → Option (State N)) (g : Pratt.PrecedenceParser N) :
    Prop :=
  ∀ p, Follows (f p) (g p)

section Arguments

variable {f : State N → Option (State N)} {g : Cursor → Option (Expr N × Cursor)}
  (hf : Follows f g) {s₀ : State N}

include hf

theorem argumentLoop_follows (n : ℕ) : ∀ (k : UInt8) s c es c', Tolerates s₀ s c →
    Pratt.argumentLoop g n c = some (es, c') → Expr.FitsList es → k.toNat + es.length ≤ 255 →
    ∃ k' s', argumentLoop f n k s = some (k', s') ∧ Tolerates s₀ s' c' := by
  induction n with
  | zero =>
    intro k s c es c' _ hg
    cases hg
  | succ n ih =>
    intro k s c es c' h hg hfits hk
    simp only [Pratt.argumentLoop, Option.bind_eq_bind, Option.bind_eq_some_iff,
      Prod.exists] at hg
    obtain ⟨e, c₁, he, hg⟩ := hg
    split at hg
    · rename_i hcheck
      simp only [Option.bind_eq_some_iff, Prod.exists] at hg
      obtain ⟨c₂, hadvance, es, c₃, hes, hg⟩ := hg
      obtain ⟨rfl, rfl⟩ := Prod.mk.inj (Option.some.inj hg)
      obtain ⟨s₁, hs₁, h₁⟩ := hf _ _ _ _ _ h he hfits.1
      rw [List.length_cons] at hk
      have hk₁ : (k + 1).toNat = k.toNat + 1 := by
        rw [UInt8.toNat_add]
        simp only [UInt8.reduceToNat]
        omega
      have hne : k ≠ 255 := fun heq => by
        rw [heq] at hk
        simp only [UInt8.reduceToNat] at hk
        omega
      obtain ⟨k', s', hs', h'⟩ := ih (k + 1) _ _ _ _ (h₁.advance hadvance) hes hfits.2 (by omega)
      refine ⟨k', s', ?_, h'⟩
      simp [argumentLoop, hs₁, hne, h₁.check, hcheck, hs']
    · rename_i hcheck
      obtain ⟨rfl, rfl⟩ := Prod.mk.inj (Option.some.inj hg)
      obtain ⟨s₁, hs₁, h₁⟩ := hf _ _ _ _ _ h he hfits.1
      have hne : k ≠ 255 := fun heq => by
        rw [heq] at hk
        simp at hk
      refine ⟨k + 1, s₁, ?_, h₁⟩
      simp [argumentLoop, hs₁, hne, h₁.check, hcheck]

theorem argumentList_follows {n : ℕ} {s : State N} {c c' : Cursor} {es : List (Expr N)}
    (h : Tolerates s₀ s c) (hg : Pratt.argumentList g n c = some (es, c'))
    (hfits : Expr.FitsList es) (hlength : es.length ≤ 255) :
    ∃ k s', argumentList f n s = some (k, s') ∧ Tolerates s₀ s' c' := by
  simp only [Pratt.argumentList, Option.bind_eq_bind] at hg
  rw [argumentList, h.check]
  split at hg
  · rename_i hcheck
    simp only [Option.bind_some, Option.bind_eq_some_iff] at hg
    obtain ⟨c₁, hconsume, hg⟩ := hg
    obtain ⟨rfl, rfl⟩ := Prod.mk.inj (Option.some.inj hg)
    rw [if_pos hcheck]
    exact ⟨0, _, rfl, h.consume _ hconsume⟩
  · rename_i hcheck
    simp only [Option.bind_eq_some_iff, Prod.exists] at hg
    obtain ⟨es, c₁, hes, c₂, hconsume, hg⟩ := hg
    obtain ⟨rfl, rfl⟩ := Prod.mk.inj (Option.some.inj hg)
    obtain ⟨k, s₁, hs₁, h₁⟩ :=
      argumentLoop_follows hf n 0 s c es c₁ h hes hfits (by simpa using hlength)
    rw [if_neg hcheck, hs₁]
    exact ⟨k, _, rfl, h₁.consume _ hconsume⟩

theorem namedVariable_follows {name : Token} {canAssign : Bool} {s : State N} {c c' : Cursor}
    {e : Expr N} (h : Tolerates s₀ s c)
    (hg : Pratt.namedVariable g name canAssign c = some (e, c')) (hfits : e.Fits) :
    ∃ s', namedVariable f name canAssign s = some s' ∧ Tolerates s₀ s' c' := by
  have h₁ := h.resolveVariable name
  simp only [Pratt.namedVariable, Option.bind_eq_bind] at hg
  simp only [namedVariable, h₁.check]
  split at hg
  · rename_i hcheck
    simp only [Option.bind_eq_some_iff, Prod.exists] at hg
    obtain ⟨c₁, hadvance, value, c₂, hvalue, hg⟩ := hg
    obtain ⟨rfl, rfl⟩ := Prod.mk.inj (Option.some.inj hg)
    obtain ⟨s₂, hs₂, h₂⟩ := hf _ _ _ _ _ (h₁.advance hadvance) hvalue hfits
    rw [if_pos hcheck, hs₂]
    exact ⟨_, rfl, h₂.of_tokens rfl⟩
  · rename_i hcheck
    obtain ⟨rfl, rfl⟩ := Prod.mk.inj (Option.some.inj hg)
    rw [if_neg hcheck]
    exact ⟨_, rfl, h₁.of_tokens rfl⟩

omit hf in
theorem loadVariable_follows {s : State N} {c : Cursor} (h : Tolerates s₀ s c) (name : Token) :
    ∃ s', namedVariable f name false s = some s' ∧ Tolerates s₀ s' c := by
  simp only [namedVariable, Bool.false_and, Bool.false_eq_true, if_false]
  exact ⟨_, rfl, (h.resolveVariable name).of_tokens rfl⟩

end Arguments

section Rules

variable {f : Precedence → State N → Option (State N)} {g : Pratt.PrecedenceParser N}
  (hf : FollowsAll f g) {s₀ s : State N} {c c' : Cursor} {e : Expr N} {n : ℕ}

include hf

theorem super_follows (h : Tolerates s₀ s c)
    (hg : Pratt.super_ (g .assignment) n c = some (e, c')) (hfits : e.Fits) :
    ∃ s', super_ (f .assignment) n s = some s' ∧ Tolerates s₀ s' c' := by
  simp only [Pratt.super_, Option.bind_eq_bind, Option.bind_eq_some_iff] at hg
  obtain ⟨c₁, hdot, c₂, hname, hg⟩ := hg
  have h₁ := ((h.checkSuper.consume "Expect '.' after 'super'." hdot).consume
    "Expect superclass method name." hname).makeConstant
    (.string ((s.checkSuper.consume .dot "Expect '.' after 'super'.").consume .identifier
      "Expect superclass method name.").parser.previous.lexeme)
  obtain ⟨s₂, hs₂, h₂⟩ := loadVariable_follows (f := f .assignment) h₁
    (syntheticToken "this".toList)
  simp only [super_, State.identifierConstant, hs₂, Option.bind_eq_bind, Option.bind_some,
    h₂.check]
  split at hg
  · rename_i hcheck
    simp only [Option.bind_eq_some_iff, Prod.exists] at hg
    obtain ⟨c₃, hadvance, es, c₄, hes, hg⟩ := hg
    obtain ⟨rfl, rfl⟩ := Prod.mk.inj (Option.some.inj hg)
    obtain ⟨k, s₃, hs₃, h₃⟩ :=
      argumentList_follows (hf .assignment) (h₂.advance hadvance) hes hfits.2 hfits.1
    obtain ⟨s₄, hs₄, h₄⟩ := loadVariable_follows (f := f .assignment) h₃
      (syntheticToken "super".toList)
    rw [if_pos hcheck, hs₃]
    simp only [Option.bind_some, hs₄]
    exact ⟨_, rfl, h₄.of_tokens rfl⟩
  · rename_i hcheck
    obtain ⟨rfl, rfl⟩ := Prod.mk.inj (Option.some.inj hg)
    obtain ⟨s₄, hs₄, h₄⟩ := loadVariable_follows (f := f .assignment) h₂
      (syntheticToken "super".toList)
    rw [if_neg hcheck, hs₄]
    exact ⟨_, rfl, h₄.of_tokens rfl⟩

theorem dot_follows {left : Expr N} {canAssign : Bool} (h : Tolerates s₀ s c)
    (hg : Pratt.dot (g .assignment) n left canAssign c = some (e, c')) (hfits : e.Fits) :
    ∃ s', dot (f .assignment) n canAssign s = some s' ∧ Tolerates s₀ s' c' := by
  simp only [Pratt.dot, Option.bind_eq_bind, Option.bind_eq_some_iff] at hg
  obtain ⟨c₁, hname, hg⟩ := hg
  have h₁ := (h.consume "Expect property name after '.'." hname).makeConstant
    (.string (s.consume .identifier "Expect property name after '.'.").parser.previous.lexeme)
  simp only [dot, State.identifierConstant, h₁.check]
  split at hg
  · rename_i hcheck
    simp only [Option.bind_eq_some_iff, Prod.exists] at hg
    obtain ⟨c₂, hadvance, value, c₃, hvalue, hg⟩ := hg
    obtain ⟨rfl, rfl⟩ := Prod.mk.inj (Option.some.inj hg)
    obtain ⟨s₂, hs₂, h₂⟩ := hf .assignment _ _ _ _ _ (h₁.advance hadvance) hvalue hfits.2
    rw [if_pos hcheck, hs₂]
    exact ⟨_, rfl, h₂.of_tokens rfl⟩
  rename_i hequal
  rw [if_neg hequal]
  split at hg
  · rename_i hcheck
    simp only [Option.bind_eq_some_iff, Prod.exists] at hg
    obtain ⟨c₂, hadvance, es, c₃, hes, hg⟩ := hg
    obtain ⟨rfl, rfl⟩ := Prod.mk.inj (Option.some.inj hg)
    obtain ⟨k, s₂, hs₂, h₂⟩ :=
      argumentList_follows (hf .assignment) (h₁.advance hadvance) hes hfits.2.2 hfits.2.1
    rw [if_pos hcheck, hs₂]
    exact ⟨_, rfl, h₂.of_tokens rfl⟩
  · rename_i hcheck
    obtain ⟨rfl, rfl⟩ := Prod.mk.inj (Option.some.inj hg)
    rw [if_neg hcheck]
    exact ⟨_, rfl, h₁.of_tokens rfl⟩

theorem prefixRule_follows [Double N] {rule : ParseFn} {canAssign : Bool} (h : Tolerates s₀ s c)
    (hg : Pratt.prefixExpr g n rule canAssign c = some (e, c')) (hfits : e.Fits) :
    ∃ s', applyRule f n rule canAssign s = some s' ∧ Tolerates s₀ s' c' := by
  have hprevious : s.parser.previous = c.previous := by rw [← h.cursor]; rfl
  cases rule with
  | grouping =>
    simp only [Pratt.prefixExpr, Option.bind_eq_bind, Option.bind_eq_some_iff, Prod.exists] at hg
    obtain ⟨e, c₁, he, c₂, hconsume, hg⟩ := hg
    obtain ⟨rfl, rfl⟩ := Prod.mk.inj (Option.some.inj hg)
    obtain ⟨s₁, hs₁, h₁⟩ := hf .assignment _ _ _ _ _ h he hfits
    simp only [applyRule, grouping, hs₁, Option.bind_eq_bind, Option.bind_some]
    exact ⟨_, rfl, h₁.consume _ hconsume⟩
  | unary =>
    simp only [Pratt.prefixExpr, Option.bind_eq_bind, Option.bind_eq_some_iff, Prod.exists] at hg
    obtain ⟨op, -, e, c₁, he, hg⟩ := hg
    obtain ⟨rfl, rfl⟩ := Prod.mk.inj (Option.some.inj hg)
    obtain ⟨s₁, hs₁, h₁⟩ := hf .unary _ _ _ _ _ h he hfits
    simp only [applyRule, unary, hs₁, Option.bind_eq_bind, Option.bind_some]
    refine ⟨_, rfl, h₁.of_tokens ?_⟩
    split <;> rfl
  | variable_ =>
    simp only [applyRule, variable_, hprevious]
    exact namedVariable_follows (hf .assignment) h hg hfits
  | string =>
    obtain ⟨rfl, rfl⟩ := Prod.mk.inj (Option.some.inj hg)
    exact ⟨_, rfl, (h.makeConstant _).of_tokens rfl⟩
  | number =>
    obtain ⟨rfl, rfl⟩ := Prod.mk.inj (Option.some.inj hg)
    exact ⟨_, rfl, (h.makeConstant _).of_tokens rfl⟩
  | literal =>
    have hc : c' = c := by
      simp only [Pratt.prefixExpr] at hg
      split at hg
      · exact (Prod.mk.inj (Option.some.inj hg)).2.symm
      · exact (Prod.mk.inj (Option.some.inj hg)).2.symm
      · exact (Prod.mk.inj (Option.some.inj hg)).2.symm
      · cases hg
    subst hc
    refine ⟨_, rfl, h.of_tokens ?_⟩
    unfold literal
    split <;> rfl
  | super_ => exact super_follows hf h hg hfits
  | this_ =>
    obtain ⟨rfl, rfl⟩ := Prod.mk.inj (Option.some.inj hg)
    simp only [applyRule, this_, variable_]
    split
    · exact ⟨_, rfl, h.error _ (by simp [notSyntax])⟩
    · exact loadVariable_follows h _
  | call | dot | binary | and_ | or_ => cases hg

theorem infixRule_follows [Double N] {rule : ParseFn} {canAssign : Bool} {left : Expr N}
    (h : Tolerates s₀ s c) (hg : Pratt.infixExpr g n rule left canAssign c = some (e, c'))
    (hfits : e.Fits) : ∃ s', applyRule f n rule canAssign s = some s' ∧ Tolerates s₀ s' c' := by
  have hprevious : s.parser.previous = c.previous := by rw [← h.cursor]; rfl
  cases rule with
  | binary =>
    simp only [Pratt.infixExpr, Option.bind_eq_bind, Option.bind_eq_some_iff, Prod.exists] at hg
    obtain ⟨op, -, e, c₁, he, hg⟩ := hg
    obtain ⟨rfl, rfl⟩ := Prod.mk.inj (Option.some.inj hg)
    obtain ⟨s₁, hs₁, h₁⟩ := hf _ _ _ _ _ _ h he hfits.2
    simp only [applyRule, binary, hprevious, hs₁, Option.bind_eq_bind, Option.bind_some]
    refine ⟨_, rfl, h₁.of_tokens ?_⟩
    split <;> rfl
  | call =>
    simp only [Pratt.infixExpr, Option.bind_eq_bind, Option.bind_eq_some_iff, Prod.exists] at hg
    obtain ⟨es, c₁, hes, hg⟩ := hg
    obtain ⟨rfl, rfl⟩ := Prod.mk.inj (Option.some.inj hg)
    obtain ⟨k, s₁, hs₁, h₁⟩ :=
      argumentList_follows (hf .assignment) h hes hfits.2.2 hfits.2.1
    simp only [applyRule, call, hs₁, Option.bind_eq_bind, Option.bind_some]
    exact ⟨_, rfl, h₁.of_tokens rfl⟩
  | dot => exact dot_follows hf h hg hfits
  | and_ =>
    simp only [Pratt.infixExpr, Option.bind_eq_bind, Option.bind_eq_some_iff, Prod.exists] at hg
    obtain ⟨e, c₁, he, hg⟩ := hg
    obtain ⟨rfl, rfl⟩ := Prod.mk.inj (Option.some.inj hg)
    have h₁ : Tolerates s₀ ((s.emitJump .jumpIfFalse).2.emitByte OpCode.pop.byte) c :=
      h.of_tokens rfl
    obtain ⟨s₂, hs₂, h₂⟩ := hf .and _ _ _ _ _ h₁ he hfits.2
    simp only [applyRule, and_, hs₂, Option.bind_eq_bind, Option.bind_some]
    exact ⟨_, rfl, h₂.patchJump _⟩
  | or_ =>
    simp only [Pratt.infixExpr, Option.bind_eq_bind, Option.bind_eq_some_iff, Prod.exists] at hg
    obtain ⟨e, c₁, he, hg⟩ := hg
    obtain ⟨rfl, rfl⟩ := Prod.mk.inj (Option.some.inj hg)
    have h₁ : Tolerates s₀ ((s.emitJump .jumpIfFalse).2.emitJump .jump).2 c := h.of_tokens rfl
    have h₂ : Tolerates s₀ ((((s.emitJump .jumpIfFalse).2.emitJump .jump).2.patchJump
        (s.emitJump .jumpIfFalse).1).emitByte OpCode.pop.byte) c :=
      (h₁.patchJump _).of_tokens rfl
    obtain ⟨s₃, hs₃, h₃⟩ := hf .or _ _ _ _ _ h₂ he hfits.2
    simp only [applyRule, or_, hs₃, Option.bind_eq_bind, Option.bind_some]
    exact ⟨_, rfl, h₃.patchJump _⟩
  | grouping | unary | variable_ | string | number | literal | super_ | this_ => cases hg

end Rules

/-! ### The loop -/

section Loop

variable {f : Precedence → State N → Option (State N)} {g : Pratt.PrecedenceParser N}
  {c c' : Cursor} {left e : Expr N} {n : ℕ} {p : Precedence} {canAssign : Bool}

/-- The left operand is part of the tree. -/
theorem infixExpr_fits {rule : ParseFn}
    (hg : Pratt.infixExpr g n rule left canAssign c = some (e, c')) (hfits : e.Fits) :
    left.Fits := by
  cases rule with
  | binary =>
    simp only [Pratt.infixExpr, Option.bind_eq_bind, Option.bind_eq_some_iff, Prod.exists] at hg
    obtain ⟨op, -, e, c₁, -, hg⟩ := hg
    obtain ⟨rfl, rfl⟩ := Prod.mk.inj (Option.some.inj hg)
    exact hfits.1
  | call | and_ | or_ =>
    simp only [Pratt.infixExpr, Option.bind_eq_bind, Option.bind_eq_some_iff, Prod.exists] at hg
    obtain ⟨_, c₁, -, hg⟩ := hg
    obtain ⟨rfl, rfl⟩ := Prod.mk.inj (Option.some.inj hg)
    exact hfits.1
  | dot =>
    simp only [Pratt.infixExpr, Pratt.dot, Option.bind_eq_bind, Option.bind_eq_some_iff] at hg
    obtain ⟨c₁, -, hg⟩ := hg
    split at hg
    · simp only [Option.bind_eq_some_iff, Prod.exists] at hg
      obtain ⟨c₂, -, value, c₃, -, hg⟩ := hg
      obtain ⟨rfl, rfl⟩ := Prod.mk.inj (Option.some.inj hg)
      exact hfits.1
    split at hg
    · simp only [Option.bind_eq_some_iff, Prod.exists] at hg
      obtain ⟨c₂, -, es, c₃, -, hg⟩ := hg
      obtain ⟨rfl, rfl⟩ := Prod.mk.inj (Option.some.inj hg)
      exact hfits.1
    · obtain ⟨rfl, rfl⟩ := Prod.mk.inj (Option.some.inj hg)
      exact hfits
  | grouping | unary | variable_ | string | number | literal | super_ | this_ => cases hg

theorem infixLoop_fits : ∀ (n : ℕ) (left : Expr N) (c : Cursor),
    Pratt.infixLoop g n p canAssign left c = some (e, c') → e.Fits → left.Fits := by
  intro n
  induction n with
  | zero =>
    intro left c hg
    cases hg
  | succ n ih =>
    intro left c hg hfits
    rw [Pratt.infixLoop] at hg
    split at hg
    · simp only [Option.bind_eq_bind, Option.bind_eq_some_iff, Prod.exists] at hg
      obtain ⟨c₁, -, rule, -, e₁, c₂, hinf, hg⟩ := hg
      exact infixExpr_fits hinf (ih _ _ hg hfits)
    · obtain ⟨rfl, rfl⟩ := Prod.mk.inj (Option.some.inj hg)
      exact hfits

theorem infixLoop_follows [Double N] (hf : FollowsAll f g) {s₀ : State N} (n : ℕ) :
    ∀ (left : Expr N) (s : State N) (c : Cursor), Tolerates s₀ s c →
      Pratt.infixLoop g n p canAssign left c = some (e, c') → e.Fits →
      ∃ s', infixLoop f n p canAssign s = some s' ∧ Tolerates s₀ s' c' := by
  induction n with
  | zero =>
    intro left s c _ hg
    cases hg
  | succ n ih =>
    intro left s c h hg hfits
    have hcurrent : s.parser.current = c.current := by rw [← h.cursor]; rfl
    rw [Pratt.infixLoop] at hg
    rw [infixLoop, hcurrent]
    split at hg
    · rename_i hprecedence
      simp only [Option.bind_eq_bind, Option.bind_eq_some_iff, Prod.exists] at hg
      obtain ⟨c₁, hadvance, rule, hrule, e₁, c₂, hinf, hg⟩ := hg
      have h₁ := h.advance hadvance
      have hprevious : s.advance.parser.previous = c₁.previous := by rw [← h₁.cursor]; rfl
      obtain ⟨s₂, hs₂, h₂⟩ := infixRule_follows hf h₁ hinf (infixLoop_fits n _ _ hg hfits)
      obtain ⟨s₃, hs₃, h₃⟩ := ih _ _ _ h₂ hg hfits
      refine ⟨s₃, ?_, h₃⟩
      rw [if_pos hprecedence]
      simp only [hprevious, hrule, hs₂, Option.bind_eq_bind, Option.bind_some, hs₃]
    · rename_i hprecedence
      obtain ⟨rfl, rfl⟩ := Prod.mk.inj (Option.some.inj hg)
      rw [if_neg hprecedence]
      exact ⟨s, rfl, h⟩

end Loop

theorem parsePrecedence_follows [Double N] (n : ℕ) :
    FollowsAll (N := N) (parsePrecedence n) (Pratt.parsePrecedence n) := by
  induction n with
  | zero =>
    intro p s₀ s c e c' _ hg
    cases hg
  | succ n ih =>
    intro p s₀ s c e c' h hg hfits
    simp only [Pratt.parsePrecedence, Option.bind_eq_bind, Option.bind_eq_some_iff,
      Prod.exists] at hg
    obtain ⟨c₁, hadvance, rule, hrule, e₁, c₂, hpre, e₂, c₃, hloop, hg⟩ := hg
    split at hg
    · cases hg
    rename_i hcheck
    obtain ⟨rfl, rfl⟩ := Prod.mk.inj (Option.some.inj hg)
    have h₁ := h.advance hadvance
    have hprevious : s.advance.parser.previous = c₁.previous := by rw [← h₁.cursor]; rfl
    obtain ⟨s₂, hs₂, h₂⟩ := prefixRule_follows ih h₁ hpre (infixLoop_fits n _ _ hloop hfits)
    obtain ⟨s₃, hs₃, h₃⟩ := infixLoop_follows ih n _ _ _ h₂ hloop hfits
    refine ⟨s₃, ?_, h₃⟩
    simp only [parsePrecedence, hprevious, hrule, hs₂, Option.bind_eq_bind, Option.bind_some, hs₃,
      h₃.check]
    rw [if_neg hcheck]
    rfl

/-- Where the Pratt parser returns a tree that fits, `expression` reads the same tokens and reports
no syntax error. -/
theorem expression_follows [Double N] (n : ℕ) :
    Follows (N := N) (expression n) (Pratt.expression n) :=
  parsePrecedence_follows n .assignment

/-! ### Arguments that code is made for -/

mutual

theorem fits_of_genExpr : ∀ (e : Expr N) {x : Ctx N} {r : List Instr × Ctx N},
    genExpr e x = some r → e.Fits
  | .nil, _, _, _ | .true_, _, _, _ | .false_, _, _, _ | .number _, _, _, _ | .string _, _, _, _
  | .variable_ _, _, _, _ | .this_, _, _, _ | .super_ _, _, _, _ => trivial
  | .grouping e, x, r, h => by
    rw [genExpr] at h
    exact fits_of_genExpr e h
  | .unary op e, x, r, h => by
    simp only [genExpr, Option.bind_eq_bind, Option.bind_eq_some_iff] at h
    obtain ⟨_, he, -⟩ := h
    exact fits_of_genExpr e he
  | .binary op l r, x, _, h => by
    simp only [genExpr, Option.bind_eq_bind, Option.bind_eq_some_iff] at h
    obtain ⟨_, hl, _, hr, -⟩ := h
    exact ⟨fits_of_genExpr l hl, fits_of_genExpr r hr⟩
  | .and_ l r, x, _, h => by
    simp only [genExpr, Option.bind_eq_bind, Option.bind_eq_some_iff] at h
    obtain ⟨_, hl, _, hr, -⟩ := h
    exact ⟨fits_of_genExpr l hl, fits_of_genExpr r hr⟩
  | .or_ l r, x, _, h => by
    simp only [genExpr, Option.bind_eq_bind, Option.bind_eq_some_iff] at h
    obtain ⟨_, hl, _, hr, -⟩ := h
    exact ⟨fits_of_genExpr l hl, fits_of_genExpr r hr⟩
  | .assign name e, x, _, h => by
    simp only [genExpr, Option.bind_eq_bind, Option.bind_eq_some_iff] at h
    obtain ⟨_, -, _, he, -⟩ := h
    exact fits_of_genExpr e he
  | .call e es, x, _, h => by
    simp only [genExpr, Option.bind_eq_bind, Option.bind_eq_some_iff] at h
    obtain ⟨_, he, _, hes, -⟩ := h
    exact ⟨fits_of_genExpr e he, fits_of_genArgs es hes⟩
  | .get e name, x, _, h => by
    simp only [genExpr, Option.bind_eq_bind, Option.bind_eq_some_iff] at h
    obtain ⟨_, he, -⟩ := h
    exact fits_of_genExpr e he
  | .set e name v, x, _, h => by
    simp only [genExpr, Option.bind_eq_bind, Option.bind_eq_some_iff] at h
    obtain ⟨_, he, _, -, _, hv, -⟩ := h
    exact ⟨fits_of_genExpr e he, fits_of_genExpr v hv⟩
  | .invoke e name es, x, _, h => by
    simp only [genExpr, Option.bind_eq_bind, Option.bind_eq_some_iff] at h
    obtain ⟨_, he, _, -, _, hes, -⟩ := h
    exact ⟨fits_of_genExpr e he, fits_of_genArgs es hes⟩
  | .superInvoke name es, x, _, h => by
    simp only [genExpr] at h
    split at h
    · simp only [Option.bind_eq_bind, Option.bind_eq_some_iff] at h
      obtain ⟨_, -, _, -, _, hes, -⟩ := h
      exact fits_of_genArgs es hes
    · cases h

theorem fits_of_genArgs : ∀ (es : List (Expr N)) {x : Ctx N} {r : List Instr × Ctx N},
    genArgs es x = some r → es.length ≤ 255 ∧ Expr.FitsList es
  | [], _, _, _ => ⟨by simp, trivial⟩
  | e :: es, x, _, h => by
    simp only [genArgs, Option.bind_eq_bind, Option.bind_eq_some_iff] at h
    obtain ⟨_, he, _, hes, h⟩ := h
    have hfits := fits_of_genArgs es hes
    split at h
    · cases h
    · exact ⟨by rw [List.length_cons]; omega, fits_of_genExpr e he, hfits.2⟩

end

end Lox.Clox
