import Lox.Clox.Codegen

/-!
# The single pass factors through the tree: expressions

On a source it accepts, `compile` computes the same function as parsing the tokens into a tree
and generating code from the tree.  This file proves it for expressions
(`parsePrecedence_step`); statements and whole programs are in `Lox.Clox.Factor.Stmt`.

Every function of `compiler.c` is described by a `Step`: whatever happens, the error flags stay
consistent and no chunk is lost, and if no error has been reported at the end, then none was
reported before and the function did what its two counterparts do.
-/

namespace Lox.Clox

variable {N : Type}

/-! ### Appending to the current chunk -/

/-- Append bytes to the chunk of the innermost compiler. -/
def appendHead (bytes : List UInt8) (chunks : List (List UInt8)) : List (List UInt8) :=
  chunks.modifyHead (· ++ bytes)

@[simp] theorem appendHead_nil (chunks : List (List UInt8)) : appendHead [] chunks = chunks := by
  cases chunks <;> simp [appendHead]

@[simp] theorem appendHead_appendHead (a b : List UInt8) (chunks : List (List UInt8)) :
    appendHead b (appendHead a chunks) = appendHead (a ++ b) chunks := by
  cases chunks <;> simp [appendHead]

@[simp] theorem length_appendHead (a : List UInt8) (chunks : List (List UInt8)) :
    (appendHead a chunks).length = chunks.length := by
  cases chunks <;> simp [appendHead]

@[simp] theorem encodeAll_nil : encodeAll [] = [] := rfl

@[simp] theorem encodeAll_append (is js : List Instr) :
    encodeAll (is ++ js) = encodeAll is ++ encodeAll js := by
  simp [encodeAll]

@[simp] theorem encodeAll_cons (i : Instr) (is : List Instr) :
    encodeAll (i :: is) = i.encode ++ encodeAll is := by
  simp [encodeAll]

/-! ### Steps of the compiler -/

/-- The tree side of a state. -/
def State.ctx (s : State N) : Ctx N := ⟨s.compilers, s.classes⟩

/-- The token side of a state. -/
def State.cursor (s : State N) : Cursor := s.parser.cursor

/-- The tokens the parser holds or will get. -/
def Parser.tokens (p : Parser) : List Token := p.current :: p.previous :: p.scanner.pending

/-- A token of type `TOKEN_THIS` is the word `this`, as `identifierType` makes them. -/
def ThisIsThis (ts : List Token) : Prop := ∀ t ∈ ts, t.type = .this_ → t.lexeme = "this".toList

/-- Panic mode is entered only by reporting an error, and there is a chunk to emit to. -/
structure State.Sound (s : State N) : Prop where
  panic : s.parser.panicMode = true → s.parser.hadError = true
  chunk : 0 < s.chunks.length
  this_ : ThisIsThis s.parser.tokens

/-- From `s` to `s'`, with `P` if no error has been reported up to `s'`. -/
def Step (s s' : State N) (P : Prop) : Prop :=
  s.Sound → (s'.Sound ∧ s'.chunks.length = s.chunks.length) ∧
    (s'.parser.hadError = false → s.parser.hadError = false ∧ P)

theorem Step.trans {s s₁ s₂ : State N} {P Q : Prop} (h₁ : Step s s₁ P) (h₂ : Step s₁ s₂ Q) :
    Step s s₂ (P ∧ Q) := by
  intro hs
  obtain ⟨⟨hs₁, hl₁⟩, hp⟩ := h₁ hs
  obtain ⟨⟨hs₂, hl₂⟩, hq⟩ := h₂ hs₁
  refine ⟨⟨hs₂, hl₂.trans hl₁⟩, fun he => ?_⟩
  obtain ⟨he₁, q⟩ := hq he
  obtain ⟨he₀, p⟩ := hp he₁
  exact ⟨he₀, p, q⟩

theorem Step.imp {s s' : State N} {P Q : Prop} (h : Step s s' P) (hpq : P → Q) : Step s s' Q := by
  intro hs
  obtain ⟨h₁, h₂⟩ := h hs
  exact ⟨h₁, fun he => ⟨(h₂ he).1, hpq (h₂ he).2⟩⟩

/-- As `Step.trans`, when what the second step does depends on what the first one did. -/
theorem Step.bind {s s₁ s₂ : State N} {P Q : Prop} (h₁ : Step s s₁ P) (h₂ : Step s₁ s₂ True)
    (h : P → Step s₁ s₂ Q) : Step s s₂ (P ∧ Q) := by
  intro hs
  obtain ⟨⟨hs₁, hl₁⟩, hp⟩ := h₁ hs
  obtain ⟨⟨hs₂, hl₂⟩, hq⟩ := h₂ hs₁
  refine ⟨⟨hs₂, hl₂.trans hl₁⟩, fun he => ?_⟩
  obtain ⟨he₀, p⟩ := hp (hq he).1
  exact ⟨he₀, p, ((h p hs₁).2 he).2⟩

/-- A step may use that there is a chunk to emit to. -/
theorem Step.of_sound {s s' : State N} {P : Prop} (h : 0 < s.chunks.length → Step s s' P) :
    Step s s' P :=
  fun hs => h hs.chunk hs

theorem Step.of_this {s s' : State N} {P : Prop} (h : ThisIsThis s.parser.tokens → Step s s' P) :
    Step s s' P :=
  fun hs => h hs.this_ hs

theorem Step.refl (s : State N) : Step s s True :=
  fun hs => ⟨⟨hs, rfl⟩, fun he => ⟨he, trivial⟩⟩

/-- A step that leaves the parser alone. -/
theorem Step.of_parser_eq {s s' : State N} (hp : s'.parser = s.parser)
    (hc : s'.chunks.length = s.chunks.length) : Step s s' True := by
  intro hs
  exact ⟨⟨⟨hp ▸ hs.panic, hc ▸ hs.chunk, hp ▸ hs.this_⟩, hc⟩, fun he => ⟨hp ▸ he, trivial⟩⟩

/-! ### Errors and tokens -/

theorem Parser.hadError_errorAt {p : Parser} (h : p.panicMode = true → p.hadError = true)
    (t : Token) (m : String) : (p.errorAt t m).hadError = true := by
  unfold Parser.errorAt
  split
  · exact h ‹_›
  · rfl

@[simp] theorem Parser.tokens_errorAt (t : Token) (m : String) (p : Parser) :
    (p.errorAt t m).tokens = p.tokens := by
  unfold Parser.errorAt
  split <;> rfl

theorem Parser.hadError_errorAtCurrent {p : Parser} (h : p.panicMode = true → p.hadError = true)
    (m : String) : (p.errorAtCurrent m).hadError = true :=
  Parser.hadError_errorAt h _ m

theorem error_step (m : String) (s : State N) : Step s (s.error m) False := by
  intro hs
  have he : (s.error m).parser.hadError = true := Parser.hadError_errorAt hs.panic _ m
  have ht : (s.error m).parser.tokens = s.parser.tokens := Parser.tokens_errorAt _ m _
  refine ⟨⟨⟨fun _ => he, hs.chunk, ht ▸ hs.this_⟩, rfl⟩, fun h => ?_⟩
  rw [he] at h
  cases h

theorem errorIf_step (c : Prop) [Decidable c] (m : String) (s : State N) :
    Step s (if c then s.error m else s) (¬ c) := by
  split
  · exact (error_step m s).imp False.elim
  · exact (Step.refl s).imp fun _ => ‹_›

theorem errorAtCurrent_step (m : String) (s : State N) : Step s (s.errorAtCurrent m) False := by
  intro hs
  have he : (s.errorAtCurrent m).parser.hadError = true := Parser.hadError_errorAt hs.panic _ m
  have ht : (s.errorAtCurrent m).parser.tokens = s.parser.tokens := Parser.tokens_errorAt _ m _
  refine ⟨⟨⟨fun _ => he, hs.chunk, ht ▸ hs.this_⟩, rfl⟩, fun h => ?_⟩
  rw [he] at h
  cases h

theorem Parser.hadError_advanceLoop (ts : List Token) :
    ∀ p : Parser, p.hadError = true → (p.advanceLoop ts).hadError = true := by
  induction ts with
  | nil => intro p h; exact h
  | cons t ts ih =>
    intro p h
    simp only [Parser.advanceLoop]
    split
    · refine ih _ (Parser.hadError_errorAtCurrent ?_ _)
      exact fun _ => h
    · exact h

theorem Parser.panic_advanceLoop (ts : List Token) :
    ∀ p : Parser, (p.panicMode = true → p.hadError = true) →
      (p.advanceLoop ts).panicMode = true → (p.advanceLoop ts).hadError = true := by
  induction ts with
  | nil => intro p h; exact h
  | cons t ts ih =>
    intro p h
    simp only [Parser.advanceLoop]
    split
    · refine ih _ fun _ => Parser.hadError_errorAtCurrent ?_ _
      exact h
    · exact h

theorem Parser.this_advanceLoop (ts : List Token) :
    ∀ p : Parser, ThisIsThis (p.previous :: ts) → ThisIsThis (p.advanceLoop ts).tokens := by
  induction ts with
  | nil =>
    intro p h t ht
    simp only [Parser.advanceLoop, Parser.tokens, List.mem_cons, List.not_mem_nil, or_false] at ht
    rcases ht with rfl | rfl
    · intro h; cases h
    · exact h _ (by simp)
  | cons t ts ih =>
    intro p h
    simp only [Parser.advanceLoop]
    split
    · refine ih _ ?_
      have hprev : ∀ q : Parser, (q.errorAtCurrent (String.ofList t.start)).previous = q.previous := by
        intro q; unfold Parser.errorAtCurrent Parser.errorAt; split <;> rfl
      rw [hprev]
      intro u hu
      exact h u (by simp only [List.mem_cons] at hu ⊢; tauto)
    · intro u hu
      exact h u (by simp only [Parser.tokens, List.mem_cons] at hu ⊢; tauto)

theorem Parser.this_advance {p : Parser} (h : ThisIsThis p.tokens) :
    ThisIsThis p.advance.tokens := by
  refine Parser.this_advanceLoop _ _ fun t ht => h t ?_
  simp only [Parser.tokens, List.mem_cons] at ht ⊢
  tauto

theorem advance_step (s : State N) :
    Step s s.advance (Pratt.advance s.cursor = some s.advance.cursor) := by
  intro hs
  refine ⟨⟨⟨?_, hs.chunk, Parser.this_advance hs.this_⟩, rfl⟩, fun he => ?_⟩
  · exact Parser.panic_advanceLoop _ _ hs.panic
  · simp only [State.advance, Parser.advance, State.cursor] at he ⊢
    cases hp : s.parser.scanner.pending with
    | nil =>
      simp only [hp, Parser.advanceLoop] at he ⊢
      refine ⟨he, ?_⟩
      simp [Pratt.advance, Parser.cursor, Scanner.scanToken, hp, Scanner.eofToken]
      cases hsc : s.parser.scanner
      simp_all
    | cons t ts =>
      simp only [hp, Parser.advanceLoop] at he ⊢
      by_cases ht : t.type = .error
      · rw [if_pos ht] at he
        rw [Parser.hadError_advanceLoop ts _ (Parser.hadError_errorAtCurrent ?_ _)] at he
        · cases he
        · exact hs.panic
      · rw [if_neg ht] at he ⊢
        refine ⟨he, ?_⟩
        simp [Pratt.advance, Parser.cursor, Scanner.scanToken, hp, ht]

@[simp] theorem advance_ctx (s : State N) : s.advance.ctx = s.ctx := rfl
@[simp] theorem advance_chunks (s : State N) : s.advance.chunks = s.chunks := rfl
@[simp] theorem advance_compilers (s : State N) : s.advance.compilers = s.compilers := rfl
@[simp] theorem error_ctx (m : String) (s : State N) : (s.error m).ctx = s.ctx := rfl
@[simp] theorem error_chunks (m : String) (s : State N) : (s.error m).chunks = s.chunks := rfl

@[simp] theorem cursor_previous (s : State N) : s.cursor.previous = s.parser.previous := rfl

theorem check_cursor (t : TokenType) (s : State N) : Pratt.check t s.cursor = s.check t := rfl

@[simp] theorem consume_ctx (t : TokenType) (m : String) (s : State N) :
    (s.consume t m).ctx = s.ctx := by
  unfold State.consume; split <;> rfl

@[simp] theorem consume_chunks (t : TokenType) (m : String) (s : State N) :
    (s.consume t m).chunks = s.chunks := by
  unfold State.consume; split <;> rfl

theorem consume_step (t : TokenType) (m : String) (s : State N) :
    Step s (s.consume t m) (Pratt.consume t s.cursor = some (s.consume t m).cursor) := by
  unfold State.consume Pratt.consume
  rw [check_cursor]
  split
  · exact advance_step s
  · exact (errorAtCurrent_step m s).imp False.elim

/-! ### Emitting -/

/-- Append bytes to the current chunk. -/
def State.emit (bytes : List UInt8) (s : State N) : State N :=
  { s with chunks := appendHead bytes s.chunks }

@[simp] theorem emit_ctx (b : List UInt8) (s : State N) : (s.emit b).ctx = s.ctx := rfl
@[simp] theorem emit_cursor (b : List UInt8) (s : State N) : (s.emit b).cursor = s.cursor := rfl
@[simp] theorem emit_chunks (b : List UInt8) (s : State N) :
    (s.emit b).chunks = appendHead b s.chunks := rfl

@[simp] theorem emit_emit (a b : List UInt8) (s : State N) :
    (s.emit a).emit b = s.emit (a ++ b) := by
  simp [State.emit]

theorem emitByte_eq (b : UInt8) (s : State N) : s.emitByte b = s.emit [b] := rfl

theorem emitBytes_eq (a b : UInt8) (s : State N) : s.emitBytes a b = s.emit [a, b] := by
  simp [State.emitBytes, emitByte_eq]

theorem emit_step (b : List UInt8) (s : State N) : Step s (s.emit b) True :=
  .of_parser_eq rfl (by simp)

theorem count_of_appendHead {s s₀ : State N} {b : List UInt8} (h₀ : 0 < s₀.chunks.length)
    (h : s.chunks = appendHead b s₀.chunks) : s.count = s₀.count + b.length := by
  unfold State.count
  rw [h]
  cases hc : s₀.chunks with
  | nil => simp [hc] at h₀
  | cons c cs => simp [appendHead]

theorem emitJump_eq (op : OpCode) {s : State N} (h : 0 < s.chunks.length) :
    s.emitJump op = (s.count + 1, s.emit [op.byte, 0xff, 0xff]) := by
  have hc := count_of_appendHead (s := s.emit [op.byte, 0xff, 0xff]) h rfl
  simp only [State.emitJump, emitByte_eq, emit_emit, List.cons_append, List.nil_append]
  rw [hc]
  simp

theorem emitJump_step (op : OpCode) {s s' : State N} {offset : ℕ}
    (h : s.emitJump op = (offset, s')) :
    Step s s' (offset = s.count + 1 ∧ s' = s.emit [op.byte, 0xff, 0xff] ∧
      0 < s.chunks.length) := by
  refine Step.of_sound fun hs => ?_
  rw [emitJump_eq op hs] at h
  obtain ⟨rfl, rfl⟩ := Prod.mk.inj h
  exact (emit_step _ s).imp fun _ => ⟨rfl, rfl, hs⟩

theorem set_set_append (c : List UInt8) (op a b hi lo : UInt8) (rest : List UInt8) :
    ((c ++ op :: a :: b :: rest).set (c.length + 1) hi).set (c.length + 1 + 1) lo
      = c ++ op :: hi :: lo :: rest := by
  induction c with
  | nil => rfl
  | cons x c ih => simp

/-- Patching a jump never loses an error, wherever the jump is. -/
theorem patchJump_step_true (offset : ℕ) (s : State N) : Step s (s.patchJump offset) True := by
  unfold State.patchJump
  simp only
  split
  · exact ((error_step _ s).trans (.of_parser_eq (by rfl) (by simp))).imp fun _ => trivial
  · exact .of_parser_eq (by rfl) (by simp)

/-- Patching the operand of a jump emitted at `s₀`, when `rest` has been emitted since. -/
theorem patchJump_step {s s₀ : State N} {op : OpCode} {a b : UInt8} {rest : List UInt8}
    {offset : ℕ} (h₀ : 0 < s₀.chunks.length)
    (h : s.chunks = appendHead (op.byte :: a :: b :: rest) s₀.chunks)
    (ho : offset = s₀.count + 1) :
    Step s (s.patchJump offset)
      (rest.length ≤ 65535 ∧ (s.patchJump offset).cursor = s.cursor ∧
        (s.patchJump offset).ctx = s.ctx ∧
        (s.patchJump offset).chunks
          = appendHead (op.byte :: shortBytes rest.length ++ rest) s₀.chunks) := by
  subst ho
  have hj : s.count - (s₀.count + 1) - 2 = rest.length := by
    rw [count_of_appendHead h₀ h]
    simp only [List.length_cons]
    omega
  unfold State.patchJump
  simp only [hj]
  by_cases hr : rest.length > 65535
  · simp only [if_pos hr]
    exact ((error_step _ s).trans (.of_parser_eq (by rfl) (by simp))).imp fun h => h.1.elim
  · simp only [if_neg hr]
    refine (Step.of_parser_eq (by rfl) (by simp)).imp fun _ => ⟨by omega, rfl, rfl, ?_⟩
    rw [h]
    cases hc : s₀.chunks with
    | nil => simp [hc] at h₀
    | cons c cs =>
      have hcount : s₀.count = c.length := by simp [State.count, hc]
      simp only [appendHead, List.modifyHead_cons, List.cons_append, hcount, set_set_append,
        shortBytes, List.nil_append]

theorem emitLoop_step_true (loopStart : ℕ) (s : State N) : Step s (s.emitLoop loopStart) True := by
  unfold State.emitLoop
  simp only [emitBytes_eq]
  exact ((emit_step _ s).trans ((errorIf_step _ _ _).trans (emit_step _ _))).imp fun _ => trivial

/-- The jump back to the point where `body` starts. -/
theorem emitLoop_step {s s₀ : State N} {body : List UInt8} (h₀ : 0 < s₀.chunks.length)
    (h : s.chunks = appendHead body s₀.chunks) :
    Step s (s.emitLoop s₀.count)
      (body.length + 3 ≤ 65535 ∧ (s.emitLoop s₀.count).cursor = s.cursor ∧
        (s.emitLoop s₀.count).ctx = s.ctx ∧
        (s.emitLoop s₀.count).chunks
          = appendHead (body ++ (Instr.loop (body.length + 3)).encode) s₀.chunks) := by
  have hs : 0 < s.chunks.length := by rw [h]; simpa using h₀
  have ho : (s.emit [OpCode.loop.byte]).count - s₀.count + 2 = body.length + 3 := by
    rw [count_of_appendHead hs (emit_chunks _ _), count_of_appendHead h₀ h]
    simp only [List.length_singleton]
    omega
  simp only [State.emitLoop, emitByte_eq, ho, emitBytes_eq]
  by_cases hb : body.length + 3 > 65535
  · simp only [if_pos hb]
    exact ((emit_step _ s).trans ((error_step _ _).trans (emit_step _ _))).imp fun h => h.2.1.elim
  · simp only [if_neg hb, emit_emit]
    refine (emit_step _ s).imp fun _ => ⟨by omega, rfl, rfl, ?_⟩
    simp [h, Instr.encode, shortBytes]

/-! ### Constants, variables, scopes -/

/-- `s'` has the tokens of `s`, and the code `is` more. -/
def Emits (s s' : State N) (is : List Instr) : Prop :=
  s'.cursor = s.cursor ∧ s'.chunks = appendHead (encodeAll is) s.chunks

theorem Emits.refl (s : State N) : Emits s s [] := ⟨rfl, by simp⟩

theorem makeConstant_step {v : Constant N} {s s' : State N} {k : UInt8}
    (h : s.makeConstant v = (k, s')) :
    Step s s' (s.ctx.makeConstant v = some (k, s'.ctx) ∧ Emits s s' []) := by
  unfold State.makeConstant at h
  unfold Ctx.makeConstant
  simp only [State.ctx] at h ⊢
  split at h
  · obtain ⟨rfl, rfl⟩ := Prod.mk.inj h
    refine ((Step.of_parser_eq ?_ ?_).trans (error_step _ _)).imp fun h => h.2.elim <;> rfl
  · rename_i hk
    obtain ⟨rfl, rfl⟩ := Prod.mk.inj h
    exact (Step.of_parser_eq (by rfl) (by rfl)).imp fun _ =>
      ⟨(if_neg hk).trans rfl, rfl, by simp [State.mapCurrent]⟩

theorem errors_step (errors : List String) : ∀ s : State N,
    Step s (errors.foldl (fun s m => s.error m) s)
      (errors = [] ∧ errors.foldl (fun s m => s.error m) s = s) := by
  induction errors with
  | nil => intro s; exact (Step.refl s).imp fun _ => ⟨rfl, rfl⟩
  | cons m ms ih => intro s; exact ((error_step m s).trans (ih _)).imp fun h => h.1.elim

/-- How an `Access` and the `VarRef` of the tree side correspond. -/
def Access.Means (access : Access) (ref : VarRef) : Prop :=
  ref.load.encode = [access.getOp.byte, access.arg] ∧
    ref.store.encode = [access.setOp.byte, access.arg]

theorem resolveVariable_step {name : Token} {s s' : State N} {access : Access}
    (h : s.resolveVariable name = (access, s')) :
    Step s s' (∃ ref, s.ctx.resolveVariable name.lexeme = some (ref, s'.ctx) ∧
      access.Means ref ∧ Emits s s' []) := by
  unfold State.resolveVariable at h
  unfold Ctx.resolveVariable
  simp only [Ctx.locals, State.ctx] at h ⊢
  cases hl : resolveLocal name.lexeme ((s.compilers.head?.map (·.locals)).getD []) with
  | some r =>
    obtain ⟨slot, uninitialized⟩ := r
    simp only [hl] at h
    obtain ⟨rfl, rfl⟩ := Prod.mk.inj h
    refine (errors_step _ s).imp fun h => ?_
    obtain ⟨he, hs⟩ := h
    have hu : uninitialized = false := by
      cases uninitialized
      · rfl
      · simp [ownInitializer] at he
    subst hu
    exact ⟨_, rfl, ⟨rfl, rfl⟩, by rw [hs]; exact Emits.refl s⟩
  | none =>
    simp only [hl] at h
    rcases hu : resolveUpvalue name.lexeme s.compilers with ⟨_ | upvalue, cs, errors⟩
    · simp only [hu] at h
      set s₁ := errors.foldl (fun s m => s.error m) { s with compilers := cs } with hs₁
      rcases hk : s₁.identifierConstant name with ⟨k, s₂⟩
      simp only [hk] at h
      obtain ⟨rfl, rfl⟩ := Prod.mk.inj h
      have h₁ : Step s { s with compilers := cs } True := .of_parser_eq (by rfl) (by rfl)
      refine ((h₁.trans (errors_step errors _)).trans (makeConstant_step hk)).imp ?_
      rintro ⟨⟨-, rfl, -⟩, hc, hcur, hch⟩
      simp only [List.foldl_nil] at hs₁
      refine ⟨.global k, ?_, ⟨rfl, rfl⟩, hcur, hch⟩
      simp only [List.isEmpty_nil, if_true]
      have hc' : Ctx.identifierConstant name.lexeme ⟨cs, s.classes⟩ = some (k, s₂.ctx) := hc
      rw [hc']
      rfl
    · simp only [hu] at h
      obtain ⟨rfl, rfl⟩ := Prod.mk.inj h
      have h₁ : Step s { s with compilers := cs } True := .of_parser_eq (by rfl) (by rfl)
      refine (h₁.trans (errors_step errors _)).imp ?_
      rintro ⟨-, rfl, hs⟩
      exact ⟨.upvalue (UInt8.ofNat upvalue), rfl, ⟨rfl, rfl⟩, rfl, by simp⟩

theorem addLocal_step (name : Name) (s : State N) :
    Step s (s.addLocal name)
      (s.ctx.addLocal name = some (s.addLocal name).ctx ∧ Emits s (s.addLocal name) []) := by
  unfold State.addLocal Ctx.addLocal
  have hl : ((s.compilers.head?.map (·.locals.length)).getD 0 = 256) ↔ s.ctx.locals.length = 256 := by
    unfold Ctx.locals State.ctx
    cases s.compilers <;> simp
  by_cases h : s.ctx.locals.length = 256
  · rw [if_pos (hl.2 h), if_pos h]
    exact (error_step _ s).imp False.elim
  · rw [if_neg (fun c => h (hl.1 c)), if_neg h]
    exact (Step.of_parser_eq (by rfl) (by rfl)).imp fun _ => ⟨rfl, rfl, by simp [State.mapCurrent]⟩

theorem declareVariable_step (s : State N) :
    Step s s.declareVariable
      (s.ctx.declareVariable s.parser.previous.lexeme = some s.declareVariable.ctx ∧
        Emits s s.declareVariable []) := by
  unfold State.declareVariable Ctx.declareVariable
  rw [show s.ctx.scopeDepth = s.scopeDepth from rfl]
  split
  · exact (Step.refl s).imp fun _ => ⟨rfl, Emits.refl s⟩
  · by_cases hr : redeclared s.parser.previous.lexeme s.scopeDepth s.ctx.locals = 0
    · have hr' : redeclared s.parser.previous.lexeme s.scopeDepth
          ((s.compilers.head?.map (·.locals)).getD []) = 0 := hr
      simp only [if_pos hr, if_pos hr']
      exact addLocal_step _ s
    · have hr' : ¬ redeclared s.parser.previous.lexeme s.scopeDepth
          ((s.compilers.head?.map (·.locals)).getD []) = 0 := hr
      simp only [if_neg hr']
      exact ((error_step _ s).trans (addLocal_step _ _)).imp fun h => h.1.elim

@[simp] theorem declareVariable_previous (s : State N) :
    s.declareVariable.parser.previous = s.parser.previous := by
  unfold State.declareVariable State.addLocal State.mapCurrent State.error Parser.error
    Parser.errorAt
  split_ifs <;> simp <;> split_ifs <;> rfl

theorem parseVariable_step {m : String} {s s' : State N} {k : UInt8}
    (h : s.parseVariable m = (k, s')) :
    Step s s' (∃ c, Pratt.consume .identifier s.cursor = some c ∧
      s.ctx.parseVariable c.previous.lexeme = some (k, s'.ctx) ∧ s'.cursor = c ∧
      s'.chunks = s.chunks) := by
  unfold State.parseVariable at h
  set s₁ := s.consume .identifier m with hs₁
  have h₁ := consume_step .identifier m s
  rw [← hs₁] at h₁
  have hx : s₁.ctx = s.ctx := by rw [hs₁]; simp
  have hc : s₁.chunks = s.chunks := by rw [hs₁]; simp
  have h₂ := h₁.trans (declareVariable_step s₁)
  simp only at h
  have hd : s₁.declareVariable.scopeDepth = s₁.declareVariable.ctx.scopeDepth := rfl
  split at h
  · obtain ⟨rfl, rfl⟩ := Prod.mk.inj h
    refine h₂.imp ?_
    rintro ⟨hcon, hdecl, hcur, hch⟩
    refine ⟨s₁.cursor, hcon, ?_, hcur, by simp [hch, hc]⟩
    rw [hx] at hdecl
    simp only [Ctx.parseVariable, State.cursor, Parser.cursor, hdecl, Option.bind_eq_bind,
      Option.bind_some]
    rw [if_pos (hd ▸ ‹_›)]
    rfl
  · refine (h₂.trans (makeConstant_step h)).imp ?_
    rintro ⟨⟨hcon, hdecl, hcur, hch⟩, hk, hcur', hch'⟩
    refine ⟨s₁.cursor, hcon, ?_, hcur'.trans hcur, by simp [hch', hch, hc]⟩
    rw [hx] at hdecl
    rw [declareVariable_previous] at hk
    simp only [Ctx.parseVariable, State.cursor, Parser.cursor, hdecl, Option.bind_eq_bind,
      Option.bind_some]
    rw [if_neg (hd ▸ ‹_›)]
    exact hk

theorem markInitialized_ctx (s : State N) : s.markInitialized.ctx = s.ctx.markInitialized := by
  unfold State.markInitialized Ctx.markInitialized
  rw [show s.ctx.scopeDepth = s.scopeDepth from rfl]
  split <;> rfl

theorem markInitialized_step (s : State N) :
    Step s s.markInitialized
      (s.markInitialized.ctx = s.ctx.markInitialized ∧ Emits s s.markInitialized []) := by
  have hc : s.markInitialized.chunks = s.chunks := by
    unfold State.markInitialized; split <;> rfl
  have hp : s.markInitialized.parser = s.parser := by
    unfold State.markInitialized; split <;> rfl
  refine (Step.of_parser_eq hp (by rw [hc])).imp fun _ => ⟨markInitialized_ctx s, ?_, by simp [hc]⟩
  simp [State.cursor, hp]

theorem defineVariable_step (k : UInt8) (s : State N) :
    Step s (s.defineVariable k)
      ((s.defineVariable k).ctx = (s.ctx.defineVariable k).2 ∧
        Emits s (s.defineVariable k) (s.ctx.defineVariable k).1) := by
  unfold State.defineVariable Ctx.defineVariable
  rw [show s.ctx.scopeDepth = s.scopeDepth from rfl]
  split
  · exact markInitialized_step s
  · rw [emitBytes_eq]
    exact (emit_step _ s).imp fun _ => ⟨rfl, rfl, by simp [Instr.encode]⟩

theorem beginScope_step (s : State N) :
    Step s s.beginScope (s.beginScope.ctx = s.ctx.beginScope ∧ Emits s s.beginScope []) :=
  (Step.of_parser_eq (by rfl) (by rfl)).imp fun _ =>
    ⟨rfl, rfl, by simp [State.beginScope, State.mapCurrent]⟩

theorem dropCode_encode (flags : List Bool) : ∀ s : State N,
    flags.foldl (fun s isCaptured => s.emitByte (dropOp isCaptured).byte) s
      = s.emit (encodeAll (dropCode flags)) := by
  induction flags with
  | nil => intro s; simp [dropCode, State.emit]
  | cons b bs ih =>
    intro s
    rw [List.foldl_cons, ih, emitByte_eq, emit_emit]
    cases b <;> simp [dropCode, dropOp, Instr.encode]

theorem endScope_step (s : State N) :
    Step s s.endScope (s.endScope.ctx = s.ctx.endScope.2 ∧ Emits s s.endScope s.ctx.endScope.1) := by
  unfold State.endScope Ctx.endScope State.ctx
  cases hc : s.compilers with
  | nil => exact (Step.refl s).imp fun _ => ⟨by simp [hc], Emits.refl s⟩
  | cons c cs =>
    simp only [dropCode_encode]
    exact (Step.of_parser_eq (by rfl) (by simp)).imp fun _ => ⟨rfl, rfl, rfl⟩

theorem returnCode_encode (s : State N) :
    s.emitReturn = s.emit (encodeAll s.ctx.returnCode) := by
  unfold State.emitReturn Ctx.returnCode
  rw [show s.ctx.type = s.type from rfl]
  split <;> simp [emitBytes_eq, emitByte_eq, Instr.encode]

/-! ### Expressions -/

/-- From `s` to `s'` the expression that `r` gives was read and its code emitted. -/
def ExprRead (s s' : State N) (r : Option (Expr N × Cursor)) : Prop :=
  ∃ e is, r = some (e, s'.cursor) ∧ genExpr e s.ctx = some (is, s'.ctx) ∧
    s'.chunks = appendHead (encodeAll is) s.chunks

/-- From `s` to `s'` the expression that `r` gives was read, which has `left` as its first part,
and the rest of its code emitted. -/
def InfixRead (left : Expr N) (s s' : State N) (r : Option (Expr N × Cursor)) : Prop :=
  ∃ e is, r = some (e, s'.cursor) ∧ s'.chunks = appendHead (encodeAll is) s.chunks ∧
    ∀ x is₀, genExpr left x = some (is₀, s.ctx) → genExpr e x = some (is₀ ++ is, s'.ctx)

/-- From `s` to `s'` the arguments that `r` gives were read, `k` of them. -/
def ArgsRead (s s' : State N) (k : UInt8) (r : Option (List (Expr N) × Cursor)) : Prop :=
  ∃ es is, r = some (es, s'.cursor) ∧ genArgs es s.ctx = some (is, s'.ctx) ∧
    s'.chunks = appendHead (encodeAll is) s.chunks ∧ k = UInt8.ofNat es.length

/-- A parsing function of `compiler.c` and its counterpart on trees. -/
def ExprSpec (f : State N → Option (State N)) (g : Cursor → Option (Expr N × Cursor)) : Prop :=
  ∀ s s', f s = some s' → Step s s' (ExprRead s s' (g s.cursor))

/-- `parsePrecedence` and its counterpart. -/
def PrecedenceSpec (f : Precedence → State N → Option (State N)) (g : Pratt.PrecedenceParser N) :
    Prop :=
  ∀ p, ExprSpec (f p) (g p)

theorem argumentLoop_step {f : State N → Option (State N)} {g : Cursor → Option (Expr N × Cursor)}
    (hf : ExprSpec f g) (n : ℕ) : ∀ (k k' : UInt8) (s s' : State N),
    argumentLoop f n k s = some (k', s') →
    Step s s' (∃ es is, Pratt.argumentLoop g n s.cursor = some (es, s'.cursor) ∧
      genArgs es s.ctx = some (is, s'.ctx) ∧ s'.chunks = appendHead (encodeAll is) s.chunks ∧
      k.toNat + es.length ≤ 255 ∧ k'.toNat = k.toNat + es.length) := by
  induction n with
  | zero => intro k k' s s' h; cases h
  | succ n ih =>
    intro k k' s s' h
    simp only [argumentLoop, Option.bind_eq_bind, Option.bind_eq_some_iff] at h
    obtain ⟨s₁, h₁, h⟩ := h
    have step₁ := hf _ _ h₁
    by_cases hk : k = 255
    · rw [if_pos hk] at h
      split at h
      · exact ((step₁.trans (error_step _ _)).trans ((advance_step _).trans (ih _ _ _ _ h))).imp
          fun h => h.1.2.elim
      · obtain ⟨-, rfl⟩ := Prod.mk.inj (Option.some.inj h)
        exact (step₁.trans (error_step _ _)).imp fun h => h.2.elim
    · have hk1 : (k + 1).toNat = k.toNat + 1 := by
        have h1 : k.toNat ≠ 255 := fun h => hk (UInt8.toNat_inj.1 h)
        have h2 := k.toNat_lt
        rw [UInt8.toNat_add]
        simp only [UInt8.reduceToNat]
        omega
      rw [if_neg hk] at h
      split at h
      · rename_i hcomma
        refine ((step₁.trans (advance_step _)).trans (ih _ _ _ _ h)).imp ?_
        rintro ⟨⟨⟨e, is, he, hg, hc⟩, hadv⟩, es, js, hes, hgs, hcs, hle, hk'⟩
        rw [hk1] at hle hk'
        refine ⟨e :: es, is ++ js, ?_, ?_, ?_, ?_, ?_⟩
        · simp [Pratt.argumentLoop, he, check_cursor, hcomma, hadv, hes]
        · simp only [advance_ctx] at hgs
          simp only [genArgs, hg, hgs, Option.bind_eq_bind, Option.bind_some]
          rw [if_neg (by omega)]
          rfl
        · simp [hcs, hc]
        · simp only [List.length_cons]; omega
        · simp only [List.length_cons]; omega
      · rename_i hcomma
        obtain ⟨rfl, rfl⟩ := Prod.mk.inj (Option.some.inj h)
        refine step₁.imp ?_
        rintro ⟨e, is, he, hg, hc⟩
        have h2 := k.toNat_lt
        refine ⟨[e], is, ?_, ?_, hc, ?_, hk1⟩
        · simp [Pratt.argumentLoop, he, check_cursor, hcomma]
        · simp [genArgs, hg]
        · have h1 : k.toNat ≠ 255 := fun h => hk (UInt8.toNat_inj.1 h)
          simp only [List.length_singleton]
          omega

theorem argumentList_step {f : State N → Option (State N)} {g : Cursor → Option (Expr N × Cursor)}
    (hf : ExprSpec f g) {n : ℕ} {k : UInt8} {s s' : State N}
    (h : argumentList f n s = some (k, s')) :
    Step s s' (ArgsRead s s' k (Pratt.argumentList g n s.cursor)) := by
  simp only [argumentList, Option.bind_eq_bind] at h
  split at h
  · rename_i hparen
    obtain ⟨rfl, rfl⟩ := Prod.mk.inj (Option.some.inj h)
    refine (consume_step _ _ _).imp fun hcon => ⟨[], [], ?_, ?_, ?_, rfl⟩
    · simp [Pratt.argumentList, check_cursor, hparen, hcon]
    · simp [genArgs]
    · simp
  · rename_i hparen
    rw [Option.bind_eq_some_iff] at h
    obtain ⟨⟨k₁, s₁⟩, h₁, h⟩ := h
    obtain ⟨rfl, rfl⟩ := Prod.mk.inj (Option.some.inj h)
    refine ((argumentLoop_step hf n _ _ _ _ h₁).trans (consume_step _ _ _)).imp ?_
    rintro ⟨⟨es, is, hes, hgs, hcs, hle, hk⟩, hcon⟩
    refine ⟨es, is, ?_, ?_, ?_, ?_⟩
    · simp [Pratt.argumentList, check_cursor, hparen, hes, hcon]
    · simpa using hgs
    · simpa using hcs
    · apply UInt8.toNat_inj.1
      rw [hk, UInt8.toNat_ofNat']
      simp only [UInt8.toNat_zero, Nat.zero_add] at hle ⊢
      omega

theorem call_step {f : State N → Option (State N)} {g : Cursor → Option (Expr N × Cursor)}
    (hf : ExprSpec f g) {n : ℕ} {s s' : State N} (left : Expr N) (h : call f n s = some s') :
    Step s s' (InfixRead left s s'
      (do let (args, c) ← Pratt.argumentList g n s.cursor; return (.call left args, c))) := by
  simp only [call, Option.bind_eq_bind, Option.bind_eq_some_iff] at h
  obtain ⟨⟨k, s₁⟩, h₁, h⟩ := h
  obtain rfl := Option.some.inj h
  rw [emitBytes_eq]
  refine ((argumentList_step hf h₁).trans (emit_step _ _)).imp ?_
  rintro ⟨⟨es, is, hes, hgs, hcs, rfl⟩, -⟩
  refine ⟨.call left es, is ++ [.call (UInt8.ofNat es.length)], ?_, ?_, ?_⟩
  · simp [hes]
  · simp [hcs, Instr.encode]
  · intro x is₀ hx
    simp [genExpr, hx, hgs]

theorem namedVariable_step {f : State N → Option (State N)}
    {g : Cursor → Option (Expr N × Cursor)} (hf : ExprSpec f g) {name : Token} {canAssign : Bool}
    {s s' : State N} (h : namedVariable f name canAssign s = some s') :
    Step s s' (ExprRead s s' (Pratt.namedVariable g name canAssign s.cursor)) := by
  simp only [namedVariable] at h
  rcases hr : s.resolveVariable name with ⟨access, s₁⟩
  simp only [hr] at h
  have step₁ := resolveVariable_step hr
  split at h
  · rename_i hassign
    simp only [Option.bind_eq_bind, Option.bind_eq_some_iff] at h
    obtain ⟨s₂, h₂, h⟩ := h
    obtain rfl := Option.some.inj h
    rw [emitBytes_eq]
    refine ((step₁.trans ((advance_step _).trans (hf _ _ h₂))).trans (emit_step _ _)).imp ?_
    rintro ⟨⟨⟨ref, hres, hmeans, hcur, hch⟩, hadv, e, is, he, hg, hc⟩, -⟩
    refine ⟨.assign name.lexeme e, is ++ [ref.store], ?_, ?_, ?_⟩
    · rw [← check_cursor, hcur] at hassign
      rw [hcur] at hadv
      simp [Pratt.namedVariable, hassign, hadv, he]
    · simp only [advance_ctx] at hg
      simp [genExpr, hres, hg]
    · simp [hc, hch, hmeans.2]
  · rename_i hassign
    obtain rfl := Option.some.inj h
    rw [emitBytes_eq]
    refine (step₁.trans (emit_step _ _)).imp ?_
    rintro ⟨⟨ref, hres, hmeans, hcur, hch⟩, -⟩
    refine ⟨.variable_ name.lexeme, [ref.load], ?_, ?_, ?_⟩
    · rw [← check_cursor, hcur] at hassign
      simp only [Pratt.namedVariable, emit_cursor, hcur]
      rw [if_neg hassign]
    · simp [genExpr, hres]
    · simp [hch, hmeans.1]

/-- Without assignment, `namedVariable` reads the variable. -/
theorem loadVariable_step {f : State N → Option (State N)} {name : Token} {s s' : State N}
    (h : namedVariable f name false s = some s') :
    Step s s' (∃ ref, s.ctx.resolveVariable name.lexeme = some (ref, s'.ctx) ∧
      Emits s s' [ref.load]) := by
  simp only [namedVariable, Bool.false_and, if_neg Bool.false_ne_true] at h
  rcases hr : s.resolveVariable name with ⟨access, s₁⟩
  simp only [hr] at h
  obtain rfl := Option.some.inj h
  rw [emitBytes_eq]
  refine ((resolveVariable_step hr).trans (emit_step _ _)).imp ?_
  rintro ⟨⟨ref, hres, hmeans, hcur, hch⟩, -⟩
  exact ⟨ref, hres, hcur, by simp [hch, hmeans.1]⟩

theorem grouping_step {f : State N → Option (State N)} {g : Cursor → Option (Expr N × Cursor)}
    (hf : ExprSpec f g) {s s' : State N} (h : grouping f s = some s') :
    Step s s' (ExprRead s s' (do
      let (e, c) ← g s.cursor
      let c ← Pratt.consume .rightParen c
      return (.grouping e, c))) := by
  simp only [grouping, Option.bind_eq_bind, Option.bind_eq_some_iff] at h
  obtain ⟨s₁, h₁, h⟩ := h
  obtain rfl := Option.some.inj h
  refine ((hf _ _ h₁).trans (consume_step _ _ _)).imp ?_
  rintro ⟨⟨e, is, he, hg, hc⟩, hcon⟩
  refine ⟨.grouping e, is, ?_, ?_, ?_⟩
  · simp [he, hcon]
  · simpa [genExpr] using hg
  · simpa using hc

theorem unary_step {f : Precedence → State N → Option (State N)} {g : Pratt.PrecedenceParser N}
    (hf : PrecedenceSpec f g) {s s' : State N} {op : UnaryOp}
    (hop : Pratt.unaryOp s.parser.previous.type = some op) (h : unary f s = some s') :
    Step s s' (ExprRead s s' (do
      let (e, c) ← g .unary s.cursor
      return (.unary op e, c))) := by
  simp only [unary, Option.bind_eq_bind, Option.bind_eq_some_iff] at h
  obtain ⟨s₁, h₁, h⟩ := h
  have hs' : s' = s₁.emit op.code.encode := by
    rw [← Option.some.inj h]
    revert hop
    cases s.parser.previous.type <;> simp [Pratt.unaryOp] <;> rintro rfl <;> rfl
  subst hs'
  refine ((hf _ _ _ h₁).trans (emit_step _ _)).imp ?_
  rintro ⟨⟨e, is, he, hg, hc⟩, -⟩
  refine ⟨.unary op e, is ++ [op.code], ?_, ?_, ?_⟩
  · simp [he]
  · simp [genExpr, hg]
  · simp [hc]

theorem binary_step {f : Precedence → State N → Option (State N)} {g : Pratt.PrecedenceParser N}
    (hf : PrecedenceSpec f g) {s s' : State N} {op : BinaryOp} (left : Expr N)
    (hop : Pratt.binaryOp s.parser.previous.type = some op) (h : binary f s = some s') :
    Step s s' (InfixRead left s s' (do
      let (e, c) ← g (getRule s.parser.previous.type).precedence.next s.cursor
      return (.binary op left e, c))) := by
  simp only [binary, Option.bind_eq_bind, Option.bind_eq_some_iff] at h
  obtain ⟨s₁, h₁, h⟩ := h
  have hs' : s' = s₁.emit (encodeAll op.code) := by
    rw [← Option.some.inj h]
    revert hop
    cases s.parser.previous.type <;> simp [Pratt.binaryOp] <;> rintro rfl <;>
      simp [BinaryOp.code, Instr.encode, emitByte_eq, emitBytes_eq]
  subst hs'
  refine ((hf _ _ _ h₁).trans (emit_step _ _)).imp ?_
  rintro ⟨⟨e, is, he, hg, hc⟩, -⟩
  refine ⟨.binary op left e, is ++ op.code, ?_, ?_, ?_⟩
  · simp [he]
  · simp [hc]
  · intro x is₀ hx
    simp [genExpr, hx, hg]

theorem jumpOver_eq {jump : ℕ → Instr} {is : List Instr} (h : (encodeAll is).length ≤ 65535) :
    jumpOver jump is = some (jump (codeSize is)) := by
  unfold jumpOver
  exact if_neg (by unfold codeSize; omega)

theorem and_step {f : Precedence → State N → Option (State N)} {g : Pratt.PrecedenceParser N}
    (hf : PrecedenceSpec f g) {s s' : State N} (left : Expr N) (h : and_ f s = some s') :
    Step s s' (InfixRead left s s' (do
      let (e, c) ← g .and s.cursor
      return (.and_ left e, c))) := by
  refine Step.of_sound fun hs => ?_
  simp only [and_, emitJump_eq _ hs, emitByte_eq, emit_emit, Option.bind_eq_bind,
    Option.bind_eq_some_iff] at h
  obtain ⟨s₁, h₁, h⟩ := h
  obtain rfl := Option.some.inj h
  refine (((emit_step _ s).trans (hf _ _ _ h₁)).bind (patchJump_step_true _ _) ?_).imp And.right
  rintro ⟨-, e, is, he, hg, hc⟩
  have hchunk : s₁.chunks
      = appendHead (OpCode.jumpIfFalse.byte :: 0xff :: 0xff :: encodeAll (.pop :: is)) s.chunks := by
    simp [hc, Instr.encode]
  refine (patchJump_step hs hchunk rfl).imp ?_
  rintro ⟨hsize, hcur, hctx, hch⟩
  refine ⟨.and_ left e, [.jumpIfFalse (codeSize (.pop :: is)), .pop] ++ is, ?_, ?_, ?_⟩
  · simp only [emit_cursor] at he
    simp [he, hcur]
  · simp [hch, Instr.encode, codeSize]
  · intro x is₀ hx
    simp only [emit_ctx] at hg
    simp [genExpr, hx, hg, jumpOver_eq hsize, hctx]

theorem or_step {f : Precedence → State N → Option (State N)} {g : Pratt.PrecedenceParser N}
    (hf : PrecedenceSpec f g) {s s' : State N} (left : Expr N) (h : or_ f s = some s') :
    Step s s' (InfixRead left s s' (do
      let (e, c) ← g .or s.cursor
      return (.or_ left e, c))) := by
  refine Step.of_sound fun hs => ?_
  set s₁ := s.emit [OpCode.jumpIfFalse.byte, 0xff, 0xff] with hs₁
  have hlen₁ : 0 < s₁.chunks.length := by simpa [hs₁] using hs
  set s₂ := s₁.emit [OpCode.jump.byte, 0xff, 0xff] with hs₂
  simp only [or_, emitJump_eq _ hs, emitByte_eq, Option.bind_eq_bind, Option.bind_eq_some_iff] at h
  rw [← hs₁] at h
  simp only [emitJump_eq _ hlen₁, ← hs₂] at h
  obtain ⟨s₃, h₃, h⟩ := h
  obtain rfl := Option.some.inj h
  -- The first jump skips the second one.
  have hchunks : s₂.chunks = appendHead (OpCode.jumpIfFalse.byte :: 0xff :: 0xff ::
      [OpCode.jump.byte, 0xff, 0xff]) s.chunks := by
    simp [hs₂, hs₁]
  have hpatch := patchJump_step hs hchunks rfl
  have step₂ := (((emit_step _ s).trans (emit_step _ s₁)).trans hpatch).trans
    ((emit_step [OpCode.pop.byte] _).trans (hf _ _ _ h₃))
  refine (step₂.bind (patchJump_step_true _ _) ?_).imp And.right
  rintro ⟨⟨-, -, hcur₂, hctx₂, hch₂⟩, -, e, is, he, hg, hc⟩
  have hcount : s₁.count = s.count + 3 := count_of_appendHead hs (emit_chunks _ _)
  have hchunk : s₃.chunks = appendHead (OpCode.jump.byte :: 0xff :: 0xff :: encodeAll (.pop :: is))
      (s.emit (Instr.jumpIfFalse 3).encode).chunks := by
    simp [hc, hch₂, Instr.encode]
  have hcount' : (s.emit (Instr.jumpIfFalse 3).encode).count = s₁.count := by
    rw [hcount, count_of_appendHead hs (emit_chunks _ _)]
    simp [Instr.encode, shortBytes]
  refine (patchJump_step (by simpa using hs) hchunk (by rw [hcount'])).imp ?_
  rintro ⟨hsize, hcur, hctx, hch⟩
  refine ⟨.or_ left e, [.jumpIfFalse 3, .jump (codeSize (.pop :: is)), .pop] ++ is, ?_, ?_, ?_⟩
  · simp only [emit_cursor, hcur₂] at he
    simp only [hs₂, hs₁, emit_cursor] at he
    simp [he, hcur]
  · rw [hch]
    simp [Instr.encode, codeSize]
  · intro x is₀ hx
    simp only [emit_ctx, hctx₂] at hg
    simp only [hs₂, hs₁, emit_ctx] at hg
    simp [genExpr, hx, hg, jumpOver_eq hsize, hctx]

theorem dot_step {f : State N → Option (State N)} {g : Cursor → Option (Expr N × Cursor)}
    (hf : ExprSpec f g) {n : ℕ} {canAssign : Bool} {s s' : State N} (left : Expr N)
    (h : dot f n canAssign s = some s') :
    Step s s' (InfixRead left s s' (Pratt.dot g n left canAssign s.cursor)) := by
  simp only [dot] at h
  set s₁ := s.consume .identifier "Expect property name after '.'." with hs₁
  have hcon := consume_step .identifier "Expect property name after '.'." s
  rw [← hs₁] at hcon
  have hx₁ : s₁.ctx = s.ctx := by rw [hs₁]; simp
  have hc₁ : s₁.chunks = s.chunks := by rw [hs₁]; simp
  rcases hk : s₁.identifierConstant s₁.parser.previous with ⟨k, s₂⟩
  simp only [hk] at h
  have step₂ := hcon.trans (makeConstant_step hk)
  split at h
  · rename_i hassign
    simp only [Option.bind_eq_bind, Option.bind_eq_some_iff] at h
    obtain ⟨s₃, h₃, h⟩ := h
    obtain rfl := Option.some.inj h
    rw [emitBytes_eq]
    refine ((step₂.trans ((advance_step _).trans (hf _ _ h₃))).trans (emit_step _ _)).imp ?_
    rintro ⟨⟨⟨hcur₁, hconst, hcur₂, hch₂⟩, hadv, e, is, he, hg, hc⟩, -⟩
    rw [← check_cursor, hcur₂] at hassign
    rw [hcur₂] at hadv
    refine ⟨.set left s₁.parser.previous.lexeme e, is ++ [.setProperty k], ?_, ?_, ?_⟩
    · simp only [Pratt.dot, hcur₁, Option.bind_eq_bind, Option.bind_some]
      rw [if_pos hassign]
      simp [hadv, he]
    · simp [hc, hch₂, hc₁, Instr.encode]
    · intro x is₀ hx
      rw [hx₁] at hconst
      simp only [advance_ctx] at hg
      simp [genExpr, hx, Ctx.identifierConstant, hconst, hg]
  · rename_i hassign
    split at h
    · rename_i hparen
      simp only [Option.bind_eq_bind, Option.bind_eq_some_iff] at h
      obtain ⟨⟨argCount, s₃⟩, h₃, h⟩ := h
      obtain rfl := Option.some.inj h
      rw [emitBytes_eq, emitByte_eq, emit_emit]
      refine ((step₂.trans ((advance_step _).trans (argumentList_step hf h₃))).trans
        (emit_step _ _)).imp ?_
      rintro ⟨⟨⟨hcur₁, hconst, hcur₂, hch₂⟩, hadv, es, is, hes, hgs, hc, rfl⟩, -⟩
      rw [← check_cursor, hcur₂] at hassign hparen
      rw [hcur₂] at hadv
      refine ⟨.invoke left s₁.parser.previous.lexeme es,
        is ++ [.invoke k (UInt8.ofNat es.length)], ?_, ?_, ?_⟩
      · simp only [Pratt.dot, hcur₁, Option.bind_eq_bind, Option.bind_some]
        rw [if_neg hassign, if_pos hparen]
        simp [hadv, hes]
      · simp [hc, hch₂, hc₁, Instr.encode]
      · intro x is₀ hx
        rw [hx₁] at hconst
        simp only [advance_ctx] at hgs
        simp [genExpr, hx, Ctx.identifierConstant, hconst, hgs]
    · rename_i hparen
      obtain rfl := Option.some.inj h
      rw [emitBytes_eq]
      refine (step₂.trans (emit_step _ _)).imp ?_
      rintro ⟨⟨hcur₁, hconst, hcur₂, hch₂⟩, -⟩
      rw [← check_cursor, hcur₂] at hassign hparen
      refine ⟨.get left s₁.parser.previous.lexeme, [.getProperty k], ?_, ?_, ?_⟩
      · simp only [Pratt.dot, hcur₁, Option.bind_eq_bind, Option.bind_some]
        rw [if_neg hassign, if_neg hparen]
        simp [hcur₂]
      · simp [hch₂, hc₁, Instr.encode]
      · intro x is₀ hx
        rw [hx₁] at hconst
        simp [genExpr, hx, Ctx.identifierConstant, hconst]

theorem emitConstant_step {v : Constant N} {e : Expr N} (s : State N)
    (he : ∀ x, genExpr e x = (x.makeConstant v).bind fun r => some ([.constant r.1], r.2)) :
    Step s (s.emitConstant v) (ExprRead s (s.emitConstant v) (some (e, s.cursor))) := by
  unfold State.emitConstant
  rcases hk : s.makeConstant v with ⟨k, s₁⟩
  simp only [emitBytes_eq]
  refine ((makeConstant_step hk).trans (emit_step _ _)).imp ?_
  rintro ⟨⟨hconst, hcur, hch⟩, -⟩
  refine ⟨e, [.constant k], ?_, ?_, ?_⟩
  · simp only [emit_cursor, hcur]
  · simp [he, hconst]
  · simp [hch, Instr.encode]

theorem literal_step {s : State N} {e : Expr N} {i : Instr}
    (he : ∀ x, genExpr e x = some ([i], x)) :
    Step s (s.emit i.encode) (ExprRead s (s.emit i.encode) (some (e, s.cursor))) :=
  (emit_step _ s).imp fun _ => ⟨e, [i], rfl, by simp [he], by simp⟩

theorem this_step {f : State N → Option (State N)} {s s' : State N} (h : this_ f s = some s')
    (hthis : s.parser.previous.lexeme = "this".toList) :
    Step s s' (ExprRead s s' (some (.this_, s.cursor))) := by
  unfold this_ at h
  split at h
  · obtain rfl := Option.some.inj h
    exact (error_step _ s).imp False.elim
  · rename_i hclass
    refine (loadVariable_step h).imp ?_
    rintro ⟨ref, hres, hcur, hch⟩
    refine ⟨.this_, [ref.load], by rw [hcur], ?_, hch⟩
    rw [hthis] at hres
    have hclass' : ¬ s.ctx.classes.isEmpty = true := hclass
    simp only [genExpr]
    rw [if_neg hclass', hres]
    rfl

theorem checkSuper_step (s : State N) :
    Step s s.checkSuper
      ((s.ctx.classes.head?.map (·.hasSuperclass)).getD false = true ∧ s.checkSuper = s) := by
  have hctx : s.ctx.classes = s.classes := rfl
  unfold State.checkSuper
  rw [hctx]
  split
  · exact (error_step _ s).imp False.elim
  · rename_i k ks hk
    split
    · exact (Step.refl s).imp fun _ => ⟨by simp_all, rfl⟩
    · exact (error_step _ s).imp False.elim

/-- What `super_` does before it looks for arguments. -/
theorem superHead_step {f : State N → Option (State N)} {s s₃ s₄ : State N} {k : UInt8}
    (hk : ((s.checkSuper.consume .dot "Expect '.' after 'super'.").consume .identifier
      "Expect superclass method name.").identifierConstant
        ((s.checkSuper.consume .dot "Expect '.' after 'super'.").consume .identifier
          "Expect superclass method name.").parser.previous = (k, s₃))
    (h₄ : namedVariable f (syntheticToken "this".toList) false s₃ = some s₄) :
    Step s s₄ (∃ c c' ref x, Pratt.consume .dot s.cursor = some c ∧
      Pratt.consume .identifier c = some c' ∧ s₄.cursor = c' ∧
      (s.ctx.classes.head?.map (·.hasSuperclass)).getD false = true ∧
      s.ctx.identifierConstant c'.previous.lexeme = some (k, x) ∧
      x.resolveVariable "this".toList = some (ref, s₄.ctx) ∧
      s₄.chunks = appendHead (encodeAll [ref.load]) s.chunks) := by
  refine ((((checkSuper_step s).trans (consume_step _ _ _)).trans (consume_step _ _ _)).trans
    ((makeConstant_step hk).trans (loadVariable_step h₄))).imp ?_
  rintro ⟨⟨⟨⟨hsuper, hs⟩, hdot⟩, hid⟩, ⟨hconst, hcur₃, hch₃⟩, ref, hthis, hcur₄, hch₄⟩
  rw [hs] at hdot hid hconst hcur₃ hch₃
  refine ⟨_, _, ref, s₃.ctx, hdot, hid, hcur₄.trans hcur₃, hsuper, ?_, ?_, ?_⟩
  · simpa [Ctx.identifierConstant] using hconst
  · simpa using hthis
  · simp [hch₄, hch₃]

theorem super_step {f : State N → Option (State N)} {g : Cursor → Option (Expr N × Cursor)}
    (hf : ExprSpec f g) {n : ℕ} {s s' : State N} (h : super_ f n s = some s') :
    Step s s' (ExprRead s s' (Pratt.super_ g n s.cursor)) := by
  rcases hk : ((s.checkSuper.consume .dot "Expect '.' after 'super'.").consume .identifier
      "Expect superclass method name.").identifierConstant
        ((s.checkSuper.consume .dot "Expect '.' after 'super'.").consume .identifier
          "Expect superclass method name.").parser.previous with ⟨k, s₃⟩
  simp only [super_, hk, Option.bind_eq_bind, Option.bind_eq_some_iff] at h
  obtain ⟨s₄, h₄, h⟩ := h
  have step₄ := superHead_step hk h₄
  split at h
  · rename_i hparen
    simp only [Option.bind_eq_some_iff] at h
    obtain ⟨⟨argCount, s₅⟩, h₅, s₆, h₆, h⟩ := h
    obtain rfl := Option.some.inj h
    rw [emitBytes_eq, emitByte_eq, emit_emit]
    refine ((step₄.trans ((advance_step _).trans ((argumentList_step hf h₅).trans
      (loadVariable_step h₆)))).trans (emit_step _ _)).imp ?_
    rintro ⟨⟨⟨c, c', receiver, x, hdot, hid, rfl, hsuper, hconst, hthis, hch₄⟩, hadv,
      ⟨es, is, hes, hgs, hch₅, rfl⟩, superclass, hsup, hcur₆, hch₆⟩, -⟩
    rw [← check_cursor] at hparen
    simp only [advance_ctx, advance_chunks] at hgs hch₅
    refine ⟨.superInvoke s₄.cursor.previous.lexeme es, [receiver.load] ++ is ++
      [superclass.load, .superInvoke k (UInt8.ofNat es.length)], ?_, ?_, ?_⟩
    · simp [Pratt.super_, hdot, hid, hparen, hadv, hes, hcur₆]
    · simp only [lexeme_syntheticToken] at hsup
      simp only [genExpr]
      rw [if_pos hsuper]
      simp only [hconst, hthis, hgs, hsup, Option.bind_eq_bind, Option.bind_some]
      rfl
    · simp [hch₆, hch₅, hch₄, Instr.encode]
  · rename_i hparen
    simp only [Option.bind_eq_some_iff] at h
    obtain ⟨s₅, h₅, h⟩ := h
    obtain rfl := Option.some.inj h
    rw [emitBytes_eq]
    refine ((step₄.trans (loadVariable_step h₅)).trans (emit_step _ _)).imp ?_
    rintro ⟨⟨⟨c, c', receiver, x, hdot, hid, rfl, hsuper, hconst, hthis, hch₄⟩,
      superclass, hsup, hcur₅, hch₅⟩, -⟩
    rw [← check_cursor] at hparen
    refine ⟨.super_ s₄.cursor.previous.lexeme, [receiver.load, superclass.load, .getSuper k],
      ?_, ?_, ?_⟩
    · simp only [Pratt.super_, hdot, hid, Option.bind_eq_bind, Option.bind_some]
      rw [if_neg hparen]
      simp [hcur₅]
    · simp only [lexeme_syntheticToken] at hsup
      simp only [genExpr]
      rw [if_pos hsuper]
      simp only [hconst, hthis, hsup, Option.bind_eq_bind, Option.bind_some]
      rfl
    · simp [hch₅, hch₄, Instr.encode]

/-- A prefix rule of the table, applied after its token. -/
theorem prefixRule_step [Double N] {f : Precedence → State N → Option (State N)}
    {g : Pratt.PrecedenceParser N} (hf : PrecedenceSpec f g) {n : ℕ} {rule : ParseFn}
    {canAssign : Bool} {s s' : State N}
    (hrule : (getRule s.parser.previous.type).prefixRule = some rule)
    (h : applyRule f n rule canAssign s = some s') :
    Step s s' (ExprRead s s' (Pratt.prefixExpr g n rule canAssign s.cursor)) := by
  cases rule with
  | grouping => exact grouping_step (hf _) h
  | unary =>
    have hop : ∃ op, Pratt.unaryOp s.parser.previous.type = some op := by
      revert hrule
      cases s.parser.previous.type <;> simp [getRule, Pratt.unaryOp]
    obtain ⟨op, hop⟩ := hop
    have := unary_step hf hop h
    simpa [Pratt.prefixExpr, hop] using this
  | variable_ => exact namedVariable_step (hf _) h
  | string =>
    obtain rfl := Option.some.inj h
    exact emitConstant_step s fun x => by simp [genExpr]
  | number =>
    obtain rfl := Option.some.inj h
    exact emitConstant_step s fun x => by simp [genExpr]
  | literal =>
    obtain rfl := Option.some.inj h
    simp only [Pratt.prefixExpr, cursor_previous, literal]
    revert hrule
    cases s.parser.previous.type <;> simp [getRule]
    · exact literal_step (i := .false_) fun x => by simp [genExpr]
    · exact literal_step (i := .nil) fun x => by simp [genExpr]
    · exact literal_step (i := .true_) fun x => by simp [genExpr]
  | super_ => exact super_step (hf _) h
  | this_ =>
    refine Step.of_this fun hthis => this_step h (hthis _ (by simp [Parser.tokens]) ?_)
    revert hrule
    cases s.parser.previous.type <;> simp [getRule]
  | call | dot | binary | and_ | or_ =>
    revert hrule
    cases s.parser.previous.type <;> simp [getRule]

/-- An infix rule of the table, applied after its token. -/
theorem infixRule_step [Double N] {f : Precedence → State N → Option (State N)}
    {g : Pratt.PrecedenceParser N} (hf : PrecedenceSpec f g) {n : ℕ} {rule : ParseFn}
    {canAssign : Bool} {s s' : State N} (left : Expr N)
    (hrule : (getRule s.parser.previous.type).infixRule = some rule)
    (h : applyRule f n rule canAssign s = some s') :
    Step s s' (InfixRead left s s' (Pratt.infixExpr g n rule left canAssign s.cursor)) := by
  cases rule with
  | call => exact call_step (hf _) left h
  | dot => exact dot_step (hf _) left h
  | binary =>
    have hop : ∃ op, Pratt.binaryOp s.parser.previous.type = some op := by
      revert hrule
      cases s.parser.previous.type <;> simp [getRule, Pratt.binaryOp]
    obtain ⟨op, hop⟩ := hop
    have := binary_step hf left hop h
    simpa [Pratt.infixExpr, hop] using this
  | and_ => exact and_step hf left h
  | or_ => exact or_step hf left h
  | grouping | unary | variable_ | string | number | literal | super_ | this_ =>
    revert hrule
    cases s.parser.previous.type <;> simp [getRule]

theorem infixLoop_step [Double N] {f : Precedence → State N → Option (State N)}
    {g : Pratt.PrecedenceParser N} (hf : PrecedenceSpec f g) (p : Precedence) (canAssign : Bool)
    (n : ℕ) : ∀ (left : Expr N) (s s' : State N), infixLoop f n p canAssign s = some s' →
    Step s s' (InfixRead left s s' (Pratt.infixLoop g n p canAssign left s.cursor)) := by
  induction n with
  | zero => intro left s s' h; cases h
  | succ n ih =>
    intro left s s' h
    simp only [infixLoop] at h
    have hcur : s.cursor.current = s.parser.current := rfl
    simp only [Pratt.infixLoop, hcur]
    split at h
    · rename_i hprec
      rw [if_pos hprec]
      split at h
      · cases h
      · rename_i rule hrule
        simp only [Option.bind_eq_bind, Option.bind_eq_some_iff] at h
        obtain ⟨s₁, h₁, h⟩ := h
        -- Once the infix rule has run, its expression is the new left operand.
        have step₁ := (advance_step s).trans (infixRule_step hf left hrule h₁)
        have weak := (ih left _ _ h).imp fun _ => trivial
        refine (step₁.bind weak ?_).imp And.right
        rintro ⟨hadv, e, is, he, hch, hgen⟩
        refine (ih e _ _ h).imp ?_
        rintro ⟨e', js, he', hch', hgen'⟩
        refine ⟨e', is ++ js, ?_, ?_, ?_⟩
        · simp [hadv, hrule, he, he']
        · simp [hch', hch]
        · intro x is₀ hx
          simpa using hgen' x _ (hgen x is₀ (by simpa using hx))
    · rename_i hprec
      rw [if_neg hprec]
      obtain rfl := Option.some.inj h
      exact (Step.refl s).imp fun _ => ⟨left, [], rfl, by simp, fun x is₀ hx => by simpa using hx⟩

theorem parsePrecedence_step [Double N] (n : ℕ) :
    PrecedenceSpec (N := N) (parsePrecedence n) (Pratt.parsePrecedence n) := by
  induction n with
  | zero => intro p s s' h; cases h
  | succ n ih =>
    intro p s s' h
    simp only [parsePrecedence] at h
    split at h
    · obtain rfl := Option.some.inj h
      exact ((advance_step s).trans (error_step _ _)).imp fun h => h.2.elim
    · rename_i rule hrule
      simp only [Option.bind_eq_bind, Option.bind_eq_some_iff] at h
      obtain ⟨s₁, h₁, s₂, h₂, h⟩ := h
      have step₁ := (advance_step s).trans (prefixRule_step ih hrule h₁)
      have weak := (infixLoop_step ih p _ n .nil s₁ s₂ h₂).imp fun _ => trivial
      have step₂ : Step s s₂ (ExprRead s s₂ (do
          let c ← Pratt.advance s.cursor
          let rule ← (getRule c.previous.type).prefixRule
          let (e, c) ← Pratt.prefixExpr (Pratt.parsePrecedence n) n rule
            (p.toNat ≤ Precedence.assignment.toNat) c
          Pratt.infixLoop (Pratt.parsePrecedence n) n p
            (p.toNat ≤ Precedence.assignment.toNat) e c)) := by
        refine (step₁.bind weak ?_).imp And.right
        rintro ⟨hadv, e, is, he, hg, hch⟩
        refine (infixLoop_step ih p _ n e s₁ s₂ h₂).imp ?_
        rintro ⟨e', js, he', hch', hgen'⟩
        refine ⟨e', is ++ js, ?_, hgen' _ _ (by simpa using hg), by simp [hch', hch]⟩
        simp [hadv, hrule, he, he']
      split at h
      · obtain rfl := Option.some.inj h
        exact ((step₂.trans (advance_step _)).trans (error_step _ _)).imp fun h => h.2.elim
      · rename_i hassign
        obtain rfl := Option.some.inj h
        refine step₂.imp ?_
        rintro ⟨e, is, he, hg, hch⟩
        refine ⟨e, is, ?_, hg, hch⟩
        rw [← check_cursor] at hassign
        simp only [Pratt.parsePrecedence, Option.bind_eq_bind, Option.bind_eq_some_iff,
          Prod.exists] at he ⊢
        obtain ⟨c, hc, rule', hrule', e₁, c₁, he₁, hloop⟩ := he
        refine ⟨c, hc, rule', hrule', e₁, c₁, he₁, e, s₂.cursor, hloop, ?_⟩
        rw [if_neg hassign]
        rfl

theorem expression_step [Double N] (n : ℕ) :
    ExprSpec (N := N) (expression n) (Pratt.expression n) :=
  parsePrecedence_step n .assignment

end Lox.Clox
