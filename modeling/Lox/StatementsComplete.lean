import Lox.StatementsSound
import Lox.Jlox.ParserComplete

/-!
# What the statement parser of jlox accepts

Every statement is read from tokens that derive it, with nothing reported.  The fuel is twice the
number of tokens: a declaration that is a statement takes one step more than the statement.
-/

namespace Lox.Jlox

open Jlox.Parser

variable {N : Type}

/-- The tokens a statement can start with. -/
def statementStarts : TokenType → Bool
  | .for_ | .if_ | .print_ | .return_ | .while_ | .leftBrace => true
  | type => Expr.starts type

/-- The tokens a declaration can start with. -/
def declarationStarts : TokenType → Bool
  | .class_ | .fun_ | .var_ => true
  | type => statementStarts type

theorem declarationStarts_of_statementStarts {type : TokenType} (h : statementStarts type = true) :
    declarationStarts type = true := by
  revert h
  cases type <;> decide

theorem derives_head {s' : Clox.Stmt N} {s : Stmt N Unit} {ts : List (Token N)}
    (h : s'.Derives s ts) (hs : s'.IsStatement) :
    ∃ t tail, ts = t :: tail ∧ statementStarts t.type = true := by
  cases s' with
  | expression e' =>
    obtain ⟨e, v, semicolon, -, rfl, -, he⟩ := h
    obtain ⟨t, tail, rfl, ht⟩ := he.head
    refine ⟨t, _, rfl, ?_⟩
    revert ht
    cases t.type <;> decide
  | print e' =>
    obtain ⟨e, keyword, v, semicolon, -, rfl, hkeyword, -⟩ := h
    exact ⟨keyword, _, rfl, by rw [hkeyword]; rfl⟩
  | block body' =>
    obtain ⟨body, opening, v, closing, -, rfl, hopening, -⟩ := h
    exact ⟨opening, _, rfl, by rw [hopening]; rfl⟩
  | if_ c t e =>
    cases e with
    | none =>
      obtain ⟨_, _, keyword, _, _, _, _, -, rfl, hkeyword, -⟩ := h
      exact ⟨keyword, _, rfl, by rw [hkeyword]; rfl⟩
    | some e =>
      obtain ⟨_, _, _, keyword, _, _, _, _, _, _, -, rfl, hkeyword, -⟩ := h
      exact ⟨keyword, _, rfl, by rw [hkeyword]; rfl⟩
  | while_ c b =>
    obtain ⟨_, _, keyword, _, _, _, _, -, rfl, hkeyword, -⟩ := h
    exact ⟨keyword, _, rfl, by rw [hkeyword]; rfl⟩
  | for_ i c j b =>
    obtain ⟨_, _, _, _, keyword, _, _, _, _, _, _, _, -, rfl, hkeyword, -⟩ := h
    exact ⟨keyword, _, rfl, by rw [hkeyword]; rfl⟩
  | return_ value =>
    obtain ⟨_, keyword, _, _, -, rfl, hkeyword, -⟩ := h
    exact ⟨keyword, _, rfl, by rw [hkeyword]; rfl⟩
  | var | function | class_ => cases hs

theorem declares_head {s' : Clox.Stmt N} {s : Stmt N Unit} {ts : List (Token N)}
    (h : s'.Declares (s'.Derives s) ts) :
    ∃ t tail, ts = t :: tail ∧ declarationStarts t.type = true := by
  by_cases hs : s'.IsStatement
  · have hderives : s'.Derives s ts := by
      cases s' <;> first | exact h | cases hs
    obtain ⟨t, tail, hts, ht⟩ := derives_head hderives hs
    exact ⟨t, tail, hts, declarationStarts_of_statementStarts ht⟩
  cases s' with
  | var name init =>
    obtain ⟨keyword, v, rfl, hkeyword, -⟩ := h
    exact ⟨keyword, v, rfl, by rw [hkeyword]; rfl⟩
  | function name params body =>
    obtain ⟨keyword, v, rfl, hkeyword, -⟩ := h
    exact ⟨keyword, v, rfl, by rw [hkeyword]; rfl⟩
  | class_ name superclass methods =>
    obtain ⟨keyword, _, _, _, _, _, _, _, -, rfl, hkeyword, -⟩ := h
    exact ⟨keyword, _, rfl, by rw [hkeyword]; rfl⟩
  | _ => exact absurd rfl hs

/-- The next token is none of these, if a statement starts with it and they start none. -/
theorem nextNot_of_starts {starts : TokenType → Bool} {types : List TokenType} {t : Token N}
    {ts : List (Token N)} (ht : starts t.type = true) (htypes : ∀ type ∈ types, starts type = false) :
    NextNot types (t :: ts) :=
  nextNot_cons fun hmem => by simp [htypes _ hmem] at ht

/-- The function accepts every statement with half as many tokens. -/
def AcceptsStatement (n : ℕ) (f : Parse N (Stmt N Unit)) : Prop :=
  ∀ (s' : Clox.Stmt N) (s : Stmt N Unit) (used rest : List (Token N)), s'.IsStatement →
    s'.Derives s used → 2 * used.length ≤ n → rest ≠ [] →
    (s'.endsOpen → NextNot [.else_] rest) → Accepts f used s rest

/-- The function accepts every declaration with less than half as many tokens. -/
def AcceptsDeclaration (n : ℕ) (f : Parse N (Stmt N Unit)) : Prop :=
  ∀ (s' : Clox.Stmt N) (s : Stmt N Unit) (used rest : List (Token N)),
    s'.Declares (s'.Derives s) used → 2 * used.length + 1 ≤ n → rest ≠ [] →
    (s'.endsOpen → NextNot [.else_] rest) → Accepts f used s rest

/-! ### Blocks and functions -/

section Closed

variable {β : Type} {f f' k : Parse N β} {t : Token N} {v rest : List (Token N)} {type : TokenType}

theorem isAtEnd_eq (before : List (Token N)) (t : Token N) (rest : List (Token N))
    (errors : List (Token N × String)) :
    isAtEnd ⟨before, t :: rest, errors⟩ =
      .ok (decide (t.type = .eof)) ⟨before, t :: rest, errors⟩ := rfl

/-- A loop up to a token ends there. -/
theorem Leads.ifClosed (htype : type ≠ .eof) (ht : t.type = type) (h : Leads f [] k (t :: rest)) :
    Leads (check type >>= fun a => isAtEnd >>= fun b => if a || b then f else f') [] k
      (t :: rest) := by
  intro before errors
  have h := h before errors
  rw [← h]
  change Parse.bind (check type) _ _ = _
  unfold Parse.bind
  rw [List.nil_append, check_eq]
  change Parse.bind isAtEnd _ _ = _
  unfold Parse.bind
  rw [isAtEnd_eq]
  simp [ht, htype]

/-- A loop up to a token goes on before it. -/
theorem Leads.ifOpen (heof : t.type ≠ .eof) (ht : t.type ≠ type) (h : Leads f' (t :: v) k rest) :
    Leads (check type >>= fun a => isAtEnd >>= fun b => if a || b then f else f') (t :: v) k
      rest := by
  intro before errors
  have h := h before errors
  rw [← h]
  change Parse.bind (check type) _ _ = _
  unfold Parse.bind
  rw [List.cons_append, check_eq]
  change Parse.bind isAtEnd _ _ = _
  unfold Parse.bind
  rw [isAtEnd_eq]
  simp [ht, heof]

end Closed

section Declarations

variable {declaration : Parse N (Stmt N Unit)} {n : ℕ} (hd : AcceptsDeclaration n declaration)

include hd

theorem blockLoop_accepts : ∀ (ss' : List (Clox.Stmt N)) (ss : List (Stmt N Unit)) (m : ℕ)
    (v rest : List (Token N)) (closing : Token N), Clox.Stmt.DerivesList ss' ss v →
    2 * v.length + 1 ≤ n → v.length < m → closing.type = .rightBrace →
    Accepts (blockLoop declaration m) v ss (closing :: rest) := by
  intro ss'
  induction ss' with
  | nil =>
    rintro ss m v rest closing ⟨rfl, rfl⟩ _ hm hclosing
    obtain ⟨m, rfl⟩ : ∃ k, m = k + 1 := ⟨m - 1, by omega⟩
    exact .ifClosed (by decide) hclosing (.refl _ _)
  | cons s' ss' ih =>
    rintro _ m v rest closing ⟨s, ss, u, w, rfl, rfl, hs, hss⟩ hn hm hclosing
    obtain ⟨m, rfl⟩ : ∃ k, m = k + 1 := ⟨m - 1, by omega⟩
    obtain ⟨t, tail, rfl, ht⟩ := declares_head hs
    rw [List.length_append, List.length_cons] at hn hm
    have hnext : NextNot [.else_] (w ++ closing :: rest) := by
      cases ss' with
      | nil =>
        obtain ⟨-, rfl⟩ := hss
        exact nextNot_cons (by simp [hclosing])
      | cons _ _ =>
        obtain ⟨_, _, _, _, -, rfl, hs₂, -⟩ := hss
        obtain ⟨t₂, _, rfl, ht₂⟩ := declares_head hs₂
        exact nextNot_of_starts ht₂ (by decide)
    have hdeclaration := hd s' s (t :: tail) (w ++ closing :: rest) hs
      (by rw [List.length_cons]; omega) (by simp) fun _ => hnext
    refine Leads.ifOpen (fun heof => ?_) (fun hbrace => ?_) ?_
    · rw [heof] at ht
      cases ht
    · rw [hbrace] at ht
      cases ht
    · refine Accepts.andThen hdeclaration ?_
      rw [← List.append_nil w]
      exact Accepts.andThen (ih ss m w rest closing hss (by omega) (by omega) hclosing) (.refl _ _)

theorem block_accepts {ss' : List (Clox.Stmt N)} {ss : List (Stmt N Unit)} {m : ℕ}
    {v : List (Token N)} {closing : Token N} (rest : List (Token N))
    (hss : Clox.Stmt.DerivesList ss' ss v) (hn : 2 * v.length + 1 ≤ n) (hm : v.length < m)
    (hclosing : closing.type = .rightBrace) :
    Accepts (block declaration m) (v ++ [closing]) ss rest :=
  Accepts.andThen (blockLoop_accepts hd ss' ss m v rest closing hss hn hm hclosing)
    (.consuming (by decide) hclosing (.refl _ _))

omit hd in
theorem parameterLoop_accepts : ∀ (params : List (Token N)) (m size : ℕ)
    (used rest : List (Token N)), params ≠ [] → SpellsParams params used → used.length ≤ m →
    size + params.length ≤ 255 → rest ≠ [] → NextNot [.comma] rest →
    Accepts (parameterLoop m size) used params rest := by
  intro params
  induction params with
  | nil => exact fun _ _ _ _ hne => absurd rfl hne
  | cons p params ih =>
    intro m size used rest _ hspells hm hsize hrest hcomma
    rw [List.length_cons] at hsize
    have hnot : ¬ size ≥ 255 := by omega
    cases params with
    | nil =>
      obtain ⟨rfl, hp⟩ := hspells
      obtain ⟨m, rfl⟩ : ∃ k, m = k + 1 := ⟨m - 1, by simp at hm; omega⟩
      unfold parameterLoop
      rw [if_neg hnot]
      exact .consuming (by decide) hp (.passing hrest hcomma (.refl _ _))
    | cons q params =>
      obtain ⟨comma, v, rfl, hp, hc, hspells⟩ := hspells
      simp only [List.length_cons] at hm hsize
      obtain ⟨m, rfl⟩ : ∃ k, m = k + 1 := ⟨m - 1, by omega⟩
      unfold parameterLoop
      rw [if_neg hnot]
      refine .consuming (by decide) hp (.matching (by decide) (by simp [hc]) ?_)
      rw [← List.append_nil v]
      exact Accepts.andThen (ih m (size + 1) v rest (by simp) hspells (by omega)
        (by simp only [List.length_cons]; omega) hrest hcomma) (.refl _ _)

theorem function_accepts {name : Name} {params : List Name} {body : List (Clox.Stmt N)}
    {s : Stmt N Unit} {used : List (Token N)} (kind : String) {m : ℕ} (rest : List (Token N))
    (h : (Clox.Stmt.function name params body).Derives s used) (hn : 2 * used.length ≤ n)
    (hm : used.length ≤ m) : Accepts (function declaration kind m) used s rest := by
  obtain ⟨t, params, body, opening, u, closing, left, v, right, rfl, rfl, ht, -, hopening, hclosing,
    hleft, hright, -, hsize, hparams, hbody⟩ := h
  simp only [List.length_cons, List.length_append] at hn hm
  have hblock : Leads (block declaration m >>= fun body => Pure.pure (Stmt.function t params body))
      (v ++ [right]) (Pure.pure (Stmt.function t params body)) rest := by
    rw [← List.append_nil (v ++ [right])]
    exact Accepts.andThen (block_accepts hd _ hbody (by omega) (by omega) hright) (.refl _ _)
  unfold function
  refine .consuming (by decide) ht (.consuming (by decide) hopening ?_)
  cases params with
  | nil =>
    obtain rfl : u = [] := hparams
    refine .ifCheck (by decide) rfl hclosing ?_
    exact .consuming (by decide) hclosing (.consuming (by decide) hleft hblock)
  | cons p params =>
    have hhead : NextNot [.rightParen] (u ++ closing :: left :: (v ++ [right]) ++ rest) := by
      cases params with
      | nil =>
        obtain ⟨rfl, hp⟩ := hparams
        exact nextNot_cons (by simp [hp])
      | cons q params =>
        obtain ⟨comma, w, rfl, hp, -⟩ := hparams
        exact nextNot_cons (by simp [hp])
    refine .ifNotCheck (by simp) hhead ?_
    refine Accepts.andThen (parameterLoop_accepts (p :: params) m 0 u _ (by simp) hparams (by omega)
      (by omega) (by simp) (nextNot_cons (by simp [hclosing]))) ?_
    exact .consuming (by decide) hclosing (.consuming (by decide) hleft hblock)

theorem methodLoop_accepts : ∀ (ss' : List (Clox.Stmt N)) (ss : List (Stmt N Unit)) (m : ℕ)
    (v rest : List (Token N)) (closing : Token N), Clox.Stmt.DerivesMethods ss' ss v →
    2 * v.length + 1 ≤ n → v.length < m → closing.type = .rightBrace →
    Accepts (methodLoop declaration m) v ss (closing :: rest) := by
  intro ss'
  induction ss' with
  | nil =>
    rintro ss m v rest closing ⟨rfl, rfl⟩ _ hm hclosing
    obtain ⟨m, rfl⟩ : ∃ k, m = k + 1 := ⟨m - 1, by omega⟩
    exact .ifClosed (by decide) hclosing (.refl _ _)
  | cons s' ss' ih =>
    rintro _ m v rest closing ⟨⟨name, params, body, rfl⟩, s, ss, u, w, rfl, rfl, hs, hss⟩ hn hm
      hclosing
    obtain ⟨m, rfl⟩ : ∃ k, m = k + 1 := ⟨m - 1, by omega⟩
    rw [List.length_append] at hn hm
    have hlength : 0 < u.length := by
      obtain ⟨_, _, _, _, _, _, _, _, _, -, rfl, -⟩ := hs
      simp
    have hfunction := function_accepts hd "method" (w ++ closing :: rest) hs
      (by omega) (show u.length ≤ m by omega)
    obtain ⟨t, tail, rfl, ht⟩ : ∃ t tail, u = t :: tail ∧ t.type = .identifier := by
      obtain ⟨t, _, _, _, _, _, _, _, _, -, rfl, ht, -⟩ := hs
      exact ⟨t, _, rfl, ht⟩
    refine Leads.ifOpen (by simp [ht]) (by simp [ht]) ?_
    refine Accepts.andThen hfunction ?_
    rw [← List.append_nil w]
    rw [List.length_cons] at hlength hn hm
    exact Accepts.andThen (ih ss m w rest closing hss (by omega) (by omega) hclosing) (.refl _ _)

theorem classDeclaration_accepts {name : Name} {superclass : Option Name}
    {methods : List (Clox.Stmt N)} {s : Stmt N Unit} {keyword : Token N} {used : List (Token N)}
    {m : ℕ} (rest : List (Token N))
    (h : (Clox.Stmt.class_ name superclass methods).Derives s (keyword :: used))
    (hn : 2 * used.length ≤ n) (hm : used.length ≤ m) :
    Accepts (classDeclaration declaration m) used s rest := by
  obtain ⟨_, t, superclass', methods', u, opening, v, closing, rfl, hused, -, ht, -, hopening,
    hclosing, hsuperclass, hmethods⟩ := h
  obtain ⟨-, rfl⟩ := List.cons.inj hused
  simp only [List.length_cons, List.length_append] at hn hm
  have hmethods (superclass' : Option (Token N × Unit)) :
      Leads (methodLoop declaration m >>= fun methods =>
        consume .rightBrace "Expect '\x7d' after class body." >>= fun _ =>
        Pure.pure (Stmt.class_ t superclass' methods)) (v ++ [closing])
        (Pure.pure (Stmt.class_ t superclass' methods')) rest :=
    Accepts.andThen (methodLoop_accepts hd methods methods' m v rest closing hmethods (by omega)
      (by omega) hclosing) (.consuming (by decide) hclosing (.refl _ _))
  unfold classDeclaration
  refine .consuming (by decide) ht ?_
  cases superclass with
  | none =>
    obtain ⟨rfl, rfl⟩ := hsuperclass
    refine .ifPass (by simp) (nextNot_cons (by simp [hopening])) ?_
    exact .consuming (by decide) hopening (hmethods none)
  | some name =>
    obtain ⟨less, t', rfl, rfl, hless, ht', -⟩ := hsuperclass
    refine .ifMatch (by decide) (by simp [hless]) (.consuming (by decide) ht' ?_)
    exact .consuming (by decide) hopening (hmethods (some (t', ())))

end Declarations

/-! ### Statements -/

section Statements

variable {expression : Parse N (Expr N Unit)} {n : ℕ} (h : AcceptsBelow n expression)

include h

theorem expression_accepts_before {e' : Clox.Expr N} {e : Expr N Unit} {v : List (Token N)}
    {t : Token N} (rest : List (Token N)) (he : DerivesExpr e' e v) (hn : v.length + 1 < n)
    (ht : infixLevel t.type = 0) : Accepts expression v e (t :: rest) :=
  h e v (t :: rest) he.derives.wf he.fits he.derives.spells hn (by simp)
    (follow_cons (by rw [ht]; exact Nat.one_pos))

theorem varDeclaration_accepts {name : Name} {init : Option (Clox.Expr N)} {s : Stmt N Unit}
    {used : List (Token N)} (rest : List (Token N)) (hvar : DerivesVar name init s used)
    (hn : used.length < n) : Accepts (varDeclaration expression) used s rest := by
  obtain ⟨t, o, u, semicolon, rfl, rfl, ht, -, hsemicolon, hinit⟩ := hvar
  simp only [List.length_cons, List.length_append] at hn
  unfold varDeclaration
  refine .consuming (by decide) ht ?_
  cases init with
  | none =>
    obtain ⟨rfl, rfl⟩ := hinit
    refine .ifPass (by simp) (nextNot_cons (by simp [hsemicolon])) ?_
    exact .consuming (by decide) hsemicolon (.refl _ _)
  | some e' =>
    obtain ⟨e, equals, v, rfl, rfl, hequals, he⟩ := hinit
    rw [List.length_cons] at hn
    refine .ifMatch (by decide) (by simp [hequals]) ?_
    refine Accepts.andThen (expression_accepts_before h _ he (by omega) (by rw [hsemicolon]; rfl)) ?_
    exact .consuming (by decide) hsemicolon (.refl _ _)

theorem expressionStatement_accepts {e' : Clox.Expr N} {e : Expr N Unit} {v : List (Token N)}
    {semicolon : Token N} (rest : List (Token N)) (he : DerivesExpr e' e v)
    (hsemicolon : semicolon.type = .semicolon) (hn : v.length + 1 < n) :
    Accepts (expressionStatement expression) (v ++ [semicolon]) (.expression e) rest :=
  Accepts.andThen (expression_accepts_before h _ he hn (by rw [hsemicolon]; rfl))
    (.consuming (by decide) hsemicolon (.refl _ _))

theorem printStatement_accepts {e' : Clox.Expr N} {e : Expr N Unit} {v : List (Token N)}
    {semicolon : Token N} (rest : List (Token N)) (he : DerivesExpr e' e v)
    (hsemicolon : semicolon.type = .semicolon) (hn : v.length + 1 < n) :
    Accepts (printStatement expression) (v ++ [semicolon]) (.print e) rest :=
  Accepts.andThen (expression_accepts_before h _ he hn (by rw [hsemicolon]; rfl))
    (.consuming (by decide) hsemicolon (.refl _ _))

theorem optionalExpression_accepts {o' : Option (Clox.Expr N)} {o : Option (Expr N Unit)}
    {v : List (Token N)} {t : Token N} (rest : List (Token N)) (ho : DerivesOption o' o v)
    (hn : v.length + 1 < n) (heof : t.type ≠ .eof) (hlevel : infixLevel t.type = 0)
    (hstarts : Expr.starts t.type = false) :
    Accepts (optionalExpression expression t.type) v o (t :: rest) := by
  unfold optionalExpression
  cases o' with
  | none =>
    obtain ⟨rfl, rfl⟩ := ho
    exact .ifCheck heof rfl rfl (.refl _ _)
  | some e' =>
    obtain ⟨e, rfl, he⟩ := ho
    obtain ⟨t', tail, rfl, ht'⟩ := he.head
    refine .ifNotCheck (by simp) (nextNot_cons fun hmem => ?_) ?_
    · rw [List.mem_singleton.1 hmem, hstarts] at ht'
      cases ht'
    · rw [← List.append_nil (t' :: tail)]
      exact Accepts.andThen (expression_accepts_before h _ he hn hlevel) (.refl _ _)

theorem returnStatement_accepts {o' : Option (Clox.Expr N)} {o : Option (Expr N Unit)}
    {v : List (Token N)} {keyword semicolon : Token N} (rest : List (Token N))
    (ho : DerivesOption o' o v) (hsemicolon : semicolon.type = .semicolon)
    (hn : v.length + 1 < n) :
    Accepts (returnStatement expression keyword) (v ++ [semicolon]) (.return_ keyword o) rest := by
  have hoption := optionalExpression_accepts (t := semicolon) h rest ho hn (by simp [hsemicolon])
    (by rw [hsemicolon]; rfl) (by rw [hsemicolon]; rfl)
  rw [hsemicolon] at hoption
  exact Accepts.andThen hoption (.consuming (by decide) hsemicolon (.refl _ _))

theorem forInitializer_accepts {init' : Clox.ForInit N} {o : Option (Stmt N Unit)}
    {used : List (Token N)} (rest : List (Token N)) (hinit : DerivesForInit init' o used)
    (hn : used.length < n) : Accepts (forInitializer expression) used o rest := by
  unfold forInitializer
  cases init' with
  | empty =>
    obtain ⟨rfl, semicolon, rfl, hsemicolon⟩ := hinit
    exact .ifMatch (by decide) (by simp [hsemicolon]) (.refl _ _)
  | var name init =>
    obtain ⟨s, keyword, v, rfl, rfl, hkeyword, hvar⟩ := hinit
    rw [List.length_cons] at hn
    refine .ifPass (by simp) (nextNot_cons (by simp [hkeyword])) ?_
    refine .ifMatch (by decide) (by simp [hkeyword]) ?_
    rw [← List.append_nil v]
    exact Accepts.andThen (varDeclaration_accepts h _ hvar (by omega)) (.refl _ _)
  | expression e' =>
    obtain ⟨e, v, semicolon, rfl, rfl, hsemicolon, he⟩ := hinit
    obtain ⟨t, tail, rfl, ht⟩ := he.head
    rw [List.length_append, List.length_singleton] at hn
    refine .ifPass (by simp) (nextNot_of_starts ht (by decide)) ?_
    refine .ifPass (by simp) (nextNot_of_starts ht (by decide)) ?_
    rw [← List.append_nil (t :: tail ++ [semicolon])]
    exact Accepts.andThen (expressionStatement_accepts h _ he hsemicolon hn) (.refl _ _)

variable {statement : Parse N (Stmt N Unit)} (hs : AcceptsStatement n statement)

include hs

theorem ifStatement_accepts {c : Clox.Expr N} {t : Clox.Stmt N} {e : Option (Clox.Stmt N)}
    {s : Stmt N Unit} {keyword : Token N} {used rest : List (Token N)}
    (hif : (Clox.Stmt.if_ c t e).Derives s (keyword :: used)) (hn : 2 * used.length ≤ n)
    (hrest : rest ≠ []) (hopen : (Clox.Stmt.if_ c t e).endsOpen → NextNot [.else_] rest) :
    Accepts (ifStatement expression statement) used s rest := by
  unfold ifStatement
  cases e with
  | none =>
    obtain ⟨condition, thenBranch, _, opening, u, closing, v, rfl, hused, -, hopening, hclosing,
      hcondition, ht, hv⟩ := hif
    obtain ⟨-, rfl⟩ := List.cons.inj hused
    simp only [List.length_cons, List.length_append] at hn
    have hnot : NextNot [.else_] rest := hopen rfl
    refine .consuming (by decide) hopening ?_
    refine Accepts.andThen
      (expression_accepts_before h _ hcondition (by omega) (by rw [hclosing]; rfl)) ?_
    refine .consuming (by decide) hclosing ?_
    rw [← List.append_nil v]
    refine Accepts.andThen (hs t thenBranch v _ ht hv (by omega) hrest fun _ => hnot) ?_
    exact .ifPass hrest hnot (.refl _ _)
  | some e =>
    obtain ⟨condition, thenBranch, elseBranch, _, opening, u, closing, v, else_, w, rfl, hused, -,
      hopening, hclosing, helse_, hcondition, ⟨ht, hclosed, hv⟩, he, hw⟩ := hif
    obtain ⟨-, rfl⟩ := List.cons.inj hused
    simp only [List.length_cons, List.length_append] at hn
    refine .consuming (by decide) hopening ?_
    refine Accepts.andThen
      (expression_accepts_before h _ hcondition (by omega) (by rw [hclosing]; rfl)) ?_
    refine .consuming (by decide) hclosing ?_
    refine Accepts.andThen (hs t thenBranch v _ ht hv (by omega) (by simp)
      fun hends => absurd hends hclosed) ?_
    refine .ifMatch (by decide) (by simp [helse_]) ?_
    rw [← List.append_nil w]
    refine Accepts.andThen (hs e elseBranch w _ he hw (by omega) hrest fun hends => ?_) (.refl _ _)
    exact hopen (by simpa [Clox.Stmt.endsOpen] using hends)

theorem whileStatement_accepts {c : Clox.Expr N} {b : Clox.Stmt N} {s : Stmt N Unit}
    {keyword : Token N} {used rest : List (Token N)}
    (hwhile : (Clox.Stmt.while_ c b).Derives s (keyword :: used)) (hn : 2 * used.length ≤ n)
    (hrest : rest ≠ []) (hopen : (Clox.Stmt.while_ c b).endsOpen → NextNot [.else_] rest) :
    Accepts (whileStatement expression statement) used s rest := by
  obtain ⟨condition, body, _, opening, u, closing, v, rfl, hused, -, hopening, hclosing,
    hcondition, hb, hv⟩ := hwhile
  obtain ⟨-, rfl⟩ := List.cons.inj hused
  simp only [List.length_cons, List.length_append] at hn
  unfold whileStatement
  refine .consuming (by decide) hopening ?_
  refine Accepts.andThen
    (expression_accepts_before h _ hcondition (by omega) (by rw [hclosing]; rfl)) ?_
  refine .consuming (by decide) hclosing ?_
  rw [← List.append_nil v]
  refine Accepts.andThen (hs b body v _ hb hv (by omega) hrest fun hends => ?_) (.refl _ _)
  exact hopen (by simpa [Clox.Stmt.endsOpen] using hends)

theorem forStatement_accepts {i : Clox.ForInit N} {c j : Option (Clox.Expr N)} {b : Clox.Stmt N}
    {s : Stmt N Unit} {keyword : Token N} {used rest : List (Token N)}
    (hfor : (Clox.Stmt.for_ i c j b).Derives s (keyword :: used)) (hn : 2 * used.length ≤ n)
    (hrest : rest ≠ []) (hopen : (Clox.Stmt.for_ i c j b).endsOpen → NextNot [.else_] rest) :
    Accepts (forStatement expression statement) used s rest := by
  obtain ⟨init, condition, increment, body, _, opening, a, u, semicolon, v, closing, w, rfl, hused,
    -, hopening, hsemicolon, hclosing, hinit, hcondition, hincrement, hb, hw⟩ := hfor
  obtain ⟨-, rfl⟩ := List.cons.inj hused
  simp only [List.length_cons, List.length_append] at hn
  have hcondition := optionalExpression_accepts (t := semicolon) h (v ++ closing :: w ++ rest)
    hcondition (by omega) (by simp [hsemicolon]) (by rw [hsemicolon]; rfl) (by rw [hsemicolon]; rfl)
  have hincrement := optionalExpression_accepts (t := closing) h (w ++ rest)
    hincrement (by omega) (by simp [hclosing]) (by rw [hclosing]; rfl) (by rw [hclosing]; rfl)
  rw [hsemicolon] at hcondition
  rw [hclosing] at hincrement
  unfold forStatement
  refine .consuming (by decide) hopening ?_
  refine Accepts.andThen (forInitializer_accepts h _ hinit (by omega)) ?_
  refine Accepts.andThen hcondition (.consuming (by decide) hsemicolon ?_)
  refine Accepts.andThen hincrement (.consuming (by decide) hclosing ?_)
  rw [← List.append_nil w]
  refine Accepts.andThen (hs b body w _ hb hw (by omega) hrest fun hends => ?_) (.refl _ _)
  exact hopen (by simpa [Clox.Stmt.endsOpen] using hends)

variable {declaration : Parse N (Stmt N Unit)} (hd : AcceptsDeclaration n declaration)

include hd

theorem statementBody_accepts :
    AcceptsStatement (n + 1) (statementBody expression statement declaration n) := by
  intro s' s used rest hstatement hderives hn hrest hopen
  unfold statementBody
  cases s' with
  | for_ i c j b =>
    obtain ⟨_, _, _, _, keyword, _, _, _, _, _, _, _, -, rfl, hkeyword, -⟩ := id hderives
    refine .ifMatch (by decide) (by simp [hkeyword]) ?_
    rw [List.length_cons] at hn
    exact forStatement_accepts h hs hderives (by omega) hrest hopen
  | if_ c t e =>
    obtain ⟨keyword, tail, rfl, hkeyword⟩ : ∃ keyword tail, used = keyword :: tail ∧
        keyword.type = .if_ := by
      cases e with
      | none =>
        obtain ⟨_, _, keyword, _, _, _, _, -, rfl, hkeyword, -⟩ := hderives
        exact ⟨keyword, _, rfl, hkeyword⟩
      | some e =>
        obtain ⟨_, _, _, keyword, _, _, _, _, _, _, -, rfl, hkeyword, -⟩ := hderives
        exact ⟨keyword, _, rfl, hkeyword⟩
    refine .ifPass (by simp) (nextNot_cons (by simp [hkeyword])) ?_
    refine .ifMatch (by decide) (by simp [hkeyword]) ?_
    rw [List.length_cons] at hn
    exact ifStatement_accepts h hs hderives (by omega) hrest hopen
  | print e' =>
    obtain ⟨e, keyword, v, semicolon, rfl, rfl, hkeyword, hsemicolon, he⟩ := hderives
    refine .ifPass (by simp) (nextNot_cons (by simp [hkeyword])) ?_
    refine .ifPass (by simp) (nextNot_cons (by simp [hkeyword])) ?_
    refine .ifMatch (by decide) (by simp [hkeyword]) ?_
    simp only [List.length_cons, List.length_append] at hn
    exact printStatement_accepts h _ he hsemicolon (by omega)
  | return_ o' =>
    obtain ⟨o, keyword, v, semicolon, rfl, rfl, hkeyword, hsemicolon, ho⟩ := hderives
    refine .ifPass (by simp) (nextNot_cons (by simp [hkeyword])) ?_
    refine .ifPass (by simp) (nextNot_cons (by simp [hkeyword])) ?_
    refine .ifPass (by simp) (nextNot_cons (by simp [hkeyword])) ?_
    refine .matching (by decide) (by simp [hkeyword]) ?_
    simp only [List.length_cons, List.length_append] at hn
    exact returnStatement_accepts h _ ho hsemicolon (by omega)
  | while_ c b =>
    obtain ⟨_, _, keyword, _, _, _, _, -, rfl, hkeyword, -⟩ := id hderives
    refine .ifPass (by simp) (nextNot_cons (by simp [hkeyword])) ?_
    refine .ifPass (by simp) (nextNot_cons (by simp [hkeyword])) ?_
    refine .ifPass (by simp) (nextNot_cons (by simp [hkeyword])) ?_
    refine .passing (by simp) (nextNot_cons (by simp [hkeyword])) ?_
    refine .ifMatch (by decide) (by simp [hkeyword]) ?_
    rw [List.length_cons] at hn
    exact whileStatement_accepts h hs hderives (by omega) hrest hopen
  | block body' =>
    obtain ⟨body, opening, v, closing, rfl, rfl, hopening, hclosing, hbody⟩ := hderives
    refine .ifPass (by simp) (nextNot_cons (by simp [hopening])) ?_
    refine .ifPass (by simp) (nextNot_cons (by simp [hopening])) ?_
    refine .ifPass (by simp) (nextNot_cons (by simp [hopening])) ?_
    refine .passing (by simp) (nextNot_cons (by simp [hopening])) ?_
    refine .ifPass (by simp) (nextNot_cons (by simp [hopening])) ?_
    refine .ifMatch (by decide) (by simp [hopening]) ?_
    simp only [List.length_cons, List.length_append, List.length_nil] at hn
    rw [← List.append_nil (v ++ [closing])]
    exact Accepts.andThen (block_accepts hd _ hbody (by omega) (by omega) hclosing) (.refl _ _)
  | expression e' =>
    obtain ⟨e, v, semicolon, rfl, rfl, hsemicolon, he⟩ := hderives
    obtain ⟨t, tail, rfl, ht⟩ := he.head
    simp only [List.length_cons, List.length_append, List.length_nil] at hn
    refine .ifPass (by simp) (nextNot_of_starts ht (by decide)) ?_
    refine .ifPass (by simp) (nextNot_of_starts ht (by decide)) ?_
    refine .ifPass (by simp) (nextNot_of_starts ht (by decide)) ?_
    refine .passing (by simp) (nextNot_of_starts ht (by decide)) ?_
    refine .ifPass (by simp) (nextNot_of_starts ht (by decide)) ?_
    refine .ifPass (by simp) (nextNot_of_starts ht (by decide)) ?_
    exact expressionStatement_accepts h _ he hsemicolon (by rw [List.length_cons]; omega)
  | var | function | class_ => cases hstatement

theorem declarationBody_accepts :
    AcceptsDeclaration (n + 1) (declarationBody expression statement declaration n) := by
  intro s' s used rest hdeclares hn hrest hopen
  unfold declarationBody
  by_cases hstatement : s'.IsStatement
  · have hderives : s'.Derives s used := by
      cases s' <;> first | exact hdeclares | cases hstatement
    have haccepts := hs s' s used rest hstatement hderives (by omega) hrest hopen
    obtain ⟨t, tail, rfl, ht⟩ := derives_head hderives hstatement
    refine .ifPass (by simp) (nextNot_of_starts ht (by decide)) ?_
    refine .ifPass (by simp) (nextNot_of_starts ht (by decide)) ?_
    exact .ifPass (by simp) (nextNot_of_starts ht (by decide)) haccepts
  cases s' with
  | class_ name superclass methods =>
    obtain ⟨keyword, _, _, _, _, _, _, _, -, rfl, hkeyword, -⟩ := id hdeclares
    refine .ifMatch (by decide) (by simp [hkeyword]) ?_
    rw [List.length_cons] at hn
    exact classDeclaration_accepts hd rest hdeclares (by omega) (by omega)
  | function name params body =>
    obtain ⟨keyword, v, rfl, hkeyword, hderives⟩ := hdeclares
    refine .ifPass (by simp) (nextNot_cons (by simp [hkeyword])) ?_
    refine .ifMatch (by decide) (by simp [hkeyword]) ?_
    rw [List.length_cons] at hn
    exact function_accepts hd "function" rest hderives (by omega) (by omega)
  | var name init =>
    obtain ⟨keyword, v, rfl, hkeyword, hvar⟩ := hdeclares
    refine .ifPass (by simp) (nextNot_cons (by simp [hkeyword])) ?_
    refine .ifPass (by simp) (nextNot_cons (by simp [hkeyword])) ?_
    refine .ifMatch (by decide) (by simp [hkeyword]) ?_
    rw [List.length_cons] at hn
    exact varDeclaration_accepts h rest hvar (by omega)
  | _ => exact absurd rfl hstatement

end Statements

theorem recover_accepts {body : Parse N (Stmt N Unit)} {used rest : List (Token N)}
    {s : Stmt N Unit} (h : Accepts body used s rest) (n : ℕ) :
    Accepts (recover body n) used s rest := by
  intro before errors
  unfold recover
  rw [h before errors]
  rfl

theorem statement_declaration_accepts (n : ℕ) :
    AcceptsStatement n (statement n : Parse N (Stmt N Unit)) ∧
      AcceptsDeclaration n (declaration n : Parse N (Stmt N Unit)) := by
  induction n with
  | zero =>
    refine ⟨fun s' s used rest hstatement hderives hn => ?_, fun s' s used rest _ hn => ?_⟩
    · obtain ⟨t, tail, rfl, -⟩ := derives_head hderives hstatement
      simp at hn
    · omega
  | succ n ih =>
    obtain ⟨hs, hd⟩ := ih
    refine ⟨statementBody_accepts (expression_accepts n) hs hd,
      fun s' s used rest hdeclares hn hrest hopen => recover_accepts ?_ n⟩
    exact declarationBody_accepts (expression_accepts n) hs hd s' s used rest hdeclares hn hrest
      hopen

/-- A program is read up to its end. -/
theorem parseLoop_accepts : ∀ (ss' : List (Clox.Stmt N)) (ss : List (Stmt N Unit)) (m : ℕ)
    (v rest : List (Token N)) (eof : Token N), Clox.Stmt.DerivesList ss' ss v →
    2 * v.length + 2 ≤ m → eof.type = .eof → Accepts (parseLoop m) v ss (eof :: rest) := by
  intro ss'
  induction ss' with
  | nil =>
    rintro ss m v rest eof ⟨rfl, rfl⟩ hm heof before errors
    obtain ⟨m, rfl⟩ : ∃ k, m = k + 1 := ⟨m - 1, by omega⟩
    unfold parseLoop
    change Parse.bind isAtEnd _ _ = _
    unfold Parse.bind
    rw [List.nil_append, isAtEnd_eq]
    simp [heof]
  | cons s' ss' ih =>
    rintro _ m v rest eof ⟨s, ss, u, w, rfl, rfl, hs, hss⟩ hm heof
    obtain ⟨m, rfl⟩ : ∃ k, m = k + 1 := ⟨m - 1, by omega⟩
    obtain ⟨t, tail, rfl, ht⟩ := declares_head hs
    rw [List.length_append, List.length_cons] at hm
    have hnext : NextNot [.else_] (w ++ eof :: rest) := by
      cases ss' with
      | nil =>
        obtain ⟨-, rfl⟩ := hss
        exact nextNot_cons (by simp [heof])
      | cons _ _ =>
        obtain ⟨_, _, _, _, -, rfl, hs₂, -⟩ := hss
        obtain ⟨t₂, _, rfl, ht₂⟩ := declares_head hs₂
        exact nextNot_of_starts ht₂ (by decide)
    have hdeclaration := (statement_declaration_accepts m).2 s' s (t :: tail) (w ++ eof :: rest) hs
      (by rw [List.length_cons]; omega) (by simp) fun _ => hnext
    have hloop := ih ss m w rest eof hss (by omega) heof
    have hne : t.type ≠ .eof := fun heq => by
      rw [heq] at ht
      cases ht
    have hbody : Leads (declaration m >>= fun s => parseLoop m >>= fun ss => Pure.pure (s :: ss))
        (t :: tail ++ w) (Pure.pure (s :: ss)) (eof :: rest) := by
      refine Accepts.andThen hdeclaration ?_
      rw [← List.append_nil w]
      exact Accepts.andThen hloop (.refl _ _)
    intro before errors
    rw [← hbody before errors, parseLoop]
    change Parse.bind isAtEnd _ _ = _
    unfold Parse.bind
    rw [List.cons_append, List.cons_append, isAtEnd_eq]
    simp [hne]

end Lox.Jlox
