import Lox.StatementsComplete

/-!
# Parsing and flattening

`Expr.flatten` and `Stmt.flatten` write a tree of jlox as tokens again: those that the tree keeps,
and for the others a token of the right type.  `Stmt.Legal` are the rules for a tree.  A program
without `for` that is parsed without an error gives a legal tree, which flattens to the same
symbols; and what a legal tree flattens to is parsed to that tree.
-/

namespace Lox.Jlox

variable {N D : Type}

/-- What a token stands for: a literal by its value, an identifier by its name, and any other token
by its type. -/
inductive Symbol (N : Type) where
  | literal (value : Literal N)
  | identifier (name : Name)
  | other (type : TokenType)

/-- The symbol of a token. -/
def Token.symbol (t : Token N) : Symbol N :=
  match t.type with
  | .false_ => .literal (.bool false)
  | .true_ => .literal (.bool true)
  | .nil_ => .literal .nil
  | .number | .string => .literal t.literal
  | .identifier => .identifier t.lexeme
  | type => .other type

/-- A token of which only the type counts. -/
def Token.mark (type : TokenType) : Token N := ⟨type, [], .nil, 0⟩

/-- A token for a literal. -/
def Literal.token : Literal N → Token N
  | .nil => .mark .nil_
  | .bool true => .mark .true_
  | .bool false => .mark .false_
  | .number n => ⟨.number, [], .number n, 0⟩
  | .string s => ⟨.string, [], .string s, 0⟩

mutual

/-- The tokens of an expression. -/
def Expr.flatten : Expr N D → List (Token N)
  | assign name value _ => name :: .mark .equal :: value.flatten
  | binary left operator right => left.flatten ++ operator :: right.flatten
  | call callee paren arguments =>
      callee.flatten ++ .mark .leftParen :: (Expr.flattenList arguments ++ [paren])
  | get object name => object.flatten ++ [.mark .dot, name]
  | grouping expression => .mark .leftParen :: (expression.flatten ++ [.mark .rightParen])
  | literal value => [value.token]
  | logical left operator right => left.flatten ++ operator :: right.flatten
  | set object name value => object.flatten ++ .mark .dot :: name :: .mark .equal :: value.flatten
  | super_ keyword method _ => [keyword, .mark .dot, method]
  | this_ keyword _ => [keyword]
  | unary operator right => operator :: right.flatten
  | variable_ name _ => [name]

/-- The tokens of arguments. -/
def Expr.flattenList : List (Expr N D) → List (Token N)
  | [] => []
  | [e] => e.flatten
  | e :: es => e.flatten ++ .mark .comma :: Expr.flattenList es

end

/-- The tokens of parameters. -/
def flattenParams : List (Token N) → List (Token N)
  | [] => []
  | [t] => [t]
  | t :: params => t :: .mark .comma :: flattenParams params

namespace Stmt

/-- A declaration comes after a keyword if it is a function. -/
def keyword : Stmt N D → List (Token N)
  | .function _ _ _ => [.mark .fun_]
  | _ => []

mutual

/-- The tokens of a statement; a function without its keyword, as methods are written. -/
def flatten : Stmt N D → List (Token N)
  | .block statements => .mark .leftBrace :: (flattenList statements ++ [.mark .rightBrace])
  | .class_ name superclass methods =>
      .mark .class_ :: name :: ((superclass.elim [] fun s => [.mark .less, s.1]) ++
        .mark .leftBrace :: (flattenMethods methods ++ [.mark .rightBrace]))
  | .expression e => e.flatten ++ [.mark .semicolon]
  | .function name params body =>
      name :: .mark .leftParen :: (flattenParams params ++
        .mark .rightParen :: .mark .leftBrace :: (flattenList body ++ [.mark .rightBrace]))
  | .if_ condition thenBranch none =>
      .mark .if_ :: .mark .leftParen :: (condition.flatten ++ .mark .rightParen ::
        thenBranch.flatten)
  | .if_ condition thenBranch (some elseBranch) =>
      .mark .if_ :: .mark .leftParen :: (condition.flatten ++ .mark .rightParen ::
        (thenBranch.flatten ++ .mark .else_ :: elseBranch.flatten))
  | .print e => .mark .print_ :: (e.flatten ++ [.mark .semicolon])
  | .return_ keyword value => keyword :: (value.elim [] Expr.flatten ++ [.mark .semicolon])
  | .var name initializer =>
      .mark .var_ :: name :: ((initializer.elim [] fun e => .mark .equal :: e.flatten) ++
        [.mark .semicolon])
  | .while_ condition body =>
      .mark .while_ :: .mark .leftParen :: (condition.flatten ++ .mark .rightParen :: body.flatten)
  | .null => []

/-- The tokens of declarations. -/
def flattenList : List (Stmt N D) → List (Token N)
  | [] => []
  | s :: ss => s.keyword ++ s.flatten ++ flattenList ss

/-- The tokens of methods. -/
def flattenMethods : List (Stmt N D) → List (Token N)
  | [] => []
  | s :: ss => s.flatten ++ flattenMethods ss

end

/-- Not a declaration. -/
def IsStatement : Stmt N D → Bool
  | .var _ _ | .function _ _ _ | .class_ _ _ _ => false
  | _ => true

/-- The statement ends in an `if` without `else`. -/
def endsOpen : Stmt N D → Bool
  | .if_ _ _ none => true
  | .if_ _ _ (some e) => e.endsOpen
  | .while_ _ body => body.endsOpen
  | _ => false

mutual

/-- The tree obeys the rules of the grammar, and the limits on parameters and arguments.  The
branches of an `if` and the body of a loop are no declarations, and an `else` belongs to the nearest
`if` it can. -/
def Legal : Stmt N D → Prop
  | .block statements => LegalList statements
  | .class_ name superclass methods =>
      name.type = .identifier ∧ (∀ s ∈ superclass, s.1.type = .identifier) ∧ LegalMethods methods
  | .expression e | .print e => e.Wf ∧ e.Fits
  | .function name params body =>
      name.type = .identifier ∧ (∀ t ∈ params, t.type = .identifier) ∧ params.length ≤ 255 ∧
      LegalList body
  | .if_ condition thenBranch none =>
      (condition.Wf ∧ condition.Fits) ∧ thenBranch.IsStatement ∧ thenBranch.Legal
  | .if_ condition thenBranch (some elseBranch) =>
      (condition.Wf ∧ condition.Fits) ∧
      (thenBranch.IsStatement ∧ ¬ thenBranch.endsOpen ∧ thenBranch.Legal) ∧
      elseBranch.IsStatement ∧ elseBranch.Legal
  | .return_ keyword value => keyword.type = .return_ ∧ ∀ e ∈ value, e.Wf ∧ e.Fits
  | .var name initializer => name.type = .identifier ∧ ∀ e ∈ initializer, e.Wf ∧ e.Fits
  | .while_ condition body => (condition.Wf ∧ condition.Fits) ∧ body.IsStatement ∧ body.Legal
  | .null => False

/-- All declarations are legal. -/
def LegalList : List (Stmt N D) → Prop
  | [] => True
  | s :: ss => s.Legal ∧ LegalList ss

/-- All methods are legal functions. -/
def LegalMethods : List (Stmt N D) → Prop
  | [] => True
  | s :: ss => ((∃ name params body, s = .function name params body) ∧ s.Legal) ∧ LegalMethods ss

end

end Stmt

/-! ### Expressions -/

theorem symbol_eq_mark {t : Token N} {type : TokenType} (ht : t.type = type)
    (htype : (Token.mark type : Token N).symbol = .other type) :
    t.symbol = (Token.mark type : Token N).symbol := by
  rw [htype]
  unfold Token.symbol Token.mark at *
  rw [ht]
  revert htype
  cases type <;> simp

theorem isLiteral_token (value : Literal N) : value.token.IsLiteral value := by
  fun_cases Literal.token value <;> simp [Token.IsLiteral, Token.mark]

theorem symbol_of_isLiteral {t : Token N} {value : Literal N} (h : t.IsLiteral value) :
    t.symbol = .literal value := by
  obtain ⟨ht, rfl⟩ | ⟨ht, rfl⟩ | ⟨ht, rfl⟩ | ⟨ht | ht, rfl⟩ := h <;> simp [Token.symbol, ht]

mutual

theorem Expr.spells_flatten : ∀ e : Expr N D, e.Spells e.flatten
  | .assign _ value _ => ⟨_, _, rfl, rfl, value.spells_flatten⟩
  | .binary left _ right => ⟨_, _, rfl, left.spells_flatten, right.spells_flatten⟩
  | .call callee _ arguments =>
    ⟨_, _, _, rfl, rfl, callee.spells_flatten, Expr.spells_flattenList arguments⟩
  | .get object _ => ⟨_, _, rfl, rfl, object.spells_flatten⟩
  | .grouping e => ⟨_, _, _, rfl, rfl, rfl, e.spells_flatten⟩
  | .literal value => ⟨_, rfl, isLiteral_token value⟩
  | .logical left _ right => ⟨_, _, rfl, left.spells_flatten, right.spells_flatten⟩
  | .set object _ value =>
    ⟨_, _, _, _, rfl, rfl, rfl, object.spells_flatten, value.spells_flatten⟩
  | .super_ _ _ _ => ⟨_, rfl, rfl⟩
  | .this_ _ _ => rfl
  | .unary _ right => ⟨_, rfl, right.spells_flatten⟩
  | .variable_ _ _ => rfl

theorem Expr.spells_flattenList : ∀ es : List (Expr N D),
    Expr.SpellsList es (Expr.flattenList es)
  | [] => by rw [Expr.spellsList_nil, Expr.flattenList]
  | [e] => by
    rw [Expr.spellsList_singleton, Expr.flattenList]
    exact e.spells_flatten
  | e :: e' :: es => by
    rw [Expr.spellsList_cons (by simp), Expr.flattenList]
    · exact ⟨_, _, _, rfl, rfl, e.spells_flatten, Expr.spells_flattenList (e' :: es)⟩
    · simp

end

mutual

/-- Tokens that spell an expression are its tokens, up to what does not count. -/
theorem Expr.symbols_of_spells : ∀ (e : Expr N D) {ts : List (Token N)}, e.Spells ts →
    ts.map Token.symbol = e.flatten.map Token.symbol
  | .assign _ value _, _, ⟨equals, v, rfl, hequals, hv⟩ => by
    simp [Expr.flatten, symbol_eq_mark hequals rfl, value.symbols_of_spells hv]
  | .binary left _ right, _, ⟨u, v, rfl, hu, hv⟩ => by
    simp [Expr.flatten, left.symbols_of_spells hu, right.symbols_of_spells hv]
  | .call callee _ arguments, _, ⟨u, opening, v, rfl, hopening, hu, hv⟩ => by
    simp [Expr.flatten, symbol_eq_mark hopening rfl, callee.symbols_of_spells hu,
      Expr.symbols_of_spellsList arguments hv]
  | .get object _, _, ⟨u, dot, rfl, hdot, hu⟩ => by
    simp [Expr.flatten, symbol_eq_mark hdot rfl, object.symbols_of_spells hu]
  | .grouping e, _, ⟨opening, v, closing, rfl, hopening, hclosing, hv⟩ => by
    simp [Expr.flatten, symbol_eq_mark hopening rfl, symbol_eq_mark hclosing rfl,
      e.symbols_of_spells hv]
  | .literal value, _, ⟨t, rfl, ht⟩ => by
    simp [Expr.flatten, symbol_of_isLiteral ht, symbol_of_isLiteral (isLiteral_token value)]
  | .logical left _ right, _, ⟨u, v, rfl, hu, hv⟩ => by
    simp [Expr.flatten, left.symbols_of_spells hu, right.symbols_of_spells hv]
  | .set object _ value, _, ⟨u, dot, equals, v, rfl, hdot, hequals, hu, hv⟩ => by
    simp [Expr.flatten, symbol_eq_mark hdot rfl, symbol_eq_mark hequals rfl,
      object.symbols_of_spells hu, value.symbols_of_spells hv]
  | .super_ _ _ _, _, ⟨dot, rfl, hdot⟩ => by
    simp [Expr.flatten, symbol_eq_mark hdot rfl]
  | .this_ _ _, _, rfl => rfl
  | .unary _ right, _, ⟨v, rfl, hv⟩ => by
    simp [Expr.flatten, right.symbols_of_spells hv]
  | .variable_ _ _, _, rfl => rfl

theorem Expr.symbols_of_spellsList : ∀ (es : List (Expr N D)) {ts : List (Token N)},
    Expr.SpellsList es ts → ts.map Token.symbol = (Expr.flattenList es).map Token.symbol
  | [], ts, h => by
    rw [Expr.spellsList_nil] at h
    rw [h, Expr.flattenList]
  | [e], ts, h => by
    rw [Expr.spellsList_singleton] at h
    rw [Expr.flattenList]
    exact e.symbols_of_spells h
  | e :: e' :: es, ts, h => by
    rw [Expr.spellsList_cons (by simp)] at h
    obtain ⟨u, comma, v, rfl, hcomma, hu, hv⟩ := h
    rw [Expr.flattenList]
    · simp [symbol_eq_mark hcomma rfl, e.symbols_of_spells hu,
        Expr.symbols_of_spellsList (e' :: es) hv]
    · simp

end

theorem spells_flattenParams : ∀ {params : List (Token N)}, (∀ t ∈ params, t.type = .identifier) →
    SpellsParams params (flattenParams params)
  | [], _ => rfl
  | [t], h => ⟨rfl, h t (by simp)⟩
  | t :: t' :: params, h => ⟨_, _, rfl, h t (by simp), rfl,
      spells_flattenParams fun u hu => h u (List.mem_cons_of_mem _ hu)⟩

theorem symbols_of_spellsParams : ∀ {params ts : List (Token N)}, SpellsParams params ts →
    ts.map Token.symbol = (flattenParams params).map Token.symbol ∧
      ∀ t ∈ params, t.type = .identifier
  | [], _, rfl => ⟨rfl, by simp⟩
  | [t], _, ⟨rfl, ht⟩ => ⟨rfl, by simpa using ht⟩
  | t :: t' :: params, _, ⟨comma, v, rfl, ht, hcomma, hv⟩ => by
    obtain ⟨hsymbols, hparams⟩ := symbols_of_spellsParams hv
    refine ⟨by simp [flattenParams, symbol_eq_mark hcomma rfl, hsymbols], ?_⟩
    intro u hu
    rcases List.mem_cons.1 hu with rfl | hu
    · exact ht
    · exact hparams u hu

/-! ### From tokens to a legal tree -/

/-- None of the tokens is `for`. -/
def NoFor (ts : List (Token N)) : Prop := ∀ t ∈ ts, t.type ≠ .for_

theorem NoFor.left {u v : List (Token N)} (h : NoFor (u ++ v)) : NoFor u :=
  fun t ht => h t (List.mem_append_left _ ht)

theorem NoFor.right {u v : List (Token N)} (h : NoFor (u ++ v)) : NoFor v :=
  fun t ht => h t (List.mem_append_right _ ht)

theorem NoFor.tail {t : Token N} {v : List (Token N)} (h : NoFor (t :: v)) : NoFor v :=
  fun u hu => h u (List.mem_cons_of_mem _ hu)

theorem DerivesExpr.symbols {e' : Clox.Expr N} {e : Expr N Unit} {ts : List (Token N)}
    (h : DerivesExpr e' e ts) :
    ts.map Token.symbol = e.flatten.map Token.symbol ∧ e.Wf ∧ e.Fits :=
  ⟨e.symbols_of_spells h.derives.spells, h.derives.wf, h.fits⟩

theorem DerivesOption.symbols {o' : Option (Clox.Expr N)} {o : Option (Expr N Unit)}
    {ts : List (Token N)} (h : DerivesOption o' o ts) :
    ts.map Token.symbol = (o.elim [] Expr.flatten).map Token.symbol ∧
      ∀ e ∈ o, e.Wf ∧ e.Fits := by
  cases o' with
  | none =>
    obtain ⟨rfl, rfl⟩ := h
    exact ⟨rfl, by simp⟩
  | some e' =>
    obtain ⟨e, rfl, he⟩ := h
    obtain ⟨hsymbols, hlegal⟩ := DerivesExpr.symbols he
    exact ⟨hsymbols, by simpa using hlegal⟩

theorem DerivesVar.symbols {name : Name} {init : Option (Clox.Expr N)} {s : Stmt N Unit}
    {keyword : Token N} {ts : List (Token N)} (h : DerivesVar name init s ts)
    (hkeyword : keyword.type = .var_) :
    s.Legal ∧ (keyword :: ts).map Token.symbol = s.flatten.map Token.symbol := by
  obtain ⟨t, o, u, semicolon, rfl, rfl, ht, -, hsemicolon, hinit⟩ := h
  have hkeyword := symbol_eq_mark (N := N) hkeyword rfl
  have hsemicolon := symbol_eq_mark (N := N) hsemicolon rfl
  cases init with
  | none =>
    obtain ⟨rfl, rfl⟩ := hinit
    exact ⟨⟨ht, by simp⟩, by simp [Stmt.flatten, hkeyword, hsemicolon]⟩
  | some e' =>
    obtain ⟨e, equals, v, rfl, rfl, hequals, he⟩ := hinit
    obtain ⟨hsymbols, hlegal⟩ := DerivesExpr.symbols he
    refine ⟨⟨ht, by simpa using hlegal⟩, ?_⟩
    simp [Stmt.flatten, hkeyword, hsemicolon, symbol_eq_mark hequals rfl, hsymbols]

/-- What is known of the tree that tokens without `for` derive. -/
structure Agrees (s' : Clox.Stmt N) (s : Stmt N Unit) (ts : List (Token N)) : Prop where
  legal : s.Legal
  symbols : ts.map Token.symbol = s.flatten.map Token.symbol
  isStatement : s'.IsStatement = s.IsStatement
  endsOpen : s'.endsOpen = s.endsOpen

/-- Functions are functions in both trees. -/
theorem keyword_of_derives {s' : Clox.Stmt N} {s : Stmt N Unit} {ts : List (Token N)}
    (h : s'.Derives s ts) :
    (∃ name params body, s' = .function name params body) ∧ s.keyword = [.mark .fun_] ∨
      (¬ ∃ name params body, s' = .function name params body) ∧ s.keyword = [] := by
  cases s' with
  | function name params body =>
    obtain ⟨_, _, _, _, _, _, _, _, _, rfl, -⟩ := h
    exact .inl ⟨⟨_, _, _, rfl⟩, rfl⟩
  | for_ i c j b =>
    obtain ⟨init, _, _, _, _, _, _, _, _, _, _, _, rfl, -⟩ := h
    cases init <;> exact .inr ⟨by simp, rfl⟩
  | if_ c t e =>
    cases e with
    | none =>
      obtain ⟨_, _, _, _, _, _, _, rfl, -⟩ := h
      exact .inr ⟨by simp, rfl⟩
    | some e =>
      obtain ⟨_, _, _, _, _, _, _, _, _, _, rfl, -⟩ := h
      exact .inr ⟨by simp, rfl⟩
  | var name init =>
    obtain ⟨_, _, -, -, _, _, _, _, rfl, -⟩ := h
    exact .inr ⟨by simp, rfl⟩
  | expression e =>
    obtain ⟨_, _, _, rfl, -⟩ := h
    exact .inr ⟨by simp, rfl⟩
  | print | block | return_ =>
    obtain ⟨_, _, _, _, rfl, -⟩ := h
    exact .inr ⟨by simp, rfl⟩
  | while_ c b =>
    obtain ⟨_, _, _, _, _, _, _, rfl, -⟩ := h
    exact .inr ⟨by simp, rfl⟩
  | class_ name superclass methods =>
    obtain ⟨_, _, _, _, _, _, _, _, rfl, -⟩ := h
    exact .inr ⟨by simp, rfl⟩

/-- A declaration is a statement, after a keyword if it is a function. -/
theorem declares_split {s' : Clox.Stmt N} {s : Stmt N Unit} {ts : List (Token N)}
    (h : s'.Declares (s'.Derives s) ts) :
    ∃ u v, ts = u ++ v ∧ s'.Derives s v ∧ u.map Token.symbol = s.keyword.map Token.symbol := by
  by_cases hfunction : ∃ name params body, s' = .function name params body
  · obtain ⟨name, params, body, rfl⟩ := hfunction
    obtain ⟨keyword, v, rfl, hkeyword, hderives⟩ := h
    refine ⟨[keyword], v, rfl, hderives, ?_⟩
    obtain ⟨-, h⟩ | ⟨h, -⟩ := keyword_of_derives hderives
    · simp [h, symbol_eq_mark hkeyword rfl]
    · exact absurd ⟨_, _, _, rfl⟩ h
  · have hderives : s'.Derives s ts := by
      cases s' <;> first | exact h | exact absurd ⟨_, _, _, rfl⟩ hfunction
    refine ⟨[], ts, rfl, hderives, ?_⟩
    obtain ⟨h, -⟩ | ⟨-, h⟩ := keyword_of_derives hderives
    · exact absurd h hfunction
    · rw [h]

theorem declares_of_derives {s' : Clox.Stmt N} {s : Stmt N Unit} {ts : List (Token N)}
    (h : s'.Derives s ts) : s'.Declares (s'.Derives s) (s.keyword ++ ts) := by
  obtain ⟨⟨name, params, body, rfl⟩, hkeyword⟩ | ⟨hnot, hkeyword⟩ := keyword_of_derives h
  · exact ⟨.mark .fun_, ts, by rw [hkeyword]; rfl, rfl, h⟩
  · rw [hkeyword, List.nil_append]
    cases s' <;> first | exact h | exact absurd ⟨_, _, _, rfl⟩ hnot

mutual

theorem derives_agrees : ∀ (s' : Clox.Stmt N) {s : Stmt N Unit} {ts : List (Token N)},
    s'.Derives s ts → NoFor ts → Agrees s' s ts
  | .expression e', _, _, ⟨e, v, semicolon, rfl, rfl, hsemicolon, he⟩, _ => by
    obtain ⟨hsymbols, hlegal⟩ := DerivesExpr.symbols he
    exact ⟨hlegal, by simp [Stmt.flatten, symbol_eq_mark hsemicolon rfl, hsymbols], rfl, rfl⟩
  | .print e', _, _, ⟨e, keyword, v, semicolon, rfl, rfl, hkeyword, hsemicolon, he⟩, _ => by
    obtain ⟨hsymbols, hlegal⟩ := DerivesExpr.symbols he
    exact ⟨hlegal, by simp [Stmt.flatten, symbol_eq_mark hsemicolon rfl,
      symbol_eq_mark hkeyword rfl, hsymbols], rfl, rfl⟩
  | .var name init, _, _, ⟨keyword, v, rfl, hkeyword, hvar⟩, _ => by
    obtain ⟨hlegal, hsymbols⟩ := DerivesVar.symbols hvar hkeyword
    obtain ⟨t, o, u, semicolon, rfl, -⟩ := hvar
    exact ⟨hlegal, hsymbols, rfl, rfl⟩
  | .block body', _, _, ⟨body, opening, v, closing, rfl, rfl, hopening, hclosing, hbody⟩, hfor => by
    obtain ⟨hlegal, hsymbols⟩ := derivesList_agrees body' hbody hfor.tail.left
    exact ⟨hlegal, by simp [Stmt.flatten, symbol_eq_mark hopening rfl, symbol_eq_mark hclosing rfl,
      hsymbols], rfl, rfl⟩
  | .if_ c' t' none, _, _, ⟨c, t, keyword, opening, u, closing, v, rfl, rfl, hkeyword, hopening,
      hclosing, hc, ht, hv⟩, hfor => by
    obtain ⟨hsymbols, hlegal⟩ := DerivesExpr.symbols hc
    have hthen := derives_agrees t' hv hfor.tail.tail.right.tail
    refine ⟨⟨hlegal, hthen.isStatement ▸ ht, hthen.legal⟩, ?_, rfl, rfl⟩
    simp [Stmt.flatten, symbol_eq_mark hkeyword rfl, symbol_eq_mark hopening rfl,
      symbol_eq_mark hclosing rfl, hsymbols, hthen.symbols]
  | .if_ c' t' (some e'), _, _, ⟨c, t, e, keyword, opening, u, closing, v, else_, w, rfl, rfl,
      hkeyword, hopening, hclosing, helse_, hc, ⟨ht, hclosed, hv⟩, he, hw⟩, hfor => by
    obtain ⟨hsymbols, hlegal⟩ := DerivesExpr.symbols hc
    have hthen := derives_agrees t' hv hfor.tail.tail.right.tail.left
    have helse := derives_agrees e' hw hfor.tail.tail.right.tail.right.tail
    refine ⟨⟨hlegal, ⟨hthen.isStatement ▸ ht, hthen.endsOpen ▸ hclosed, hthen.legal⟩,
      helse.isStatement ▸ he, helse.legal⟩, ?_, rfl, ?_⟩
    · simp [Stmt.flatten, symbol_eq_mark hkeyword rfl, symbol_eq_mark hopening rfl,
        symbol_eq_mark hclosing rfl, symbol_eq_mark helse_ rfl, hsymbols, hthen.symbols,
        helse.symbols]
    · simp [Clox.Stmt.endsOpen, Stmt.endsOpen, helse.endsOpen]
  | .while_ c' b', _, _, ⟨c, b, keyword, opening, u, closing, v, rfl, rfl, hkeyword, hopening,
      hclosing, hc, hb, hv⟩, hfor => by
    obtain ⟨hsymbols, hlegal⟩ := DerivesExpr.symbols hc
    have hbody := derives_agrees b' hv hfor.tail.tail.right.tail
    refine ⟨⟨hlegal, hbody.isStatement ▸ hb, hbody.legal⟩, ?_, rfl, ?_⟩
    · simp [Stmt.flatten, symbol_eq_mark hkeyword rfl, symbol_eq_mark hopening rfl,
        symbol_eq_mark hclosing rfl, hsymbols, hbody.symbols]
    · simp [Clox.Stmt.endsOpen, Stmt.endsOpen, hbody.endsOpen]
  | .for_ i c j b, _, _, ⟨_, _, _, _, keyword, _, _, _, _, _, _, _, _, rfl, hkeyword, _⟩, hfor =>
    absurd hkeyword (hfor keyword (by simp))
  | .function name params' body', _, _, ⟨t, params, body, opening, u, closing, left, v, right, rfl,
      rfl, ht, _, hopening, hclosing, hleft, hright, _, hsize, hparams, hbody⟩, hfor => by
    obtain ⟨hsymbols, hidentifiers⟩ := symbols_of_spellsParams hparams
    obtain ⟨hlegal, hbody⟩ := derivesList_agrees body' hbody hfor.tail.tail.right.tail.tail.left
    refine ⟨⟨ht, hidentifiers, hsize, hlegal⟩, ?_, rfl, rfl⟩
    simp [Stmt.flatten, symbol_eq_mark hopening rfl, symbol_eq_mark hclosing rfl,
      symbol_eq_mark hleft rfl, symbol_eq_mark hright rfl, hsymbols, hbody]
  | .return_ o', _, _, ⟨o, keyword, v, semicolon, rfl, rfl, hkeyword, hsemicolon, ho⟩, _ => by
    obtain ⟨hsymbols, hlegal⟩ := DerivesOption.symbols ho
    exact ⟨⟨hkeyword, hlegal⟩, by simp [Stmt.flatten, symbol_eq_mark hsemicolon rfl, hsymbols], rfl,
      rfl⟩
  | .class_ name superclass' methods', _, _, ⟨keyword, t, superclass, methods, u, opening, v,
      closing, rfl, rfl, hkeyword, ht, _, hopening, hclosing, hsuperclass, hmethods⟩, hfor => by
    obtain ⟨hlegal, hmethods⟩ := derivesMethods_agrees methods' hmethods
      hfor.tail.tail.right.tail.left
    cases superclass' with
    | none =>
      obtain ⟨rfl, rfl⟩ := hsuperclass
      refine ⟨⟨ht, by simp, hlegal⟩, ?_, rfl, rfl⟩
      simp [Stmt.flatten, symbol_eq_mark hkeyword rfl, symbol_eq_mark hopening rfl,
        symbol_eq_mark hclosing rfl, hmethods]
    | some name =>
      obtain ⟨less, t', rfl, rfl, hless, ht', -⟩ := hsuperclass
      refine ⟨⟨ht, by simpa using ht', hlegal⟩, ?_, rfl, rfl⟩
      simp [Stmt.flatten, symbol_eq_mark hkeyword rfl, symbol_eq_mark hopening rfl,
        symbol_eq_mark hclosing rfl, symbol_eq_mark hless rfl, hmethods]

theorem derivesList_agrees : ∀ (ss' : List (Clox.Stmt N)) {ss : List (Stmt N Unit)}
    {ts : List (Token N)}, Clox.Stmt.DerivesList ss' ss ts → NoFor ts →
    Stmt.LegalList ss ∧ ts.map Token.symbol = (Stmt.flattenList ss).map Token.symbol
  | [], _, _, ⟨rfl, rfl⟩, _ => ⟨trivial, rfl⟩
  | s' :: ss', _, _, ⟨s, ss, u, v, rfl, rfl, hs, hss⟩, hfor => by
    obtain ⟨hlegal, hsymbols⟩ := derivesList_agrees ss' hss hfor.right
    obtain ⟨keyword, w, rfl, hderives, hkeyword⟩ := declares_split hs
    have hagrees := derives_agrees s' hderives hfor.left.right
    exact ⟨⟨hagrees.legal, hlegal⟩, by
      simp [Stmt.flattenList, hkeyword, hagrees.symbols, hsymbols]⟩

theorem derivesMethods_agrees : ∀ (ss' : List (Clox.Stmt N)) {ss : List (Stmt N Unit)}
    {ts : List (Token N)}, Clox.Stmt.DerivesMethods ss' ss ts → NoFor ts →
    Stmt.LegalMethods ss ∧ ts.map Token.symbol = (Stmt.flattenMethods ss).map Token.symbol
  | [], _, _, ⟨rfl, rfl⟩, _ => ⟨trivial, rfl⟩
  | s' :: ss', _, _, ⟨⟨name, params, body, hfunction⟩, s, ss, u, v, rfl, rfl, hs, hss⟩, hfor => by
    have hagrees := derives_agrees s' hs hfor.left
    obtain ⟨hlegal, hsymbols⟩ := derivesMethods_agrees ss' hss hfor.right
    subst hfunction
    obtain ⟨_, _, _, _, _, _, _, _, _, rfl, -⟩ := hs
    exact ⟨⟨⟨⟨_, _, _, rfl⟩, hagrees.legal⟩, hlegal⟩, by
      simp [Stmt.flattenMethods, hagrees.symbols, hsymbols]⟩

end

/-! ### From a legal tree to its tokens -/

theorem derivesExpr_flatten {e : Expr N Unit} (h : e.Wf ∧ e.Fits) :
    DerivesExpr e.toClox e e.flatten :=
  ⟨rfl, ⟨h.1, Expr.one_le_level h.1, e.spells_flatten⟩, h.2⟩

theorem derivesOption_flatten {o : Option (Expr N Unit)} (h : ∀ e ∈ o, e.Wf ∧ e.Fits) :
    DerivesOption (o.map Expr.toClox) o (o.elim [] Expr.flatten) := by
  cases o with
  | none => exact ⟨rfl, rfl⟩
  | some e => exact ⟨e, rfl, derivesExpr_flatten (h e rfl)⟩

mutual

theorem exists_derives : ∀ (s : Stmt N Unit), s.Legal →
    ∃ s' : Clox.Stmt N, s'.Derives s s.flatten ∧ s'.IsStatement = s.IsStatement ∧
      s'.endsOpen = s.endsOpen
  | .expression e, h =>
    ⟨.expression e.toClox, ⟨e, _, _, rfl, rfl, rfl, derivesExpr_flatten h⟩, rfl, rfl⟩
  | .print e, h =>
    ⟨.print e.toClox, ⟨e, _, _, _, rfl, rfl, rfl, rfl, derivesExpr_flatten h⟩, rfl, rfl⟩
  | .var name none, h =>
    ⟨.var name.lexeme none, ⟨_, _, rfl, rfl, name, none, [], _, rfl, rfl, h.1, rfl, rfl, rfl, rfl⟩,
      rfl, rfl⟩
  | .var name (some e), h =>
    ⟨.var name.lexeme (some e.toClox), ⟨_, _, rfl, rfl, name, some e, _, _, rfl, rfl, h.1, rfl, rfl,
      e, _, _, rfl, rfl, rfl, derivesExpr_flatten (h.2 e rfl)⟩, rfl, rfl⟩
  | .block body, h => by
    obtain ⟨body', hbody⟩ := exists_derivesList body h
    exact ⟨.block body', ⟨body, _, _, _, rfl, rfl, rfl, rfl, hbody⟩, rfl, rfl⟩
  | .if_ c t none, h => by
    obtain ⟨t', ht', hstatement, hopen⟩ := exists_derives t h.2.2
    exact ⟨.if_ c.toClox t' none, ⟨c, t, _, _, _, _, _, rfl, rfl, rfl, rfl, rfl,
      derivesExpr_flatten h.1, hstatement ▸ h.2.1, ht'⟩, rfl, rfl⟩
  | .if_ c t (some e), h => by
    obtain ⟨t', ht', htstatement, htopen⟩ := exists_derives t h.2.1.2.2
    obtain ⟨e', he', hestatement, heopen⟩ := exists_derives e h.2.2.2
    refine ⟨.if_ c.toClox t' (some e'), ⟨c, t, e, _, _, _, _, _, _, _, rfl, rfl, rfl, rfl, rfl, rfl,
      derivesExpr_flatten h.1, ⟨htstatement ▸ h.2.1.1, htopen ▸ h.2.1.2.1, ht'⟩,
      hestatement ▸ h.2.2.1, he'⟩, rfl, ?_⟩
    simp [Clox.Stmt.endsOpen, Stmt.endsOpen, heopen]
  | .while_ c b, h => by
    obtain ⟨b', hb', hstatement, hopen⟩ := exists_derives b h.2.2
    refine ⟨.while_ c.toClox b', ⟨c, b, _, _, _, _, _, rfl, rfl, rfl, rfl, rfl,
      derivesExpr_flatten h.1, hstatement ▸ h.2.1, hb'⟩, rfl, ?_⟩
    simp [Clox.Stmt.endsOpen, Stmt.endsOpen, hopen]
  | .function t params body, h => by
    obtain ⟨body', hbody⟩ := exists_derivesList body h.2.2.2
    exact ⟨.function t.lexeme (params.map (·.lexeme)) body', ⟨t, params, body, _, _, _, _, _, _, rfl,
      rfl, h.1, rfl, rfl, rfl, rfl, rfl, rfl, h.2.2.1, spells_flattenParams h.2.1, hbody⟩, rfl, rfl⟩
  | .return_ keyword value, h =>
    ⟨.return_ (value.map Expr.toClox), ⟨value, keyword, _, _, rfl, rfl, h.1, rfl,
      derivesOption_flatten h.2⟩, rfl, rfl⟩
  | .class_ t none methods, h => by
    obtain ⟨methods', hmethods⟩ := exists_derivesMethods methods h.2.2
    exact ⟨.class_ t.lexeme none methods', ⟨_, t, none, methods, [], _, _, _, rfl, rfl, rfl, h.1,
      rfl, rfl, rfl, ⟨rfl, rfl⟩, hmethods⟩, rfl, rfl⟩
  | .class_ t (some (s, ())) methods, h => by
    obtain ⟨methods', hmethods⟩ := exists_derivesMethods methods h.2.2
    exact ⟨.class_ t.lexeme (some s.lexeme) methods', ⟨_, t, some (s, ()), methods, [_, s], _, _, _,
      rfl, rfl, rfl, h.1, rfl, rfl, rfl, ⟨_, s, rfl, rfl, rfl, h.2.1 (s, ()) rfl, rfl⟩, hmethods⟩,
      rfl, rfl⟩

theorem exists_derivesList : ∀ (ss : List (Stmt N Unit)), Stmt.LegalList ss →
    ∃ ss', Clox.Stmt.DerivesList ss' ss (Stmt.flattenList ss)
  | [], _ => ⟨[], rfl, rfl⟩
  | s :: ss, h => by
    obtain ⟨s', hs', -⟩ := exists_derives s h.1
    obtain ⟨ss', hss'⟩ := exists_derivesList ss h.2
    exact ⟨s' :: ss', s, ss, s.keyword ++ s.flatten, _, rfl, rfl, declares_of_derives hs', hss'⟩

theorem exists_derivesMethods : ∀ (ss : List (Stmt N Unit)), Stmt.LegalMethods ss →
    ∃ ss', Clox.Stmt.DerivesMethods ss' ss (Stmt.flattenMethods ss)
  | [], _ => ⟨[], rfl, rfl⟩
  | s :: ss, h => by
    obtain ⟨s', hs', -⟩ := exists_derives s h.1.2
    obtain ⟨ss', hss'⟩ := exists_derivesMethods ss h.2
    refine ⟨s' :: ss', ?_, s, ss, s.flatten, _, rfl, rfl, hs', hss'⟩
    obtain ⟨name, params, body, rfl⟩ := h.1.1
    obtain ⟨hfunction, -⟩ | ⟨-, hkeyword⟩ := keyword_of_derives hs'
    · exact hfunction
    · cases hkeyword

end

/-! ### Both ways -/

/-- A token list with one end and without `for` that is parsed without an error gives a legal tree,
whose tokens stand for the same symbols; and the tokens of every legal tree are parsed without an
error, and give the tree. -/
theorem parse_round_trip :
    (∀ (ts : List (Token N)) (eof : Token N) (n : ℕ) (ss : List (Stmt N Unit)) (p : Parser N),
      eof.type = .eof → (∀ t ∈ ts, t.type ≠ .eof) → (∀ t ∈ ts, t.type ≠ .for_) →
      Parser.parseLoop n ⟨[], ts ++ [eof], []⟩ = .ok ss p → p.errors = [] →
      (Stmt.flattenList ss).map Token.symbol = ts.map Token.symbol ∧ Stmt.LegalList ss) ∧
    ∀ (ss : List (Stmt N Unit)) (eof : Token N), eof.type = .eof → Stmt.LegalList ss →
      parse (Stmt.flattenList ss ++ [eof]) =
        .ok ss ⟨(Stmt.flattenList ss).reverse, [eof], []⟩ := by
  refine ⟨fun ts eof n ss p heof hone hfor hparse herrors => ?_, fun ss eof heof hlegal => ?_⟩
  · have hparses := parseLoop_parses n (⟨[], ts ++ [eof], []⟩ : Parser N)
    rw [hparse] at hparses
    obtain ⟨used, hused, ⟨ss', hss⟩, t, hhead, ht⟩ := hparses.2 (by simp [herrors])
    obtain ⟨tail, hrest⟩ : ∃ tail, p.tokens = t :: tail := by
      cases hp : p.tokens with
      | nil => simp [hp] at hhead
      | cons u tail =>
        rw [hp] at hhead
        exact ⟨tail, by rw [Option.some.inj hhead]⟩
    obtain rfl : ts = used := by
      simp only [hrest] at hused
      rcases List.append_eq_append_iff.1 hused with ⟨a, ha, hend⟩ | ⟨a, ha, hend⟩
      · have hnil : a = [] := by
          have hlength := congrArg List.length hend
          simp only [List.length_append, List.length_cons, List.length_nil] at hlength
          exact List.eq_nil_of_length_eq_zero (by omega)
        rw [ha, hnil, List.append_nil]
      · cases a with
        | nil => rw [ha, List.append_nil]
        | cons u a =>
          obtain ⟨rfl, -⟩ := List.cons.inj hend
          exact absurd ht (hone t (by simp [ha]))
    obtain ⟨hlegal, hsymbols⟩ := derivesList_agrees ss' hss hfor
    exact ⟨hsymbols.symm, hlegal⟩
  · obtain ⟨ss', hss⟩ := exists_derivesList ss hlegal
    have haccepts := parseLoop_accepts ss' ss (2 * (Stmt.flattenList ss ++ [eof]).length + 2)
      (Stmt.flattenList ss) [] eof hss (by simp) heof [] []
    rw [List.append_nil] at haccepts
    exact haccepts

/-- `b;` as a tree, and `{ if (a) b; }` as tokens. -/
theorem parse_round_trip_if :
    ((Stmt.flattenList [(.expression (.variable_ ⟨.identifier, ['b'], .nil, 1⟩ ()) :
        Stmt ℤ Unit)]).map Token.symbol =
      [⟨.identifier, ['b'], .nil, 1⟩, ⟨.semicolon, [';'], .nil, 1⟩].map Token.symbol ∧
      Stmt.LegalList [(.expression (.variable_ ⟨.identifier, ['b'], .nil, 1⟩ ()) :
        Stmt ℤ Unit)]) ∧
    parse ([.mark .leftBrace, .mark .if_, .mark .leftParen, ⟨.identifier, ['a'], .nil, 1⟩,
        .mark .rightParen, ⟨.identifier, ['b'], .nil, 1⟩, .mark .semicolon, .mark .rightBrace] ++
        [(.mark .eof : Token ℤ)]) =
      .ok [.block [.if_ (.variable_ ⟨.identifier, ['a'], .nil, 1⟩ ())
          (.expression (.variable_ ⟨.identifier, ['b'], .nil, 1⟩ ())) none]]
        ⟨[.mark .rightBrace, .mark .semicolon, ⟨.identifier, ['b'], .nil, 1⟩, .mark .rightParen,
          ⟨.identifier, ['a'], .nil, 1⟩, .mark .leftParen, .mark .if_, .mark .leftBrace],
          [.mark .eof], []⟩ := by
  refine ⟨parse_round_trip.1 [⟨.identifier, ['b'], .nil, 1⟩, ⟨.semicolon, [';'], .nil, 1⟩]
    (.mark .eof) 8 _ _ rfl (by decide) (by decide) rfl rfl,
    parse_round_trip.2 [.block [.if_ (.variable_ ⟨.identifier, ['a'], .nil, 1⟩ ())
      (.expression (.variable_ ⟨.identifier, ['b'], .nil, 1⟩ ())) none]] (.mark .eof) rfl ?_⟩
  exact ⟨⟨⟨⟨rfl, trivial⟩, rfl, rfl, trivial⟩, trivial⟩, trivial⟩

end Lox.Jlox
