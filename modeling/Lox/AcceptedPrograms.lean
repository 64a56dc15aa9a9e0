import Lox.Jlox.Distances
import Lox.StatementsSound

/-!
# Distances are right in every program that is accepted

The scanner gives the keywords `this` and `super`, and only them, the tokens with their spelling.
So the trees that the parser makes without an error are `Proper`, the resolver gives them the right
distances, and every run goes by them.
-/

namespace Lox.Jlox

open Clox (Double)

variable {N D : Type}

/-! ### Tokens -/

/-- `this` and `super` are spelled so, and no identifier is. -/
structure Token.Spelled (t : Token N) : Prop where
  identifier : t.type = .identifier → t.Declarable
  this_ : t.type = .this_ → t.lexeme = "this".toList
  super_ : t.type = .super_ → t.lexeme = "super".toList

theorem Token.Spelled.of_type {t : Token N} (hidentifier : t.type ≠ .identifier)
    (hthis : t.type ≠ .this_) (hsuper : t.type ≠ .super_) : t.Spelled :=
  ⟨fun h => (hidentifier h).elim, fun h => (hthis h).elim, fun h => (hsuper h).elim⟩

namespace Scanner

/-- The step adds no token that is spelled wrong. -/
def Spells (step : Scanned N × Scanner) : Prop := ∀ t, step.1 = .token t → t.Spelled

theorem addToken_spells {type : TokenType} {literal : Literal N} {x : Scanner}
    (hidentifier : type ≠ .identifier) (hthis : type ≠ .this_) (hsuper : type ≠ .super_) :
    Spells (x.addToken type literal) := by
  rintro _ ⟨⟩
  exact .of_type hidentifier hthis hsuper

theorem identifier_spells (x : Scanner) : Spells (x.identifier : Scanned N × Scanner) := by
  rintro _ ⟨⟩
  generalize (x.skipWhile isAlphaNumeric).text = text
  have hkeyword : ∀ type, keywords.lookup text = some type → (text, type) ∈ keywords := by
    intro type h
    obtain ⟨before, after, heq, -⟩ := List.lookup_eq_some_iff.1 h
    simp [heq]
  have htable : ∀ k ∈ keywords, k.2 ≠ .identifier ∧ (k.2 = .this_ → k.1 = "this".toList) ∧
      (k.2 = .super_ → k.1 = "super".toList) := by decide
  cases hlookup : keywords.lookup text with
  | none =>
    refine ⟨fun _ => ⟨?_, ?_⟩, fun h => by simp at h, fun h => by simp at h⟩
    · rintro rfl
      cases hlookup
    · rintro rfl
      cases hlookup
  | some type =>
    obtain ⟨hidentifier, hthis, hsuper⟩ := htable _ (hkeyword type hlookup)
    exact ⟨fun h => (hidentifier h).elim, hthis, hsuper⟩

theorem twoChars_spells {expected : Char} {double single : TokenType} {x : Scanner}
    (hdouble : double ≠ .identifier ∧ double ≠ .this_ ∧ double ≠ .super_)
    (hsingle : single ≠ .identifier ∧ single ≠ .this_ ∧ single ≠ .super_) :
    Spells (x.twoChars expected double single : Scanned N × Scanner) := by
  unfold twoChars
  split
  · split
    · exact addToken_spells hdouble.1 hdouble.2.1 hdouble.2.2
    · exact addToken_spells hsingle.1 hsingle.2.1 hsingle.2.2
  · exact addToken_spells hsingle.1 hsingle.2.1 hsingle.2.2

theorem scanToken_spells [Double N] (c : Char) (x : Scanner) :
    Spells (x.scanToken c : Scanned N × Scanner) := by
  unfold scanToken
  split
  all_goals first
    | exact addToken_spells (by decide) (by decide) (by decide)
    | exact twoChars_spells (by decide) (by decide)
    | (intro t h; cases h)
    | skip
  · split
    · intro t h
      cases h
    · exact addToken_spells (by decide) (by decide) (by decide)
  · unfold string
    simp only
    split
    · intro t h
      cases h
    · exact addToken_spells (by decide) (by decide) (by decide)
  · split
    · exact addToken_spells (by decide) (by decide) (by decide)
    · split
      · exact identifier_spells x
      · intro t h
        cases h

theorem scanLoop_spells [Double N] (n : ℕ) (x : Scanner) :
    ∀ step ∈ (scanLoop n x : List (Scanned N × Scanner)), Spells step := by
  induction n generalizing x with
  | zero => simp [scanLoop]
  | succ n ih =>
    intro step hstep
    unfold scanLoop at hstep
    split at hstep
    · rw [List.mem_singleton.1 hstep]
      rintro _ ⟨⟩
      exact .of_type (fun h => by cases h) (fun h => by cases h) fun h => by cases h
    · rcases List.mem_cons.1 hstep with rfl | hstep
      · exact scanToken_spells _ _
      · exact ih _ step hstep

end Scanner

theorem scanTokens_spelled [Double N] (source : List Char) :
    ∀ t ∈ (scanTokens source : List (Token N)), t.Spelled := by
  intro t ht
  obtain ⟨⟨scanned, x⟩, hstep, hscanned⟩ := List.mem_filterMap.1 ht
  refine Scanner.scanLoop_spells _ _ _ hstep t ?_
  cases scanned with
  | token t' =>
    cases hscanned
    rfl
  | nothing | error => cases hscanned

/-! ### Trees -/

mutual

theorem Expr.Spells.proper : ∀ (e : Expr N D) {ts : List (Token N)}, e.Wf → e.Spells ts →
    (∀ t ∈ ts, t.Spelled) → e.Proper
  | .assign name value _, _, hwf, ⟨equals, v, rfl, _, hvalue⟩, hts =>
    hvalue.proper value hwf.2 fun t ht => hts t (by simp [ht])
  | .binary left operator right, _, hwf, ⟨u, v, rfl, hleft, hright⟩, hts =>
    ⟨hleft.proper left hwf.2.1.1 fun t ht => hts t (by simp [ht]),
      hright.proper right hwf.2.2.1 fun t ht => hts t (by simp [ht])⟩
  | .call callee paren arguments, _, hwf, ⟨u, opening, v, rfl, _, hcallee, harguments⟩, hts =>
    ⟨hcallee.proper callee hwf.2.1.1 fun t ht => hts t (by simp [ht]),
      Expr.SpellsList.proper arguments hwf.2.2 harguments fun t ht => hts t (by simp [ht])⟩
  | .get object name, _, hwf, ⟨u, dot, rfl, _, hobject⟩, hts =>
    hobject.proper object hwf.2.1 fun t ht => hts t (by simp [ht])
  | .grouping e, _, hwf, ⟨opening, v, closing, rfl, _, _, he⟩, hts =>
    he.proper e hwf fun t ht => hts t (by simp [ht])
  | .literal value, _, _, _, _ => trivial
  | .logical left operator right, _, hwf, ⟨u, v, rfl, hleft, hright⟩, hts =>
    ⟨hleft.proper left hwf.2.1.1 fun t ht => hts t (by simp [ht]),
      hright.proper right hwf.2.2.1 fun t ht => hts t (by simp [ht])⟩
  | .set object name value, _, hwf, ⟨u, dot, equals, v, rfl, _, _, hobject, hvalue⟩, hts =>
    ⟨hobject.proper object hwf.2.1.1 fun t ht => hts t (by simp [ht]),
      hvalue.proper value hwf.2.2 fun t ht => hts t (by simp [ht])⟩
  | .super_ keyword method _, _, hwf, ⟨dot, rfl, _⟩, hts => (hts keyword (by simp)).super_ hwf.1
  | .this_ keyword _, _, hwf, hspells, hts => by
    have hused : _ = [keyword] := hspells
    exact (hts keyword (by simp [hused])).this_ hwf
  | .unary operator right, _, hwf, ⟨v, rfl, hright⟩, hts =>
    hright.proper right hwf.2.1 fun t ht => hts t (by simp [ht])
  | .variable_ name _, _, _, _, _ => trivial

theorem Expr.SpellsList.proper : ∀ (es : List (Expr N D)) {ts : List (Token N)}, Expr.WfList es →
    Expr.SpellsList es ts → (∀ t ∈ ts, t.Spelled) → Expr.ProperList es
  | [], _, _, _, _ => trivial
  | [e], _, hwf, hspells, hts =>
    ⟨Expr.Spells.proper e hwf.1 (Expr.spellsList_singleton.1 hspells) hts, trivial⟩
  | e :: e' :: es, _, hwf, hspells, hts => by
    obtain ⟨u, comma, v, rfl, -, he, hes⟩ := (Expr.spellsList_cons (by simp)).1 hspells
    exact ⟨Expr.Spells.proper e hwf.1 he fun t ht => hts t (by simp [ht]),
      Expr.SpellsList.proper (e' :: es) hwf.2 hes fun t ht => hts t (by simp [ht])⟩

end

theorem proper_of_derivesExpr {e' : Clox.Expr N} {e : Expr N Unit} {ts : List (Token N)}
    (h : DerivesExpr e' e ts) (hts : ∀ t ∈ ts, t.Spelled) : e.Proper :=
  h.derives.spells.proper e h.derives.wf hts

theorem proper_of_derivesOption {o' : Option (Clox.Expr N)} {o : Option (Expr N Unit)}
    {ts : List (Token N)} (h : DerivesOption o' o ts) (hts : ∀ t ∈ ts, t.Spelled) :
    ∀ e ∈ o, e.Proper := by
  cases o' with
  | none => simp [h.1]
  | some e' =>
    obtain ⟨e, rfl, he⟩ := h
    simpa using proper_of_derivesExpr he hts

theorem proper_of_derivesVar {name : Name} {init : Option (Clox.Expr N)} {s : Stmt N Unit}
    {ts : List (Token N)} (h : DerivesVar name init s ts) (hts : ∀ t ∈ ts, t.Spelled) :
    s.Proper := by
  obtain ⟨t, o, u, semicolon, rfl, rfl, ht, -, -, hinit⟩ := h
  refine ⟨(hts t (by simp)).identifier ht, ?_⟩
  cases init with
  | none => simp [hinit.1]
  | some e' =>
    obtain ⟨e, equals, v, rfl, rfl, -, he⟩ := hinit
    simpa using proper_of_derivesExpr he fun t ht => hts t (by simp [ht])

theorem proper_of_derivesForInit {init' : Clox.ForInit N} {init : Option (Stmt N Unit)}
    {ts : List (Token N)} (h : DerivesForInit init' init ts) (hts : ∀ t ∈ ts, t.Spelled) :
    ∀ s ∈ init, s.Proper := by
  cases init' with
  | empty => simp [h.1]
  | var name o =>
    obtain ⟨s, keyword, v, rfl, rfl, -, hv⟩ := h
    simpa using proper_of_derivesVar hv fun t ht => hts t (by simp [ht])
  | expression e' =>
    obtain ⟨e, v, semicolon, rfl, rfl, -, he⟩ := h
    rintro _ ⟨⟩
    exact (proper_of_derivesExpr he fun t ht => hts t (by simp [ht]) : e.Proper)

theorem declarable_of_spellsParams {params ts : List (Token N)} (h : SpellsParams params ts)
    (hts : ∀ t ∈ ts, t.Spelled) : ∀ t ∈ params, t.Declarable := by
  fun_induction SpellsParams params ts with
  | case1 => simp
  | case2 t ts =>
    obtain ⟨rfl, ht⟩ := h
    simpa using (hts t (by simp)).identifier ht
  | case3 t params ts _ ih =>
    obtain ⟨comma, v, rfl, ht, -, hparams⟩ := h
    have hrest := ih v hparams fun t ht => hts t (by simp [ht])
    simpa using ⟨(hts t (by simp)).identifier ht, hrest⟩

/-- A loop is proper if its parts are. -/
theorem desugarFor_proper {init : Option (Stmt N Unit)} {condition increment : Option (Expr N Unit)}
    {body : Stmt N Unit} (hinit : ∀ s ∈ init, s.Proper) (hcondition : ∀ e ∈ condition, e.Proper)
    (hincrement : ∀ e ∈ increment, e.Proper) (hbody : body.Proper) (hstatement : body.NotDeclaration) :
    (Parser.desugarFor init condition increment body).Proper ∧
      (Parser.desugarFor init condition increment body).NotDeclaration := by
  have hc : (condition.getD (.literal (.bool true))).Proper := by
    cases condition with
    | none => trivial
    | some e => exact hcondition e rfl
  have hloop : ∀ b : Stmt N Unit, b.NotDeclaration → b.Proper →
      (Stmt.while_ (condition.getD (.literal (.bool true))) b).Proper := fun b hs hb => ⟨hc, hs, hb⟩
  cases increment with
  | none =>
    cases init with
    | none => exact ⟨hloop body hstatement hbody, trivial⟩
    | some s => exact ⟨⟨hinit s rfl, hloop body hstatement hbody, trivial⟩, trivial⟩
  | some e =>
    have hblock : (Stmt.block [body, .expression e]).Proper := ⟨hbody, hincrement e rfl, trivial⟩
    cases init with
    | none => exact ⟨hloop _ trivial hblock, trivial⟩
    | some s => exact ⟨⟨hinit s rfl, hloop _ trivial hblock, trivial⟩, trivial⟩

mutual

theorem proper_of_derives : ∀ (s' : Clox.Stmt N) {s : Stmt N Unit} {ts : List (Token N)},
    s'.Derives s ts → (∀ t ∈ ts, t.Spelled) → s.Proper ∧ (s'.IsStatement → s.NotDeclaration)
  | .expression e', _, _, ⟨e, v, semicolon, rfl, rfl, _, he⟩, hts =>
    ⟨(proper_of_derivesExpr he fun t ht => hts t (by simp [ht]) : e.Proper), fun _ => trivial⟩
  | .print e', _, _, ⟨e, keyword, v, semicolon, rfl, rfl, _, _, he⟩, hts =>
    ⟨(proper_of_derivesExpr he fun t ht => hts t (by simp [ht]) : e.Proper), fun _ => trivial⟩
  | .var name init, _, _, ⟨keyword, v, rfl, _, hv⟩, hts =>
    ⟨proper_of_derivesVar hv fun t ht => hts t (by simp [ht]), fun h => by cases h⟩
  | .block body', _, _, ⟨body, opening, v, closing, rfl, rfl, _, _, hbody⟩, hts =>
    ⟨(proper_of_derivesList body' hbody fun t ht => hts t (by simp [ht]) : Stmt.ProperList body),
      fun _ => trivial⟩
  | .if_ condition' thenBranch' none, _, _,
      ⟨condition, thenBranch, keyword, opening, u, closing, v, rfl, rfl, _, _, _, hcondition,
        hstatement, hthen⟩, hts => by
    have hbranch := proper_of_derives thenBranch' hthen fun t ht => hts t (by simp [ht])
    exact ⟨⟨proper_of_derivesExpr hcondition fun t ht => hts t (by simp [ht]),
      hbranch.2 hstatement, hbranch.1⟩, fun _ => trivial⟩
  | .if_ condition' thenBranch' (some elseBranch'), _, _,
      ⟨condition, thenBranch, elseBranch, keyword, opening, u, closing, v, else_, w, rfl, rfl, _, _,
        _, _, hcondition, ⟨hstatement, _, hthen⟩, hstatement', helse⟩, hts => by
    have hbranch := proper_of_derives thenBranch' hthen fun t ht => hts t (by simp [ht])
    have hbranch' := proper_of_derives elseBranch' helse fun t ht => hts t (by simp [ht])
    exact ⟨⟨proper_of_derivesExpr hcondition fun t ht => hts t (by simp [ht]),
      ⟨hbranch.2 hstatement, hbranch.1⟩, hbranch'.2 hstatement', hbranch'.1⟩, fun _ => trivial⟩
  | .while_ condition' body', _, _,
      ⟨condition, body, keyword, opening, u, closing, v, rfl, rfl, _, _, _, hcondition, hstatement,
        hbody⟩, hts => by
    have hproper := proper_of_derives body' hbody fun t ht => hts t (by simp [ht])
    exact ⟨⟨proper_of_derivesExpr hcondition fun t ht => hts t (by simp [ht]),
      hproper.2 hstatement, hproper.1⟩, fun _ => trivial⟩
  | .for_ init' condition' increment' body', _, _,
      ⟨init, condition, increment, body, keyword, opening, a, u, semicolon, v, closing, w, rfl, rfl,
        _, _, _, _, hinit, hcondition, hincrement, hstatement, hbody⟩, hts => by
    have hproper := proper_of_derives body' hbody fun t ht => hts t (by simp [ht])
    have hloop := desugarFor_proper
      (proper_of_derivesForInit hinit fun t ht => hts t (by simp [ht]))
      (proper_of_derivesOption hcondition fun t ht => hts t (by simp [ht]))
      (proper_of_derivesOption hincrement fun t ht => hts t (by simp [ht]))
      hproper.1 (hproper.2 hstatement)
    exact ⟨hloop.1, fun _ => hloop.2⟩
  | .function name params' body', _, _,
      ⟨t, params, body, opening, u, closing, left, v, right, rfl, rfl, ht, _, _, _, _, _, _, _,
        hparams, hbody⟩, hts =>
    ⟨⟨(hts t (by simp)).identifier ht,
      declarable_of_spellsParams hparams fun t ht => hts t (by simp [ht]),
      proper_of_derivesList body' hbody fun t ht => hts t (by simp [ht])⟩, fun h => by cases h⟩
  | .return_ value', _, _, ⟨value, keyword, v, semicolon, rfl, rfl, _, _, hvalue⟩, hts =>
    ⟨(proper_of_derivesOption hvalue fun t ht => hts t (by simp [ht]) : ∀ e ∈ value, e.Proper),
      fun _ => trivial⟩
  | .class_ name superclass' methods', _, _,
      ⟨keyword, t, superclass, methods, u, opening, v, closing, rfl, rfl, _, ht, _, _, _, _,
        hmethods⟩, hts =>
    ⟨⟨(hts t (by simp)).identifier ht,
      proper_of_derivesMethods methods' hmethods fun t ht => hts t (by simp [ht])⟩,
      fun h => by cases h⟩

theorem proper_of_derivesList : ∀ (ss' : List (Clox.Stmt N)) {ss : List (Stmt N Unit)}
    {ts : List (Token N)}, Clox.Stmt.DerivesList ss' ss ts → (∀ t ∈ ts, t.Spelled) →
    Stmt.ProperList ss
  | [], _, _, ⟨rfl, _⟩, _ => trivial
  | s' :: ss', _, _, ⟨s, rest, u, v, rfl, rfl, hs, hrest⟩, hts => by
    refine ⟨?_, proper_of_derivesList ss' hrest fun t ht => hts t (by simp [ht])⟩
    have hspelled : ∀ t ∈ u, t.Spelled := fun t ht => hts t (by simp [ht])
    unfold Clox.Stmt.Declares at hs
    split at hs
    · obtain ⟨keyword, v, rfl, -, hs⟩ := hs
      exact (proper_of_derives _ hs fun t ht => hspelled t (by simp [ht])).1
    · exact (proper_of_derives _ hs hspelled).1

theorem proper_of_derivesMethods : ∀ (ss' : List (Clox.Stmt N)) {ss : List (Stmt N Unit)}
    {ts : List (Token N)}, Clox.Stmt.DerivesMethods ss' ss ts → (∀ t ∈ ts, t.Spelled) →
    Stmt.ProperMethods ss
  | [], _, _, ⟨rfl, _⟩, _ => trivial
  | s' :: ss', _, _, ⟨⟨name, params', body', hfunction⟩, s, rest, u, v, rfl, rfl, hs, hrest⟩, hts => by
    have hproper := (proper_of_derives s' hs fun t ht => hts t (by simp [ht])).1
    subst hfunction
    obtain ⟨t, params, body, opening, w, closing, left, x, right, rfl, -⟩ := hs
    exact ⟨hproper, proper_of_derivesMethods ss' hrest fun t ht => hts t (by simp [ht])⟩

end

/-! ### Programs -/

/-- `run` of a source, up to the call of `interpret`: the program, if neither the parser nor the
resolver reports an error.  The parser gets the fuel `k`. -/
def accept [Double N] (k : ℕ) (source : List Char) : Option (List (Stmt N (Option Binding))) :=
  match Parser.parseLoop k ⟨[], scanTokens source, []⟩ with
  | .ok ss p => if p.errors.isEmpty && (resolve ss).errors.isEmpty then some (resolve ss).value else none
  | _ => none

theorem accept_resolved [Double N] {k : ℕ} {source : List Char}
    {program : List (Stmt N (Option Binding))} (h : accept k source = some program) :
    Stmt.ResolvedList .none_ [] 0 [] program := by
  unfold accept at h
  split at h
  · rename_i ss p hparse
    split at h
    · rename_i hempty
      cases h
      obtain ⟨hparser, hresolver⟩ := by simpa using hempty
      have hparses := parseLoop_parses k (⟨[], scanTokens source, []⟩ : Parser N)
      rw [hparse] at hparses
      obtain ⟨used, hused, ⟨ss', hss⟩, -⟩ := hparses.2 (by simp [hparser])
      refine resolve_resolved (proper_of_derivesList ss' hss fun t ht => ?_) hresolver
      exact scanTokens_spelled source t (by simp only at hused; simp [hused, ht])
    · cases h
  · cases h

open Interpreter in
theorem evaluate_execute_right [Boxed N] (n : ℕ) :
    EvaluatesAll (evaluate n : Expr N (Option Binding) → Run N (Value N)) ∧
      ExecutesAll (execute n : Place → Stmt N (Option Binding) → Run N Unit) := by
  induction n with
  | zero =>
    exact ⟨fun _ _ _ _ => .stop (fun _ h => by cases h), fun _ _ _ _ _ _ hs _ _ =>
      ⟨hs, rfl, .refl _ _, fun _ h => (by cases h), fun h => by cases h⟩⟩
  | succ n ih =>
    exact ⟨evaluateBody_evaluates ih.1 ih.2, executeBody_executes ih.1 ih.2⟩

theorem sound_init (clock : ℕ → N) : Sound (Interpreter.init clock) where
  globals := by simp [Interpreter.init]
  objects o ho := by
    rw [List.mem_singleton.1 ho]
    trivial
  accesses x hx := by simp [Interpreter.init] at hx

/-- Whatever an accepted program does, and for as long as it runs: at every access the environment at
the recorded distance exists, what is read there was created by the declaration that the resolver
matched, and there is a `this` before every `super`.  And no `Return` is left over. -/
theorem distances_right [Boxed N] (source : List Char) (k : ℕ)
    (program : List (Stmt N (Option Binding))) (h : accept k source = some program)
    (clock : ℕ → N) (n : ℕ) :
    (∀ x ∈ (Interpreter.interpret n program (.init clock)).2.accesses, x.Right) ∧
      ∀ v, (Interpreter.interpret n program (.init clock)).1 ≠ .error (.return_ v) := by
  obtain ⟨scopes, hexecutes⟩ :=
    executeList_executes (evaluate_execute_right (N := N) n).2 (accept_resolved h)
  obtain ⟨hsound, -, -, hreturn, -⟩ :=
    hexecutes (.init clock) (sound_init clock) rfl fun _ hne => (hne rfl).elim
  exact ⟨hsound.accesses, fun v hv => hreturn v hv rfl⟩

/-- A subclass whose method reads `super`. -/
theorem distances_right_super : ∃ program : List (Stmt ℤ (Option Binding)),
    accept 40 "class A{m(){}}class B<A{m(){super.m();}}B().m();".toList = some program ∧
    (∀ x ∈ (Interpreter.interpret 9 program (.init fun _ => 0)).2.accesses, x.Right) ∧
      ∀ v, (Interpreter.interpret 9 program (.init fun _ => 0)).1 ≠ .error (.return_ v) := by
  have hsome : (accept 40 "class A{m(){}}class B<A{m(){super.m();}}B().m();".toList :
      Option (List (Stmt ℤ (Option Binding)))).isSome := by decide +kernel
  obtain ⟨program, hprogram⟩ := Option.isSome_iff_exists.1 hsome
  exact ⟨program, hprogram, distances_right _ 40 program hprogram _ 9⟩

end Lox.Jlox
