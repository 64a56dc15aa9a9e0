import Lox.PrattComplete
import Lox.Clox.Factor.Syntax
import Lox.Jlox.ParserComplete

/-!
# The two parsers read the same expressions

The grammar of `Lox.Jlox.Grammar` stands between the two: each parser returns what derives the
tokens it has read, and reads everything that the grammar derives.  `expressions_agree` says so of
`expression` in `Parser.java` and of `expression` in `compiler.c`, and that the code is the one for
the tree.
-/

namespace Lox

open Clox (Double)

variable {N : Type} [Double N]

/-- In jlox, `expression` returns the tree and has reported no error, `k` tokens further. -/
def Jlox.Parser.Succeeds (p : Jlox.Parser N) (n k : ℕ) (e : Jlox.Expr N Unit) : Prop :=
  ∃ p', Jlox.Parser.expression n p = .ok e p' ∧ p'.errors = p.errors ∧
    k ≤ p.tokens.length ∧ p'.tokens = p.tokens.drop k

/-- What has been reported from one state to the next. -/
def Clox.State.reported (s s' : Clox.State N) : List Clox.Diagnostic :=
  s'.parser.errors.drop s.parser.errors.length

/-- In clox, `expression` returns and has reported no syntax error, `k` of the tokens further. -/
def Clox.State.Succeeds (s : Clox.State N) (ts : List (Jlox.Token N)) (n k : ℕ) : Prop :=
  ∃ s', Clox.expression n s = some s' ∧ k ≤ ts.length ∧ Stream s'.cursor (ts.drop k) ∧
    ∀ d ∈ s.reported s', d.message ∈ Clox.notSyntax

/-- The code of a tree of jlox: that of the tree clox walks, after the code of its parts. -/
def Jlox.Expr.code (e : Jlox.Expr N Unit) (x : Clox.Ctx N) :
    Option (List Clox.Instr × Clox.Ctx N) :=
  Clox.genExpr e.toClox x

/-- From one position on there are no more tokens than up to the first end. -/
theorem Stream.length_le {c : Clox.Cursor} {ts us : List (Jlox.Token N)} (hts : Stream c ts)
    (hus : Stream c us) (hone : ∀ t ∈ us.dropLast, t.type ≠ .eof) : us.length ≤ ts.length := by
  by_contra hlt
  obtain ⟨t, hlast, heof⟩ := hts.ends
  rw [List.getLast?_eq_getElem?] at hlast
  have hu : us[ts.length - 1]? = some us[ts.length - 1] := List.getElem?_eq_getElem (by omega)
  have htype : t.type = us[ts.length - 1].type := Jlox.TokenType.toClox_injective
    ((hts.tokens _ t hlast).type.symm.trans (hus.tokens _ _ hu).type)
  refine hone us[ts.length - 1] ?_ (htype ▸ heof)
  have hpos : 0 < ts.length := List.length_pos_of_ne_nil fun hnil => by simp [hnil] at hlast
  refine List.mem_of_getElem? (i := ts.length - 1) ?_
  rw [List.getElem?_dropLast, if_pos (by omega), hu]

section Succeeds

variable {p : Jlox.Parser N} {s : Clox.State N} {n m k : ℕ} {e : Jlox.Expr N Unit}

omit [Double N] in
/-- What jlox returns derives the tokens it has read. -/
theorem Jlox.Parser.Succeeds.derives (h : p.Succeeds n k e) :
    (e.Derives 1 (p.tokens.take k) ∧ e.Fits) ∧ Jlox.Follow 1 (p.tokens.drop k) := by
  obtain ⟨p', hp', herrors, hk, htokens⟩ := h
  have hparses := Jlox.expression_parses n p
  rw [hp'] at hparses
  obtain ⟨used, hused, hderives⟩ := hparses.2 (by rw [herrors])
  rw [htokens] at hused hderives
  have htake : p.tokens.take k = used :=
    List.append_cancel_right ((p.tokens.take_append_drop k).trans hused)
  rw [htake]
  exact hderives

omit [Double N] in
/-- jlox reads every expression of the grammar. -/
theorem Jlox.Parser.succeeds_of_derives {used rest : List (Jlox.Token N)}
    (htokens : p.tokens = used ++ rest) (hderives : e.Derives 1 used) (hfits : e.Fits)
    (hrest : rest ≠ []) (hfollow : Jlox.Follow 1 rest) (hn : used.length + 1 < n) :
    p.Succeeds n used.length e := by
  have haccepts := Jlox.expression_accepts n e used rest hderives.wf hfits hderives.spells hn hrest
    hfollow p.before p.errors
  rw [← htokens] at haccepts
  refine ⟨_, haccepts, rfl, by simp [htokens], ?_⟩
  simp [htokens]

/-- Where jlox reads an expression, clox reports no syntax error and reads as far. -/
theorem Jlox.Parser.Succeeds.clox (h : p.Succeeds n k e) (hstream : Stream s.cursor p.tokens)
    (hm : p.tokens.length < m) : s.Succeeds p.tokens m k := by
  obtain ⟨⟨hderives, hfits⟩, hfollow⟩ := h.derives
  obtain ⟨-, -, -, hk, -⟩ := h
  have hlength : (p.tokens.take k).length < m := by
    rw [List.length_take]
    omega
  rw [← p.tokens.take_append_drop k] at hstream
  obtain ⟨c', hpratt, hstream'⟩ := parsePrecedence_accepts m .assignment (by decide) (by decide) e
    _ _ _ hderives hfollow hlength hstream
  obtain ⟨s', hs', htolerates⟩ := Clox.expression_follows m s s _ _ c' (.refl s) hpratt
    (e.fits_toClox.2 hfits)
  refine ⟨s', hs', hk, htolerates.cursor ▸ hstream', fun d hd => ?_⟩
  obtain ⟨es, herrors, hes⟩ := htolerates.errors
  refine hes d ?_
  rw [Clox.State.reported, herrors, List.drop_left] at hd
  exact hd

/-- Where clox reports no error, jlox reads as far, and the code is that of its tree. -/
theorem jlox_of_clox (hsound : s.Sound) (hstream : Stream s.cursor p.tokens)
    (hn : p.tokens.length + 1 < n) {s' : Clox.State N} (hs' : Clox.expression m s = some s')
    (hclean : s'.parser.hadError = false) :
    ∃ k e, p.Succeeds n k e ∧ Stream s'.cursor (p.tokens.drop k) ∧
      ∃ is, e.code s.ctx = some (is, s'.ctx) ∧
        s'.chunks = Clox.appendHead (Clox.encodeAll is) s.chunks := by
  obtain ⟨-, e', is, hpratt, hcode, hchunks⟩ := (Clox.expression_step m s s' hs' hsound).2 hclean
  obtain ⟨used, rest, htokens, hstream', e, rfl, hderives, hfollow⟩ :=
    parsePrecedence_reads m .assignment (by decide) (by decide) _ _ _ _ hstream hpratt
  have hfits : e.Fits := e.fits_toClox.1 (Clox.fits_of_genExpr _ hcode)
  have hrest : rest ≠ [] := by
    obtain ⟨t, ts, rfl⟩ := hstream'.exists_cons
    simp
  have hlength : used.length + 1 < n := by
    rw [htokens, List.length_append] at hn
    omega
  refine ⟨used.length, e,
    Jlox.Parser.succeeds_of_derives htokens hderives hfits hrest hfollow hlength, ?_, is, hcode,
    hchunks⟩
  rw [htokens, List.drop_left]
  exact hstream'

end Succeeds

/-- Take a token sequence with one end, and states of both parsers in front of it, without errors so
far.  Where jlox reads an expression without an error, clox reports no syntax error and reads as
many tokens; and where clox reports no syntax error, jlox reads as many tokens without an error,
unless all that clox reports is about names, `this` and `super`, or sizes.  If neither reports an
error, clox emits the code of the tree that jlox returns. -/
theorem expressions_agree {p : Jlox.Parser N} {s : Clox.State N} {n m : ℕ} (hsound : s.Sound)
    (hstream : Stream s.cursor p.tokens) (hone : ∀ t ∈ p.tokens.dropLast, t.type ≠ .eof)
    (hn : p.tokens.length + 2 ≤ n) (hm : p.tokens.length + 2 ≤ m) :
    (∀ k, (∃ e, p.Succeeds n k e) → s.Succeeds p.tokens m k) ∧
    ((∀ s', Clox.expression m s = some s' → s'.parser.hadError = true →
        ∃ d ∈ s.reported s', d.message ∉ Clox.notSyntax) →
      ∀ k, s.Succeeds p.tokens m k → ∃ e, p.Succeeds n k e) ∧
    ∀ k e s', p.Succeeds n k e → Clox.expression m s = some s' → s'.parser.hadError = false →
      Stream s'.cursor (p.tokens.drop k) ∧ ∃ is, e.code s.ctx = some (is, s'.ctx) ∧
        s'.chunks = Clox.appendHead (Clox.encodeAll is) s.chunks := by
  refine ⟨fun k ⟨e, he⟩ => he.clox hstream (by omega), fun haside k hk => ?_,
    fun k e s' he hs' hclean => ?_⟩
  · obtain ⟨s', hs', hle, hstream', hreported⟩ := hk
    have hclean : s'.parser.hadError = false := by
      by_contra herror
      obtain ⟨d, hd, hnot⟩ := haside s' hs' (by simpa using herror)
      exact hnot (hreported d hd)
    obtain ⟨k', e, he, hstream'', -⟩ := jlox_of_clox hsound hstream (n := n) (by omega) hs' hclean
    have hdrop (i : ℕ) : ∀ t ∈ (p.tokens.drop i).dropLast, t.type ≠ .eof := by
      intro t ht
      refine hone t ?_
      have hne : p.tokens.drop i ≠ [] := fun hnil => by simp [hnil] at ht
      rw [← p.tokens.take_append_drop i, List.dropLast_append_of_ne_nil hne]
      exact List.mem_append_right _ ht
    have hlength := le_antisymm (hstream'.length_le hstream'' (hdrop k'))
      (hstream''.length_le hstream' (hdrop k))
    obtain ⟨-, -, -, hle', -⟩ := id he
    rw [List.length_drop, List.length_drop] at hlength
    obtain rfl : k = k' := by omega
    exact ⟨e, he⟩
  · obtain ⟨k', e', he', hrest⟩ := jlox_of_clox hsound hstream (n := n) (by omega) hs' hclean
    obtain ⟨q, hq, -, hle, htokens⟩ := he
    obtain ⟨q', hq', -, hle', htokens'⟩ := he'
    obtain ⟨rfl, rfl⟩ := Jlox.Parsed.ok.inj (hq.symm.trans hq')
    have hlength := congrArg List.length (htokens.symm.trans htokens')
    rw [List.length_drop, List.length_drop] at hlength
    obtain rfl : k = k' := by omega
    exact hrest

/-- Both read `-a`. -/
theorem expressions_agree_negation :
    (⟨[], [⟨.minus, ['-'], .nil, 1⟩, ⟨.identifier, ['a'], .nil, 1⟩, ⟨.eof, [], .nil, 1⟩], []⟩ :
      Jlox.Parser ℤ).Succeeds 5 2
        (.unary ⟨.minus, ['-'], .nil, 1⟩ (.variable_ ⟨.identifier, ['a'], .nil, 1⟩ ())) ∧
    (Clox.State.start ⟨[⟨.minus, ['-', 'a'], 1, 1⟩, ⟨.identifier, ['a'], 1, 1⟩], 1⟩ :
      Clox.State ℤ).advance.Succeeds
        [⟨.minus, ['-'], .nil, 1⟩, ⟨.identifier, ['a'], .nil, 1⟩, ⟨.eof, [], .nil, 1⟩] 5 2 := by
  have hjlox : (⟨[], [⟨.minus, ['-'], .nil, 1⟩, ⟨.identifier, ['a'], .nil, 1⟩,
      ⟨.eof, [], .nil, 1⟩], []⟩ : Jlox.Parser ℤ).Succeeds 5 2
        (.unary ⟨.minus, ['-'], .nil, 1⟩ (.variable_ ⟨.identifier, ['a'], .nil, 1⟩ ())) :=
    ⟨_, rfl, rfl, by decide, rfl⟩
  refine ⟨hjlox, (expressions_agree (n := 5) ?_ ?_ ?_ (le_refl _) (le_refl _)).1 2 ⟨_, hjlox⟩⟩
  · exact ⟨by decide, by decide, by unfold Clox.ThisIsThis; decide⟩
  · refine ⟨fun i t ht => ?_, ⟨_, rfl, rfl⟩⟩
    match i with
    | 0 =>
      obtain rfl := Option.some.inj ht
      exact ⟨rfl, rfl, by simp, by simp⟩
    | 1 =>
      obtain rfl := Option.some.inj ht
      exact ⟨rfl, rfl, by simp, by simp⟩
    | 2 =>
      obtain rfl := Option.some.inj ht
      exact ⟨rfl, rfl, by simp, by simp⟩
    | i + 3 => simp at ht
  · decide

end Lox
