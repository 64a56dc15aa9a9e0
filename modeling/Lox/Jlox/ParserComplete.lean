import Lox.Jlox.ParserSound

/-!
# What the parser of jlox accepts

`Leads f used g rest` says that `f` eats the tokens `used` and goes on as `g`, without an error.
Loops eat what belongs to an expression step by step: after the tokens of an expression, a function
for a level is in its loop, with the expression read so far.
-/

namespace Lox.Jlox

variable {N α β : Type}

/-- `f` eats the tokens and goes on as `g`. -/
def Leads (f : Parse N α) (used : List (Token N)) (g : Parse N α) (rest : List (Token N)) : Prop :=
  ∀ before errors, f ⟨before, used ++ rest, errors⟩ = g ⟨used.reverse ++ before, rest, errors⟩

/-- `f` eats the tokens and returns. -/
def Accepts (f : Parse N α) (used : List (Token N)) (a : α) (rest : List (Token N)) : Prop :=
  Leads f used (Pure.pure a) rest

theorem Leads.refl (f : Parse N α) (rest : List (Token N)) : Leads f [] f rest := fun _ _ => rfl

theorem Leads.trans {f g k : Parse N α} {u v rest : List (Token N)} (h₁ : Leads f u g (v ++ rest))
    (h₂ : Leads g v k rest) : Leads f (u ++ v) k rest := by
  intro before errors
  rw [List.append_assoc, h₁, h₂]
  simp

theorem Accepts.bind {f : Parse N α} {g : α → Parse N β} {a : α} {u rest : List (Token N)}
    (h : Accepts f u a rest) : Leads (f >>= g) u (g a) rest := by
  intro before errors
  change Parse.bind f g _ = _
  unfold Parse.bind
  rw [h]
  rfl

/-- One after the other. -/
theorem Accepts.andThen {f : Parse N α} {g : α → Parse N β} {k : Parse N β} {a : α}
    {u v rest : List (Token N)} (h : Accepts f u a (v ++ rest)) (hg : Leads (g a) v k rest) :
    Leads (f >>= g) (u ++ v) k rest :=
  h.bind.trans hg

/-! ### Tokens -/

open Jlox.Parser

theorem check_eq (type : TokenType) (before : List (Token N)) (t : Token N)
    (rest : List (Token N)) (errors : List (Token N × String)) :
    check type ⟨before, t :: rest, errors⟩ =
      .ok (t.type ≠ .eof && t.type = type) ⟨before, t :: rest, errors⟩ := rfl

theorem match_eq (type : TokenType) (types : List TokenType) (before : List (Token N))
    (t : Token N) (rest : List (Token N)) (errors : List (Token N × String)) :
    match_ (type :: types) ⟨before, t :: rest, errors⟩ =
      if t.type ≠ .eof ∧ t.type = type then .ok (some t) ⟨t :: before, rest, errors⟩
      else match_ types ⟨before, t :: rest, errors⟩ := by
  rw [match_]
  change Parse.bind (check type) _ _ = _
  unfold Parse.bind
  rw [check_eq]
  by_cases h : t.type ≠ .eof ∧ t.type = type
  · obtain ⟨hne, rfl⟩ := h
    simp only [ne_eq, hne, not_false_eq_true, decide_true, Bool.and_self, if_true, and_self]
    change Parse.bind advance _ _ = _
    simp [Parse.bind, advance, hne]
    rfl
  · rw [if_neg h]
    simp only [← Bool.decide_and, h, decide_false, Bool.false_eq_true, if_false]

/-- A token that matches is eaten. -/
theorem match_accepts {types : List TokenType} (heof : .eof ∉ types) {t : Token N}
    (ht : t.type ∈ types) (rest : List (Token N)) :
    Accepts (match_ types) [t] (some t) rest := by
  have hne : t.type ≠ .eof := fun h => heof (h ▸ ht)
  intro before errors
  induction types with
  | nil => cases ht
  | cons type types ih =>
    rw [List.singleton_append, match_eq]
    by_cases htype : t.type = type
    · rw [if_pos ⟨hne, htype⟩]
      rfl
    · rw [if_neg fun h => htype h.2]
      exact ih (fun h => heof (List.mem_cons_of_mem _ h))
        (List.mem_of_ne_of_mem htype ht)

/-- A token that does not match stays. -/
theorem match_passes {types : List TokenType} {rest : List (Token N)} (hne : rest ≠ [])
    (hnot : NextNot types rest) : Accepts (match_ types) [] none rest := by
  obtain ⟨t, rest, rfl⟩ := List.exists_cons_of_ne_nil hne
  have ht : t.type ∉ types := hnot t rfl
  intro before errors
  induction types with
  | nil => rfl
  | cons type types ih =>
    rw [List.nil_append, match_eq, if_neg fun h => ht (by simp [h.2])]
    exact ih (fun u hu hmem => hnot u hu (List.mem_cons_of_mem _ hmem))
      fun h => ht (List.mem_cons_of_mem _ h)

/-- A token that is asked for is eaten. -/
theorem consume_accepts {type : TokenType} (heof : type ≠ .eof) (message : String) {t : Token N}
    (ht : t.type = type) (rest : List (Token N)) :
    Accepts (consume type message) [t] t rest := by
  intro before errors
  unfold consume
  change Parse.bind (check type) _ _ = _
  unfold Parse.bind
  rw [List.singleton_append, check_eq]
  simp [ht, heof, advance]
  rfl

namespace Leads

variable {f : Parse N β} {k : Parse N β} {t : Token N} {v rest : List (Token N)}
  {types : List TokenType} {type : TokenType}

theorem matching {g : Option (Token N) → Parse N β} (heof : .eof ∉ types) (ht : t.type ∈ types)
    (h : Leads (g (some t)) v k rest) : Leads (match_ types >>= g) (t :: v) k rest :=
  (match_accepts heof ht (v ++ rest)).andThen h

theorem passing {g : Option (Token N) → Parse N β} (hne : v ++ rest ≠ [])
    (hnot : NextNot types (v ++ rest)) (h : Leads (g none) v k rest) :
    Leads (match_ types >>= g) v k rest :=
  (match_passes hne hnot).andThen h

theorem consuming {message : String} {g : Token N → Parse N β} (heof : type ≠ .eof)
    (ht : t.type = type) (h : Leads (g t) v k rest) :
    Leads (consume type message >>= g) (t :: v) k rest :=
  (consume_accepts heof message ht (v ++ rest)).andThen h

theorem ifMatch {f' : Parse N β} (heof : .eof ∉ types) (ht : t.type ∈ types)
    (h : Leads f v k rest) :
    Leads (match_ types >>= fun o => if o.isSome then f else f') (t :: v) k rest :=
  matching heof ht h

theorem ifPass {f' : Parse N β} (hne : v ++ rest ≠ []) (hnot : NextNot types (v ++ rest))
    (h : Leads f' v k rest) :
    Leads (match_ types >>= fun o => if o.isSome then f else f') v k rest :=
  passing hne hnot h

theorem ifCheck {f' : Parse N β} (htype : type ≠ .eof) (ht : (v ++ rest).head? = some t)
    (hcheck : t.type = type) (h : Leads f v k rest) :
    Leads (check type >>= fun b => if b then f else f') v k rest := by
  intro before errors
  obtain ⟨tail, htail⟩ : ∃ tail, v ++ rest = t :: tail := by
    cases hv : v ++ rest with
    | nil => simp [hv] at ht
    | cons u tail =>
      rw [hv] at ht
      exact ⟨tail, by rw [Option.some.inj ht]⟩
  rw [← h before errors]
  change Parse.bind (check type) _ _ = _
  unfold Parse.bind
  rw [htail, check_eq]
  simp [hcheck, htype]

theorem ifNotCheck {f' : Parse N β} (hne : v ++ rest ≠ []) (hnot : NextNot [type] (v ++ rest))
    (h : Leads f' v k rest) :
    Leads (check type >>= fun b => if b then f else f') v k rest := by
  intro before errors
  obtain ⟨t, tail, htail⟩ := List.exists_cons_of_ne_nil hne
  have ht : t.type ≠ type := by
    have hnot := hnot t (by rw [htail]; rfl)
    simpa using hnot
  rw [← h before errors]
  change Parse.bind (check type) _ _ = _
  unfold Parse.bind
  rw [htail, check_eq]
  simp [ht]

end Leads

/-! ### Expressions -/

/-- The function accepts every expression with fewer tokens than that. -/
def AcceptsBelow (n : ℕ) (expression : Parse N (Expr N Unit)) : Prop :=
  ∀ (e : Expr N Unit) (used rest : List (Token N)), e.Wf → e.Fits → e.Spells used →
    used.length + 1 < n → rest ≠ [] → Follow 1 rest → Accepts expression used e rest

section Expressions

variable {expression : Parse N (Expr N Unit)} {n : ℕ} (h : AcceptsBelow n expression)

include h

theorem argumentLoop_accepts : ∀ (es : List (Expr N Unit)) (m size : ℕ)
    {used rest : List (Token N)}, es ≠ [] → Expr.WfList es → Expr.FitsList es →
    Expr.SpellsList es used →
    used.length + 1 < n → used.length < m → size + es.length ≤ 255 → rest ≠ [] → Follow 1 rest →
    NextNot [.comma] rest → Accepts (argumentLoop expression m size) used es rest
  | [], m, size, used, rest, hne, _, _, _, _, _, _, _, _, _ => absurd rfl hne
  | e :: es, 0, size, used, rest, _, _, _, _, _, hm, _, _, _, _ => absurd hm (by omega)
  | e :: es, m + 1, size, used, rest, _, hwf, hfits, hspells, hn, hm, hsize, hrest, hfollow,
      hcomma => by
    have hnot : ¬ size ≥ 255 := by
      simp only [List.length_cons] at hsize
      omega
    unfold argumentLoop
    rw [if_neg hnot]
    cases es with
    | nil =>
      rw [Expr.spellsList_singleton] at hspells
      have he := h e used rest hwf.1 hfits.1 hspells hn hrest hfollow
      rw [← List.append_nil used]
      exact Accepts.andThen he (.passing hrest hcomma (.refl _ _))
    | cons e' es =>
      rw [Expr.spellsList_cons (by simp)] at hspells
      obtain ⟨u, comma, v, rfl, hc, hu, hv⟩ := hspells
      simp only [List.length_append, List.length_cons] at hn hm hsize
      have hfollow' : Follow 1 (comma :: (v ++ rest)) := by
        intro t ht
        obtain rfl : comma = t := by simpa using ht
        rw [hc]
        decide
      have he := h e u (comma :: (v ++ rest)) hwf.1 hfits.1 hu (by omega) (by simp) hfollow'
      have hes := argumentLoop_accepts (e' :: es) m (size + 1) (by simp) hwf.2 hfits.2 hv
        (by omega) (by omega) (by simp only [List.length_cons]; omega) hrest hfollow hcomma
      refine Accepts.andThen (v := comma :: v) he (.matching (by decide) (by simp [hc]) ?_)
      rw [← List.append_nil v]
      exact Accepts.andThen hes (.refl _ _)

theorem finishCall_accepts {callee : Expr N Unit} {paren : Token N}
    {arguments : List (Expr N Unit)} {v rest : List (Token N)} {m : ℕ}
    (hparen : paren.type = .rightParen) (hsize : arguments.length ≤ 255)
    (hwf : Expr.WfList arguments) (hfits : Expr.FitsList arguments)
    (hspells : Expr.SpellsList arguments v) (hn : v.length + 1 < n)
    (hm : v.length < m) :
    Accepts (finishCall expression m callee) (v ++ [paren]) (.call callee paren arguments) rest := by
  have hfollow : Follow 1 (paren :: rest) := by
    intro t ht
    obtain rfl : paren = t := by simpa using ht
    rw [hparen]
    decide
  unfold finishCall
  cases arguments with
  | nil =>
    obtain rfl := Expr.spellsList_nil.1 hspells
    refine Leads.ifCheck (by decide) rfl hparen ?_
    exact .consuming (by decide) hparen (.refl _ _)
  | cons e es =>
    have hhead : NextNot [.rightParen] (v ++ [paren] ++ rest) := by
      obtain ⟨t, tail, rfl, ht⟩ := Expr.spellsList_head hwf hspells
      refine nextNot_cons fun hmem => ?_
      rw [List.mem_singleton.1 hmem] at ht
      cases ht
    refine Leads.ifNotCheck (by simp) hhead ?_
    have hes := argumentLoop_accepts h (e :: es) m 0 (by simp) hwf hfits hspells hn hm (by omega)
      (by simp) hfollow (nextNot_cons (by simp [hparen]))
    exact Accepts.andThen hes (.consuming (by decide) hparen (.refl _ _))

theorem primary_accepts {e : Expr N Unit} {used : List (Token N)} (rest : List (Token N))
    (hwf : e.Wf) (hfits : e.Fits) (hspells : e.Spells used) (hlevel : 10 ≤ e.level)
    (hn : used.length ≤ n) :
    Accepts (primary expression) used e rest := by
  unfold primary
  cases e with
  | literal value =>
    obtain ⟨t, rfl, ht⟩ := hspells
    obtain ⟨ht, rfl⟩ | ⟨ht, rfl⟩ | ⟨ht, rfl⟩ | ⟨ht, rfl⟩ := ht
    · exact .ifMatch (by decide) (by simp [ht]) (.refl _ _)
    · refine .ifPass (by simp) (nextNot_cons (by simp [ht])) ?_
      exact .ifMatch (by decide) (by simp [ht]) (.refl _ _)
    · refine .ifPass (by simp) (nextNot_cons (by simp [ht])) ?_
      refine .ifPass (by simp) (nextNot_cons (by simp [ht])) ?_
      exact .ifMatch (by decide) (by simp [ht]) (.refl _ _)
    · refine .ifPass (by simp) (nextNot_cons (by rcases ht with ht | ht <;> simp [ht])) ?_
      refine .ifPass (by simp) (nextNot_cons (by rcases ht with ht | ht <;> simp [ht])) ?_
      refine .ifPass (by simp) (nextNot_cons (by rcases ht with ht | ht <;> simp [ht])) ?_
      exact .matching (by decide) (by rcases ht with ht | ht <;> simp [ht]) (.refl _ _)
  | super_ keyword method _ =>
    obtain ⟨dot, rfl, hdot⟩ := hspells
    obtain ⟨hkeyword, hmethod⟩ := hwf
    refine .ifPass (by simp) (nextNot_cons (by simp [hkeyword])) ?_
    refine .ifPass (by simp) (nextNot_cons (by simp [hkeyword])) ?_
    refine .ifPass (by simp) (nextNot_cons (by simp [hkeyword])) ?_
    refine .passing (by simp) (nextNot_cons (by simp [hkeyword])) ?_
    refine .matching (by decide) (by simp [hkeyword]) ?_
    exact .consuming (by decide) hdot (.consuming (by decide) hmethod (.refl _ _))
  | this_ keyword _ =>
    obtain rfl : used = [keyword] := hspells
    have hkeyword : keyword.type = .this_ := hwf
    refine .ifPass (by simp) (nextNot_cons (by simp [hkeyword])) ?_
    refine .ifPass (by simp) (nextNot_cons (by simp [hkeyword])) ?_
    refine .ifPass (by simp) (nextNot_cons (by simp [hkeyword])) ?_
    refine .passing (by simp) (nextNot_cons (by simp [hkeyword])) ?_
    refine .passing (by simp) (nextNot_cons (by simp [hkeyword])) ?_
    exact .matching (by decide) (by simp [hkeyword]) (.refl _ _)
  | variable_ name _ =>
    obtain rfl : used = [name] := hspells
    have hname : name.type = .identifier := hwf
    refine .ifPass (by simp) (nextNot_cons (by simp [hname])) ?_
    refine .ifPass (by simp) (nextNot_cons (by simp [hname])) ?_
    refine .ifPass (by simp) (nextNot_cons (by simp [hname])) ?_
    refine .passing (by simp) (nextNot_cons (by simp [hname])) ?_
    refine .passing (by simp) (nextNot_cons (by simp [hname])) ?_
    refine .passing (by simp) (nextNot_cons (by simp [hname])) ?_
    exact .matching (by decide) (by simp [hname]) (.refl _ _)
  | grouping e =>
    obtain ⟨opening, v, closing, rfl, hopening, hclosing, hspells⟩ := hspells
    simp only [List.length_cons, List.length_append, List.length_nil] at hn
    have hfollow : Follow 1 (closing :: rest) := by
      intro t ht
      obtain rfl : closing = t := by simpa using ht
      rw [hclosing]
      decide
    refine .ifPass (by simp) (nextNot_cons (by simp [hopening])) ?_
    refine .ifPass (by simp) (nextNot_cons (by simp [hopening])) ?_
    refine .ifPass (by simp) (nextNot_cons (by simp [hopening])) ?_
    refine .passing (by simp) (nextNot_cons (by simp [hopening])) ?_
    refine .passing (by simp) (nextNot_cons (by simp [hopening])) ?_
    refine .passing (by simp) (nextNot_cons (by simp [hopening])) ?_
    refine .passing (by simp) (nextNot_cons (by simp [hopening])) ?_
    refine .ifMatch (by decide) (by simp [hopening]) ?_
    refine Accepts.andThen (h e v _ hwf hfits hspells (by omega) (by simp) hfollow) ?_
    exact .consuming (by decide) hclosing (.refl _ _)
  | assign | set => simp [Expr.level] at hlevel
  | call | get | unary => simp [Expr.level] at hlevel
  | binary left operator right =>
    have hle : infixLevel operator.type ≤ 7 := hwf.1.2
    have hge : 10 ≤ infixLevel operator.type := hlevel
    omega
  | logical left operator right =>
    have hge : 10 ≤ infixLevel operator.type := hlevel
    rcases hwf.1 with ht | ht <;> simp [ht, infixLevel] at hge

theorem call_leads_primary {e : Expr N Unit} {used : List (Token N)} (rest : List (Token N))
    (m : ℕ) (hwf : e.Wf) (hfits : e.Fits) (hspells : e.Spells used) (hlevel : 10 ≤ e.level)
    (hn : used.length ≤ n) :
    ∃ m', m < m' + used.length ∧
      Leads (call expression m) used (callLoop expression m' e) rest := by
  obtain ⟨t, tail, hused, -, -⟩ := Expr.spells_head e hwf hspells
  have hpos : 0 < used.length := by simp [hused]
  exact ⟨m, by omega, (primary_accepts h rest hwf hfits hspells hlevel hn).bind⟩

/-- After an expression, `call` is in its loop. -/
theorem call_leads : ∀ (e : Expr N Unit) {used : List (Token N)} (rest : List (Token N)) (m : ℕ),
    e.Wf → e.Fits → e.Spells used → 9 ≤ e.level → used.length ≤ n → used.length ≤ m →
    ∃ m', m < m' + used.length ∧ Leads (call expression m) used (callLoop expression m' e) rest
  | .call callee paren arguments, used, rest, m, hwf, hfits, hspells, _, hn, hm => by
    obtain ⟨u, opening, v, rfl, hopening, hcallee, hv⟩ := hspells
    obtain ⟨hparen, ⟨hwf, hlevel⟩, hwfs⟩ := hwf
    obtain ⟨hfits, hsize, hfitss⟩ := hfits
    simp only [List.length_append, List.length_cons, List.length_nil] at hn hm
    obtain ⟨m', hle, hleads⟩ := call_leads callee (opening :: (v ++ [paren]) ++ rest) m hwf hfits
      hcallee hlevel (by omega) (by omega)
    obtain ⟨k, rfl⟩ : ∃ k, m' = k + 1 := ⟨m' - 1, by omega⟩
    refine ⟨k, by simp only [List.length_append, List.length_cons]; omega, hleads.trans ?_⟩
    rw [callLoop]
    refine .ifMatch (by decide) (by simp [hopening]) ?_
    exact Accepts.bind (finishCall_accepts h hparen hsize hwfs hfitss hv (by omega) (by omega))
  | .get object name, used, rest, m, hwf, hfits, hspells, _, hn, hm => by
    obtain ⟨u, dot, rfl, hdot, hobject⟩ := hspells
    obtain ⟨hname, hwf, hlevel⟩ := hwf
    simp only [List.length_append, List.length_cons, List.length_nil] at hn hm
    obtain ⟨m', hle, hleads⟩ := call_leads object ([dot, name] ++ rest) m hwf hfits hobject
      hlevel (by omega) (by omega)
    obtain ⟨k, rfl⟩ : ∃ k, m' = k + 1 := ⟨m' - 1, by omega⟩
    refine ⟨k, by simp only [List.length_append, List.length_cons]; omega, hleads.trans ?_⟩
    rw [callLoop]
    refine .ifPass (by simp) (nextNot_cons (by simp [hdot])) ?_
    exact .ifMatch (by decide) (by simp [hdot]) (.consuming (by decide) hname (.refl _ _))
  | .grouping e, used, rest, m, hwf, hfits, hspells, _, hn, _ =>
    call_leads_primary h rest m hwf hfits hspells (le_refl _) hn
  | .literal value, used, rest, m, hwf, hfits, hspells, _, hn, _ =>
    call_leads_primary h rest m hwf hfits hspells (le_refl _) hn
  | .super_ keyword method _, used, rest, m, hwf, hfits, hspells, _, hn, _ =>
    call_leads_primary h rest m hwf hfits hspells (le_refl _) hn
  | .this_ keyword _, used, rest, m, hwf, hfits, hspells, _, hn, _ =>
    call_leads_primary h rest m hwf hfits hspells (le_refl _) hn
  | .variable_ name _, used, rest, m, hwf, hfits, hspells, _, hn, _ =>
    call_leads_primary h rest m hwf hfits hspells (le_refl _) hn
  | .assign _ _ _, _, _, _, _, _, _, hlevel, _, _ => by simp [Expr.level] at hlevel
  | .set _ _ _, _, _, _, _, _, _, hlevel, _, _ => by simp [Expr.level] at hlevel
  | .unary _ _, _, _, _, _, _, _, hlevel, _, _ => by simp [Expr.level] at hlevel
  | .binary left operator right, _, _, _, hwf, _, _, hlevel, _, _ => by
    have hle : infixLevel operator.type ≤ 7 := hwf.1.2
    have hge : 9 ≤ infixLevel operator.type := hlevel
    omega
  | .logical left operator right, _, _, _, hwf, _, _, hlevel, _, _ => by
    have hge : 9 ≤ infixLevel operator.type := hlevel
    rcases hwf.1 with ht | ht <;> simp [ht, infixLevel] at hge

omit h in
theorem callLoop_returns {m : ℕ} (e : Expr N Unit) {rest : List (Token N)} (hm : 0 < m)
    (hrest : rest ≠ []) (hfollow : Follow 9 rest) :
    Accepts (callLoop expression m e) [] e rest := by
  obtain ⟨k, rfl⟩ : ∃ k, m = k + 1 := ⟨m - 1, by omega⟩
  have hnot : ∀ type, infixLevel type = 9 → NextNot [type] rest := by
    intro type htype t ht hmem
    have hlt := hfollow t ht
    rw [List.mem_singleton.1 hmem, htype] at hlt
    omega
  rw [callLoop]
  exact .ifPass hrest (hnot _ rfl) (.ifPass hrest (hnot _ rfl) (.refl _ _))

/-- `unary` accepts the expressions of its level. -/
theorem unary_accepts_call {e : Expr N Unit} {used rest : List (Token N)} {m : ℕ} (hwf : e.Wf)
    (hfits : e.Fits) (hspells : e.Spells used) (hlevel : 9 ≤ e.level) (hn : used.length ≤ n)
    (hm : used.length < m) (hrest : rest ≠ []) (hfollow : Follow 8 rest) :
    Accepts (unary expression m) used e rest := by
  obtain ⟨k, rfl⟩ : ∃ k, m = k + 1 := ⟨m - 1, by omega⟩
  obtain ⟨m', hlt, hleads⟩ := call_leads h e rest k hwf hfits hspells hlevel hn (by omega)
  obtain ⟨t, tail, rfl, -, ht⟩ := Expr.spells_head e hwf hspells
  have ht := ht hlevel
  rw [unary]
  refine .passing (by simp) (nextNot_cons (by simp [ht])) ?_
  rw [← List.append_nil (t :: tail)]
  exact hleads.trans (callLoop_returns e (by omega) hrest (hfollow.mono (by omega)))

theorem unary_accepts : ∀ (e : Expr N Unit) {used rest : List (Token N)} (m : ℕ),
    e.Wf → e.Fits → e.Spells used → 8 ≤ e.level → used.length ≤ n → used.length < m →
    rest ≠ [] → Follow 8 rest → Accepts (unary expression m) used e rest
  | .unary operator right, used, rest, m, hwf, hfits, hspells, _, hn, hm, hrest, hfollow => by
    obtain ⟨v, rfl, hright⟩ := hspells
    obtain ⟨hoperator, hwf, hlevel⟩ := hwf
    simp only [List.length_cons] at hn hm
    obtain ⟨k, rfl⟩ : ∃ k, m = k + 1 := ⟨m - 1, by omega⟩
    have hv := unary_accepts right k hwf hfits hright hlevel (by omega) (by omega) hrest hfollow
    rw [unary]
    refine .matching (by decide) (by simpa using hoperator) ?_
    rw [← List.append_nil v]
    exact Accepts.andThen hv (.refl _ _)
  | .call _ _ _, _, _, _, hwf, hfits, hspells, _, hn, hm, hrest, hfollow =>
    unary_accepts_call h hwf hfits hspells (by simp [Expr.level]) hn hm hrest hfollow
  | .get _ _, _, _, _, hwf, hfits, hspells, _, hn, hm, hrest, hfollow =>
    unary_accepts_call h hwf hfits hspells (by simp [Expr.level]) hn hm hrest hfollow
  | .grouping _, _, _, _, hwf, hfits, hspells, _, hn, hm, hrest, hfollow =>
    unary_accepts_call h hwf hfits hspells (by simp [Expr.level]) hn hm hrest hfollow
  | .literal _, _, _, _, hwf, hfits, hspells, _, hn, hm, hrest, hfollow =>
    unary_accepts_call h hwf hfits hspells (by simp [Expr.level]) hn hm hrest hfollow
  | .super_ _ _ _, _, _, _, hwf, hfits, hspells, _, hn, hm, hrest, hfollow =>
    unary_accepts_call h hwf hfits hspells (by simp [Expr.level]) hn hm hrest hfollow
  | .this_ _ _, _, _, _, hwf, hfits, hspells, _, hn, hm, hrest, hfollow =>
    unary_accepts_call h hwf hfits hspells (by simp [Expr.level]) hn hm hrest hfollow
  | .variable_ _ _, _, _, _, hwf, hfits, hspells, _, hn, hm, hrest, hfollow =>
    unary_accepts_call h hwf hfits hspells (by simp [Expr.level]) hn hm hrest hfollow
  | .assign _ _ _, _, _, _, _, _, _, hlevel, _, _, _, _ => by simp [Expr.level] at hlevel
  | .set _ _ _, _, _, _, _, _, _, hlevel, _, _, _, _ => by simp [Expr.level] at hlevel
  | .binary left operator right, _, _, _, hwf, _, _, hlevel, _, _, _, _ => by
    have hle : infixLevel operator.type ≤ 7 := hwf.1.2
    have hge : 8 ≤ infixLevel operator.type := hlevel
    omega
  | .logical left operator right, _, _, _, hwf, _, _, hlevel, _, _, _, _ => by
    have hge : 8 ≤ infixLevel operator.type := hlevel
    rcases hwf.1 with ht | ht <;> simp [ht, infixLevel] at hge

end Expressions

/-- The operators of a level. -/
def operatorTypes : ℕ → List TokenType
  | 2 => [.or_]
  | 3 => [.and_]
  | 4 => [.bangEqual, .equalEqual]
  | 5 => [.greater, .greaterEqual, .less, .lessEqual]
  | 6 => [.minus, .plus]
  | 7 => [.slash, .star]
  | _ => []

/-- The nodes of a level. -/
def operatorNode : ℕ → Expr N Unit → Token N → Expr N Unit → Expr N Unit
  | 2 | 3 => .logical
  | _ => .binary

theorem operatorNode_binary {q : ℕ} (h : 4 ≤ q) : operatorNode (N := N) q = Expr.binary := by
  unfold operatorNode
  split
  · omega
  · omega
  · rfl

/-- The function for a level. -/
def levelParser (expression : Parse N (Expr N Unit)) (n : ℕ) : ℕ → Parse N (Expr N Unit)
  | 2 => or_ expression n
  | 3 => and_ expression n
  | 4 => equality expression n
  | 5 => comparison expression n
  | 6 => term expression n
  | 7 => factor expression n
  | _ => unary expression n

theorem levelParser_eq (expression : Parse N (Expr N Unit)) (n : ℕ) {q : ℕ} (hlow : 2 ≤ q)
    (hhigh : q ≤ 7) : levelParser expression n q =
      operator (operatorNode q) (operatorTypes q) (levelParser expression n (q + 1)) n := by
  interval_cases q <;> rfl

theorem operatorLevel {q : ℕ} (hlow : 2 ≤ q) (hhigh : q ≤ 7) :
    OperatorLevel (N := N) q (operatorTypes q) (operatorNode q) := by
  interval_cases q
  · exact level_or
  · exact level_and
  · exact level_equality
  · exact level_comparison
  · exact level_term
  · exact level_factor

/-- After the tokens of the expression, the function for the level is in its loop. -/
def InLoop (expression : Parse N (Expr N Unit)) (n q : ℕ) (e : Expr N Unit)
    (used : List (Token N)) : Prop :=
  ∀ rest, rest ≠ [] → Follow (q + 1) rest → ∃ m, n < m + used.length ∧
    Leads (levelParser expression n q) used
      (operatorLoop (operatorNode q) (operatorTypes q) (levelParser expression n (q + 1)) m e) rest

theorem operatorLoop_returns {node : Expr N Unit → Token N → Expr N Unit → Expr N Unit}
    {types : List TokenType} {operand : Parse N (Expr N Unit)} {m : ℕ} (e : Expr N Unit)
    {rest : List (Token N)} (hm : 0 < m) (hrest : rest ≠ []) (hnot : NextNot types rest) :
    Accepts (operatorLoop node types operand m e) [] e rest := by
  obtain ⟨k, rfl⟩ : ∃ k, m = k + 1 := ⟨m - 1, by omega⟩
  rw [operatorLoop]
  exact .passing hrest hnot (.refl _ _)

/-- An expression that the loop has read is returned if nothing of the level follows. -/
theorem InLoop.accepts {expression : Parse N (Expr N Unit)} {n q : ℕ} {e : Expr N Unit}
    {used rest : List (Token N)} (h : InLoop expression n q e used) (hlow : 2 ≤ q) (hhigh : q ≤ 7)
    (hn : used.length ≤ n) (hrest : rest ≠ []) (hfollow : Follow q rest) :
    Accepts (levelParser expression n q) used e rest := by
  obtain ⟨m, hlt, hleads⟩ := h rest hrest (hfollow.mono (Nat.le_succ _))
  have hnot : NextNot (operatorTypes q) rest := by
    intro t ht hmem
    have hlevel := ((operatorLevel (N := N) hlow hhigh).mem t.type).2 hmem
    have hlt := hfollow t ht
    omega
  rw [← List.append_nil used]
  exact hleads.trans (operatorLoop_returns e (by omega) hrest hnot)

/-- An operand is what the loop starts with. -/
theorem inLoop_operand {expression : Parse N (Expr N Unit)} {n q : ℕ} {e : Expr N Unit}
    {used : List (Token N)} (hlow : 2 ≤ q) (hhigh : q ≤ 7) (hpos : 0 < used.length)
    (h : ∀ rest, rest ≠ [] → Follow (q + 1) rest →
      Accepts (levelParser expression n (q + 1)) used e rest) :
    InLoop expression n q e used := by
  intro rest hrest hfollow
  refine ⟨n, by omega, ?_⟩
  rw [levelParser_eq expression n hlow hhigh]
  exact (h rest hrest hfollow).bind

/-- One more operator. -/
theorem InLoop.operator {expression : Parse N (Expr N Unit)} {n q : ℕ} {left right : Expr N Unit}
    {operator : Token N} {u v : List (Token N)} (hlow : 2 ≤ q) (hhigh : q ≤ 7)
    (hoperator : infixLevel operator.type = q) (hn : u.length ≤ n)
    (hleft : InLoop expression n q left u)
    (hright : ∀ rest, rest ≠ [] → Follow (q + 1) rest →
      Accepts (levelParser expression n (q + 1)) v right rest) :
    InLoop expression n q (operatorNode q left operator right) (u ++ operator :: v) := by
  have hlevel := operatorLevel (N := N) hlow hhigh
  intro rest hrest hfollow
  have hnext : Follow (q + 1) (operator :: v ++ rest) := by
    intro t ht
    obtain rfl : operator = t := by simpa using ht
    omega
  obtain ⟨m, hlt, hleads⟩ := hleft (operator :: v ++ rest) (by simp) hnext
  obtain ⟨k, rfl⟩ : ∃ k, m = k + 1 := ⟨m - 1, by omega⟩
  refine ⟨k, by simp only [List.length_append, List.length_cons]; omega, hleads.trans ?_⟩
  rw [operatorLoop]
  refine .matching hlevel.eof ((hlevel.mem _).1 hoperator) ?_
  exact (hright rest hrest hfollow).bind

section Levels

variable {expression : Parse N (Expr N Unit)} {n : ℕ} (h : AcceptsBelow n expression)

include h

/-- The expression is in the loop of each level up to its own, if it is in that one. -/
theorem inLoop_below {e : Expr N Unit} {used : List (Token N)} (hwf : e.Wf) (hfits : e.Fits)
    (hspells : e.Spells used) (hn : used.length < n)
    (hown : 2 ≤ e.level → e.level ≤ 7 → InLoop expression n e.level e used) :
    ∀ q, 2 ≤ q → q ≤ 7 → q ≤ e.level → InLoop expression n q e used := by
  obtain ⟨t, tail, hused, -, -⟩ := Expr.spells_head e hwf hspells
  have hpos : 0 < used.length := by simp [hused]
  intro q hlow hhigh hq
  induction hk : 7 - q generalizing q with
  | zero =>
    obtain rfl : q = 7 := by omega
    by_cases heq : e.level = 7
    · rw [← heq]
      exact hown (by omega) (by omega)
    · refine inLoop_operand hlow hhigh hpos fun rest hrest hfollow => ?_
      exact unary_accepts h e n hwf hfits hspells (by omega) (by omega) hn hrest hfollow
  | succ k ih =>
    by_cases heq : e.level = q
    · rw [← heq]
      exact hown (by omega) (by omega)
    · have habove := ih (q + 1) (by omega) (by omega) (by omega) (by omega)
      refine inLoop_operand hlow hhigh hpos fun rest hrest hfollow => ?_
      exact habove.accepts (by omega) (by omega) (by omega) hrest hfollow

/-- The function above a level accepts what is in the loop above it. -/
theorem accepts_above {e : Expr N Unit} {used : List (Token N)} {q : ℕ} (hwf : e.Wf)
    (hfits : e.Fits) (hspells : e.Spells used) (hn : used.length < n) (hlow : 2 ≤ q) (hhigh : q ≤ 7)
    (hq : q < e.level)
    (hloop : ∀ q, 2 ≤ q → q ≤ 7 → q ≤ e.level → InLoop expression n q e used) :
    ∀ rest, rest ≠ [] → Follow (q + 1) rest →
      Accepts (levelParser expression n (q + 1)) used e rest := by
  intro rest hrest hfollow
  by_cases heq : q = 7
  · subst heq
    exact unary_accepts h e n hwf hfits hspells (by omega) (by omega) hn hrest hfollow
  · exact (hloop (q + 1) (by omega) (by omega) hq).accepts (by omega) (by omega) (by omega) hrest
      hfollow

theorem inLoop : ∀ (e : Expr N Unit) {used : List (Token N)}, e.Wf → e.Fits → e.Spells used →
    used.length < n → ∀ q, 2 ≤ q → q ≤ 7 → q ≤ e.level → InLoop expression n q e used
  | .binary left operator right, used, hwf, hfits, hspells, hn => by
    refine inLoop_below h hwf hfits hspells hn fun hlow hhigh => ?_
    obtain ⟨u, v, rfl, hleft, hright⟩ := hspells
    obtain ⟨⟨hfour, -⟩, ⟨hwfl, hlevell⟩, hwfr, hlevelr⟩ := hwf
    simp only [List.length_append, List.length_cons] at hn
    have hnode : operatorNode (Expr.binary left operator right).level left operator right =
        Expr.binary left operator right := by
      rw [Expr.level, operatorNode_binary hfour]
    have hl := inLoop left hwfl hfits.1 hleft (by omega) _ hlow hhigh hlevell
    have hr := accepts_above h hwfr hfits.2 hright (by omega) hlow hhigh hlevelr
      (inLoop right hwfr hfits.2 hright (by omega))
    have hloop := hl.operator hlow hhigh rfl (by omega) hr
    rw [hnode] at hloop
    exact hloop
  | .logical left operator right, used, hwf, hfits, hspells, hn => by
    refine inLoop_below h hwf hfits hspells hn fun hlow hhigh => ?_
    obtain ⟨u, v, rfl, hleft, hright⟩ := hspells
    obtain ⟨htype, ⟨hwfl, hlevell⟩, hwfr, hlevelr⟩ := hwf
    simp only [List.length_append, List.length_cons] at hn
    have hnode : operatorNode (Expr.logical left operator right).level left operator right =
        Expr.logical left operator right := by
      rcases htype with htype | htype <;> rw [Expr.level, htype] <;> rfl
    have hl := inLoop left hwfl hfits.1 hleft (by omega) _ hlow hhigh hlevell
    have hr := accepts_above h hwfr hfits.2 hright (by omega) hlow hhigh hlevelr
      (inLoop right hwfr hfits.2 hright (by omega))
    have hloop := hl.operator hlow hhigh rfl (by omega) hr
    rw [hnode] at hloop
    exact hloop
  | .assign _ _ _, _, _, _, _, _ => fun q hlow _ hq => by simp only [Expr.level] at hq; omega
  | .set _ _ _, _, _, _, _, _ => fun q hlow _ hq => by simp only [Expr.level] at hq; omega
  | .unary _ _, _, hwf, hfits, hspells, hn =>
    inLoop_below h hwf hfits hspells hn fun _ hhigh => by simp [Expr.level] at hhigh
  | .call _ _ _, _, hwf, hfits, hspells, hn =>
    inLoop_below h hwf hfits hspells hn fun _ hhigh => by simp [Expr.level] at hhigh
  | .get _ _, _, hwf, hfits, hspells, hn =>
    inLoop_below h hwf hfits hspells hn fun _ hhigh => by simp [Expr.level] at hhigh
  | .grouping _, _, hwf, hfits, hspells, hn =>
    inLoop_below h hwf hfits hspells hn fun _ hhigh => by simp [Expr.level] at hhigh
  | .literal _, _, hwf, hfits, hspells, hn =>
    inLoop_below h hwf hfits hspells hn fun _ hhigh => by simp [Expr.level] at hhigh
  | .super_ _ _ _, _, hwf, hfits, hspells, hn =>
    inLoop_below h hwf hfits hspells hn fun _ hhigh => by simp [Expr.level] at hhigh
  | .this_ _ _, _, hwf, hfits, hspells, hn =>
    inLoop_below h hwf hfits hspells hn fun _ hhigh => by simp [Expr.level] at hhigh
  | .variable_ _ _, _, hwf, hfits, hspells, hn =>
    inLoop_below h hwf hfits hspells hn fun _ hhigh => by simp [Expr.level] at hhigh

theorem or_accepts {e : Expr N Unit} {used rest : List (Token N)} (hwf : e.Wf) (hfits : e.Fits)
    (hspells : e.Spells used) (hlevel : 2 ≤ e.level) (hn : used.length < n) (hrest : rest ≠ [])
    (hfollow : Follow 2 rest) : Accepts (or_ expression n) used e rest :=
  (inLoop h e hwf hfits hspells hn 2 (le_refl _) (by omega) hlevel).accepts (le_refl _) (by omega)
    (by omega) hrest hfollow

theorem assignment_accepts {e : Expr N Unit} {used rest : List (Token N)} (hwf : e.Wf)
    (hfits : e.Fits) (hspells : e.Spells used) (hn : used.length < n) (hrest : rest ≠ [])
    (hfollow : Follow 1 rest) :
    Accepts (assignment expression n) used e rest := by
  by_cases hlevel : 2 ≤ e.level
  · have hor := or_accepts h hwf hfits hspells hlevel hn hrest (hfollow.mono (by omega))
    have hnot : NextNot [.equal] rest := by
      intro t ht hmem
      have hlt := hfollow t ht
      rw [List.mem_singleton.1 hmem] at hlt
      simp [infixLevel] at hlt
    rw [← List.append_nil used]
    exact Accepts.andThen hor (.passing hrest hnot (.refl _ _))
  · cases e with
    | assign name value _ =>
      obtain ⟨equals, v, rfl, hequals, hvalue⟩ := hspells
      simp only [List.length_cons] at hn
      have hname : (Expr.variable_ name () : Expr N Unit).Wf := hwf.1
      have hfollow' : Follow 2 (equals :: v ++ rest) := by
        intro t ht
        obtain rfl : equals = t := by simpa using ht
        rw [hequals]
        decide
      have htarget : (Expr.variable_ name () : Expr N Unit).Spells [name] := rfl
      have hor := or_accepts h hname trivial htarget (by simp [Expr.level])
        (by simp only [List.length_singleton]; omega) (by simp) hfollow'
      have hv := h value v rest hwf.2 hfits hvalue (by omega) hrest hfollow
      refine Accepts.andThen (u := [name]) hor (.matching (by decide) (by simp [hequals]) ?_)
      rw [← List.append_nil v]
      exact Accepts.andThen hv (.refl _ _)
    | set object name value =>
      obtain ⟨u, dot, equals, v, rfl, hdot, hequals, hobject, hvalue⟩ := hspells
      obtain ⟨hname, ⟨hwfo, hlevelo⟩, hwfv⟩ := hwf
      simp only [List.length_append, List.length_cons] at hn
      have hget : (Expr.get object name).Wf := ⟨hname, hwfo, hlevelo⟩
      have hfollow' : Follow 2 (equals :: v ++ rest) := by
        intro t ht
        obtain rfl : equals = t := by simpa using ht
        rw [hequals]
        decide
      have htarget : (Expr.get object name).Spells (u ++ [dot, name]) :=
        ⟨u, dot, rfl, hdot, hobject⟩
      have hor := or_accepts h hget hfits.1 htarget (by simp [Expr.level])
        (by simp only [List.length_append, List.length_cons, List.length_nil]; omega) (by simp)
        hfollow'
      have hv := h value v rest hwfv hfits.2 hvalue (by omega) hrest hfollow
      have hused : u ++ dot :: name :: equals :: v = (u ++ [dot, name]) ++ equals :: v := by simp
      rw [hused]
      refine Accepts.andThen hor (.matching (by decide) (by simp [hequals]) ?_)
      rw [← List.append_nil v]
      exact Accepts.andThen hv (.refl _ _)
    | binary left operator right =>
      have hge : 4 ≤ infixLevel operator.type := hwf.1.1
      simp only [Expr.level] at hlevel
      omega
    | logical left operator right =>
      rcases hwf.1 with ht | ht <;> simp [Expr.level, ht, infixLevel] at hlevel
    | _ => simp [Expr.level] at hlevel

end Levels

/-- `expression` accepts every expression, with fuel for all its tokens. -/
theorem expression_accepts (n : ℕ) : AcceptsBelow n (expression n : Parse N (Expr N Unit)) := by
  induction n with
  | zero =>
    intro e used rest _ _ _ hn
    omega
  | succ n ih =>
    intro e used rest hwf hfits hspells hn hrest hfollow
    exact assignment_accepts ih hwf hfits hspells (by omega) hrest hfollow

end Lox.Jlox
