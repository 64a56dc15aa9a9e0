import Lox.Jlox.Resolver

/-!
# What the resolver records

`Stmt.Resolved` says of a tree with distances that each of them is the one of a scope with the name,
and that it leads to a declaration that is complete, unless the name is assigned to.  The resolver
gives such a tree for every `Proper` tree, if it reports no error (`resolveStmts_resolves`).

A tree is `Proper` if a declaration stands only where the parser reads one, methods are functions,
and names are not spelled like the keywords `this` and `super`.
-/

namespace Lox.Jlox

open Resolver

variable {N D α β : Type}

/-! ### Trees from the parser -/

/-- The token can be declared: it is not spelled like `this` or `super`. -/
def Token.Declarable (t : Token N) : Prop := t.lexeme ≠ "this".toList ∧ t.lexeme ≠ "super".toList

mutual

/-- The keywords are spelled as such. -/
def Expr.Proper : Expr N D → Prop
  | .assign _ value _ => value.Proper
  | .binary left _ right | .logical left _ right => left.Proper ∧ right.Proper
  | .call callee _ arguments => callee.Proper ∧ Expr.ProperList arguments
  | .get object _ => object.Proper
  | .grouping expression => expression.Proper
  | .literal _ | .variable_ _ _ => True
  | .set object _ value => object.Proper ∧ value.Proper
  | .super_ keyword _ _ => keyword.lexeme = "super".toList
  | .this_ keyword _ => keyword.lexeme = "this".toList
  | .unary _ right => right.Proper

/-- The keywords are spelled as such in all of them. -/
def Expr.ProperList : List (Expr N D) → Prop
  | [] => True
  | e :: es => e.Proper ∧ Expr.ProperList es

end

/-- Not a declaration. -/
def Stmt.NotDeclaration : Stmt N D → Prop
  | .class_ _ _ _ | .function _ _ _ | .var _ _ => False
  | _ => True

mutual

/-- Declarations stand where the grammar has them. -/
def Stmt.Proper : Stmt N D → Prop
  | .block statements => Stmt.ProperList statements
  | .class_ name _ methods => name.Declarable ∧ Stmt.ProperMethods methods
  | .expression e | .print e => e.Proper
  | .function name params body =>
      name.Declarable ∧ (∀ t ∈ params, t.Declarable) ∧ Stmt.ProperList body
  | .if_ condition thenBranch none =>
      condition.Proper ∧ thenBranch.NotDeclaration ∧ thenBranch.Proper
  | .if_ condition thenBranch (some elseBranch) =>
      condition.Proper ∧ (thenBranch.NotDeclaration ∧ thenBranch.Proper) ∧
        elseBranch.NotDeclaration ∧ elseBranch.Proper
  | .return_ _ value => ∀ e ∈ value, e.Proper
  | .var name initializer => name.Declarable ∧ ∀ e ∈ initializer, e.Proper
  | .while_ condition body => condition.Proper ∧ body.NotDeclaration ∧ body.Proper
  | .null => False

/-- All statements are proper. -/
def Stmt.ProperList : List (Stmt N D) → Prop
  | [] => True
  | s :: ss => s.Proper ∧ Stmt.ProperList ss

/-- Methods are functions. -/
def Stmt.ProperMethods : List (Stmt N D) → Prop
  | [] => True
  | .function name params body :: methods =>
      (name.Declarable ∧ (∀ t ∈ params, t.Declarable) ∧ Stmt.ProperList body) ∧
        Stmt.ProperMethods methods
  | _ :: _ => False

end

/-! ### Trees with distances -/

/-- What is recorded for a variable that is read. -/
def Reads (scopes : List Scope) (name : Name) (distance : Option Binding) : Prop :=
  distance = lookup name scopes ∧ ∀ i entry, findScope name scopes = some (i, entry) → entry.ready

/-- A scope with `super` has a scope with `this` in it. -/
def ThisInSuper (scopes : List Scope) : Prop :=
  ∀ i scope entry, scopes[i]? = some scope → scope "super".toList = some entry →
    ∃ j this_ entry', i = j + 1 ∧ scopes[j]? = some this_ ∧ this_ "this".toList = some entry' ∧
      entry'.ready

/-- The scope for the parameters, from the index on. -/
def parameterScope (p : Place) : ℕ → List (Token N) → Scope → Scope
  | _, [], scope => scope
  | i, param :: params, scope =>
    parameterScope p (i + 1) params
      (Function.update scope param.lexeme (some ⟨true, .parameter p i⟩))

/-- The scope for `super`. -/
def superScope (p : Place) : Scope :=
  Function.update empty "super".toList (some ⟨true, .super_ p⟩)

/-- The scope for `this`. -/
def thisScope (p : Place) : Scope :=
  Function.update empty "this".toList (some ⟨true, .this_ p⟩)

/-- The scopes around the methods of a class. -/
def classScopes (p : Place) (isSubclass : Bool) (scopes : List Scope) : List Scope :=
  if isSubclass then superScope p :: scopes else scopes

/-- The scopes after a statement. -/
def Stmt.after (p : Place) (scopes : List Scope) : Stmt N D → List Scope
  | .class_ name _ _ | .function name _ _ | .var name _ =>
      putScope name.lexeme ⟨true, .statement p⟩ scopes
  | _ => scopes

mutual

/-- The distances in an expression are those in the scopes. -/
def Expr.Resolved (scopes : List Scope) : Expr N (Option Binding) → Prop
  | .assign name value distance =>
      value.Resolved scopes ∧ distance = lookup name.lexeme scopes
  | .binary left _ right | .logical left _ right => left.Resolved scopes ∧ right.Resolved scopes
  | .call callee _ arguments => callee.Resolved scopes ∧ Expr.ResolvedList scopes arguments
  | .get object _ => object.Resolved scopes
  | .grouping expression => expression.Resolved scopes
  | .literal _ => True
  | .set object _ value => object.Resolved scopes ∧ value.Resolved scopes
  | .super_ _ _ distance => Reads scopes "super".toList distance ∧ ThisInSuper scopes
  | .this_ keyword distance => Reads scopes keyword.lexeme distance
  | .unary _ right => right.Resolved scopes
  | .variable_ name distance => Reads scopes name.lexeme distance

/-- The distances in all of them are those in the scopes. -/
def Expr.ResolvedList (scopes : List Scope) : List (Expr N (Option Binding)) → Prop
  | [] => True
  | e :: es => e.Resolved scopes ∧ Expr.ResolvedList scopes es

end

mutual

/-- The distances in a statement are those in the scopes, and no name is declared twice. -/
def Stmt.Resolved (type : FunctionType) (p : Place) (scopes : List Scope) :
    Stmt N (Option Binding) → Prop
  | .block statements => Stmt.ResolvedList type p 0 (empty :: scopes) statements
  | .class_ name superclass methods =>
      peekScope name.lexeme scopes = none ∧
      (∀ t ∈ superclass, Reads (putScope name.lexeme ⟨false, .statement p⟩ scopes) t.1.lexeme t.2) ∧
      Stmt.ResolvedMethods p 0
        (thisScope p :: classScopes p superclass.isSome
          (putScope name.lexeme ⟨true, .statement p⟩ scopes)) methods
  | .expression e | .print e => e.Resolved scopes
  | .function name params body =>
      peekScope name.lexeme scopes = none ∧
      Stmt.ResolvedList .function p 0
        (parameterScope p 0 params empty :: putScope name.lexeme ⟨true, .statement p⟩ scopes) body
  | .if_ condition thenBranch none =>
      condition.Resolved scopes ∧ thenBranch.NotDeclaration ∧ thenBranch.Resolved type (0 :: p) scopes
  | .if_ condition thenBranch (some elseBranch) =>
      condition.Resolved scopes ∧
      (thenBranch.NotDeclaration ∧ thenBranch.Resolved type (0 :: p) scopes) ∧
      elseBranch.NotDeclaration ∧ elseBranch.Resolved type (1 :: p) scopes
  | .return_ _ value => type ≠ .none_ ∧ ∀ e ∈ value, e.Resolved scopes
  | .var name initializer =>
      peekScope name.lexeme scopes = none ∧
      ∀ e ∈ initializer, e.Resolved (putScope name.lexeme ⟨false, .statement p⟩ scopes)
  | .while_ condition body =>
      condition.Resolved scopes ∧ body.NotDeclaration ∧ body.Resolved type (0 :: p) scopes
  | .null => False

/-- Statements, from the index on. -/
def Stmt.ResolvedList (type : FunctionType) (p : Place) (i : ℕ) (scopes : List Scope) :
    List (Stmt N (Option Binding)) → Prop
  | [] => True
  | s :: ss => s.Resolved type (i :: p) scopes ∧
      Stmt.ResolvedList type p (i + 1) (s.after (i :: p) scopes) ss

/-- Methods, from the index on. -/
def Stmt.ResolvedMethods (p : Place) (i : ℕ) (scopes : List Scope) :
    List (Stmt N (Option Binding)) → Prop
  | [] => True
  | .function name params body :: methods =>
      Stmt.ResolvedList (methodType name) (i :: p) 0
        (parameterScope (i :: p) 0 params empty :: scopes) body ∧
      Stmt.ResolvedMethods p (i + 1) scopes methods
  | _ :: _ => False

end

/-! ### Scopes -/

theorem findScope_some {name : Name} {scopes : List Scope} {i : ℕ} {entry : Entry}
    (h : findScope name scopes = some (i, entry)) :
    ∃ scope, scopes[i]? = some scope ∧ scope name = some entry := by
  induction scopes generalizing i with
  | nil => cases h
  | cons scope scopes ih =>
    unfold findScope at h
    cases hs : scope name with
    | some found =>
      rw [hs] at h
      cases h
      exact ⟨scope, rfl, hs⟩
    | none =>
      rw [hs] at h
      obtain ⟨⟨j, found⟩, hj, hpair⟩ := Option.map_eq_some_iff.1 h
      cases hpair
      exact ih hj

/-- All variables of the scope are ready. -/
def Scope.Ready (scope : Scope) : Prop := ∀ name entry, scope name = some entry → entry.ready

/-- The scopes between two statements. -/
structure Settled (scopes : List Scope) : Prop where
  ready : ∀ scope ∈ scopes, scope.Ready
  this_ : ThisInSuper scopes

/-- The scopes around an expression: a variable that is not ready is one of the innermost scope. -/
structure Usable (scopes : List Scope) : Prop where
  ready : ∀ scope ∈ scopes.tail, scope.Ready
  keywords : ∀ name entry, peekScope name scopes = some entry →
    name = "this".toList ∨ name = "super".toList → entry.ready
  this_ : ThisInSuper scopes

theorem Settled.usable {scopes : List Scope} (h : Settled scopes) : Usable scopes where
  ready scope hscope := h.ready scope (List.mem_of_mem_tail hscope)
  keywords name entry hpeek _ := by
    cases scopes with
    | nil => cases hpeek
    | cons scope scopes => exact h.ready scope (by simp) name entry hpeek
  this_ := h.this_

theorem settled_nil : Settled [] := ⟨by simp, fun i scope entry h => by simp at h⟩

theorem ready_empty : Scope.Ready empty := fun _ _ h => by cases h

theorem ready_update {scope : Scope} (h : scope.Ready) (name : Name) (declaration : Declaration) :
    Scope.Ready (Function.update scope name (some ⟨true, declaration⟩)) := by
  intro name' entry hentry
  by_cases hname : name' = name
  · rw [hname, Function.update_self] at hentry
    cases hentry
    rfl
  · rw [Function.update_of_ne hname] at hentry
    exact h name' entry hentry

theorem ThisInSuper.cons {scope : Scope} {scopes : List Scope} (h : ThisInSuper scopes)
    (hsuper : scope "super".toList = none) : ThisInSuper (scope :: scopes) := by
  intro i outer entry hi hentry
  cases i with
  | zero =>
    obtain rfl : scope = outer := by simpa using hi
    rw [hsuper] at hentry
    cases hentry
  | succ i =>
    obtain ⟨j, this_, entry', rfl, hj, hthis⟩ := h i outer entry (by simpa using hi) hentry
    exact ⟨j + 1, this_, entry', rfl, by simpa using hj, hthis⟩

/-- Only what is under `this` and `super` in the innermost scope matters. -/
theorem ThisInSuper.congr {scope scope' : Scope} {scopes : List Scope}
    (h : ThisInSuper (scope :: scopes)) (hthis : scope' "this".toList = scope "this".toList)
    (hsuper : scope' "super".toList = scope "super".toList) : ThisInSuper (scope' :: scopes) := by
  intro i outer entry hi hentry
  cases i with
  | zero =>
    obtain rfl : scope' = outer := by simpa using hi
    obtain ⟨j, -, -, hj, -⟩ := h 0 scope entry rfl (hsuper ▸ hentry)
    omega
  | succ i =>
    obtain ⟨j, this_, entry', hij, hj, hentry', hready⟩ :=
      h (i + 1) outer entry (by simpa using hi) hentry
    cases j with
    | zero =>
      obtain rfl : scope = this_ := by simpa using hj
      exact ⟨0, scope', entry', hij, rfl, hthis.trans hentry', hready⟩
    | succ j => exact ⟨j + 1, this_, entry', hij, by simpa using hj, hentry', hready⟩

theorem Settled.cons {scope : Scope} {scopes : List Scope} (h : Settled scopes)
    (hready : scope.Ready) (hsuper : scope "super".toList = none) : Settled (scope :: scopes) where
  ready := by simpa using ⟨hready, h.ready⟩
  this_ := h.this_.cons hsuper

theorem ThisInSuper.put {name : Token N} {scopes : List Scope} (h : ThisInSuper scopes)
    (hname : name.Declarable) (entry : Entry) :
    ThisInSuper (putScope name.lexeme entry scopes) := by
  cases scopes with
  | nil => exact h
  | cons scope scopes =>
    exact h.congr (Function.update_of_ne hname.1.symm _ _)
      (Function.update_of_ne hname.2.symm _ _)

theorem Settled.put {name : Token N} {scopes : List Scope} (h : Settled scopes)
    (hname : name.Declarable) (declaration : Declaration) :
    Settled (putScope name.lexeme ⟨true, declaration⟩ scopes) where
  ready := by
    cases scopes with
    | nil => simp [putScope]
    | cons scope scopes =>
      have hscope : scope.Ready := h.ready scope (by simp)
      simpa [putScope] using ⟨ready_update hscope _ _, fun s hs => h.ready s (by simp [hs])⟩
  this_ := h.this_.put hname _

theorem Settled.put_usable {name : Token N} {scopes : List Scope} (h : Settled scopes)
    (hname : name.Declarable) (entry : Entry) :
    Usable (putScope name.lexeme entry scopes) where
  ready scope hscope := by
    cases scopes with
    | nil => simp [putScope] at hscope
    | cons s scopes => exact h.ready scope (List.mem_cons_of_mem _ hscope)
  keywords key found hpeek hkey := by
    cases scopes with
    | nil => cases hpeek
    | cons scope scopes =>
      have hne : key ≠ name.lexeme := by
        rintro rfl
        exact hkey.elim hname.1 hname.2
      rw [putScope, peekScope, Function.update_of_ne hne] at hpeek
      exact h.ready scope (by simp) key found hpeek
  this_ := h.this_.put hname _

theorem Settled.class_ {scopes : List Scope} (h : Settled scopes) (p : Place) (isSubclass : Bool) :
    Settled (thisScope p :: classScopes p isSubclass scopes) := by
  have hthis : (thisScope p) "super".toList = none := by
    simp [thisScope, empty, Function.update_of_ne]
  cases isSubclass with
  | false => exact h.cons (ready_update ready_empty _ _) hthis
  | true =>
    refine ⟨by
      simpa [classScopes] using ⟨ready_update ready_empty _ _, ready_update ready_empty _ _, h.ready⟩,
      ?_⟩
    intro i outer entry hi hentry
    match i with
    | 0 =>
      obtain rfl : thisScope p = outer := by simpa using hi
      rw [hthis] at hentry
      cases hentry
    | 1 => exact ⟨0, thisScope p, ⟨true, .this_ p⟩, rfl, rfl, Function.update_self _ _ _, rfl⟩
    | i + 2 =>
      obtain ⟨j, this_, entry', rfl, hj, hrest⟩ :=
        h.this_ i outer entry (by simpa [classScopes] using hi) hentry
      exact ⟨j + 2, this_, entry', rfl, by simpa [classScopes] using hj, hrest⟩

theorem ready_parameterScope {p : Place} {params : List (Token N)} {i : ℕ} {scope : Scope}
    (h : scope.Ready) : (parameterScope p i params scope).Ready := by
  induction params generalizing i scope with
  | nil => exact h
  | cons param params ih => exact ih (ready_update h _ _)

theorem parameterScope_super {p : Place} {params : List (Token N)} {i : ℕ} {scope : Scope}
    (hparams : ∀ t ∈ params, t.Declarable) (h : scope "super".toList = none) :
    parameterScope p i params scope "super".toList = none := by
  induction params generalizing i scope with
  | nil => exact h
  | cons param params ih =>
    refine ih (fun t ht => hparams t (by simp [ht])) ?_
    rw [Function.update_of_ne (hparams param (by simp)).2.symm]
    exact h

theorem Settled.parameters {scopes : List Scope} (h : Settled scopes) (p : Place)
    {params : List (Token N)} (hparams : ∀ t ∈ params, t.Declarable) :
    Settled (parameterScope p 0 params empty :: scopes) :=
  h.cons (ready_parameterScope ready_empty) (parameterScope_super hparams rfl)

theorem Usable.reads {name : Name} {scopes : List Scope} (h : Usable scopes)
    (hready : ∀ entry, peekScope name scopes = some entry → entry.ready) :
    Reads scopes name (lookup name scopes) := by
  refine ⟨rfl, fun i entry hfind => ?_⟩
  obtain ⟨scope, hscope, hentry⟩ := findScope_some hfind
  cases scopes with
  | nil => simp at hscope
  | cons s scopes =>
    cases i with
    | zero =>
      obtain rfl : s = scope := by simpa using hscope
      exact hready entry hentry
    | succ i => exact h.ready scope (List.mem_of_getElem? (by simpa using hscope)) name entry hentry

/-! ### The resolver -/

/-- If no error is reported, the result is right. -/
def Resolves (m : Resolve N α) (r : Resolver) (post : α → Resolver → Prop) : Prop :=
  (m r).errors = [] → post (m r).value (m r).resolver

namespace Resolves

variable {r : Resolver}

theorem pure {a : α} {post : α → Resolver → Prop} (h : post a r) :
    Resolves (Pure.pure a : Resolve N α) r post := fun _ => h

theorem bind {m : Resolve N α} {f : α → Resolve N β} {post : α → Resolver → Prop}
    {post' : β → Resolver → Prop} (hm : Resolves m r post)
    (hf : ∀ a r', post a r' → Resolves (f a) r' post') : Resolves (m >>= f) r post' := by
  intro herrors
  obtain ⟨hleft, hright⟩ := List.append_eq_nil_iff.1 herrors
  exact hf _ _ (hm hleft) hright

theorem get_bind {f : Resolver → Resolve N α} {post : α → Resolver → Prop}
    (h : Resolves (f r) r post) : Resolves (Resolver.get >>= f) r post := h

theorem modify {f : Resolver → Resolver} {post : Unit → Resolver → Prop} (h : post () (f r)) :
    Resolves (Resolver.modify f : Resolve N Unit) r post := fun _ => h

theorem modify_bind {f : Resolver → Resolver} {m : Unit → Resolve N α}
    {post : α → Resolver → Prop} (h : Resolves (m ()) (f r) post) :
    Resolves (Resolver.modify f >>= m) r post := h

theorem error (token : Token N) (message : String) (post : Unit → Resolver → Prop) :
    Resolves (Resolver.error token message) r post := fun h => by cases h

theorem ite {c : Prop} [Decidable c] {m m' : Resolve N α} {post : α → Resolver → Prop}
    (h : c → Resolves m r post) (h' : ¬ c → Resolves m' r post) :
    Resolves (if c then m else m') r post := by
  by_cases hc : c
  · rw [if_pos hc]
    exact h hc
  · rw [if_neg hc]
    exact h' hc

theorem imp {m : Resolve N α} {post post' : α → Resolver → Prop} (h : Resolves m r post)
    (himp : ∀ a r', post a r' → post' a r') : Resolves m r post' :=
  fun herrors => himp _ _ (h herrors)

/-- An error that is reported under a condition. -/
theorem errorWhen (c : Bool) (token : Token N) (message : String) :
    Resolves (when c (Resolver.error token message)) r fun _ r' => r' = r ∧ c = false :=
  .ite (fun _ => .error _ _ _) fun hc => .pure ⟨rfl, by simpa using hc⟩

end Resolves

theorem declare_resolves (name : Token N) (declaration : Declaration) (r : Resolver) :
    Resolves (declare name declaration) r fun _ r' =>
      peekScope name.lexeme r.scopes = none ∧
      r' = { r with scopes := putScope name.lexeme ⟨false, declaration⟩ r.scopes } := by
  refine .get_bind (.bind (.errorWhen _ _ _) ?_)
  rintro _ _ ⟨rfl, hnone⟩
  exact .modify ⟨by simpa using hnone, rfl⟩

theorem putScope_putScope (name : Name) (entry entry' : Entry) (scopes : List Scope) :
    putScope name entry (putScope name entry' scopes) = putScope name entry scopes := by
  cases scopes with
  | nil => rfl
  | cons scope scopes => simp only [putScope, Function.update_idem]

theorem declare_define_resolves {name : Token N} {declaration : Declaration} {r : Resolver}
    {m : Unit → Resolve N α} {post : α → Resolver → Prop}
    (h : peekScope name.lexeme r.scopes = none → Resolves (m ())
      { r with scopes := putScope name.lexeme ⟨true, declaration⟩ r.scopes } post) :
    Resolves (declare name declaration >>= fun _ => define name declaration >>= m) r post := by
  refine .bind (declare_resolves name declaration r) ?_
  rintro _ _ ⟨hnone, rfl⟩
  refine .modify_bind ?_
  simp only [putScope_putScope]
  exact h hnone

theorem resolveLocal_resolves (name : Token N) (r : Resolver) :
    Resolves (resolveLocal name) r fun distance r' =>
      r' = r ∧ distance = lookup name.lexeme r.scopes :=
  .get_bind (.pure ⟨rfl, rfl⟩)

theorem resolveVariable_resolves (name : Token N) (r : Resolver) (hr : Usable r.scopes) :
    Resolves (resolveVariable name) r fun distance r' =>
      r' = r ∧ Reads r.scopes name.lexeme distance := by
  refine .get_bind (.bind (.errorWhen _ _ _) ?_)
  rintro _ _ ⟨rfl, hready⟩
  refine (resolveLocal_resolves name _).imp ?_
  rintro _ _ ⟨rfl, rfl⟩
  exact ⟨rfl, hr.reads fun entry hentry => by simpa [hentry] using hready⟩

theorem resolveThis_resolves (keyword : Token N) (r : Resolver) (hr : Usable r.scopes)
    (hkeyword : keyword.lexeme = "this".toList) :
    Resolves (resolveThis keyword) r fun distance r' =>
      r' = r ∧ Reads r.scopes keyword.lexeme distance := by
  refine .get_bind (.ite (fun _ => .bind (.error _ _ fun _ _ => False) fun _ _ h => h.elim)
    fun _ => (resolveLocal_resolves keyword _).imp ?_)
  rintro _ _ ⟨rfl, rfl⟩
  exact ⟨rfl, hr.reads fun entry hentry => hr.keywords _ entry hentry (.inl hkeyword)⟩

theorem resolveSuper_resolves (keyword : Token N) (r : Resolver) (hr : Usable r.scopes)
    (hkeyword : keyword.lexeme = "super".toList) :
    Resolves (resolveSuper keyword) r fun distance r' =>
      r' = r ∧ Reads r.scopes "super".toList distance ∧ ThisInSuper r.scopes := by
  refine .get_bind (.bind (.errorWhen _ _ _) ?_)
  rintro _ _ ⟨rfl, -⟩
  refine .bind (.errorWhen _ _ _) ?_
  rintro _ _ ⟨rfl, -⟩
  refine (resolveLocal_resolves keyword _).imp ?_
  rintro _ _ ⟨rfl, rfl⟩
  rw [hkeyword]
  exact ⟨rfl, hr.reads fun entry hentry => hr.keywords _ entry hentry (.inr rfl), hr.this_⟩

mutual

theorem resolveExpr_resolves (e : Expr N Unit) (r : Resolver) (he : e.Proper)
    (hr : Usable r.scopes) :
    Resolves (resolveExpr e) r fun e' r' => r' = r ∧ e'.Resolved r.scopes := by
  match e with
  | .assign name value _ =>
    refine .bind (resolveExpr_resolves value r he hr) ?_
    rintro value _ ⟨rfl, hvalue⟩
    refine .bind (resolveLocal_resolves name _) ?_
    rintro distance _ ⟨rfl, hdistance⟩
    exact .pure ⟨rfl, hvalue, hdistance⟩
  | .binary left operator right | .logical left operator right =>
    refine .bind (resolveExpr_resolves left r he.1 hr) ?_
    rintro left _ ⟨rfl, hleft⟩
    refine .bind (resolveExpr_resolves right _ he.2 hr) ?_
    rintro right _ ⟨rfl, hright⟩
    exact .pure ⟨rfl, hleft, hright⟩
  | .call callee paren arguments =>
    refine .bind (resolveExpr_resolves callee r he.1 hr) ?_
    rintro callee _ ⟨rfl, hcallee⟩
    refine .bind (resolveExprs_resolves arguments _ he.2 hr) ?_
    rintro arguments _ ⟨rfl, harguments⟩
    exact .pure ⟨rfl, hcallee, harguments⟩
  | .get object name =>
    refine .bind (resolveExpr_resolves object r he hr) ?_
    rintro object _ ⟨rfl, hobject⟩
    exact .pure ⟨rfl, hobject⟩
  | .grouping expression =>
    refine .bind (resolveExpr_resolves expression r he hr) ?_
    rintro expression _ ⟨rfl, hexpression⟩
    exact .pure ⟨rfl, hexpression⟩
  | .literal value => exact .pure ⟨rfl, trivial⟩
  | .set object name value =>
    refine .bind (resolveExpr_resolves value r he.2 hr) ?_
    rintro value _ ⟨rfl, hvalue⟩
    refine .bind (resolveExpr_resolves object _ he.1 hr) ?_
    rintro object _ ⟨rfl, hobject⟩
    exact .pure ⟨rfl, hobject, hvalue⟩
  | .super_ keyword method _ =>
    refine .bind (resolveSuper_resolves keyword r hr he) ?_
    rintro distance _ ⟨rfl, hdistance⟩
    exact .pure ⟨rfl, hdistance⟩
  | .this_ keyword _ =>
    refine .bind (resolveThis_resolves keyword r hr he) ?_
    rintro distance _ ⟨rfl, hdistance⟩
    exact .pure ⟨rfl, hdistance⟩
  | .unary operator right =>
    refine .bind (resolveExpr_resolves right r he hr) ?_
    rintro right _ ⟨rfl, hright⟩
    exact .pure ⟨rfl, hright⟩
  | .variable_ name _ =>
    refine .bind (resolveVariable_resolves name r hr) ?_
    rintro distance _ ⟨rfl, hdistance⟩
    exact .pure ⟨rfl, hdistance⟩

theorem resolveExprs_resolves (es : List (Expr N Unit)) (r : Resolver) (hes : Expr.ProperList es)
    (hr : Usable r.scopes) :
    Resolves (resolveExprs es) r fun es' r' => r' = r ∧ Expr.ResolvedList r.scopes es' := by
  match es with
  | [] => exact .pure ⟨rfl, trivial⟩
  | e :: es =>
    refine .bind (resolveExpr_resolves e r hes.1 hr) ?_
    rintro e _ ⟨rfl, he⟩
    refine .bind (resolveExprs_resolves es _ hes.2 hr) ?_
    rintro es _ ⟨rfl, hes⟩
    exact .pure ⟨rfl, he, hes⟩

end

theorem resolveOption_resolves (o : Option (Expr N Unit)) (r : Resolver) (ho : ∀ e ∈ o, e.Proper)
    (hr : Usable r.scopes) :
    Resolves (resolveOption o) r fun o' r' => r' = r ∧ ∀ e ∈ o', e.Resolved r.scopes := by
  cases o with
  | none => exact .pure ⟨rfl, by simp⟩
  | some e =>
    refine .bind (resolveExpr_resolves e r (ho e rfl) hr) ?_
    rintro e _ ⟨rfl, he⟩
    exact .pure ⟨rfl, by simpa using he⟩

theorem declareParameters_resolves (p : Place) (params : List (Token N)) (i : ℕ) (r : Resolver)
    (scope : Scope) (scopes : List Scope) (hscopes : r.scopes = scope :: scopes) :
    Resolves (declareParameters p i params) r fun _ r' =>
      r' = { r with scopes := parameterScope p i params scope :: scopes } := by
  induction params generalizing i r scope with
  | nil => exact .pure (by rw [parameterScope, ← hscopes])
  | cons param params ih =>
    refine declare_define_resolves fun _ => ih (i + 1) _ _ ?_
    rw [hscopes]
    rfl

theorem resolveFunction_resolves (type : FunctionType) (p : Place) (params : List (Token N))
    (m : Resolve N α) (r : Resolver) (post : α → Prop)
    (hm : Resolves m ⟨parameterScope p 0 params empty :: r.scopes, type, r.currentClass⟩
      fun a r' => ∃ scopes, r' = ⟨scopes, type, r.currentClass⟩ ∧ scopes.tail = r.scopes ∧ post a) :
    Resolves (resolveFunction type p params m) r fun a r' => r' = r ∧ post a := by
  refine .get_bind (.modify_bind (.modify_bind
    (.bind (declareParameters_resolves p params 0 _ empty r.scopes rfl) ?_)))
  rintro _ _ rfl
  refine .bind hm ?_
  rintro a _ ⟨scopes, rfl, hscopes, ha⟩
  refine .modify_bind (.modify_bind (.pure ⟨?_, ha⟩))
  simp only [hscopes]

theorem putScope_tail (name : Name) (entry : Entry) (scopes : List Scope) :
    (putScope name entry scopes).tail = scopes.tail := by
  cases scopes <;> rfl

theorem Stmt.after_tail (s : Stmt N D) (p : Place) (scopes : List Scope) :
    (s.after p scopes).tail = scopes.tail := by
  cases s <;> first | rfl | exact putScope_tail _ _ _

theorem Stmt.NotDeclaration.after {s : Stmt N D} (h : s.NotDeclaration) (p : Place)
    (scopes : List Scope) : s.after p scopes = scopes := by
  cases s <;> first | rfl | cases h

theorem Stmt.Proper.after {s : Stmt N D} (h : s.Proper) {scopes : List Scope} (hs : Settled scopes)
    (p : Place) : Settled (s.after p scopes) := by
  cases s with
  | class_ name _ _ => exact hs.put h.1 _
  | function name _ _ => exact hs.put h.1 _
  | var name _ => exact hs.put h.1 _
  | block | expression | if_ | print | return_ | while_ | null => exact hs

theorem resolveSuperclass_resolves (name : Token N) (superclass : Option (Token N × Unit))
    (r : Resolver) (hr : Usable r.scopes) :
    Resolves (resolveSuperclass name superclass) r fun o r' =>
      (∃ type, r' = { r with currentClass := type }) ∧ ∀ t ∈ o, Reads r.scopes t.1.lexeme t.2 := by
  cases superclass with
  | none => exact .pure ⟨⟨_, rfl⟩, by simp⟩
  | some t =>
    refine .bind (.errorWhen _ _ _) ?_
    rintro _ _ ⟨rfl, -⟩
    refine .modify_bind (.bind (resolveVariable_resolves t.1 _ hr) ?_)
    rintro distance _ ⟨rfl, hdistance⟩
    exact .pure ⟨⟨_, rfl⟩, by simpa using hdistance⟩

theorem beginSuper_resolves (isSubclass : Bool) (p : Place) (r : Resolver) :
    Resolves
      (when isSubclass do
        beginScope
        put "super".toList true (.super_ p) : Resolve N Unit) r
      fun _ r' => r' = { r with scopes := classScopes p isSubclass r.scopes } := by
  cases isSubclass <;> exact fun _ => rfl

theorem endSuper_resolves (isSubclass : Bool) (p : Place) (scopes : List Scope) (r : Resolver)
    (hr : r.scopes = classScopes p isSubclass scopes) :
    Resolves (when isSubclass endScope : Resolve N Unit) r
      fun _ r' => r' = { r with scopes := scopes } := by
  cases isSubclass with
  | false => exact fun _ => by rw [← show r.scopes = scopes from hr]; rfl
  | true => exact fun _ => by rw [← show r.scopes.tail = scopes by rw [hr]; rfl]; rfl

/-- A class is accepted only where there are no scopes: its second declaration is an error in
each. -/
theorem resolveClass_resolves (p : Place) (name : Token N) (superclass : Option (Token N × Unit))
    (m : Resolve N α) (r : Resolver) (post : Bool → α → Prop)
    (hm : ∀ isSubclass type, Resolves m
      ⟨thisScope p :: classScopes p isSubclass [], r.currentFunction, type⟩
      fun a r' => r' = ⟨thisScope p :: classScopes p isSubclass [], r.currentFunction, type⟩ ∧
        post isSubclass a) :
    Resolves (resolveClass p name superclass m) r fun a r' => r' = r ∧ r.scopes = [] ∧
      (∀ t ∈ a.1, Reads [] t.1.lexeme t.2) ∧ post a.1.isSome a.2 := by
  obtain ⟨scopes, currentFunction, currentClass⟩ := r
  refine .get_bind (.modify_bind (.bind (declare_resolves name _ _) ?_))
  rintro _ _ ⟨-, rfl⟩
  refine .bind (declare_resolves name _ _) ?_
  rintro _ _ ⟨htwice, rfl⟩
  obtain rfl : scopes = [] := by
    cases scopes with
    | nil => rfl
    | cons scope scopes => simp [putScope, peekScope] at htwice
  refine .bind (resolveSuperclass_resolves name superclass _ settled_nil.usable) ?_
  rintro o _ ⟨⟨type, rfl⟩, hreads⟩
  refine .bind (beginSuper_resolves o.isSome p _) ?_
  rintro _ _ rfl
  refine .modify_bind (.modify_bind (.bind (hm o.isSome type) ?_))
  rintro a _ ⟨rfl, ha⟩
  refine .modify_bind (.bind (endSuper_resolves o.isSome p [] _ rfl) ?_)
  rintro _ _ rfl
  exact .modify_bind (.pure ⟨rfl, rfl, hreads, ha⟩)

theorem resolveReturn_resolves (keyword : Token N) (hasValue : Bool) (r : Resolver) :
    Resolves (resolveReturn keyword hasValue) r fun _ r' =>
      r' = r ∧ r.currentFunction ≠ .none_ := by
  refine .get_bind (.bind (.errorWhen _ _ _) ?_)
  rintro _ _ ⟨rfl, hfunction⟩
  refine Resolves.errorWhen _ _ _ |>.imp ?_
  rintro _ _ ⟨rfl, -⟩
  exact ⟨rfl, by simpa using hfunction⟩

mutual

theorem resolveStmt_resolves (s : Stmt N Unit) (p : Place) (r : Resolver) (hs : s.Proper)
    (hr : Settled r.scopes) :
    Resolves (resolveStmt p s) r fun s' r' =>
      r' = { r with scopes := s.after p r.scopes } ∧ s'.Resolved r.currentFunction p r.scopes ∧
      (s.NotDeclaration → s'.NotDeclaration) ∧ s'.after p r.scopes = s.after p r.scopes := by
  match s with
  | .block statements =>
    refine .modify_bind (.bind (resolveStmts_resolves statements p 0 _ hs
      (hr.cons ready_empty rfl)) ?_)
    rintro statements _ ⟨scopes, rfl, hscopes, hstatements⟩
    refine .modify_bind (.pure ⟨?_, hstatements, id, rfl⟩)
    simp only [hscopes]
    rfl
  | .class_ name superclass methods =>
    refine .bind (resolveClass_resolves p name superclass _ r
      (fun isSubclass => Stmt.ResolvedMethods p 0 (thisScope p :: classScopes p isSubclass []))
      fun isSubclass type =>
        resolveMethods_resolves methods p 0 _ hs.2 (settled_nil.class_ p isSubclass)) ?_
    rintro ⟨superclass, methods⟩ _ ⟨rfl, hscopes, hreads, hmethods⟩
    refine .pure ⟨?_, ?_, id, rfl⟩
    · simp only [Stmt.after, hscopes, putScope]
      rw [← hscopes]
    · rw [hscopes]
      exact ⟨rfl, hreads, hmethods⟩
  | .expression e =>
    refine .bind (resolveExpr_resolves e r hs hr.usable) ?_
    rintro e _ ⟨rfl, he⟩
    exact .pure ⟨rfl, he, id, rfl⟩
  | .function name params body =>
    refine declare_define_resolves fun hnone => ?_
    refine .bind (resolveFunction_resolves _ _ _ _ _ _ (resolveStmts_resolves body p 0 _ hs.2.2
      ((hr.put hs.1 (.statement p)).parameters p hs.2.1))) ?_
    rintro body _ ⟨rfl, hbody⟩
    exact .pure ⟨rfl, ⟨hnone, hbody⟩, id, rfl⟩
  | .if_ condition thenBranch none =>
    refine .bind (resolveExpr_resolves condition r hs.1 hr.usable) ?_
    rintro condition _ ⟨rfl, hcondition⟩
    refine .bind (resolveStmt_resolves thenBranch (0 :: p) _ hs.2.2 hr) ?_
    rintro thenBranch' _ ⟨rfl, hthen, hstatement, -⟩
    refine .pure ⟨?_, ⟨hcondition, hstatement hs.2.1, hthen⟩, id, rfl⟩
    rw [hs.2.1.after]
    rfl
  | .if_ condition thenBranch (some elseBranch) =>
    refine .bind (resolveExpr_resolves condition r hs.1 hr.usable) ?_
    rintro condition _ ⟨rfl, hcondition⟩
    refine .bind (resolveStmt_resolves thenBranch (0 :: p) _ hs.2.1.2 hr) ?_
    rintro thenBranch' _ ⟨rfl, hthen, hstatement, -⟩
    rw [hs.2.1.1.after]
    refine .bind (resolveStmt_resolves elseBranch (1 :: p) _ hs.2.2.2 hr) ?_
    rintro elseBranch' _ ⟨rfl, helse, hstatement', -⟩
    refine .pure ⟨?_, ⟨hcondition, ⟨hstatement hs.2.1.1, hthen⟩, hstatement' hs.2.2.1, helse⟩,
      id, rfl⟩
    rw [hs.2.2.1.after]
    rfl
  | .print e =>
    refine .bind (resolveExpr_resolves e r hs hr.usable) ?_
    rintro e _ ⟨rfl, he⟩
    exact .pure ⟨rfl, he, id, rfl⟩
  | .return_ keyword value =>
    refine .bind (resolveReturn_resolves keyword value.isSome r) ?_
    rintro _ _ ⟨rfl, hfunction⟩
    refine .bind (resolveOption_resolves value _ hs hr.usable) ?_
    rintro value _ ⟨rfl, hvalue⟩
    exact .pure ⟨rfl, ⟨hfunction, hvalue⟩, id, rfl⟩
  | .var name initializer =>
    refine .bind (declare_resolves name _ _) ?_
    rintro _ _ ⟨hnone, rfl⟩
    refine .bind (resolveOption_resolves initializer _ hs.2 (hr.put_usable hs.1 _)) ?_
    rintro initializer _ ⟨rfl, hinitializer⟩
    refine .modify_bind (.pure ⟨?_, ⟨hnone, hinitializer⟩, id, rfl⟩)
    simp only [putScope_putScope]
    rfl
  | .while_ condition body =>
    refine .bind (resolveExpr_resolves condition r hs.1 hr.usable) ?_
    rintro condition _ ⟨rfl, hcondition⟩
    refine .bind (resolveStmt_resolves body (0 :: p) _ hs.2.2 hr) ?_
    rintro body' _ ⟨rfl, hbody, hstatement, -⟩
    refine .pure ⟨?_, ⟨hcondition, hstatement hs.2.1, hbody⟩, id, rfl⟩
    rw [hs.2.1.after]
    rfl
  | .null => exact hs.elim

theorem resolveStmts_resolves (ss : List (Stmt N Unit)) (p : Place) (i : ℕ) (r : Resolver)
    (hss : Stmt.ProperList ss) (hr : Settled r.scopes) :
    Resolves (resolveStmts p i ss) r fun ss' r' => ∃ scopes,
      r' = { r with scopes := scopes } ∧ scopes.tail = r.scopes.tail ∧
      Stmt.ResolvedList r.currentFunction p i r.scopes ss' := by
  match ss with
  | [] => exact .pure ⟨_, rfl, rfl, trivial⟩
  | s :: ss =>
    refine .bind (resolveStmt_resolves s (i :: p) r hss.1 hr) ?_
    rintro s' _ ⟨rfl, hs, -, hafter⟩
    refine .bind (resolveStmts_resolves ss p (i + 1) _ hss.2 (hss.1.after hr (i :: p))) ?_
    rintro ss' _ ⟨scopes, rfl, hscopes, hss'⟩
    exact .pure ⟨scopes, rfl, hscopes.trans (s.after_tail _ _), hs, hafter ▸ hss'⟩

theorem resolveMethods_resolves (methods : List (Stmt N Unit)) (p : Place) (i : ℕ) (r : Resolver)
    (hmethods : Stmt.ProperMethods methods) (hr : Settled r.scopes) :
    Resolves (resolveMethods p i methods) r fun methods' r' =>
      r' = r ∧ Stmt.ResolvedMethods p i r.scopes methods' := by
  match methods with
  | [] => exact .pure ⟨rfl, trivial⟩
  | .function name params body :: methods =>
    obtain ⟨⟨-, hparams, hbody⟩, hmethods⟩ := hmethods
    refine .bind (resolveFunction_resolves _ _ _ _ _ _
      (resolveStmts_resolves body (i :: p) 0 _ hbody (hr.parameters (i :: p) hparams))) ?_
    rintro body _ ⟨rfl, hbody⟩
    refine .bind (resolveMethods_resolves methods p (i + 1) _ hmethods hr) ?_
    rintro methods _ ⟨rfl, hmethods⟩
    exact .pure ⟨rfl, hbody, hmethods⟩
  | .block _ :: _ | .class_ _ _ _ :: _ | .expression _ :: _ | .if_ _ _ _ :: _ | .print _ :: _
  | .return_ _ _ :: _ | .var _ _ :: _ | .while_ _ _ :: _ | .null :: _ => exact hmethods.elim

end

/-- The resolver gives a tree with the right distances for every program it has no error for. -/
theorem resolve_resolved {ss : List (Stmt N Unit)} (hss : Stmt.ProperList ss)
    (herrors : (resolve ss).errors = []) :
    Stmt.ResolvedList .none_ [] 0 [] (resolve ss).value := by
  obtain ⟨-, -, -, hresolved⟩ :=
    resolveStmts_resolves ss [] 0 ⟨[], .none_, .none_⟩ hss settled_nil herrors
  exact hresolved

end Lox.Jlox
