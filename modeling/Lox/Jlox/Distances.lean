import Lox.Jlox.Environments

/-!
# Distances are right in every run

An expression keeps the invariant and the environments there are; a statement adds to the current
environment what the resolver has added to the innermost scope.  The first is `Evaluates`, the
second `Executes`; both hold at every fuel, and whatever the run ends with.
-/

namespace Lox.Jlox

open Resolver Interpreter

variable {N α β : Type}

/-! ### Expressions -/

/-- What an expression keeps. -/
structure Kept (s s' : Interpreter N) : Prop where
  sound : Sound s'
  environment : s'.environment = s.environment
  frame : Frame Nowhere s.environments s'.environments

theorem Kept.refl {s : Interpreter N} (hs : Sound s) : Kept s s := ⟨hs, rfl, .refl _ _⟩

theorem Kept.trans {s s' s'' : Interpreter N} (h : Kept s s') (h' : Kept s' s'') : Kept s s'' :=
  ⟨h'.sound, h'.environment.trans h.environment, h.frame.trans h'.frame⟩

theorem Kept.conforms {s s' : Interpreter N} (h : Kept s s') {scopes : List Scope}
    (hc : Conforms s.environments s.environment scopes) :
    Conforms s'.environments s'.environment scopes := by
  rw [h.environment]
  exact hc.frame h.frame

/-- In the scopes, the function keeps what there is, ends with a `Return` in no case, and what it
returns is right. -/
def Evaluates (scopes : List Scope) (m : Run N α) (s : Interpreter N)
    (post : α → Interpreter N → Prop) : Prop :=
  Sound s → Conforms s.environments s.environment scopes →
    Kept s (m s).2 ∧ (∀ v, (m s).1 ≠ .error (.return_ v)) ∧ ∀ a, (m s).1 = .ok a → post a (m s).2

/-- Nothing is said of the result. -/
abbrev Anything : α → Interpreter N → Prop := fun _ _ => True

namespace Evaluates

variable {scopes : List Scope} {s : Interpreter N} {post : α → Interpreter N → Prop}
  {post' : β → Interpreter N → Prop}

theorem of_ok {m : Run N α} {a : α} {s' : Interpreter N} (hm : m s = (.ok a, s'))
    (h : Sound s → Conforms s.environments s.environment scopes → Kept s s' ∧ post a s') :
    Evaluates scopes m s post := by
  intro hs hc
  obtain ⟨hkept, hpost⟩ := h hs hc
  rw [hm]
  refine ⟨hkept, by simp, fun b hb => ?_⟩
  cases hb
  exact hpost

theorem pure {a : α} (h : post a s) : Evaluates scopes (Pure.pure a : Run N α) s post :=
  .of_ok rfl fun hs _ => ⟨.refl hs, h⟩

theorem bind {m : Run N α} {f : α → Run N β} (hm : Evaluates scopes m s post)
    (hf : ∀ a s', post a s' → Evaluates scopes (f a) s' post') :
    Evaluates scopes (m >>= f) s post' := by
  intro hs hc
  obtain ⟨hkept, hreturn, hpost⟩ := hm hs hc
  change Kept s (Run.bind m f s).2 ∧ (∀ v, (Run.bind m f s).1 ≠ _) ∧
    ∀ b, (Run.bind m f s).1 = _ → post' b (Run.bind m f s).2
  rw [Run.bind]
  rcases hms : m s with ⟨stop | a, s'⟩
  · rw [hms] at hkept hreturn
    exact ⟨hkept, fun v h => hreturn v (by simpa using h), fun b h => by cases h⟩
  · rw [hms] at hkept hpost
    obtain ⟨hkept', hrest⟩ := hf a s' (hpost a rfl) hkept.sound (hkept.conforms hc)
    exact ⟨hkept.trans hkept', hrest⟩

theorem get_bind {f : Interpreter N → Run N α} (h : Evaluates scopes (f s) s post) :
    Evaluates scopes (Interpreter.get >>= f) s post := h

/-- The invariant may be used. -/
theorem assuming {m : Run N α}
    (h : Sound s → Conforms s.environments s.environment scopes → Evaluates scopes m s post) :
    Evaluates scopes m s post := fun hs hc => h hs hc hs hc

theorem stop {why : Stop N} (h : ∀ v, why ≠ .return_ v) :
    Evaluates scopes (Interpreter.stop why : Run N α) s post :=
  fun hs _ => ⟨.refl hs, fun v hv => h v (by cases hv; rfl), fun a h => by cases h⟩

theorem throw_ (token : Token N) (message : String) :
    Evaluates scopes (Interpreter.throw_ token message : Run N α) s post :=
  .stop fun _ h => by cases h

theorem exception : Evaluates scopes (Interpreter.stop .exception : Run N α) s post :=
  .stop fun _ h => by cases h

theorem modify {f : Interpreter N → Interpreter N}
    (h : Sound s → Conforms s.environments s.environment scopes → Kept s (f s)) :
    Evaluates scopes (Interpreter.modify f : Run N Unit) s Anything :=
  .of_ok rfl fun hs hc => ⟨h hs hc, trivial⟩

theorem imp {m : Run N α} (h : Evaluates scopes m s post) : Evaluates scopes m s Anything :=
  fun hs hc => ⟨(h hs hc).1, (h hs hc).2.1, fun _ _ => trivial⟩

/-- What holds of the environments and goes on to hold as they grow. -/
theorem carry {m : Run N α} (h : Evaluates scopes m s post) {P : List (Environment N) → Prop}
    (hgrow : ∀ h', Frame Nowhere s.environments h' → P h') :
    Evaluates scopes m s fun a s' => post a s' ∧ P s'.environments := by
  intro hs hc
  obtain ⟨hkept, hreturn, hpost⟩ := h hs hc
  exact ⟨hkept, hreturn, fun a ha => ⟨hpost a ha, hgrow _ hkept.frame⟩⟩

/-- In an initializer the variable is declared already. -/
theorem of_declare {m : Run N α} {name : Name} {d : Declaration}
    (h : Evaluates (putScope name ⟨false, d⟩ scopes) m s post) : Evaluates scopes m s post :=
  fun hs hc => h hs (hc.declare name d)

theorem ite {c : Prop} [Decidable c] {m m' : Run N α} (h : Evaluates scopes m s post)
    (h' : Evaluates scopes m' s post) : Evaluates scopes (if c then m else m') s post := by
  by_cases hc : c
  · rw [if_pos hc]
    exact h
  · rw [if_neg hc]
    exact h'

end Evaluates

variable {scopes : List Scope} {s : Interpreter N}

theorem operate_evaluates (r : Except (RuntimeError N) (Value N)) :
    Evaluates scopes (operate r) s Anything := by
  cases r with
  | ok v => exact .pure trivial
  | error e => exact .stop fun _ h => by cases h

theorem setValue_evaluates (a : Ref) (name : Name) (value : Value N) :
    Evaluates scopes (setValue a name value) s Anything :=
  .modify fun hs _ => ⟨hs.frame (.set Nowhere _ _ _ _) rfl rfl, rfl, .set _ _ _ _ _⟩

theorem getGlobal_evaluates (name : Token N) : Evaluates scopes (getGlobal name) s Anything := by
  refine .get_bind ?_
  split
  · exact .pure trivial
  · exact .throw_ _ _

theorem assign_evaluates (a : Ref) (name : Token N) (value : Value N) :
    Evaluates scopes (assign a name value) s Anything := by
  refine .get_bind ?_
  split
  · exact setValue_evaluates _ _ _
  · exact .throw_ _ _

theorem getAt_evaluates (a : Ref) (distance : ℕ) (name : Name) :
    Evaluates scopes (getAt a distance name) s Anything := by
  refine .get_bind ?_
  split
  · exact .pure trivial
  · exact .exception

theorem assignAt_evaluates (a : Ref) (distance : ℕ) (name : Name) (value : Value N) :
    Evaluates scopes (assignAt a distance name value) s Anything := by
  refine .get_bind ?_
  split
  · exact setValue_evaluates _ _ _
  · exact .exception

theorem access_evaluates {use : Use} {name : Name} {b : Binding}
    (h : Conforms s.environments s.environment scopes →
      Access.Right ⟨use, name, b, s.environment, s.environments⟩) :
    Evaluates scopes (access use name b) s Anything := by
  refine .modify fun hs hc => ⟨⟨hs.globals, hs.objects, fun x hx => ?_⟩, rfl, .refl _ _⟩
  rcases List.mem_append.1 hx with hx | hx
  · exact hs.accesses x hx
  · rw [List.mem_singleton.1 hx]
    exact h hc

theorem lookUpVariable_evaluates {name : Token N} {distance : Option Binding}
    (h : Reads scopes name.lexeme distance) :
    Evaluates scopes (lookUpVariable name distance) s Anything := by
  cases distance with
  | none => exact getGlobal_evaluates name
  | some b =>
    refine .bind (access_evaluates fun hc => right_of_reads hc h) fun _ s' _ => ?_
    exact .get_bind (getAt_evaluates _ _ _)

theorem assignVariable_evaluates {name : Token N} {value : Value N} {distance : Option Binding}
    (h : distance = lookup name.lexeme scopes) :
    Evaluates scopes (assignVariable name value distance) s Anything := by
  cases distance with
  | none => exact assign_evaluates _ _ _
  | some b =>
    refine .bind (access_evaluates fun hc => right_of_assign hc h) fun _ s' _ => ?_
    exact .get_bind (assignAt_evaluates _ _ _ _)

/-! ### Objects -/

theorem newObject_evaluates {o : Object N}
    (h : Sound s → Conforms s.environments s.environment scopes → o.Closed s.environments) :
    Evaluates scopes (newObject o) s fun _ s' => s'.environments = s.environments := by
  refine .of_ok rfl fun hs hc => ⟨⟨⟨hs.globals, fun o' ho' => ?_, hs.accesses⟩, rfl, .refl _ _⟩,
    rfl⟩
  rcases List.mem_append.1 ho' with ho' | ho'
  · exact hs.objects o' ho'
  · rw [List.mem_singleton.1 ho']
    exact h hs hc

theorem modifyObject_evaluates {v : Value N} {name : Name} {value : Value N} :
    Evaluates scopes (modifyObject v (setProperty name value)) s Anything := by
  cases v with
  | nil | bool | number | string => exact .pure trivial
  | obj a =>
    refine .modify fun hs _ => ⟨⟨hs.globals, fun o ho => ?_, hs.accesses⟩, rfl, .refl _ _⟩
    obtain ⟨i, hi⟩ := List.mem_iff_getElem?.1 ho
    rw [List.getElem?_modify] at hi
    obtain ⟨o', ho', rfl⟩ := Option.map_eq_some_iff.1 hi
    have hclosed := hs.objects o' (List.mem_of_getElem? ho')
    by_cases hai : a = i
    · rw [if_pos hai]
      cases o' with
      | clock | function | class_ => exact hclosed
      | instance_ klass fields => exact hclosed
    · rw [if_neg hai]
      exact hclosed

theorem bind_eq (f : LoxFunction N) (object : Value N) (s : Interpreter N) :
    Interpreter.bind f object s = (.ok { f with closure := s.environments.length },
      { s with environments := s.environments ++ [Environment.put "this".toList object
          (some (.this_ f.place.tail)) ⟨some f.closure, fun _ => none⟩] }) := by
  change (_, _) = _
  simp only [modify_append_length]

/-- Binding a method gives it the environment that it was resolved in. -/
theorem bind_evaluates {f : LoxFunction N} {object : Value N}
    (h : Sound s → f.Unbound s.environments) :
    Evaluates scopes (Interpreter.bind f object) s fun f' s' => f'.Closed s'.environments := by
  refine .of_ok (bind_eq f object s) fun hs _ => ⟨⟨hs.frame (.append _ _ : Frame Nowhere _ _) rfl rfl,
    rfl, .append _ _⟩, ?_⟩
  obtain ⟨outer, type, htype, hclosure, hbody⟩ := h hs
  exact ⟨_, type, htype, hclosure.append hs.globals
    ((Environment.holds_empty _).put _ _ true _).covers rfl, hbody⟩

/-- A method that was found, bound and made an object. -/
theorem bindObject_evaluates {f : LoxFunction N} {object : Value N}
    (h : Sound s → f.Unbound s.environments) :
    Evaluates scopes (do
      let f ← Interpreter.bind f object
      newObject (.function f)) s Anything :=
  .bind (bind_evaluates h) fun f s (hclosed : f.Closed s.environments) =>
    Evaluates.imp (newObject_evaluates fun _ _ => show Object.Closed _ (.function f) from hclosed)

theorem visitGet_evaluates (object : Value N) (name : Token N) :
    Evaluates scopes (visitGet object name) s Anything := by
  refine .get_bind ?_
  split
  · rename_i klass fields hobject
    unfold getProperty
    split
    · exact .pure trivial
    · split
      · rename_i method hfind
        exact bindObject_evaluates fun hs => hs.object hobject name.lexeme method hfind
      · exact .throw_ _ _
  · exact .throw_ _ _

theorem checkInstance_evaluates (object : Value N) (name : Token N) :
    Evaluates scopes (checkInstance object name) s Anything := by
  refine .get_bind ?_
  split
  · exact .pure trivial
  · exact .throw_ _ _

theorem castInstance_evaluates (v : Value N) : Evaluates scopes (castInstance v) s Anything := by
  refine .get_bind ?_
  split
  · exact .pure trivial
  · exact .pure trivial
  · exact .exception

theorem castClass_evaluates (v : Value N) :
    Evaluates scopes (castClass v) s fun c s' => c.Unbound s'.environments := by
  refine .get_bind ?_
  split
  · rename_i c hobject
    exact .assuming fun hs _ => .pure (hs.object hobject)
  · exact .exception

theorem visitSuper_evaluates {method : Token N} {distance : Option Binding}
    (h : Reads scopes "super".toList distance) (hthis : ThisInSuper scopes) :
    Evaluates scopes (visitSuper method distance) s Anything := by
  cases distance with
  | none => exact .exception
  | some b =>
    refine .bind (access_evaluates fun hc => right_of_super hc h hthis) fun _ s _ => .get_bind ?_
    refine .bind (getAt_evaluates _ _ _) fun v s _ => .bind (castClass_evaluates v) ?_
    intro superclass s hclass
    refine .bind ((getAt_evaluates _ _ _).carry fun _ hf => LoxClass.Unbound.frame hf hclass) ?_
    rintro object s ⟨-, hclass⟩
    refine .bind ((castInstance_evaluates _).carry fun _ hf => LoxClass.Unbound.frame hf hclass) ?_
    rintro _ s ⟨-, hclass⟩
    split
    · rename_i f hfind
      exact bindObject_evaluates fun _ => hclass method.lexeme f hfind
    · exact .throw_ _ _

/-! ### Statements -/

/-- Beginning in some scopes, the function adds to the current environment what is needed for
others; it may end with a `Return` if it is in a function. -/
def Executes (type : FunctionType) (scopes scopes' : List Scope) (m : Run N Unit)
    (s : Interpreter N) : Prop :=
  Sound s → Conforms s.environments s.environment scopes →
  Owns s.environments s.environment scopes →
    Sound (m s).2 ∧ (m s).2.environment = s.environment ∧
    Frame (· = s.environment) s.environments (m s).2.environments ∧
    (∀ v, (m s).1 = .error (.return_ v) → type ≠ .none_) ∧
    ((m s).1 = .ok () → Conforms (m s).2.environments s.environment scopes' ∧
      Owns (m s).2.environments s.environment scopes')

namespace Executes

variable {type : FunctionType} {scopes' scopes'' : List Scope}

theorem of_evaluates {m : Run N Unit} {post : Unit → Interpreter N → Prop}
    (h : Evaluates scopes m s post) : Executes type scopes scopes m s := by
  intro hs hc ho
  obtain ⟨hkept, hreturn, -⟩ := h hs hc
  exact ⟨hkept.sound, hkept.environment, hkept.frame.mono fun _ => False.elim,
    fun v hv => (hreturn v hv).elim, fun _ => ⟨hc.frame hkept.frame,
      ho.frame hkept.frame (hc.lt_length hs.globals)⟩⟩

theorem bind {m : Run N Unit} {f : Unit → Run N Unit} (hm : Executes type scopes scopes' m s)
    (hf : ∀ s', Frame (· = s.environment) s.environments s'.environments →
      Executes type scopes' scopes'' (f ()) s') :
    Executes type scopes scopes'' (m >>= f) s := by
  intro hs hc ho
  obtain ⟨hsound, henv, hframe, hreturn, hok⟩ := hm hs hc ho
  have heq : (m >>= f) s = Run.bind m f s := rfl
  rw [heq, Run.bind]
  rcases hms : m s with ⟨stop | a, s'⟩
  · rw [hms] at hsound henv hframe hreturn
    exact ⟨hsound, henv, hframe, fun v h => hreturn v (by simpa using h), fun h => by cases h⟩
  · rw [hms] at hsound henv hframe hok
    obtain ⟨hc', ho'⟩ := hok rfl
    obtain ⟨hsound', henv', hframe', hreturn', hok'⟩ :=
      hf s' hframe hsound (henv ▸ hc') (henv ▸ ho')
    simp only at henv
    rw [henv] at henv' hframe' hok'
    exact ⟨hsound', henv', hframe.trans hframe', hreturn', hok'⟩

theorem evaluates_bind {m : Run N α} {f : α → Run N Unit} {post : α → Interpreter N → Prop}
    (hm : Evaluates scopes m s post)
    (hf : ∀ a s', post a s' → Executes type scopes scopes' (f a) s') :
    Executes type scopes scopes' (m >>= f) s := by
  intro hs hc ho
  obtain ⟨hkept, hreturn, hpost⟩ := hm hs hc
  have heq : (m >>= f) s = Run.bind m f s := rfl
  rw [heq, Run.bind]
  rcases hms : m s with ⟨stop | a, s'⟩
  · rw [hms] at hkept hreturn
    exact ⟨hkept.sound, hkept.environment, hkept.frame.mono fun _ => False.elim,
      fun v h => (hreturn v (by simpa using h)).elim, fun h => by cases h⟩
  · rw [hms] at hkept hpost
    have henv : s'.environment = s.environment := hkept.environment
    have hown := ho.frame hkept.frame (hc.lt_length hs.globals)
    obtain ⟨hsound', henv', hframe', hreturn', hok'⟩ :=
      hf a s' (hpost a rfl) hkept.sound (hkept.conforms hc) (henv ▸ hown)
    rw [henv] at henv' hframe' hok'
    exact ⟨hsound', henv', (hkept.frame.mono fun _ => False.elim).trans hframe', hreturn', hok'⟩

theorem get_bind {f : Interpreter N → Run N Unit} (h : Executes type scopes scopes' (f s) s) :
    Executes type scopes scopes' (Interpreter.get >>= f) s := h

theorem ite {c : Prop} [Decidable c] {m m' : Run N Unit} (h : Executes type scopes scopes' m s)
    (h' : Executes type scopes scopes' m' s) :
    Executes type scopes scopes' (if c then m else m') s := by
  by_cases hc : c
  · rw [if_pos hc]
    exact h
  · rw [if_neg hc]
    exact h'

theorem return_ (v : Value N) (h : type ≠ .none_) :
    Executes type scopes scopes' (Interpreter.stop (.return_ v)) s :=
  fun hs _ _ => ⟨hs, rfl, .refl _ _, fun _ _ => h, fun h => by cases h⟩

end Executes

/-- Defining a variable that was not declared before. -/
theorem define_frame {h : List (Environment N)} {a : Ref} {name : Name} (value : Value N)
    (d : Declaration) (hc : Conforms h a scopes) (ho : Owns h a scopes)
    (hnone : peekScope name scopes = none) :
    Frame (· = a) h (h.modify a (Environment.put name value d)) := by
  refine .modify (fun _ => rfl) (fun hne => (hne rfl).elim) fun h0 env henv key d' hd => ?_
  rw [Environment.creator_put]
  have hne : scopes ≠ [] := by
    rintro rfl
    exact h0 hc
  have hkey : key ≠ name := by
    rintro rfl
    have := ho env hne henv key d' hd
    simp [hnone] at this
  rw [Function.update_of_ne hkey]
  exact hd

theorem define_conforms {h : List (Environment N)} {a : Ref} {name : Name} (value : Value N)
    (d : Declaration) (hc : Conforms h a scopes) (ho : Owns h a scopes)
    (hnone : peekScope name scopes = none) :
    Conforms (h.modify a (Environment.put name value d)) a (putScope name ⟨true, d⟩ scopes) ∧
    Owns (h.modify a (Environment.put name value d)) a (putScope name ⟨true, d⟩ scopes) := by
  cases scopes with
  | nil => exact ⟨hc, fun env hne => (hne rfl).elim⟩
  | cons scope scopes =>
    have hframe := define_frame value d hc ho hnone
    obtain ⟨h0, env, b, henv, hcovers, hout, hb⟩ := hc
    have hget : (h.modify a (Environment.put name value d))[a]? =
        some (env.put name value d) := by simp [henv]
    refine ⟨⟨h0, _, b, hget, fun key entry hentry hready => ?_, hout, hb.frame hframe⟩,
      fun env' _ henv' key d' hd => ?_⟩
    · rw [Environment.creator_put]
      by_cases hkey : key = name
      · rw [hkey, Function.update_self] at hentry ⊢
        cases hentry
        rfl
      · rw [Function.update_of_ne hkey] at hentry ⊢
        exact hcovers key entry hentry hready
    · rw [hget] at henv'
      cases henv'
      rw [Environment.creator_put] at hd
      rw [putScope, peekScope]
      by_cases hkey : key = name
      · rw [hkey, Function.update_self]
        rfl
      · rw [Function.update_of_ne hkey] at hd ⊢
        exact ho env (by simp) henv key d' hd

theorem define_executes {type : FunctionType} {name : Name} (value : Value N) (d : Declaration)
    (hnone : peekScope name scopes = none) :
    Executes type scopes (putScope name ⟨true, d⟩ scopes) (define s.environment name value d) s :=
  fun hs hc ho => ⟨hs.frame (define_frame value d hc ho hnone) rfl rfl, rfl,
    define_frame value d hc ho hnone, fun _ h => (by cases h),
    fun _ => define_conforms value d hc ho hnone⟩

/-! ### Blocks and calls -/

/-- What `evaluate` does, at every state. -/
def EvaluatesAll (evaluate : Expr N (Option Binding) → Run N (Value N)) : Prop :=
  ∀ e scopes s, e.Resolved scopes → Evaluates scopes (evaluate e) s Anything

/-- What `execute` does, at every state. -/
def ExecutesAll (execute : Place → Stmt N (Option Binding) → Run N Unit) : Prop :=
  ∀ p st type scopes s, st.Resolved type p scopes →
    Executes type scopes (st.after p scopes) (execute p st) s

section Calls

variable {evaluate : Expr N (Option Binding) → Run N (Value N)}
  {execute : Place → Stmt N (Option Binding) → Run N Unit}

theorem executeList_executes (hexecute : ExecutesAll execute) {type : FunctionType} {p : Place}
    {i : ℕ} {ss : List (Stmt N (Option Binding))} (hss : Stmt.ResolvedList type p i scopes ss) :
    ∃ scopes', ∀ s, Executes type scopes scopes' (executeList execute p i ss) s := by
  induction ss generalizing i scopes with
  | nil => exact ⟨scopes, fun s => .of_evaluates (.pure trivial : Evaluates _ _ _ Anything)⟩
  | cons st ss ih =>
    obtain ⟨scopes', hrest⟩ := ih hss.2
    exact ⟨scopes', fun s => .bind (hexecute _ st type scopes s hss.1) fun s' _ => hrest s'⟩

/-- A block in an environment that was just created. -/
theorem executeBlock_new (hexecute : ExecutesAll execute) {type : FunctionType} {p : Place}
    {ss : List (Stmt N (Option Binding))} {scope : Scope} {h : List (Environment N)}
    {env : Environment N} {outer : Ref}
    (hss : Stmt.ResolvedList type p 0 (scope :: scopes) ss) (hs : Sound s)
    (hnew : s.environments = h ++ [env]) (h0 : 0 < h.length) (hholds : env.Holds scope)
    (hout : env.enclosing = some outer) (hc : Conforms h outer scopes) :
    Sound (executeBlock execute p ss h.length s).2 ∧
    (executeBlock execute p ss h.length s).2.environment = s.environment ∧
    Frame Nowhere h (executeBlock execute p ss h.length s).2.environments ∧
    ∀ v, (executeBlock execute p ss h.length s).1 = .error (.return_ v) → type ≠ .none_ := by
  obtain ⟨scopes', hexecutes⟩ := executeList_executes hexecute hss
  have hinner : Sound { s with environment := h.length } := ⟨hs.globals, hs.objects, hs.accesses⟩
  have hconforms : Conforms s.environments h.length (scope :: scopes) := by
    rw [hnew]
    exact hc.append h0 hholds.covers hout
  have howns : Owns s.environments h.length (scope :: scopes) := by
    intro env' _ henv' name d hd
    obtain rfl : env = env' := by simpa [hnew] using henv'
    rw [hholds name] at hd
    obtain ⟨entry, hentry, -⟩ := Option.map_eq_some_iff.1 hd
    rw [peekScope, hentry]
    rfl
  obtain ⟨hsound, -, hframe, hreturn, -⟩ := hexecutes _ hinner hconforms howns
  exact ⟨⟨hsound.globals, hsound.objects, hsound.accesses⟩, rfl,
    hframe.fresh hnew fun a ha => ha.ge, hreturn⟩

theorem defineParameters_new (p : Place) (params : List (Token N)) (vs : List (Value N)) (i : ℕ)
    (h : List (Environment N)) (env : Environment N) (scope : Scope) (hholds : env.Holds scope)
    (hnew : s.environments = h ++ [env]) :
    ∃ env' r, defineParameters h.length p i params vs s =
        (r, { s with environments := h ++ [env'] }) ∧ env'.enclosing = env.enclosing ∧
      (∀ v, r ≠ .error (.return_ v)) ∧
      (r = .ok () → env'.Holds (parameterScope p i params scope)) := by
  induction params generalizing vs i env scope s with
  | nil => exact ⟨env, .ok (), by rw [← hnew]; rfl, rfl, by simp, fun _ => hholds⟩
  | cons param params ih =>
    cases vs with
    | nil => exact ⟨env, .error .exception, by rw [← hnew]; rfl, rfl, by simp, by simp⟩
    | cons v vs =>
      obtain ⟨env', r, heq, hout, hreturn, hok⟩ := ih vs (i + 1)
        (env.put param.lexeme v (some (.parameter p i)))
        (Function.update scope param.lexeme (some ⟨true, .parameter p i⟩)) (hholds.put _ _ _ _)
        (s := { s with
          environments := h ++ [env.put param.lexeme v (some (.parameter p i))] }) rfl
      refine ⟨env', r, ?_, hout, hreturn, hok⟩
      have hstep : defineParameters h.length p i (param :: params) (v :: vs) s =
          defineParameters h.length p (i + 1) params vs { s with
            environments := s.environments.modify h.length
              (Environment.put param.lexeme v (some (.parameter p i))) } := rfl
      rw [hstep, hnew, modify_append_length]
      exact heq

/-- The body of a function runs in an environment of its own, and a `Return` is caught. -/
theorem callBody_evaluates (hexecute : ExecutesAll execute) {f : LoxFunction N}
    {arguments : List (Value N)} (hf : Sound s → f.Closed s.environments) :
    Evaluates scopes (callBody execute f arguments) s Anything := by
  intro hs _
  obtain ⟨outer, type, htype, hclosure, hbody⟩ := hf hs
  obtain ⟨env, r, heq, hout, hreturn, hholds⟩ := defineParameters_new f.place f.params arguments 0
    s.environments ⟨some f.closure, fun _ => none⟩ empty (Environment.holds_empty f.closure)
    (s := { s with environments := s.environments ++ [⟨some f.closure, fun _ => none⟩] }) rfl
  have hstart : callBody execute f arguments s =
      Run.bind (defineParameters s.environments.length f.place 0 f.params arguments)
        (fun _ => catchReturn (executeBlock execute f.place f.body s.environments.length))
        { s with environments := s.environments ++ [⟨some f.closure, fun _ => none⟩] } := rfl
  rw [hstart, Run.bind, heq]
  have hsound : Sound { s with environments := s.environments ++ [env] } :=
    hs.frame (.append _ _ : Frame Nowhere _ _) rfl rfl
  cases r with
  | error stop =>
    exact ⟨⟨hsound, rfl, .append _ _⟩, fun v h => hreturn v (by simpa using h), fun v _ => trivial⟩
  | ok _ =>
    obtain ⟨hsound', henv', hframe', -⟩ := executeBlock_new hexecute hbody hsound rfl hs.globals
      (hholds rfl) hout hclosure
    simp only [catchReturn]
    revert hsound' henv' hframe'
    generalize executeBlock execute f.place f.body s.environments.length
      { s with environments := s.environments ++ [env] } = result
    intro hsound' henv' hframe'
    obtain ⟨stop | _, s'⟩ := result
    · cases stop with
      | return_ v => exact ⟨⟨hsound', henv', hframe'⟩, by simp, fun _ _ => trivial⟩
      | runtimeError e => exact ⟨⟨hsound', henv', hframe'⟩, by simp, fun _ _ => trivial⟩
      | exception => exact ⟨⟨hsound', henv', hframe'⟩, by simp, fun _ _ => trivial⟩
      | running => exact ⟨⟨hsound', henv', hframe'⟩, by simp, fun _ _ => trivial⟩
    · exact ⟨⟨hsound', henv', hframe'⟩, by simp, fun _ _ => trivial⟩

theorem callFunction_evaluates (hexecute : ExecutesAll execute) {f : LoxFunction N}
    {arguments : List (Value N)} (hf : Sound s → f.Closed s.environments) :
    Evaluates scopes (callFunction execute f arguments) s Anything :=
  .bind (callBody_evaluates hexecute hf) fun _ _ _ => .ite (getAt_evaluates _ _ _) (.pure trivial)

theorem callInitializer_evaluates (hexecute : ExecutesAll execute) {c : LoxClass (LoxFunction N)}
    {object : Value N} {arguments : List (Value N)} (hclass : c.Unbound s.environments) :
    Evaluates scopes (callInitializer execute c object arguments) s Anything := by
  unfold callInitializer
  split
  · rename_i initializer hfind
    refine .bind (bind_evaluates fun _ => hclass _ initializer hfind) fun f s' hf => ?_
    exact .bind (callFunction_evaluates hexecute fun _ => hf) fun _ _ _ => .pure trivial
  · exact .pure trivial

theorem callClass_evaluates (hexecute : ExecutesAll execute) {c : LoxClass (LoxFunction N)}
    {arguments : List (Value N)} (hclass : c.Unbound s.environments) :
    Evaluates scopes (callClass execute c arguments) s Anything := by
  refine .bind (newObject_evaluates fun _ _ => hclass) fun object s' hs' => ?_
  exact .bind (callInitializer_evaluates hexecute (hs' ▸ hclass)) fun _ _ _ => .pure trivial

theorem checkArity_evaluates (paren : Token N) (arity size : ℕ) :
    Evaluates scopes (checkArity paren arity size) s fun _ s' => s' = s :=
  .ite (.throw_ _ _) (.pure rfl)

theorem visitCall_evaluates (hexecute : ExecutesAll execute) (callee : Value N) (paren : Token N)
    (arguments : List (Value N)) :
    Evaluates scopes (visitCall execute callee paren arguments) s Anything := by
  refine .get_bind (.assuming fun hs _ => ?_)
  split
  · refine .bind (checkArity_evaluates paren _ _) fun _ _ _ => ?_
    exact .of_ok rfl fun hs _ => ⟨⟨⟨hs.globals, hs.objects, hs.accesses⟩, rfl, .refl _ _⟩, trivial⟩
  · rename_i f hobject
    refine .bind (checkArity_evaluates paren _ _) ?_
    rintro _ _ rfl
    exact callFunction_evaluates hexecute fun _ => hs.object hobject
  · rename_i c hobject
    refine .bind (checkArity_evaluates paren _ _) ?_
    rintro _ _ rfl
    exact callClass_evaluates hexecute (hs.object hobject)
  · exact .throw_ _ _

theorem evaluateList_evaluates (hevaluate : EvaluatesAll evaluate)
    {es : List (Expr N (Option Binding))} (hes : Expr.ResolvedList scopes es) :
    Evaluates scopes (evaluateList evaluate es) s Anything := by
  induction es generalizing s with
  | nil => exact .pure trivial
  | cons e es ih =>
    refine .bind (hevaluate e scopes s hes.1) fun v s' _ => ?_
    exact .bind (ih hes.2) fun vs s'' _ => .pure trivial

/-! ### One step of the recursion -/

theorem evaluateBody_evaluates [Boxed N] (hevaluate : EvaluatesAll evaluate)
    (hexecute : ExecutesAll execute) : EvaluatesAll (evaluateBody evaluate execute) := by
  intro e scopes s he
  cases e with
  | assign name value distance =>
    refine .bind (hevaluate value scopes s he.1) fun v s₁ _ => ?_
    exact .bind (assignVariable_evaluates he.2) fun _ _ _ => .pure trivial
  | binary left operator right =>
    refine .bind (hevaluate left scopes s he.1) fun l s₁ _ => ?_
    exact .bind (hevaluate right scopes s₁ he.2) fun r s₂ _ => operate_evaluates _
  | call callee paren arguments =>
    refine .bind (hevaluate callee scopes s he.1) fun v s₁ _ => ?_
    exact .bind (evaluateList_evaluates hevaluate he.2) fun vs s₂ _ =>
      visitCall_evaluates hexecute v paren vs
  | get object name =>
    exact .bind (hevaluate object scopes s he) fun v s₁ _ => visitGet_evaluates v name
  | grouping expression => exact hevaluate expression scopes s he
  | literal value => exact .pure trivial
  | logical left operator right =>
    refine .bind (hevaluate left scopes s he.1) fun v s₁ _ => ?_
    exact .ite (.pure trivial) (hevaluate right scopes s₁ he.2)
  | set object name value =>
    refine .bind (hevaluate object scopes s he.1) fun o s₁ _ => ?_
    refine .bind (checkInstance_evaluates o name) fun _ s₂ _ => ?_
    refine .bind (hevaluate value scopes s₂ he.2) fun v s₃ _ => ?_
    exact .bind modifyObject_evaluates fun _ _ _ => .pure trivial
  | super_ keyword method distance => exact visitSuper_evaluates he.1 he.2
  | this_ keyword distance => exact lookUpVariable_evaluates he
  | unary operator right =>
    exact .bind (hevaluate right scopes s he) fun v s₁ _ => operate_evaluates _
  | variable_ name distance => exact lookUpVariable_evaluates he

theorem evaluateOption_evaluates (hevaluate : EvaluatesAll evaluate)
    {o : Option (Expr N (Option Binding))} (ho : ∀ e ∈ o, e.Resolved scopes) :
    Evaluates scopes (evaluateOption evaluate o) s Anything := by
  cases o with
  | none => exact .pure trivial
  | some e => exact hevaluate e scopes s (ho e rfl)

/-- In a class, a method is found among its own and those of the superclass. -/
theorem unbound_mk {h : List (Environment N)} {name : Name}
    {superclass : Option (LoxClass (LoxFunction N))} {methods : Name → Option (LoxFunction N)}
    (hsuper : ∀ c ∈ superclass, c.Unbound h) (hmethods : ∀ name f, methods name = some f →
      f.Unbound h) : LoxClass.Unbound h (.mk name superclass methods) := by
  intro key f hfind
  rw [LoxClass.findMethod_mk] at hfind
  cases hown : methods key with
  | some own =>
    rw [hown] at hfind
    cases hfind
    exact hmethods key f hown
  | none =>
    rw [hown] at hfind
    obtain ⟨c, hc, hfind⟩ := Option.bind_eq_some_iff.1 hfind
    exact hsuper c hc key f hfind

theorem methodsOf_unbound {h : List (Environment N)} {p : Place} {closure : Ref} {i : ℕ}
    {methods : List (Stmt N (Option Binding))} (hc : Conforms h closure scopes)
    (hmethods : Stmt.ResolvedMethods p i (thisScope p :: scopes) methods)
    {table : Name → Option (LoxFunction N)} (htable : ∀ name f, table name = some f → f.Unbound h)
    (name : Name) (f : LoxFunction N)
    (hf : LoxClass.putMethods (methodsOf p closure i methods) table name = some f) :
    f.Unbound h := by
  induction methods generalizing i table with
  | nil => exact htable name f hf
  | cons m methods ih =>
    cases m with
    | function method params body =>
      refine ih hmethods.2 (fun key g hg => ?_) hf
      by_cases hkey : key = method.lexeme
      · rw [hkey, Function.update_self] at hg
        cases hg
        exact ⟨scopes, methodType method, by unfold methodType; split <;> simp, hc, hmethods.1⟩
      · rw [Function.update_of_ne hkey] at hg
        exact htable key g hg
    | block | class_ | expression | if_ | print | return_ | var | while_ | null =>
      exact hmethods.elim

theorem visitSuperclass_evaluates {superclass : Option (Token N × Option Binding)}
    (h : ∀ t ∈ superclass, Reads scopes t.1.lexeme t.2) :
    Evaluates scopes (visitSuperclass superclass) s fun o s' =>
      o.isSome = superclass.isSome ∧ ∀ c ∈ o, c.2.Unbound s'.environments := by
  cases superclass with
  | none => exact .pure ⟨rfl, by simp⟩
  | some t =>
    refine .bind (lookUpVariable_evaluates (h t rfl)) fun v s₁ _ => .get_bind ?_
    split
    · rename_i c hobject
      refine .assuming fun hs _ => .pure ⟨rfl, fun c' hc' => ?_⟩
      cases hc'
      exact hs.object hobject
    · exact .throw_ _ _

theorem enterSuper_eq (p : Place) (superclass : Value N) (s : Interpreter N) :
    enterSuper p (some superclass) s = (.ok (), { s with
      environments := s.environments ++ [Environment.put "super".toList superclass
        (some (.super_ p)) ⟨some s.environment, fun _ => none⟩]
      environment := s.environments.length }) := by
  change (_, _) = _
  simp only [modify_append_length]

theorem leaveSuper_eq {superclass : Value N} {env : Environment N} {outer : Ref}
    (henv : s.environments[s.environment]? = some env) (hout : env.enclosing = some outer) :
    leaveSuper (some superclass) s = (.ok (), { s with environment := outer }) := by
  have houter : s.environments[s.environment]?.bind (·.enclosing) = some outer := by
    rw [henv, Option.bind_some, hout]
  simp only [leaveSuper, Bind.bind, Run.bind, Interpreter.get, houter, Interpreter.modify]

theorem makeClass_some (p : Place) (name : Token N) (c : Value N × LoxClass (LoxFunction N))
    (methods : List (Stmt N (Option Binding))) (s : Interpreter N) :
    makeClass p name (some c) methods s = (.ok (.obj s.objects.length), { s with
      environments := s.environments ++ [Environment.put "super".toList c.1
        (some (.super_ p)) ⟨some s.environment, fun _ => none⟩]
      objects := s.objects ++ [.class_ (.mk name.lexeme (some c.2)
        (LoxClass.putMethods (methodsOf p s.environments.length 0 methods) fun _ => none))] }) := by
  have hmake : makeClass p name (some c) methods s =
      Run.bind (enterSuper p (some c.1)) (fun _ t => Run.bind
        (newObject (.class_ (.mk name.lexeme (some c.2)
          (LoxClass.putMethods (methodsOf p t.environment 0 methods) fun _ => none))))
        (fun klass => Run.bind (leaveSuper (some c.1)) fun _ => pure klass) t) s := rfl
  rw [hmake]
  simp only [Run.bind, enterSuper_eq, newObject]
  rw [leaveSuper_eq (s := { s with
    environments := s.environments ++ [Environment.put "super".toList c.1
      (some (.super_ p)) ⟨some s.environment, fun _ => none⟩]
    environment := s.environments.length
    objects := _ }) (List.getElem?_concat_length ..) rfl]
  rfl

/-- The methods of a class have the environment for `super`, if there is one, as their closure. -/
theorem makeClass_evaluates {p : Place} {name : Token N}
    {superclass : Option (Value N × LoxClass (LoxFunction N))}
    {methods : List (Stmt N (Option Binding))} (hsuper : ∀ c ∈ superclass, c.2.Unbound s.environments)
    (hmethods : Stmt.ResolvedMethods p 0 (thisScope p :: classScopes p superclass.isSome scopes)
      methods) :
    Evaluates scopes (makeClass p name superclass methods) s Anything := by
  cases superclass with
  | none =>
    refine .of_ok rfl fun hs hc => ⟨⟨⟨hs.globals, fun o ho => ?_, hs.accesses⟩, rfl, .refl _ _⟩,
      trivial⟩
    rcases List.mem_append.1 ho with ho | ho
    · exact hs.objects o ho
    · rw [List.mem_singleton.1 ho]
      exact unbound_mk (by simp) fun key f hf => methodsOf_unbound hc hmethods (by simp) key f hf
  | some c =>
    refine .of_ok (makeClass_some p name c methods s) fun hs hc => ?_
    · have hframe : Frame Nowhere s.environments (s.environments ++
          [Environment.put "super".toList c.1 (some (.super_ p)) ⟨some s.environment, fun _ => none⟩]) :=
        .append _ _
      refine ⟨⟨⟨hs.globals.trans_le hframe.length_le, fun o ho => ?_, hs.accesses⟩, rfl, hframe⟩,
        trivial⟩
      rcases List.mem_append.1 ho with ho | ho
      · exact Object.Closed.frame hframe (hs.objects o ho)
      · rw [List.mem_singleton.1 ho]
        refine unbound_mk (fun c' hc' => ?_) fun key f hf => methodsOf_unbound
          (hc.append hs.globals ((Environment.holds_empty _).put _ _ true _).covers rfl)
          hmethods (by simp) key f hf
        cases hc'
        exact LoxClass.Unbound.frame hframe (hsuper c rfl)

theorem executeBody_executes (hevaluate : EvaluatesAll evaluate)
    (hexecute : ExecutesAll execute) : ExecutesAll (executeBody evaluate execute) := by
  intro p st type scopes s hst
  cases st with
  | block statements =>
    intro hs hc ho
    obtain ⟨hsound, henv, hframe, hreturn⟩ := executeBlock_new hexecute hst
      (s := { s with environments := s.environments ++ [⟨some s.environment, fun _ => none⟩] })
      (hs.frame (.append _ _ : Frame Nowhere _ _) rfl rfl) rfl hs.globals
      (Environment.holds_empty _) rfl hc
    exact ⟨hsound, henv, hframe.mono fun _ => False.elim, hreturn, fun _ =>
      ⟨hc.frame hframe, ho.frame hframe (hc.lt_length hs.globals)⟩⟩
  | class_ name superclass methods =>
    obtain ⟨hnone, hreads, hmethods⟩ := hst
    refine .evaluates_bind (.of_declare (visitSuperclass_evaluates hreads)) ?_
    rintro o s₁ ⟨hsome, hsuper⟩
    refine .get_bind (.bind (define_executes .nil _ hnone) fun s₂ hframe => ?_)
    refine .of_evaluates (.bind (makeClass_evaluates (fun c hc => ?_) (hsome ▸ hmethods))
      fun klass s₃ _ => .get_bind (assign_evaluates _ _ _))
    exact LoxClass.Unbound.frame hframe (hsuper c hc)
  | expression e =>
    exact .evaluates_bind (hevaluate e scopes s hst) fun _ s₁ _ =>
      .of_evaluates (.pure trivial : Evaluates _ _ _ Anything)
  | function name params body =>
    intro hs hc ho
    have hframe := define_frame (.obj s.objects.length) (.statement p) hc ho hst.1
    have hdefined := define_conforms (.obj s.objects.length) (.statement p) hc ho hst.1
    refine ⟨⟨hs.globals.trans_le hframe.length_le, fun o hobject => ?_, hs.accesses⟩, rfl, hframe,
      fun _ h => (by cases h), fun _ => hdefined⟩
    rcases List.mem_append.1 hobject with hobject | hobject
    · exact Object.Closed.frame hframe (hs.objects o hobject)
    · rw [List.mem_singleton.1 hobject]
      exact ⟨_, .function, by simp, hdefined.1, hst.2⟩
  | if_ condition thenBranch elseBranch =>
    cases elseBranch with
    | none =>
      refine .evaluates_bind (hevaluate condition scopes s hst.1) fun v s₁ _ => ?_
      have hthen := hexecute _ thenBranch type scopes s₁ hst.2.2
      rw [hst.2.1.after] at hthen
      exact .ite hthen (.of_evaluates (.pure trivial : Evaluates _ _ _ Anything))
    | some elseBranch =>
      obtain ⟨hcondition, ⟨hthen, hthenResolved⟩, helse, helseResolved⟩ := hst
      refine .evaluates_bind (hevaluate condition scopes s hcondition) fun v s₁ _ => ?_
      have hthenExecutes := hexecute _ thenBranch type scopes s₁ hthenResolved
      have helseExecutes := hexecute _ elseBranch type scopes s₁ helseResolved
      rw [hthen.after] at hthenExecutes
      rw [helse.after] at helseExecutes
      exact .ite hthenExecutes helseExecutes
  | print e =>
    refine .evaluates_bind (hevaluate e scopes s hst) fun v s₁ _ => .of_evaluates (.modify ?_)
    exact fun hs _ => ⟨⟨hs.globals, hs.objects, hs.accesses⟩, rfl, .refl _ _⟩
  | return_ keyword value =>
    exact .evaluates_bind (evaluateOption_evaluates hevaluate hst.2) fun v s₁ _ =>
      .return_ v hst.1
  | var name initializer =>
    refine .evaluates_bind (.of_declare (evaluateOption_evaluates hevaluate hst.2))
      fun v s₁ _ => .get_bind (define_executes v _ hst.1)
  | while_ condition body =>
    refine .evaluates_bind (hevaluate condition scopes s hst.1) fun v s₁ _ => ?_
    refine .ite (.bind (hexecute _ body type scopes s₁ hst.2.2) fun s₂ _ => ?_)
      (.of_evaluates (.pure trivial : Evaluates _ _ _ Anything))
    rw [hst.2.1.after]
    exact hexecute p (.while_ condition body) type scopes s₂ hst
  | null => exact hst.elim

end Calls

end Lox.Jlox
