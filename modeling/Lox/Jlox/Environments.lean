import Lox.Jlox.Interpreter
import Lox.Jlox.Scopes

/-!
# Scopes and environments

`Conforms` says that a chain of environments has what a stack of scopes has: for every variable that
is ready, a value under its name that was put there by its declaration.  It does not say that the
environments have nothing else, and so it goes on to hold for a function when more is declared in
the environments around it; `Frame` says what may change in environments that are there already.

`Sound` is the invariant of a run.  Every function conforms to the scopes that its body was resolved
in, and every access that had a distance was right.
-/

namespace Lox.Jlox

open Resolver Interpreter

variable {N : Type}

/-! ### Environments that are there already -/

/-- The declaration that put the key into the environment. -/
def Environment.creator (env : Environment N) (name : Name) : Option Declaration :=
  (env.values name).bind (·.creator)

/-- Environments stay where they are.  Only those that `changes` allows get new declarations, and
only `globals` loses any. -/
def Frame (changes : Ref → Prop) (before after : List (Environment N)) : Prop :=
  ∀ a env, before[a]? = some env → ∃ env', after[a]? = some env' ∧ env'.enclosing = env.enclosing ∧
    (¬ changes a → env'.creator = env.creator) ∧
    (a ≠ 0 → ∀ name d, env.creator name = some d → env'.creator name = some d)

/-- No environment changes. -/
abbrev Nowhere : Ref → Prop := fun _ => False

namespace Frame

variable {changes changes' : Ref → Prop} {h h' h'' : List (Environment N)}

theorem refl (changes : Ref → Prop) (h : List (Environment N)) : Frame changes h h :=
  fun _ env henv => ⟨env, henv, rfl, fun _ => rfl, fun _ _ _ hd => hd⟩

theorem trans (hf : Frame changes h h') (hf' : Frame changes h' h'') : Frame changes h h'' := by
  intro a env henv
  obtain ⟨env', henv', hout, hsame, hgrow⟩ := hf a env henv
  obtain ⟨env'', henv'', hout', hsame', hgrow'⟩ := hf' a env' henv'
  exact ⟨env'', henv'', hout'.trans hout, fun ha => (hsame' ha).trans (hsame ha),
    fun ha name d hd => hgrow' ha name d (hgrow ha name d hd)⟩

theorem mono (hf : Frame changes h h') (himp : ∀ a, changes a → changes' a) :
    Frame changes' h h' := by
  intro a env henv
  obtain ⟨env', henv', hout, hsame, hgrow⟩ := hf a env henv
  exact ⟨env', henv', hout, fun ha => hsame fun hc => ha (himp a hc), hgrow⟩

theorem length_le (hf : Frame changes h h') : h.length ≤ h'.length := by
  by_contra hlt
  obtain ⟨env', henv', -⟩ := hf h'.length _ (List.getElem?_eq_getElem (by omega))
  rw [List.getElem?_eq_none le_rfl] at henv'
  cases henv'

theorem append (h new : List (Environment N)) : Frame changes h (h ++ new) := by
  intro a env henv
  have ha : a < h.length := (List.getElem?_eq_some_iff.1 henv).1
  exact ⟨env, by rw [List.getElem?_append_left ha, henv], rfl, fun _ => rfl, fun _ _ _ hd => hd⟩

/-- What changes among the new environments does not change the old ones. -/
theorem fresh {new : List (Environment N)} (hf : Frame changes h' h'') (hh : h' = h ++ new)
    (hnew : ∀ a, changes a → h.length ≤ a) : Frame Nowhere h h'' := by
  intro a env henv
  have ha : a < h.length := (List.getElem?_eq_some_iff.1 henv).1
  obtain ⟨env', henv', hout, hsame, hgrow⟩ :=
    hf a env (by rw [hh, List.getElem?_append_left ha, henv])
  exact ⟨env', henv', hout, fun _ => hsame fun hc => Nat.not_le.2 ha (hnew a hc), hgrow⟩

/-- Changing one environment. -/
theorem modify {a : Ref} {f : Environment N → Environment N}
    (hout : ∀ env, (f env).enclosing = env.enclosing)
    (hsame : ¬ changes a → ∀ env, (f env).creator = env.creator)
    (hgrow : a ≠ 0 → ∀ env, h[a]? = some env →
      ∀ name d, env.creator name = some d → (f env).creator name = some d) :
    Frame changes h (h.modify a f) := by
  intro b env henv
  rw [List.getElem?_modify, henv]
  by_cases hab : a = b
  · subst hab
    exact ⟨f env, by simp, hout env, fun hc => hsame hc env, fun h0 => hgrow h0 env henv⟩
  · exact ⟨env, by simp [hab], rfl, fun _ => rfl, fun _ _ _ hd => hd⟩

end Frame

theorem Environment.creator_put (env : Environment N) (name : Name) (value : Value N)
    (creator : Option Declaration) :
    (env.put name value creator).creator = Function.update env.creator name creator := by
  funext key
  by_cases hkey : key = name
  · subst hkey
    simp [Environment.creator, Environment.put]
  · simp [Environment.creator, Environment.put, Function.update_of_ne hkey]

theorem Environment.creator_set (env : Environment N) (name : Name) (value : Value N) :
    (env.set name value).creator = env.creator := by
  rw [Environment.set, Environment.creator_put]
  exact Function.update_eq_self name env.creator

/-- The last environment is the one that was added last. -/
theorem modify_append_length (h : List (Environment N)) (env : Environment N)
    (f : Environment N → Environment N) : (h ++ [env]).modify h.length f = h ++ [f env] := by
  induction h with
  | nil => rfl
  | cons _ h ih => simp [ih]

theorem Frame.set (changes : Ref → Prop) (h : List (Environment N)) (a : Ref) (name : Name)
    (value : Value N) : Frame changes h (h.modify a (Environment.set name value)) :=
  .modify (fun _ => rfl) (fun _ env => env.creator_set name value)
    fun _ env _ _ _ hd => by rw [env.creator_set]; exact hd

/-! ### Environments and scopes -/

/-- The environment has the variables of the scope that are ready. -/
def Environment.Covers (env : Environment N) (scope : Scope) : Prop :=
  ∀ name entry, scope name = some entry → entry.ready → env.creator name = some entry.declaration

/-- The environment has exactly the variables of the scope. -/
def Environment.Holds (env : Environment N) (scope : Scope) : Prop :=
  ∀ name, env.creator name = (scope name).map (·.declaration)

theorem Environment.Holds.covers {env : Environment N} {scope : Scope} (h : env.Holds scope) :
    env.Covers scope := by
  intro name entry hentry _
  rw [h name, hentry]
  rfl

theorem Environment.holds_empty (outer : Ref) :
    Environment.Holds (⟨some outer, fun _ => none⟩ : Environment N) empty := fun _ => rfl

theorem Environment.Holds.put {env : Environment N} {scope : Scope} (h : env.Holds scope)
    (name : Name) (value : Value N) (ready : Bool) (creator : Declaration) :
    (env.put name value creator).Holds (Function.update scope name (some ⟨ready, creator⟩)) := by
  intro key
  rw [Environment.creator_put]
  by_cases hkey : key = name
  · rw [hkey, Function.update_self, Function.update_self]
    rfl
  · rw [Function.update_of_ne hkey, Function.update_of_ne hkey]
    exact h key

/-- The chain of environments has the variables of the scopes; outside of them is `globals`. -/
def Conforms (h : List (Environment N)) : Ref → List Scope → Prop
  | a, [] => a = 0
  | a, scope :: scopes => a ≠ 0 ∧ ∃ env b, h[a]? = some env ∧ env.Covers scope ∧
      env.enclosing = some b ∧ Conforms h b scopes

/-- The environment has no variables but those of the innermost scope. -/
def Owns (h : List (Environment N)) (a : Ref) (scopes : List Scope) : Prop :=
  ∀ env, scopes ≠ [] → h[a]? = some env → ∀ name d, env.creator name = some d →
    (peekScope name scopes).isSome

theorem Conforms.frame {changes : Ref → Prop} {h h' : List (Environment N)} {a : Ref}
    {scopes : List Scope} (hc : Conforms h a scopes) (hf : Frame changes h h') :
    Conforms h' a scopes := by
  induction scopes generalizing a with
  | nil => exact hc
  | cons scope scopes ih =>
    obtain ⟨ha, env, b, henv, hcovers, hout, hb⟩ := hc
    obtain ⟨env', henv', hout', -, hgrow⟩ := hf a env henv
    exact ⟨ha, env', b, henv', fun name entry he hr => hgrow ha name _ (hcovers name entry he hr),
      hout'.trans hout, ih hb⟩

theorem Owns.frame {h h' : List (Environment N)} {a : Ref} {scopes : List Scope}
    (ho : Owns h a scopes) (hf : Frame Nowhere h h') (ha : a < h.length) : Owns h' a scopes := by
  intro env' hne henv' name d hd
  obtain ⟨env'', henv'', -, hsame, -⟩ := hf a _ (List.getElem?_eq_getElem ha)
  rw [henv'] at henv''
  cases henv''
  rw [hsame id] at hd
  exact ho _ hne (List.getElem?_eq_getElem ha) name d hd

/-- A variable that is not ready asks for nothing. -/
theorem Conforms.declare {h : List (Environment N)} {a : Ref} {scopes : List Scope}
    (hc : Conforms h a scopes) (name : Name) (d : Declaration) :
    Conforms h a (putScope name ⟨false, d⟩ scopes) := by
  cases scopes with
  | nil => exact hc
  | cons scope scopes =>
    obtain ⟨h0, env, b, henv, hcovers, hrest⟩ := hc
    refine ⟨h0, env, b, henv, fun key entry hentry hready => ?_, hrest⟩
    by_cases hkey : key = name
    · rw [hkey, Function.update_self] at hentry
      cases hentry
      cases hready
    · rw [Function.update_of_ne hkey] at hentry
      exact hcovers key entry hentry hready

/-- A new environment for a new scope. -/
theorem Conforms.append {h : List (Environment N)} {outer : Ref} {scopes : List Scope}
    (hc : Conforms h outer scopes) (h0 : 0 < h.length) {env : Environment N} {scope : Scope}
    (hcovers : env.Covers scope) (hout : env.enclosing = some outer) :
    Conforms (h ++ [env]) h.length (scope :: scopes) :=
  ⟨h0.ne', env, outer, by simp, hcovers, hout,
    hc.frame (.append h [env] : Frame (fun _ => False) _ _)⟩

theorem Conforms.lt_length {h : List (Environment N)} {a : Ref} {scopes : List Scope}
    (hc : Conforms h a scopes) (h0 : 0 < h.length) : a < h.length := by
  cases scopes with
  | nil => exact hc ▸ h0
  | cons scope scopes =>
    obtain ⟨-, env, -, henv, -⟩ := hc
    exact (List.getElem?_eq_some_iff.1 henv).1

/-- The environment at a distance. -/
theorem Conforms.ancestor {h : List (Environment N)} {a : Ref} {scopes : List Scope}
    (hc : Conforms h a scopes) {i : ℕ} {scope : Scope} (hi : scopes[i]? = some scope) :
    ∃ b env, ancestor h i a = some b ∧ h[b]? = some env ∧ env.Covers scope := by
  induction scopes generalizing a i with
  | nil => simp at hi
  | cons s scopes ih =>
    obtain ⟨-, env, b, henv, hcovers, hout, hb⟩ := hc
    cases i with
    | zero =>
      obtain rfl : s = scope := by simpa using hi
      exact ⟨a, env, rfl, henv, hcovers⟩
    | succ i =>
      obtain ⟨c, env', hc, hrest⟩ := ih hb (by simpa using hi)
      exact ⟨c, env', by simp [Interpreter.ancestor, henv, hout, hc], hrest⟩

/-! ### Accesses -/

/-- At the distance there is a value under the name, put there by the declaration. -/
def Access.Reaches (x : Access N) : Prop :=
  ∃ a env slot, ancestor x.environments x.binding.distance x.environment = some a ∧
    x.environments[a]? = some env ∧ env.values x.name = some slot ∧
    slot.creator = some x.binding.declaration

/-- The distance is right: what is read is what the declaration created; for `super`, there is a
`this` one environment before; for an assignment, the environment exists. -/
def Access.Right (x : Access N) : Prop :=
  match x.use with
  | .read => x.Reaches
  | .super_ => x.Reaches ∧ ∃ d a env, x.binding.distance = d + 1 ∧
      ancestor x.environments d x.environment = some a ∧ x.environments[a]? = some env ∧
      (env.values "this".toList).isSome
  | .assign => ∃ a env, ancestor x.environments x.binding.distance x.environment = some a ∧
      x.environments[a]? = some env

theorem reaches_of_reads {s : Interpreter N} {use : Use} {name : Name} {b : Binding}
    {scopes : List Scope} (hc : Conforms s.environments s.environment scopes)
    (hreads : Reads scopes name (some b)) :
    Access.Reaches ⟨use, name, b, s.environment, s.environments⟩ := by
  obtain ⟨hb, hready⟩ := hreads
  obtain ⟨⟨i, entry⟩, hfind, rfl⟩ := Option.map_eq_some_iff.1 hb.symm
  obtain ⟨scope, hscope, hentry⟩ := findScope_some hfind
  obtain ⟨a, env, ha, henv, hcovers⟩ := hc.ancestor hscope
  obtain ⟨slot, hslot, hcreator⟩ :=
    Option.bind_eq_some_iff.1 (hcovers name entry hentry (hready i entry hfind))
  exact ⟨a, env, slot, ha, henv, hslot, hcreator⟩

theorem right_of_reads {s : Interpreter N} {name : Name} {b : Binding} {scopes : List Scope}
    (hc : Conforms s.environments s.environment scopes) (hreads : Reads scopes name (some b)) :
    Access.Right ⟨.read, name, b, s.environment, s.environments⟩ :=
  reaches_of_reads hc hreads

theorem right_of_super {s : Interpreter N} {b : Binding} {scopes : List Scope}
    (hc : Conforms s.environments s.environment scopes)
    (hreads : Reads scopes "super".toList (some b)) (hthis : ThisInSuper scopes) :
    Access.Right ⟨.super_, "super".toList, b, s.environment, s.environments⟩ := by
  refine ⟨reaches_of_reads hc hreads, ?_⟩
  obtain ⟨⟨i, entry⟩, hfind, rfl⟩ := Option.map_eq_some_iff.1 hreads.1.symm
  obtain ⟨scope, hscope, hentry⟩ := findScope_some hfind
  obtain ⟨j, scope', entry', rfl, hj, hentry', hready⟩ := hthis i scope entry hscope hentry
  obtain ⟨a, env, ha, henv, hcovers⟩ := hc.ancestor hj
  obtain ⟨slot, hslot, -⟩ := Option.bind_eq_some_iff.1 (hcovers _ entry' hentry' hready)
  exact ⟨j, a, env, rfl, ha, henv, by rw [hslot]; rfl⟩

theorem right_of_assign {s : Interpreter N} {name : Name} {b : Binding} {scopes : List Scope}
    (hc : Conforms s.environments s.environment scopes) (hb : some b = lookup name scopes) :
    Access.Right ⟨.assign, name, b, s.environment, s.environments⟩ := by
  obtain ⟨⟨i, entry⟩, hfind, rfl⟩ := Option.map_eq_some_iff.1 hb.symm
  obtain ⟨scope, hscope, -⟩ := findScope_some hfind
  obtain ⟨a, env, ha, henv, -⟩ := hc.ancestor hscope
  exact ⟨a, env, ha, henv⟩

/-! ### Functions -/

/-- The closure of a function conforms to the scopes its body was resolved in. -/
def LoxFunction.Closed (h : List (Environment N)) (f : LoxFunction N) : Prop :=
  ∃ scopes type, type ≠ FunctionType.none_ ∧ Conforms h f.closure scopes ∧
    Stmt.ResolvedList type f.place 0 (parameterScope f.place 0 f.params empty :: scopes) f.body

/-- A method was resolved with a scope for `this`, which it does not have until it is bound. -/
def LoxFunction.Unbound (h : List (Environment N)) (f : LoxFunction N) : Prop :=
  ∃ scopes type, type ≠ FunctionType.none_ ∧ Conforms h f.closure scopes ∧
    Stmt.ResolvedList type f.place 0
      (parameterScope f.place 0 f.params empty :: thisScope f.place.tail :: scopes) f.body

/-- All methods of a class are ready to be bound. -/
def LoxClass.Unbound (h : List (Environment N)) (c : LoxClass (LoxFunction N)) : Prop :=
  ∀ name f, c.findMethod name = some f → f.Unbound h

/-- The functions of an object conform. -/
def Object.Closed (h : List (Environment N)) : Object N → Prop
  | .clock => True
  | .function f => f.Closed h
  | .class_ c | .instance_ c _ => c.Unbound h

/-- The invariant of a run. -/
structure Sound (s : Interpreter N) : Prop where
  globals : 0 < s.environments.length
  objects : ∀ o ∈ s.objects, o.Closed s.environments
  accesses : ∀ x ∈ s.accesses, x.Right

section Frames

variable {changes : Ref → Prop} {h h' : List (Environment N)} (hf : Frame changes h h')
include hf

theorem LoxFunction.Closed.frame {f : LoxFunction N} (hc : f.Closed h) : f.Closed h' := by
  obtain ⟨scopes, type, htype, hclosure, hbody⟩ := hc
  exact ⟨scopes, type, htype, hclosure.frame hf, hbody⟩

theorem LoxFunction.Unbound.frame {f : LoxFunction N} (hu : f.Unbound h) : f.Unbound h' := by
  obtain ⟨scopes, type, htype, hclosure, hbody⟩ := hu
  exact ⟨scopes, type, htype, hclosure.frame hf, hbody⟩

theorem LoxClass.Unbound.frame {c : LoxClass (LoxFunction N)} (hu : c.Unbound h) : c.Unbound h' :=
  fun name f hfind => LoxFunction.Unbound.frame hf (hu name f hfind)

theorem Object.Closed.frame {o : Object N} (hc : o.Closed h) : o.Closed h' := by
  cases o with
  | clock => trivial
  | function f => exact LoxFunction.Closed.frame hf hc
  | class_ c => exact LoxClass.Unbound.frame hf hc
  | instance_ c fields => exact LoxClass.Unbound.frame hf hc

end Frames

theorem Sound.frame {s s' : Interpreter N} {changes : Ref → Prop} (hs : Sound s)
    (hf : Frame changes s.environments s'.environments) (hobjects : s'.objects = s.objects)
    (haccesses : s'.accesses = s.accesses) : Sound s' where
  globals := hs.globals.trans_le hf.length_le
  objects o ho := Object.Closed.frame hf (hs.objects o (hobjects ▸ ho))
  accesses x hx := hs.accesses x (haccesses ▸ hx)

theorem Sound.object {s : Interpreter N} (hs : Sound s) {v : Value N} {o : Object N}
    (ho : objectOf v s = some o) : o.Closed s.environments := by
  cases v with
  | obj a => exact hs.objects o (List.mem_of_getElem? ho)
  | nil | bool | number | string => cases ho

end Lox.Jlox
