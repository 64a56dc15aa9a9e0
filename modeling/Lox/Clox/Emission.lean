import Lox.Clox.Certificate

/-!
# What code generation emits

The code of a statement is put together in a few ways only: straight code, jumps over a piece of
code, branches, loops, functions and methods, and returns.  `Emission` has one rule for each, and
`genStmts_emission` says that there are no others; what holds of all emitted code is then shown by
induction on `Emission`.
-/

namespace Lox.Clox

variable {N : Type}

/-! ### Contexts -/

/-- Everything but the instructions that jump, return, or make functions and methods. -/
def Instr.Straight : Instr → Prop
  | .jump _ | .jumpIfFalse _ | .loop _ | .return_ | .closure _ _ | .method _ => False
  | _ => True

/-- A compiler of the same function, with no further functions among its constants. -/
structure Compiler.Keeps (c c' : Compiler N) : Prop where
  type : c'.type = c.type
  constants : c.constants <+: c'.constants
  functions : ∀ g, Constant.function g ∈ c'.constants → Constant.function g ∈ c.constants

/-- No function is begun, ended or added to the constants. -/
def Ctx.Keeps (x y : Ctx N) : Prop := List.Forall₂ Compiler.Keeps x.compilers y.compilers

theorem Compiler.Keeps.refl (c : Compiler N) : c.Keeps c := ⟨rfl, List.prefix_rfl, fun _ h => h⟩

theorem Compiler.Keeps.trans {c d e : Compiler N} (h₁ : c.Keeps d) (h₂ : d.Keeps e) : c.Keeps e :=
  ⟨h₂.type.trans h₁.type, h₁.constants.trans h₂.constants,
    fun g h => h₁.functions g (h₂.functions g h)⟩

theorem Ctx.Keeps.refl (x : Ctx N) : x.Keeps x :=
  List.forall₂_same.2 fun c _ => Compiler.Keeps.refl c

theorem Ctx.Keeps.trans {x y z : Ctx N} (h₁ : x.Keeps y) (h₂ : y.Keeps z) : x.Keeps z :=
  forall₂_trans (R := Compiler.Keeps) (fun _ _ _ h k => h.trans k) h₁ h₂

theorem keeps_mapCurrent (x : Ctx N) {f : Compiler N → Compiler N}
    (h : ∀ c : Compiler N, c.Keeps (f c)) :
    x.Keeps (x.mapCurrent f) := by
  unfold Ctx.Keeps Ctx.mapCurrent
  cases x.compilers with
  | nil => exact .nil
  | cons c cs => exact .cons (h c) (List.forall₂_same.2 fun c _ => Compiler.Keeps.refl c)

/-- A change of a compiler that leaves its function and constants alone. -/
theorem Compiler.keeps_of_eq {c c' : Compiler N} (htype : c'.type = c.type)
    (hconstants : c'.constants = c.constants) : c.Keeps c' :=
  ⟨htype, by rw [hconstants], fun g h => by rwa [hconstants] at h⟩

/-- The index of a new constant is its place in the pool. -/
theorem makeConstant_eq {value : Constant N} {k : UInt8} {x y : Ctx N}
    (h : x.makeConstant value = some (k, y)) :
    (x.compilers.head?.map (·.constants.length)).getD 0 ≤ 255 ∧
    k = UInt8.ofNat ((x.compilers.head?.map (·.constants.length)).getD 0) ∧
    y = x.mapCurrent fun c => { c with constants := c.constants ++ [value] } := by
  simp only [Ctx.makeConstant] at h
  split at h
  · cases h
  rename_i hle
  obtain ⟨rfl, rfl⟩ := Prod.mk.inj (Option.some.inj h)
  exact ⟨Nat.le_of_not_lt hle, rfl, rfl⟩

theorem makeConstant_keeps {value : Constant N} (hvalue : ∀ g, value ≠ .function g) {k : UInt8}
    {x y : Ctx N} (h : x.makeConstant value = some (k, y)) : x.Keeps y := by
  obtain ⟨-, -, rfl⟩ := makeConstant_eq h
  refine keeps_mapCurrent x fun c => ⟨rfl, List.prefix_append _ _, fun g hg => ?_⟩
  rcases List.mem_append.1 hg with hg | hg
  · exact hg
  · exact absurd (List.mem_singleton.1 hg).symm (hvalue g)

theorem identifierConstant_keeps {name : Name} {k : UInt8} {x y : Ctx N}
    (h : x.identifierConstant name = some (k, y)) : x.Keeps y :=
  makeConstant_keeps (by simp) h

theorem addUpvalue_keeps {index : UInt8} {isLocal : Bool} {c c' : Compiler N} {i : ℕ}
    {errors : List String} (h : addUpvalue index isLocal c = (i, c', errors)) : c.Keeps c' := by
  unfold addUpvalue at h
  split at h
  · obtain ⟨-, rfl, -⟩ : _ ∧ _ ∧ _ := by simpa using h
    exact Compiler.Keeps.refl c
  · split at h
    · obtain ⟨-, rfl, -⟩ : _ ∧ _ ∧ _ := by simpa using h
      exact Compiler.Keeps.refl c
    · obtain ⟨-, rfl, -⟩ : _ ∧ _ ∧ _ := by simpa using h
      exact Compiler.keeps_of_eq rfl rfl

theorem resolveUpvalue_keeps {name : Name} : ∀ {cs cs' : List (Compiler N)} {r : Option ℕ}
    {errors : List String}, resolveUpvalue name cs = (r, cs', errors) →
    List.Forall₂ Compiler.Keeps cs cs' := by
  intro cs
  induction cs with
  | nil =>
    intro cs' r errors h
    obtain ⟨-, rfl, -⟩ : _ ∧ _ ∧ _ := by simpa [resolveUpvalue] using h
    exact .nil
  | cons c cs ih =>
    intro cs' r errors h
    cases cs with
    | nil =>
      obtain ⟨-, rfl, -⟩ : _ ∧ _ ∧ _ := by simpa [resolveUpvalue] using h
      exact .cons (Compiler.Keeps.refl c) .nil
    | cons e cs =>
      simp only [resolveUpvalue] at h
      split at h
      · rename_i slot uninitialized _
        obtain ⟨-, rfl, -⟩ : _ ∧ _ ∧ _ := by simpa using h
        refine .cons (addUpvalue_keeps rfl) (.cons (Compiler.keeps_of_eq rfl rfl) ?_)
        exact List.forall₂_same.2 fun c _ => Compiler.Keeps.refl c
      · split at h
        · rename_i upvalue ds errors' hup
          obtain ⟨-, rfl, -⟩ : _ ∧ _ ∧ _ := by simpa using h
          exact .cons (addUpvalue_keeps rfl) (ih hup)
        · rename_i ds errors' hup
          obtain ⟨-, rfl, -⟩ : _ ∧ _ ∧ _ := by simpa using h
          exact .cons (Compiler.Keeps.refl c) (ih hup)

theorem resolveVariable_keeps {name : Name} {ref : VarRef} {x y : Ctx N}
    (h : x.resolveVariable name = some (ref, y)) : x.Keeps y := by
  unfold Ctx.resolveVariable at h
  split at h
  · split at h
    · cases h
    · obtain ⟨-, rfl⟩ := Prod.mk.inj (Option.some.inj h)
      exact Ctx.Keeps.refl _
  · split at h
    · rename_i hup
      split at h
      · obtain ⟨-, rfl⟩ := Prod.mk.inj (Option.some.inj h)
        exact resolveUpvalue_keeps hup
      · cases h
    · rename_i cs errors hup
      split at h
      · simp only [Option.bind_eq_bind, Option.bind_eq_some_iff, Prod.exists] at h
        obtain ⟨k, x₁, hk, h⟩ := h
        obtain ⟨-, rfl⟩ := Prod.mk.inj (Option.some.inj h)
        have hup' : x.Keeps { x with compilers := cs } := resolveUpvalue_keeps hup
        exact hup'.trans (identifierConstant_keeps hk)
      · cases h

theorem addLocal_keeps {name : Name} {x y : Ctx N} (h : x.addLocal name = some y) : x.Keeps y := by
  unfold Ctx.addLocal at h
  split at h
  · cases h
  · obtain rfl := Option.some.inj h
    exact keeps_mapCurrent x fun c => Compiler.keeps_of_eq rfl rfl

theorem declareVariable_keeps {name : Name} {x y : Ctx N} (h : x.declareVariable name = some y) :
    x.Keeps y := by
  unfold Ctx.declareVariable at h
  split at h
  · obtain rfl := Option.some.inj h
    exact Ctx.Keeps.refl _
  · split at h
    · exact addLocal_keeps h
    · cases h

theorem parseVariable_keeps {name : Name} {k : UInt8} {x y : Ctx N}
    (h : x.parseVariable name = some (k, y)) : x.Keeps y := by
  unfold Ctx.parseVariable at h
  simp only [Option.bind_eq_bind, Option.bind_eq_some_iff] at h
  obtain ⟨x₁, h₁, h⟩ := h
  split at h
  · obtain ⟨-, rfl⟩ := Prod.mk.inj (Option.some.inj h)
    exact declareVariable_keeps h₁
  · exact (declareVariable_keeps h₁).trans (identifierConstant_keeps h)

theorem markInitialized_keeps (x : Ctx N) : x.Keeps x.markInitialized := by
  unfold Ctx.markInitialized
  split
  · exact Ctx.Keeps.refl x
  · exact keeps_mapCurrent x fun c => Compiler.keeps_of_eq rfl rfl

theorem defineVariable_keeps (k : UInt8) (x : Ctx N) : x.Keeps (x.defineVariable k).2 := by
  unfold Ctx.defineVariable
  split
  · exact markInitialized_keeps x
  · exact Ctx.Keeps.refl x

theorem beginScope_keeps (x : Ctx N) : x.Keeps x.beginScope :=
  keeps_mapCurrent x fun _ => Compiler.keeps_of_eq rfl rfl

theorem endScope_keeps (x : Ctx N) : x.Keeps x.endScope.2 := by
  unfold Ctx.endScope
  split
  · exact Ctx.Keeps.refl x
  · rename_i c cs hx
    unfold Ctx.Keeps
    rw [hx]
    exact .cons (Compiler.keeps_of_eq rfl rfl) (List.forall₂_same.2 fun c _ => Compiler.Keeps.refl c)

theorem endClass_keeps (x : Ctx N) : x.Keeps x.endClass.2 := by
  unfold Ctx.endClass
  simp only
  split
  · exact endScope_keeps x
  · exact Ctx.Keeps.refl x

theorem parameters_keeps : ∀ {names : List Name} {x y : Ctx N}, x.parameters names = some y →
    x.Keeps y := by
  intro names
  induction names with
  | nil =>
    intro x y h
    obtain rfl := Option.some.inj h
    exact Ctx.Keeps.refl _
  | cons name names ih =>
    intro x y h
    simp only [Ctx.parameters] at h
    split at h
    · cases h
    · simp only [Option.bind_eq_bind, Option.bind_eq_some_iff, Prod.exists] at h
      obtain ⟨k, x₁, h₁, h⟩ := h
      have harity : x.Keeps (x.mapCurrent fun c => { c with arity := c.arity + 1 }) :=
        keeps_mapCurrent x fun _ => Compiler.keeps_of_eq rfl rfl
      exact ((harity.trans (parseVariable_keeps h₁)).trans (defineVariable_keeps 0 x₁)).trans (ih h)

/-- A function is finished and becomes a constant of the enclosing one. -/
theorem closure_eq {y x' : Ctx N} {is js : List Instr} (h : y.closure is = some (js, x')) :
    ∃ c cs k, y.compilers = c :: cs ∧ js = [.closure k c.upvalues] ∧
      Ctx.makeConstant (.function (c.finish (encodeAll (is ++ y.returnCode))))
        { y with compilers := cs } = some (k, x') := by
  unfold Ctx.closure at h
  split at h
  · cases h
  rename_i c cs hy
  simp only [Option.bind_eq_bind, Option.bind_eq_some_iff, Prod.exists] at h
  obtain ⟨k, x₁, hk, h⟩ := h
  obtain ⟨rfl, rfl⟩ := Prod.mk.inj (Option.some.inj h)
  exact ⟨c, cs, k, hy, rfl, hk⟩

/-- The same function, with more constants. -/
def Compiler.Extends (c c' : Compiler N) : Prop := c'.type = c.type ∧ c.constants <+: c'.constants

/-- The same functions, with more constants. -/
def Ctx.Follows (x y : Ctx N) : Prop := List.Forall₂ Compiler.Extends x.compilers y.compilers

theorem Compiler.Extends.trans {c d e : Compiler N} (h₁ : c.Extends d) (h₂ : d.Extends e) :
    c.Extends e :=
  ⟨h₂.1.trans h₁.1, h₁.2.trans h₂.2⟩

theorem Ctx.Follows.refl (x : Ctx N) : x.Follows x :=
  List.forall₂_same.2 fun _ _ => ⟨rfl, List.prefix_rfl⟩

theorem Ctx.Follows.trans {x y z : Ctx N} (h₁ : x.Follows y) (h₂ : y.Follows z) : x.Follows z :=
  forall₂_trans (R := Compiler.Extends) (fun _ _ _ h k => h.trans k) h₁ h₂

theorem Ctx.Keeps.follows {x y : Ctx N} (h : x.Keeps y) : x.Follows y :=
  List.Forall₂.imp (fun _ _ h => ⟨h.type, h.constants⟩) h

theorem Ctx.Follows.head {x y : Ctx N} (h : x.Follows y) {c : Compiler N} {cs : List (Compiler N)}
    (hx : x.compilers = c :: cs) : ∃ c' cs', y.compilers = c' :: cs' ∧ c.Extends c' ∧
      List.Forall₂ Compiler.Extends cs cs' := by
  unfold Ctx.Follows at h
  rw [hx] at h
  obtain ⟨c', cs', head, tail, hy⟩ := List.forall₂_cons_left_iff.1 h
  exact ⟨c', cs', hy, head, tail⟩

theorem Ctx.Follows.type_eq {x y : Ctx N} (h : x.Follows y) : y.type = x.type := by
  unfold Ctx.type
  cases hx : x.compilers with
  | nil =>
    unfold Ctx.Follows at h
    rw [hx] at h
    rw [List.forall₂_nil_left_iff.1 h]
  | cons c cs =>
    obtain ⟨c', cs', hy, head, -⟩ := h.head hx
    simp [hy, head.1]

theorem closure_follows {type : FunctionType} {name : Name} {x y y' x' : Ctx N}
    {is js : List Instr} (hbegins : (x.initCompiler type name).Keeps y) (hinside : y.Follows y')
    (hclosure : y'.closure is = some (js, x')) : x.Follows x' := by
  obtain ⟨c, cs, k, hy', -, hk⟩ := closure_eq hclosure
  obtain ⟨-, -, rfl⟩ := makeConstant_eq hk
  obtain ⟨c', cs', heq, -, htail⟩ := (hbegins.follows.trans hinside).head rfl
  rw [hy'] at heq
  obtain ⟨rfl, rfl⟩ := List.cons.inj heq
  have htail' : x.Follows { y' with compilers := cs } := htail
  refine htail'.trans ?_
  unfold Ctx.Follows Ctx.mapCurrent
  cases cs with
  | nil => exact .nil
  | cons e cs =>
    exact .cons ⟨rfl, List.prefix_append _ _⟩ (List.forall₂_same.2 fun _ _ => ⟨rfl, List.prefix_rfl⟩)

/-! ### Code -/

/-- What code generation emits from one context to another. -/
inductive Emission : Ctx N → List Instr → Ctx N → Prop where
  | straight {x y : Ctx N} {is : List Instr} (keeps : x.Keeps y) (code : ∀ i ∈ is, i.Straight) :
      Emission x is y
  | append {x y z : Ctx N} {is js : List Instr} (first : Emission x is y) (second : Emission y js z) :
      Emission x (is ++ js) z
  | skip {x y : Ctx N} {is : List Instr} {jump : ℕ → Instr} {i : Instr}
      (op : jump = .jump ∨ jump = .jumpIfFalse) (piece : Emission x is y)
      (fits : jumpOver jump is = some i) : Emission x (i :: is) y
  | skipUnless {x y : Ctx N} {is : List Instr} {i : Instr} (piece : Emission x is y)
      (fits : jumpOver .jump is = some i) : Emission x (.jumpIfFalse 3 :: i :: is) y
  | branch {x y z : Ctx N} {ts es : List Instr} {past skip : Instr} (thenBranch : Emission x ts y)
      (elseBranch : Emission y es z) (past_fits : jumpOver .jump es = some past)
      (skip_fits : jumpOver .jumpIfFalse (ts ++ [past]) = some skip) :
      Emission x (skip :: (ts ++ past :: es)) z
  | loop {x y z w : Ctx N} {condition increment : Option (List Instr)} {body code : List Instr}
      (no_condition : condition = none → x.Keeps y)
      (some_condition : ∀ is, condition = some is → Emission x is y)
      (no_increment : increment = none → y.Keeps z)
      (some_increment : ∀ is, increment = some is → Emission y is z)
      (inside : Emission z body w) (fits : loopCode condition increment body = some code) :
      Emission x code w
  | function {x y y' x' : Ctx N} {name : Name} {body : List (Stmt N)} {is js : List Instr}
      (begins : (x.initCompiler .function name).Keeps y)
      (generated : genStmts body y = some (is, y')) (inside : Emission y is y')
      (closure : y'.closure is = some (js, x')) : Emission x js x'
  | method {x x₁ y y' x' : Ctx N} {name : Name} {k : UInt8} {body : List (Stmt N)}
      {is js : List Instr} (constant : x.identifierConstant name = some (k, x₁))
      (begins : (x₁.initCompiler (methodType name) name).Keeps y)
      (generated : genStmts body y = some (is, y')) (inside : Emission y is y')
      (closure : y'.closure is = some (js, x')) : Emission x (js ++ [.method k]) x'
  | return_ {x : Ctx N} (type : x.type = .function ∨ x.type = .method) : Emission x [.return_] x
  | returnCode {x : Ctx N} (type : x.type ≠ .script) : Emission x x.returnCode x

/-- The clauses of a loop, if they are there. -/
theorem follows_clause {x y : Ctx N} {clause : Option (List Instr)} (hnone : clause = none → x.Keeps y)
    (hsome : ∀ is, clause = some is → x.Follows y) : x.Follows y := by
  cases clause with
  | none => exact (hnone rfl).follows
  | some is => exact hsome is rfl

/-- The functions that are compiled stay the same, and so do the constants they have. -/
theorem Emission.follows {x y : Ctx N} {is : List Instr} (h : Emission x is y) : x.Follows y := by
  induction h with
  | straight keeps code => exact keeps.follows
  | append first second ih₁ ih₂ => exact ih₁.trans ih₂
  | skip op piece fits ih | skipUnless piece fits ih => exact ih
  | branch thenBranch elseBranch past_fits skip_fits ih₁ ih₂ => exact ih₁.trans ih₂
  | loop no_condition some_condition no_increment some_increment inside fits ihc ihi ihb =>
    exact ((follows_clause no_condition ihc).trans (follows_clause no_increment ihi)).trans ihb
  | function begins generated inside closure ih => exact closure_follows begins ih closure
  | method constant begins generated inside closure ih =>
    exact (identifierConstant_keeps constant).follows.trans (closure_follows begins ih closure)
  | return_ type | returnCode type => exact Ctx.Follows.refl _

/-- The instructions of a loop. -/
theorem mem_loopCode {condition increment : Option (List Instr)} {body code : List Instr} {i : Instr}
    (h : loopCode condition increment body = some code) (hi : i ∈ code) :
    (∃ is, condition = some is ∧ i ∈ is) ∨ (∃ is, increment = some is ∧ i ∈ is) ∨ i ∈ body ∨
      i = .pop ∨ ∃ d ≤ 65535, i = .jump d ∨ i = .jumpIfFalse d ∨ i = .loop d := by
  obtain ⟨step, back, exit, hstep, -, hback, -, hexit, rfl⟩ := loopCode_eq h
  have hcondition : i ∈ conditionCode exit condition → (∃ is, condition = some is ∧ i ∈ is) ∨
      i = .pop ∨ ∃ d ≤ 65535, i = .jump d ∨ i = .jumpIfFalse d ∨ i = .loop d := by
    intro hi
    cases condition with
    | none => cases hi
    | some is =>
      simp only [conditionCode, List.mem_append, List.mem_cons, List.not_mem_nil, or_false] at hi
      rcases hi with hi | rfl | rfl
      · exact .inl ⟨is, rfl, hi⟩
      · exact .inr (.inr ⟨exit, hexit (by simp), .inr (.inl rfl)⟩)
      · exact .inr (.inl rfl)
  have hincrement : i ∈ step → (∃ is, increment = some is ∧ i ∈ is) ∨
      i = .pop ∨ ∃ d ≤ 65535, i = .jump d ∨ i = .jumpIfFalse d ∨ i = .loop d := by
    intro hi
    cases increment with
    | none =>
      obtain rfl := Option.some.inj hstep
      cases hi
    | some js =>
      obtain ⟨again, past, -, hagain, -, hpast, rfl⟩ := incrementCode_eq hstep
      simp only [List.mem_append, List.mem_cons, List.not_mem_nil, or_false] at hi
      rcases hi with rfl | hi | rfl | rfl
      · exact .inr (.inr ⟨past, hpast, .inl rfl⟩)
      · exact .inl ⟨js, rfl, hi⟩
      · exact .inr (.inl rfl)
      · exact .inr (.inr ⟨again, hagain, .inr (.inr rfl)⟩)
  have htail : i ∈ loopTail condition → i = .pop := by
    intro hi
    cases condition with
    | none => cases hi
    | some is => exact List.mem_singleton.1 hi
  simp only [List.mem_append, List.mem_singleton] at hi
  rcases hi with (((hi | hi) | hi) | rfl) | hi
  · rcases hcondition hi with h | h
    · exact .inl h
    · exact .inr (.inr (.inr h))
  · rcases hincrement hi with h | h
    · exact .inr (.inl h)
    · exact .inr (.inr (.inr h))
  · exact .inr (.inr (.inl hi))
  · exact .inr (.inr (.inr (.inr ⟨back, hback, .inr (.inr rfl)⟩)))
  · exact .inr (.inr (.inr (.inl (htail hi))))

/-- The statements of a script do not return. -/
theorem Emission.return_not_mem {x y : Ctx N} {is : List Instr} (h : Emission x is y)
    (hx : x.type = .script) : .return_ ∉ is := by
  induction h with
  | straight keeps code => exact fun hmem => code _ hmem
  | append first second ih₁ ih₂ =>
    rw [List.mem_append, not_or]
    exact ⟨ih₁ hx, ih₂ (first.follows.type_eq.trans hx)⟩
  | skip op piece fits ih =>
    obtain ⟨-, rfl⟩ := jumpOver_some fits
    rcases op with rfl | rfl <;> simpa using ih hx
  | skipUnless piece fits ih =>
    obtain ⟨-, rfl⟩ := jumpOver_some fits
    simpa using ih hx
  | branch thenBranch elseBranch past_fits skip_fits ih₁ ih₂ =>
    obtain ⟨-, rfl⟩ := jumpOver_some past_fits
    obtain ⟨-, rfl⟩ := jumpOver_some skip_fits
    simpa using ⟨ih₁ hx, ih₂ (thenBranch.follows.type_eq.trans hx)⟩
  | @loop x y z w condition increment body code no_condition some_condition no_increment
      some_increment inside fits ihc ihi ihb =>
    have hy : y.type = .script := by
      rw [← hx]
      exact (follows_clause no_condition fun is h => (some_condition is h).follows).type_eq
    have hz : z.type = .script := by
      rw [← hy]
      exact (follows_clause no_increment fun is h => (some_increment is h).follows).type_eq
    intro hmem
    rcases mem_loopCode fits hmem with ⟨is, rfl, hi⟩ | ⟨is, rfl, hi⟩ | hi | hi | ⟨d, -, hi | hi | hi⟩
    · exact ihc is rfl hx hi
    · exact ihi is rfl hy hi
    · exact ihb hz hi
    all_goals cases hi
  | function begins generated inside closure ih =>
    obtain ⟨c, cs, k, -, rfl, -⟩ := closure_eq closure
    simp
  | method constant begins generated inside closure ih =>
    obtain ⟨c, cs, k, -, rfl, -⟩ := closure_eq closure
    simp
  | return_ type => simp [hx] at type
  | returnCode type => exact absurd hx type

theorem Ctx.Keeps.emission {x y : Ctx N} (h : x.Keeps y) : Emission x [] y :=
  .straight h (by simp)

theorem emission_code (x : Ctx N) {is : List Instr} (h : ∀ i ∈ is, i.Straight) : Emission x is x :=
  .straight (Ctx.Keeps.refl x) h

/-- The condition is dropped before a branch. -/
theorem emission_pop_cons {x y : Ctx N} {is : List Instr} (h : Emission x is y) :
    Emission x (.pop :: is) y :=
  have hpop : Emission x [.pop] x := emission_code x (by simp [Instr.Straight])
  hpop.append h

/-- Straight code at the end. -/
theorem Emission.then {x y z : Ctx N} {is js : List Instr} (h : Emission x is y) (hkeeps : y.Keeps z)
    (hjs : ∀ i ∈ js, i.Straight) : Emission x (is ++ js) z :=
  .append h (.straight hkeeps hjs)

/-- The context changes before any code. -/
theorem Emission.after {x y z : Ctx N} {is : List Instr} (h : Emission y is z) (hkeeps : x.Keeps y) :
    Emission x is z := by
  have happend := Emission.append hkeeps.emission h
  rwa [List.nil_append] at happend

@[simp] theorem VarRef.load_straight (ref : VarRef) : ref.load.Straight := by
  cases ref <;> trivial

@[simp] theorem VarRef.store_straight (ref : VarRef) : ref.store.Straight := by
  cases ref <;> trivial

theorem BinaryOp.code_straight (op : BinaryOp) : ∀ i ∈ op.code, i.Straight := by
  cases op <;> simp [BinaryOp.code, Instr.Straight]

@[simp] theorem UnaryOp.code_straight (op : UnaryOp) : op.code.Straight := by
  cases op <;> trivial

theorem dropCode_straight (flags : List Bool) : ∀ i ∈ dropCode flags, i.Straight := by
  intro i hi
  obtain ⟨isCaptured, -, rfl⟩ := List.mem_map.1 hi
  cases isCaptured <;> trivial

theorem defineVariable_straight (k : UInt8) (x : Ctx N) :
    ∀ i ∈ (x.defineVariable k).1, i.Straight := by
  unfold Ctx.defineVariable
  split <;> simp [Instr.Straight]

theorem endScope_straight (x : Ctx N) : ∀ i ∈ x.endScope.1, i.Straight := by
  unfold Ctx.endScope
  split
  · simp
  · exact dropCode_straight _

theorem endClass_straight (x : Ctx N) : ∀ i ∈ x.endClass.1, i.Straight := by
  unfold Ctx.endClass
  simp only
  split
  · exact endScope_straight x
  · simp

/-! ### Expressions -/

mutual

theorem genExpr_emission : ∀ (e : Expr N) {x x' : Ctx N} {is : List Instr},
    genExpr e x = some (is, x') → Emission x is x'
  | .nil, x, x', is, h | .true_, x, x', is, h | .false_, x, x', is, h => by
    obtain ⟨rfl, rfl⟩ := Prod.mk.inj (Option.some.inj h)
    exact emission_code _ (by simp [Instr.Straight])
  | .number v, x, x', is, h | .string v, x, x', is, h => by
    simp only [genExpr, Option.bind_eq_bind, Option.bind_eq_some_iff, Prod.exists] at h
    obtain ⟨k, x₁, hk, h⟩ := h
    obtain ⟨rfl, rfl⟩ := Prod.mk.inj (Option.some.inj h)
    exact .straight (makeConstant_keeps (by simp) hk) (by simp [Instr.Straight])
  | .grouping e, x, x', is, h => by
    rw [genExpr] at h
    exact genExpr_emission e h
  | .unary op e, x, x', is, h => by
    simp only [genExpr, Option.bind_eq_bind, Option.bind_eq_some_iff, Prod.exists] at h
    obtain ⟨is, y, he, h⟩ := h
    obtain ⟨rfl, rfl⟩ := Prod.mk.inj (Option.some.inj h)
    exact (genExpr_emission e he).then (Ctx.Keeps.refl _) (by simp)
  | .binary op l r, x, x', is, h => by
    simp only [genExpr, Option.bind_eq_bind, Option.bind_eq_some_iff, Prod.exists] at h
    obtain ⟨is, y, hl, js, z, hr, h⟩ := h
    obtain ⟨rfl, rfl⟩ := Prod.mk.inj (Option.some.inj h)
    exact (Emission.append (genExpr_emission l hl) (genExpr_emission r hr)).then (Ctx.Keeps.refl _)
      op.code_straight
  | .and_ l r, x, x', is, h => by
    simp only [genExpr, Option.bind_eq_bind, Option.bind_eq_some_iff, Prod.exists] at h
    obtain ⟨is, y, hl, js, z, hr, jump, hjump, h⟩ := h
    obtain ⟨rfl, rfl⟩ := Prod.mk.inj (Option.some.inj h)
    have hpop := emission_pop_cons (genExpr_emission r hr)
    have hskip := Emission.append (genExpr_emission l hl) (.skip (.inr rfl) hpop hjump)
    simpa using hskip
  | .or_ l r, x, x', is, h => by
    simp only [genExpr, Option.bind_eq_bind, Option.bind_eq_some_iff, Prod.exists] at h
    obtain ⟨is, y, hl, js, z, hr, jump, hjump, h⟩ := h
    obtain ⟨rfl, rfl⟩ := Prod.mk.inj (Option.some.inj h)
    have hpop := emission_pop_cons (genExpr_emission r hr)
    have hskip := Emission.append (genExpr_emission l hl) (.skipUnless hpop hjump)
    simpa using hskip
  | .variable_ name, x, x', is, h => by
    simp only [genExpr, Option.bind_eq_bind, Option.bind_eq_some_iff, Prod.exists] at h
    obtain ⟨ref, y, href, h⟩ := h
    obtain ⟨rfl, rfl⟩ := Prod.mk.inj (Option.some.inj h)
    exact .straight (resolveVariable_keeps href) (by simp)
  | .assign name e, x, x', is, h => by
    simp only [genExpr, Option.bind_eq_bind, Option.bind_eq_some_iff, Prod.exists] at h
    obtain ⟨ref, y, href, is, z, he, h⟩ := h
    obtain ⟨rfl, rfl⟩ := Prod.mk.inj (Option.some.inj h)
    exact ((genExpr_emission e he).after (resolveVariable_keeps href)).then (Ctx.Keeps.refl _)
      (by simp)
  | .call callee args, x, x', is, h => by
    simp only [genExpr, Option.bind_eq_bind, Option.bind_eq_some_iff, Prod.exists] at h
    obtain ⟨is, y, he, js, z, hargs, h⟩ := h
    obtain ⟨rfl, rfl⟩ := Prod.mk.inj (Option.some.inj h)
    exact (Emission.append (genExpr_emission callee he) (genArgs_emission args hargs)).then
      (Ctx.Keeps.refl _) (by simp [Instr.Straight])
  | .get object name, x, x', is, h => by
    simp only [genExpr, Option.bind_eq_bind, Option.bind_eq_some_iff, Prod.exists] at h
    obtain ⟨is, y, he, k, z, hk, h⟩ := h
    obtain ⟨rfl, rfl⟩ := Prod.mk.inj (Option.some.inj h)
    exact (genExpr_emission object he).then (identifierConstant_keeps hk) (by simp [Instr.Straight])
  | .set object name value, x, x', is, h => by
    simp only [genExpr, Option.bind_eq_bind, Option.bind_eq_some_iff, Prod.exists] at h
    obtain ⟨is, y, he, k, y₁, hk, js, z, hv, h⟩ := h
    obtain ⟨rfl, rfl⟩ := Prod.mk.inj (Option.some.inj h)
    exact (Emission.append (genExpr_emission object he)
      ((genExpr_emission value hv).after (identifierConstant_keeps hk))).then (Ctx.Keeps.refl _)
      (by simp [Instr.Straight])
  | .invoke object name args, x, x', is, h => by
    simp only [genExpr, Option.bind_eq_bind, Option.bind_eq_some_iff, Prod.exists] at h
    obtain ⟨is, y, he, k, y₁, hk, js, z, hargs, h⟩ := h
    obtain ⟨rfl, rfl⟩ := Prod.mk.inj (Option.some.inj h)
    exact (Emission.append (genExpr_emission object he)
      ((genArgs_emission args hargs).after (identifierConstant_keeps hk))).then (Ctx.Keeps.refl _)
      (by simp [Instr.Straight])
  | .this_, x, x', is, h => by
    simp only [genExpr] at h
    split at h
    · cases h
    · simp only [Option.bind_eq_bind, Option.bind_eq_some_iff, Prod.exists] at h
      obtain ⟨ref, y, href, h⟩ := h
      obtain ⟨rfl, rfl⟩ := Prod.mk.inj (Option.some.inj h)
      exact .straight (resolveVariable_keeps href) (by simp)
  | .super_ method, x, x', is, h => by
    simp only [genExpr] at h
    split at h
    · simp only [Option.bind_eq_bind, Option.bind_eq_some_iff, Prod.exists] at h
      obtain ⟨k, y, hk, receiver, y₁, hr, superclass, z, hs, h⟩ := h
      obtain ⟨rfl, rfl⟩ := Prod.mk.inj (Option.some.inj h)
      exact .straight ((identifierConstant_keeps hk).trans ((resolveVariable_keeps hr).trans
        (resolveVariable_keeps hs))) (List.forall_mem_cons.2 ⟨receiver.load_straight,
        List.forall_mem_cons.2 ⟨superclass.load_straight, by simp [Instr.Straight]⟩⟩)
    · cases h
  | .superInvoke method args, x, x', is, h => by
    simp only [genExpr] at h
    split at h
    · simp only [Option.bind_eq_bind, Option.bind_eq_some_iff, Prod.exists] at h
      obtain ⟨k, y, hk, receiver, y₁, hr, js, z, hargs, superclass, w, hs, h⟩ := h
      obtain ⟨rfl, rfl⟩ := Prod.mk.inj (Option.some.inj h)
      have hreceiver : Emission x [receiver.load] y₁ :=
        .straight ((identifierConstant_keeps hk).trans (resolveVariable_keeps hr)) (by simp)
      exact (Emission.append hreceiver (genArgs_emission args hargs)).then (resolveVariable_keeps hs)
        (List.forall_mem_cons.2 ⟨superclass.load_straight, by simp [Instr.Straight]⟩)
    · cases h

theorem genArgs_emission : ∀ (es : List (Expr N)) {x x' : Ctx N} {is : List Instr},
    genArgs es x = some (is, x') → Emission x is x'
  | [], x, x', is, h => by
    obtain ⟨rfl, rfl⟩ := Prod.mk.inj (Option.some.inj h)
    exact (Ctx.Keeps.refl _).emission
  | e :: es, x, x', is, h => by
    simp only [genArgs, Option.bind_eq_bind, Option.bind_eq_some_iff, Prod.exists] at h
    obtain ⟨is, y, he, js, z, hes, h⟩ := h
    split at h
    · cases h
    · obtain ⟨rfl, rfl⟩ := Prod.mk.inj (Option.some.inj h)
      exact .append (genExpr_emission e he) (genArgs_emission es hes)

end

theorem genOption_emission {default : List Instr} (hdefault : ∀ i ∈ default, i.Straight)
    {e : Option (Expr N)} {x x' : Ctx N} {is : List Instr}
    (h : genOption default e x = some (is, x')) : Emission x is x' := by
  cases e with
  | none =>
    obtain ⟨rfl, rfl⟩ := Prod.mk.inj (Option.some.inj h)
    exact emission_code _ hdefault
  | some e => exact genExpr_emission e h

/-! ### Statements -/

theorem genVar_emission {name : Name} {init : Option (Expr N)} {x x' : Ctx N} {is : List Instr}
    (h : genVar name init x = some (is, x')) : Emission x is x' := by
  simp only [genVar, Option.bind_eq_bind, Option.bind_eq_some_iff, Prod.exists] at h
  obtain ⟨k, y, hk, is, z, hinit, h⟩ := h
  obtain ⟨rfl, rfl⟩ := Prod.mk.inj (Option.some.inj h)
  exact ((genOption_emission (by simp [Instr.Straight]) hinit).after (parseVariable_keeps hk)).then
    (defineVariable_keeps k z) (defineVariable_straight k z)

theorem genForInit_emission {init : ForInit N} {x x' : Ctx N} {is : List Instr}
    (h : genForInit init x = some (is, x')) : Emission x is x' := by
  cases init with
  | empty =>
    obtain ⟨rfl, rfl⟩ := Prod.mk.inj (Option.some.inj h)
    exact (Ctx.Keeps.refl _).emission
  | var name init => exact genVar_emission h
  | expression e =>
    simp only [genForInit, Option.bind_eq_bind, Option.bind_eq_some_iff, Prod.exists] at h
    obtain ⟨is, y, he, h⟩ := h
    obtain ⟨rfl, rfl⟩ := Prod.mk.inj (Option.some.inj h)
    exact (genExpr_emission e he).then (Ctx.Keeps.refl _) (by simp [Instr.Straight])

/-- An optional clause of a loop. -/
theorem genClause_emission {e : Option (Expr N)} {x x' : Ctx N} {clause : Option (List Instr)}
    (h : genClause e x = some (clause, x')) :
    (clause = none → x.Keeps x') ∧ ∀ is, clause = some is → Emission x is x' := by
  cases e with
  | none =>
    obtain ⟨rfl, rfl⟩ := Prod.mk.inj (Option.some.inj h)
    exact ⟨fun _ => Ctx.Keeps.refl _, fun _ hnone => by cases hnone⟩
  | some e =>
    simp only [genClause, Option.bind_eq_bind, Option.bind_eq_some_iff, Prod.exists] at h
    obtain ⟨is, y, he, h⟩ := h
    obtain ⟨rfl, rfl⟩ := Prod.mk.inj (Option.some.inj h)
    refine ⟨fun hnone => (by cases hnone), fun is' his => ?_⟩
    obtain rfl := Option.some.inj his
    exact genExpr_emission e he

theorem genSuperclass_emission {className : Name} {superclass : Option Name} {x x' : Ctx N}
    {is : List Instr} (h : genSuperclass className superclass x = some (is, x')) :
    Emission x is x' := by
  cases superclass with
  | none =>
    obtain ⟨rfl, rfl⟩ := Prod.mk.inj (Option.some.inj h)
    exact (Ctx.Keeps.refl _).emission
  | some superclass =>
    simp only [genSuperclass, Option.bind_eq_bind, Option.bind_eq_some_iff, Prod.exists] at h
    obtain ⟨ref, y, href, h⟩ := h
    split at h
    · cases h
    · simp only [Option.bind_eq_some_iff, Prod.exists] at h
      obtain ⟨z, hadd, cls, w, hcls, h⟩ := h
      obtain ⟨rfl, rfl⟩ := Prod.mk.inj (Option.some.inj h)
      have hload : Emission x [ref.load] z := .straight ((resolveVariable_keeps href).trans
        ((beginScope_keeps y).trans (addLocal_keeps hadd))) (by simp)
      have hcls' : (z.defineVariable 0).2.Keeps w := resolveVariable_keeps hcls
      exact (hload.then (defineVariable_keeps 0 z) (defineVariable_straight 0 z)).then hcls'
        (List.forall_mem_cons.2 ⟨cls.load_straight, by simp [Instr.Straight]⟩)

mutual

theorem genStmt_emission : ∀ (s : Stmt N) {x x' : Ctx N} {is : List Instr},
    genStmt s x = some (is, x') → Emission x is x'
  | .expression e, x, x', is, h | .print e, x, x', is, h => by
    simp only [genStmt, Option.bind_eq_bind, Option.bind_eq_some_iff, Prod.exists] at h
    obtain ⟨is, y, he, h⟩ := h
    obtain ⟨rfl, rfl⟩ := Prod.mk.inj (Option.some.inj h)
    exact (genExpr_emission e he).then (Ctx.Keeps.refl _) (by simp [Instr.Straight])
  | .var name init, x, x', is, h => by
    rw [genStmt] at h
    exact genVar_emission h
  | .block body, x, x', is, h => by
    simp only [genStmt, Option.bind_eq_bind, Option.bind_eq_some_iff, Prod.exists] at h
    obtain ⟨is, y, hbody, h⟩ := h
    obtain ⟨rfl, rfl⟩ := Prod.mk.inj (Option.some.inj h)
    exact ((genStmts_emission body hbody).after (beginScope_keeps x)).then (endScope_keeps y)
      (endScope_straight y)
  | .if_ condition thenBranch none, x, x', is, h => by
    simp only [genStmt, Option.bind_eq_bind, Option.bind_eq_some_iff, Prod.exists] at h
    obtain ⟨is, y, hc, ts, z, ht, past, hpast, skip, hskip, h⟩ := h
    obtain ⟨rfl, rfl⟩ := Prod.mk.inj (Option.some.inj h)
    have hthen := emission_pop_cons (genStmt_emission thenBranch ht)
    have hbranch := Emission.append (genExpr_emission condition hc) (.branch hthen
      (emission_code z (by simp [Instr.Straight])) hpast hskip)
    simpa using hbranch
  | .if_ condition thenBranch (some elseBranch), x, x', is, h => by
    simp only [genStmt, Option.bind_eq_bind, Option.bind_eq_some_iff, Prod.exists] at h
    obtain ⟨is, y, hc, ts, z, ht, es, w, he, past, hpast, skip, hskip, h⟩ := h
    obtain ⟨rfl, rfl⟩ := Prod.mk.inj (Option.some.inj h)
    have hthen := emission_pop_cons (genStmt_emission thenBranch ht)
    have helse := emission_pop_cons (genStmt_emission elseBranch he)
    have hbranch := Emission.append (genExpr_emission condition hc) (.branch hthen helse hpast hskip)
    simpa using hbranch
  | .while_ condition body, x, x', is, h => by
    simp only [genStmt, Option.bind_eq_bind, Option.bind_eq_some_iff, Prod.exists] at h
    obtain ⟨is, y, hc, bs, z, hb, loop, hloop, h⟩ := h
    obtain ⟨rfl, rfl⟩ := Prod.mk.inj (Option.some.inj h)
    refine .loop (fun hnone => (by cases hnone)) (fun is' his => ?_) (fun _ => Ctx.Keeps.refl y)
      (fun _ hnone => (by cases hnone)) (genStmt_emission body hb) hloop
    obtain rfl := Option.some.inj his
    exact genExpr_emission condition hc
  | .for_ init condition increment body, x, x', is, h => by
    simp only [genStmt, Option.bind_eq_bind, Option.bind_eq_some_iff, Prod.exists] at h
    obtain ⟨is, y, hi, c, y₁, hc, s, y₂, hs, bs, z, hb, loop, hloop, h⟩ := h
    obtain ⟨rfl, rfl⟩ := Prod.mk.inj (Option.some.inj h)
    obtain ⟨hnoc, hsomec⟩ := genClause_emission hc
    obtain ⟨hnos, hsomes⟩ := genClause_emission hs
    exact (Emission.append ((genForInit_emission hi).after (beginScope_keeps x))
      (.loop hnoc hsomec hnos hsomes (genStmt_emission body hb) hloop)).then (endScope_keeps z)
      (endScope_straight z)
  | .function name params body, x, x', is, h => by
    simp only [genStmt, Option.bind_eq_bind, Option.bind_eq_some_iff, Prod.exists] at h
    obtain ⟨k, x₁, hk, y, hparams, is, y', hbody, js, x₂, hclos, h⟩ := h
    obtain ⟨rfl, rfl⟩ := Prod.mk.inj (Option.some.inj h)
    have hbegins : (x₁.markInitialized.initCompiler .function name).Keeps y :=
      (beginScope_keeps _).trans (parameters_keeps hparams)
    have hfunction := Emission.function hbegins hbody (genStmts_emission body hbody) hclos
    exact (hfunction.after ((parseVariable_keeps hk).trans (markInitialized_keeps x₁))).then
      (defineVariable_keeps k x₂) (defineVariable_straight k x₂)
  | .return_ value, x, x', is, h => by
    simp only [genStmt] at h
    split at h
    · cases h
    · rename_i htype
      split at h
      · obtain ⟨rfl, rfl⟩ := Prod.mk.inj (Option.some.inj h)
        exact .returnCode htype
      · rename_i e
        split at h
        · cases h
        · rename_i hinit
          simp only [Option.bind_eq_bind, Option.bind_eq_some_iff, Prod.exists] at h
          obtain ⟨is, y, he, h⟩ := h
          obtain ⟨rfl, rfl⟩ := Prod.mk.inj (Option.some.inj h)
          have hemission := genExpr_emission e he
          refine .append hemission (.return_ ?_)
          rw [hemission.follows.type_eq]
          cases hx : x.type with
          | script => exact absurd hx htype
          | initializer => exact absurd hx hinit
          | function => exact .inl rfl
          | method => exact .inr rfl
  | .class_ name superclass methods, x, x', is, h => by
    simp only [genStmt, Option.bind_eq_bind, Option.bind_eq_some_iff, Prod.exists] at h
    obtain ⟨k, x₁, hk, x₂, hd, ss, w, hss, cls, w₁, hcls, ms, z, hms, h⟩ := h
    obtain ⟨rfl, rfl⟩ := Prod.mk.inj (Option.some.inj h)
    have hclass : Emission x [.class_ k] x₂ := .straight ((identifierConstant_keeps hk).trans
      (declareVariable_keeps hd)) (by simp [Instr.Straight])
    have hbegins : x₂.Keeps { (x₂.defineVariable k).2 with
        classes := ⟨false⟩ :: (x₂.defineVariable k).2.classes } := defineVariable_keeps k x₂
    have hsuper := (hclass.then hbegins (defineVariable_straight k x₂)).append
      (genSuperclass_emission hss)
    have hload : Emission x (_ ++ [cls.load]) w₁ := hsuper.then (resolveVariable_keeps hcls) (by simp)
    have hmethods : Emission x (_ ++ [.pop]) z := (hload.append (genMethods_emission methods hms)).then
      (Ctx.Keeps.refl z) (by simp [Instr.Straight])
    exact hmethods.then (endClass_keeps z) (endClass_straight z)

theorem genStmts_emission : ∀ (ss : List (Stmt N)) {x x' : Ctx N} {is : List Instr},
    genStmts ss x = some (is, x') → Emission x is x'
  | [], x, x', is, h => by
    obtain ⟨rfl, rfl⟩ := Prod.mk.inj (Option.some.inj h)
    exact (Ctx.Keeps.refl _).emission
  | s :: ss, x, x', is, h => by
    simp only [genStmts, Option.bind_eq_bind, Option.bind_eq_some_iff, Prod.exists] at h
    obtain ⟨is, y, hs, js, z, hss, h⟩ := h
    obtain ⟨rfl, rfl⟩ := Prod.mk.inj (Option.some.inj h)
    exact .append (genStmt_emission s hs) (genStmts_emission ss hss)

theorem genMethods_emission : ∀ (ms : List (Stmt N)) {x x' : Ctx N} {is : List Instr},
    genMethods ms x = some (is, x') → Emission x is x'
  | [], x, x', is, h => by
    obtain ⟨rfl, rfl⟩ := Prod.mk.inj (Option.some.inj h)
    exact (Ctx.Keeps.refl _).emission
  | .function name params body :: ms, x, x', is, h => by
    simp only [genMethods, Option.bind_eq_bind, Option.bind_eq_some_iff, Prod.exists] at h
    obtain ⟨k, x₁, hk, y, hparams, is, y', hbody, js, x₂, hclos, ks, x₃, hms, h⟩ := h
    obtain ⟨rfl, rfl⟩ := Prod.mk.inj (Option.some.inj h)
    have hbegins : (x₁.initCompiler (methodType name) name).Keeps y :=
      (beginScope_keeps _).trans (parameters_keeps hparams)
    exact .append (.method hk hbegins hbody (genStmts_emission body hbody) hclos)
      (genMethods_emission ms hms)
  | .expression _ :: _, _, _, _, h | .print _ :: _, _, _, _, h | .var _ _ :: _, _, _, _, h
  | .block _ :: _, _, _, _, h | .if_ _ _ _ :: _, _, _, _, h | .while_ _ _ :: _, _, _, _, h
  | .for_ _ _ _ _ :: _, _, _, _, h | .return_ _ :: _, _, _, _, h
  | .class_ _ _ _ :: _, _, _, _, h => by cases h

end

end Lox.Clox
