import Lox.Clox.Classes
import Lox.Jlox.Value

/-!
# Inheritance by copying and by lookup

A class of clox has a table with all its methods: `OP_INHERIT` copies those of the superclass, then
`OP_METHOD` adds its own.  A class of jlox has its own methods only, and `findMethod` goes on in the
superclass.

* `declareClass` is what the code of a class declaration does; where the class and the superclass
  are stored does not matter, so their values are pushed.
* `Declared` are the runs: class declarations, one after the other, each with a superclass among the
  classes there are, and between them any instructions but `OP_INHERIT` and `OP_METHOD`.
* `Finds` says that a table has the methods that `findMethod` finds: a closure that was made for the
  declaration, or nothing.
-/

namespace Lox

open Clox (Addr ObjFunction Upvalue VM Table Outcome Keeps openUpvalues Double)
open Jlox (LoxClass)

/-- A method in a class declaration: its declaration in the tree, and what it is compiled to. -/
structure MethodDecl (N D : Type) where
  name : Name
  declaration : D
  function : ObjFunction N
  captures : List Upvalue

/-- A class declaration. -/
structure ClassDecl (N D : Type) where
  name : Name
  methods : List (MethodDecl N D)

variable {N D : Type}

/-- The class that `visitClassStmt` makes. -/
def ClassDecl.visitClass (d : ClassDecl N D) (superclass : Option (LoxClass D)) : LoxClass D :=
  .mk d.name superclass
    (LoxClass.putMethods (d.methods.map fun m => (m.name, m.declaration)) fun _ => none)

/-- The declarations that closures were made for. -/
abbrev Closures (D : Type) := Addr → Option D

/-- The machine after an instruction that does not return. -/
def running {β : Type} : Option (Outcome N β) → Option (VM N β)
  | some (.running vm) => some vm
  | _ => none

/-- `OP_CLOSURE` and `OP_METHOD` for every method; the class is on top of the stack. -/
def declareMethods (slots : ℕ) (enclosing : List (Option Addr)) :
    List (MethodDecl N D) → VM N (List Addr) → Closures D →
      Option (VM N (List Addr) × Closures D)
  | [], vm, closures => some (vm, closures)
  | m :: ms, vm, closures => do
      let closures := Function.update closures vm.objects.length (some m.declaration)
      let vm ← running (vm.makeClosure openUpvalues slots enclosing m.function m.captures)
      let vm ← running (vm.defineMethod m.name)
      declareMethods slots enclosing ms vm closures

/-- `OP_INHERIT`, if there is a superclass. -/
def inheritFrom (a : Addr) (vm : VM N (List Addr)) : Option Addr → Option (VM N (List Addr))
  | none => some vm
  | some s => running ((vm.push (.obj s)).push (.obj a)).inherit_

/-- `OP_CLASS`, `OP_INHERIT` if there is a superclass, and the methods. -/
def declareClass (slots : ℕ) (enclosing : List (Option Addr)) (d : ClassDecl N D)
    (superclass : Option Addr) (vm : VM N (List Addr)) (closures : Closures D) :
    Option (Addr × VM N (List Addr) × Closures D) := do
  let (a, vm) := vm.allocate (.klass d.name Table.empty)
  let vm ← inheritFrom a vm superclass
  let (vm, closures) ← declareMethods slots enclosing d.methods (vm.push (.obj a)) closures
  return (a, vm.pop 1, closures)

/-- The states a machine gets into while classes are declared, with the classes of both
implementations. -/
inductive Declared [Double N] :
    VM N (List Addr) → List (Addr × LoxClass D) → Closures D → Prop where
  | start (vm : VM N (List Addr)) : Declared vm [] fun _ => none
  | other {vm vm' : VM N (List Addr)} {classes : List (Addr × LoxClass D)} {closures : Closures D}
      {i : Clox.Instr} {constants : List (Clox.Constant N)} (before : Declared vm classes closures)
      (current : vm.current = some (i, constants)) (keeps : i.changesClass = false)
      (step : Clox.step vm = some (.running vm')) : Declared vm' classes closures
  | declare {vm vm' : VM N (List Addr)} {classes : List (Addr × LoxClass D)}
      {closures closures' : Closures D} {a : Addr} (before : Declared vm classes closures)
      (slots : ℕ) (enclosing : List (Option Addr)) (d : ClassDecl N D)
      (superclass : Option (Addr × LoxClass D)) (there : ∀ s ∈ superclass, s ∈ classes)
      (run : declareClass slots enclosing d (superclass.map Prod.fst) vm closures =
        some (a, vm', closures')) :
      Declared vm' ((a, d.visitClass (superclass.map Prod.snd)) :: classes) closures'

/-- The value is a closure that was made for the declaration. -/
def MadeFor (closures : Closures D) (value : Clox.Value N) (declaration : D) : Prop :=
  ∃ a, value = .obj a ∧ closures a = some declaration

/-- The table has the methods that are found, and no others. -/
def Finds (closures : Closures D) (methods : Table N) (found : Name → Option D) : Prop :=
  ∀ name, Option.Rel (MadeFor closures) (methods name) (found name)

/-! ### The methods of a class in jlox -/

theorem putMethods_eq (ms : List (Name × D)) (base : Name → Option D) (name : Name) :
    LoxClass.putMethods ms base name =
      (LoxClass.putMethods ms (fun _ => none) name).orElse fun _ => base name := by
  induction ms generalizing base with
  | nil => rfl
  | cons m ms ih =>
    obtain ⟨key, method⟩ := m
    simp only [LoxClass.putMethods]
    rw [ih, ih (Function.update (fun _ => none) key (some method))]
    cases LoxClass.putMethods ms (fun _ => none) name with
    | some d => rfl
    | none =>
      by_cases h : name = key
      · subst h
        simp
      · simp [Function.update_of_ne h]

/-- The methods of a class, as if those of the superclass had been copied first. -/
theorem findMethod_visitClass (d : ClassDecl N D) (superclass : Option (LoxClass D))
    (name : Name) :
    (d.visitClass superclass).findMethod name =
      LoxClass.putMethods (d.methods.map fun m => (m.name, m.declaration))
        (fun name => superclass.bind (LoxClass.findMethod name)) name := by
  rw [putMethods_eq, ClassDecl.visitClass, LoxClass.findMethod_mk]

/-! ### The methods of a class in clox -/

/-- `OP_CLOSURE` pushes a new object. -/
theorem makeClosure_pushes {slots : ℕ} {enclosing : List (Option Addr)} {f : ObjFunction N}
    {us : List Upvalue} {vm vm' : VM N (List Addr)}
    (h : running (vm.makeClosure openUpvalues slots enclosing f us) = some vm') :
    vm'.stackTop = vm.stackTop + 1 ∧ vm'.peek 0 = .obj vm.objects.length ∧
      vm'.stack = (vm.push (.obj vm.objects.length)).stack ∧
      vm.objects.length < vm'.objects.length ∧ Keeps vm.objects vm'.objects := by
  unfold running at h
  split at h
  · rename_i vm₁ hmade
    obtain rfl := Option.some.inj h
    have hkeeps := Clox.makeClosure_keeps hmade
    simp only [VM.makeClosure, Option.bind_eq_bind, Option.bind_eq_some_iff, Prod.exists] at hmade
    obtain ⟨upvalues, vm₂, hcaptures, hmade⟩ := hmade
    obtain rfl := Outcome.running.inj (Option.some.inj hmade)
    obtain ⟨hstack, htop⟩ := Clox.captures_stack hcaptures
    have hlength := (Clox.captures_keeps hcaptures).length
    simp only [VM.push, VM.allocate, List.length_append, List.length_singleton] at hlength
    refine ⟨htop, ?_, hstack, ?_, hkeeps.toKeeps⟩
    · simp only [VM.peek, VM.update, hstack, htop]
      exact VM.peek_push_zero _ vm
    · simp only [VM.update, List.length_set]
      omega
  · cases h

/-- Only the class `a` may have changed. -/
structure KeepsBut (a : Addr) (objects objects' : List (Clox.Obj N)) : Prop where
  length : objects.length ≤ objects'.length
  klass : ∀ (b : Addr) name methods, b ≠ a → objects[b]? = some (.klass name methods) →
    objects'[b]? = some (.klass name methods)

theorem KeepsBut.trans {a : Addr} {objects objects₁ objects₂ : List (Clox.Obj N)}
    (h₁ : KeepsBut a objects objects₁) (h₂ : KeepsBut a objects₁ objects₂) :
    KeepsBut a objects objects₂ :=
  ⟨h₁.length.trans h₂.length, fun b _ _ hb h => h₂.klass b _ _ hb (h₁.klass b _ _ hb h)⟩

theorem KeepsBut.of_keeps {objects objects' : List (Clox.Obj N)} (a : Addr)
    (h : Keeps objects objects') : KeepsBut a objects objects' :=
  ⟨h.length, fun b _ _ _ hb => h.klass b _ _ hb⟩

theorem KeepsBut.set (a : Addr) (object : Clox.Obj N) (objects : List (Clox.Obj N)) :
    KeepsBut a objects (objects.set a object) := by
  refine ⟨by simp, fun b name methods hne hb => ?_⟩
  rw [List.getElem?_set_ne hne.symm, hb]

/-- Closures are objects that are there. -/
def Bounded (closures : Closures D) (objects : List (Clox.Obj N)) : Prop :=
  ∀ a d, closures a = some d → a < objects.length

theorem Bounded.mono {closures : Closures D} {objects objects' : List (Clox.Obj N)}
    (h : Bounded closures objects) (hle : objects.length ≤ objects'.length) :
    Bounded closures objects' :=
  fun a d ha => (h a d ha).trans_le hle

/-- A closure that is new has a place of its own. -/
theorem Bounded.ne {closures : Closures D} {objects : List (Clox.Obj N)}
    (h : Bounded closures objects) {a : Addr} {d : D} (ha : closures a = some d) :
    a ≠ objects.length :=
  (h a d ha).ne

/-- The declarations of new closures leave the others as they are. -/
def Extends (closures closures' : Closures D) : Prop :=
  ∀ a d, closures a = some d → closures' a = some d

theorem Finds.mono {closures closures' : Closures D} {methods : Table N}
    {found : Name → Option D} (h : Finds closures methods found)
    (hext : Extends closures closures') : Finds closures' methods found := by
  intro name
  have hname := h name
  generalize methods name = x at hname ⊢
  generalize found name = y at hname ⊢
  cases hname with
  | none => exact .none
  | some hmade =>
    obtain ⟨a, rfl, ha⟩ := hmade
    exact .some ⟨a, rfl, hext a _ ha⟩

/-- A method that is set is found under its name. -/
theorem Finds.set {closures : Closures D} {methods : Table N} {found : Name → Option D}
    (h : Finds closures methods found) {value : Clox.Value N} {d : D}
    (hvalue : MadeFor closures value d) (key : Name) :
    Finds closures (methods.set key value) (Function.update found key (some d)) := by
  intro name
  unfold Clox.Table.set
  by_cases hname : name = key
  · subst hname
    rw [if_pos rfl, Function.update_self]
    exact .some hvalue
  · rw [if_neg hname, Function.update_of_ne hname]
    exact h name

/-- The class `a` is on top of the stack, and has the methods that are found. -/
structure Building (closures : Closures D) (a : Addr) (className : Name)
    (found : Name → Option D) (vm : VM N (List Addr)) : Prop where
  pos : 0 < vm.stackTop
  top : vm.peek 0 = .obj a
  methods : ∃ methods, vm.objects[a]? = some (.klass className methods) ∧
    Finds closures methods found
  bounded : Bounded closures vm.objects

/-- One method is added. -/
theorem declareMethod_builds {slots : ℕ} {enclosing : List (Option Addr)} {m : MethodDecl N D}
    {vm vm₁ vm₂ : VM N (List Addr)} {closures : Closures D} {a : Addr} {className : Name}
    {found : Name → Option D} (h : Building closures a className found vm)
    (hclosure : running (vm.makeClosure openUpvalues slots enclosing m.function m.captures) =
      some vm₁)
    (hmethod : running (vm₁.defineMethod m.name) = some vm₂) :
    Building (Function.update closures vm.objects.length (some m.declaration)) a className
        (Function.update found m.name (some m.declaration)) vm₂ ∧
      KeepsBut a vm.objects vm₂.objects := by
  obtain ⟨htop, hpeek, hstack, hlt, hkeeps⟩ := makeClosure_pushes hclosure
  obtain ⟨methods, hclass, hfinds⟩ := h.methods
  have hpos := h.pos
  have hbelow : vm₁.peek 1 = .obj a := by
    have hpushed := VM.peek_push_succ (.obj vm.objects.length) h.pos 0
    rw [h.top] at hpushed
    simp only [VM.peek, hstack, htop]
    exact hpushed
  have hclass₁ : vm₁.asClass (vm₁.peek 1) = some (a, className, methods) :=
    VM.asClass_eq_some.2 ⟨hbelow, hkeeps.klass a _ _ hclass⟩
  have halt : a < vm₁.objects.length :=
    (List.getElem?_eq_some_iff.1 (hkeeps.klass a _ _ hclass)).1
  have hext : Extends closures
      (Function.update closures vm.objects.length (some m.declaration)) := by
    intro b d hb
    rw [Function.update_of_ne (h.bounded.ne hb)]
    exact hb
  have hvm₂ : (vm₁.update a (.klass className (methods.set m.name (vm₁.peek 0)))).pop 1 = vm₂ := by
    simpa [running, VM.defineMethod, hclass₁, VM.goOn] using hmethod
  subst hvm₂
  refine ⟨⟨?_, ?_, ⟨methods.set m.name (vm₁.peek 0), ?_, (hfinds.mono hext).set ?_ m.name⟩, ?_⟩,
    ?_⟩
  · change 0 < vm₁.stackTop - 1
    omega
  · simp only [VM.peek, VM.pop, VM.truncate, VM.update]
    simp only [VM.peek] at hbelow
    rw [show vm₁.stackTop - 1 - 1 - 0 = vm₁.stackTop - 1 - 1 by omega]
    exact hbelow
  · exact List.getElem?_set_self halt
  · rw [hpeek]
    exact ⟨_, rfl, Function.update_self ..⟩
  · intro b d hb
    have hset : ((vm₁.update a (.klass className (methods.set m.name (vm₁.peek 0)))).pop
        1).objects.length = vm₁.objects.length := List.length_set
    rw [hset]
    by_cases hne : b = vm.objects.length
    · exact hne.trans_lt hlt
    · rw [Function.update_of_ne hne] at hb
      exact (h.bounded b d hb).trans hlt
  · exact (KeepsBut.of_keeps a hkeeps).trans (KeepsBut.set a _ _)

/-- All methods are added. -/
theorem declareMethods_builds {slots : ℕ} {enclosing : List (Option Addr)} {a : Addr}
    {className : Name} {ms : List (MethodDecl N D)} :
    ∀ {vm vm' : VM N (List Addr)} {closures closures' : Closures D} {found : Name → Option D},
      Building closures a className found vm →
      declareMethods slots enclosing ms vm closures = some (vm', closures') →
      Building closures' a className
          (LoxClass.putMethods (ms.map fun m => (m.name, m.declaration)) found) vm' ∧
        KeepsBut a vm.objects vm'.objects ∧ Extends closures closures' := by
  induction ms with
  | nil =>
    intro vm vm' closures closures' found hbuild h
    obtain ⟨rfl, rfl⟩ := Prod.mk.inj (Option.some.inj h)
    exact ⟨hbuild, ⟨le_refl _, fun _ _ _ _ hb => hb⟩, fun _ _ hb => hb⟩
  | cons m ms ih =>
    intro vm vm' closures closures' found hbuild h
    simp only [declareMethods, Option.bind_eq_bind, Option.bind_eq_some_iff] at h
    obtain ⟨vm₁, hclosure, vm₂, hmethod, h⟩ := h
    obtain ⟨hbuild₂, hkeeps⟩ := declareMethod_builds hbuild hclosure hmethod
    obtain ⟨hbuild', hkeeps', hext⟩ := ih hbuild₂ h
    refine ⟨hbuild', hkeeps.trans hkeeps', fun b d hb => hext b d ?_⟩
    rw [Function.update_of_ne (hbuild.bounded.ne hb)]
    exact hb

/-- `OP_INHERIT` copies the methods of the superclass. -/
theorem inherit_builds {vm vm' : VM N (List Addr)} {s a : Addr} {superName className : Name}
    {inherited : Table N} (hs : vm.objects[s]? = some (.klass superName inherited))
    (ha : vm.objects[a]? = some (.klass className Table.empty))
    (h : running ((vm.push (.obj s)).push (.obj a)).inherit_ = some vm') :
    vm'.objects = vm.objects.set a (.klass className (inherited.addAll Table.empty)) := by
  have hsuper : ((vm.push (.obj s)).push (.obj a)).asClass
      (((vm.push (.obj s)).push (.obj a)).peek 1) = some (s, superName, inherited) := by
    refine VM.asClass_eq_some.2 ⟨?_, hs⟩
    rw [VM.peek_push_succ _ (by simp [VM.push]) 0, VM.peek_push_zero]
  have hclass : ((vm.push (.obj s)).push (.obj a)).asClass
      (((vm.push (.obj s)).push (.obj a)).peek 0) = some (a, className, Table.empty) :=
    VM.asClass_eq_some.2 ⟨VM.peek_push_zero _ _, ha⟩
  simp only [VM.inherit_, hsuper, hclass, Option.bind_eq_bind, Option.bind_some, VM.goOn,
    running] at h
  obtain rfl := Option.some.inj h
  rfl

/-- A class of clox and the class of jlox that was declared with it. -/
def SameMethods (vm : VM N (List Addr)) (closures : Closures D) (a : Addr) (c : LoxClass D) : Prop :=
  ∃ methods, vm.objects[a]? = some (.klass c.name methods) ∧
    Finds closures methods fun name => c.findMethod name

theorem finds_some {closures : Closures D} {methods : Table N} {found : Name → Option D}
    (h : Finds closures methods found) (name : Name) {d : D} (hd : found name = some d) :
    ∃ value, methods name = some value ∧ MadeFor closures value d := by
  have hname := h name
  rw [hd] at hname
  generalize methods name = x at hname ⊢
  cases hname with
  | some hmade => exact ⟨_, rfl, hmade⟩

theorem finds_empty (closures : Closures D) :
    Finds closures (Table.empty : Table N) fun _ => none :=
  fun _ => .none

/-- The new class before its own methods are added. -/
theorem inherited_builds {d : ClassDecl N D} {superclass : Option (Addr × LoxClass D)}
    {vm vm' : VM N (List Addr)} {closures : Closures D}
    (hsuper : ∀ s ∈ superclass, SameMethods vm closures s.1 s.2)
    (h : inheritFrom vm.objects.length (vm.allocate (.klass d.name Table.empty)).2
      (superclass.map Prod.fst) = some vm') :
    ∃ methods, vm'.objects = vm.objects ++ [.klass d.name methods] ∧
      Finds closures methods fun name =>
        (superclass.map Prod.snd).bind (LoxClass.findMethod name) := by
  cases superclass with
  | none =>
    obtain rfl := Option.some.inj h
    exact ⟨Table.empty, rfl, finds_empty closures⟩
  | some s =>
    obtain ⟨inherited, hs, hfinds⟩ := hsuper s rfl
    have hs₁ := (Keeps.append vm.objects (.klass d.name Table.empty)).klass _ _ _ hs
    have hnew : (vm.objects ++ [.klass d.name Table.empty])[vm.objects.length]? =
        some (.klass d.name Table.empty) := by
      simp
    have hobjects := inherit_builds hs₁ hnew h
    refine ⟨inherited, ?_, hfinds⟩
    have hcopied : inherited.addAll Table.empty = inherited := by
      funext name
      unfold Clox.Table.addAll Table.empty
      cases inherited name <;> rfl
    rw [hobjects, hcopied]
    simp [VM.allocate]

/-- The declaration of a class: it gets the methods that `findMethod` finds, and no class that was
there changes. -/
theorem declareClass_builds {slots : ℕ} {enclosing : List (Option Addr)} {d : ClassDecl N D}
    {superclass : Option (Addr × LoxClass D)} {vm vm' : VM N (List Addr)}
    {closures closures' : Closures D} {a : Addr}
    (hsuper : ∀ s ∈ superclass, SameMethods vm closures s.1 s.2)
    (hbounded : Bounded closures vm.objects)
    (h : declareClass slots enclosing d (superclass.map Prod.fst) vm closures =
      some (a, vm', closures')) :
    SameMethods vm' closures' a (d.visitClass (superclass.map Prod.snd)) ∧
      Bounded closures' vm'.objects ∧ Extends closures closures' ∧
      Keeps vm.objects vm'.objects := by
  simp only [declareClass, Option.bind_eq_bind, Option.bind_eq_some_iff, Prod.exists] at h
  obtain ⟨vm₁, hinherit, vm₂, closures₂, hmethods, h⟩ := h
  obtain ⟨rfl, rfl, rfl⟩ : _ ∧ _ ∧ _ := by simpa using h
  obtain ⟨methods, hobjects, hfinds⟩ := inherited_builds hsuper hinherit
  have hkeeps : Keeps vm.objects vm₁.objects := by
    rw [hobjects]
    exact Keeps.append _ _
  have hbuild : Building closures vm.objects.length d.name
      (fun name => (superclass.map Prod.snd).bind (LoxClass.findMethod name))
      (vm₁.push (.obj vm.objects.length)) := by
    refine ⟨Nat.succ_pos _, VM.peek_push_zero _ _, ⟨methods, ?_, hfinds⟩,
      hbounded.mono hkeeps.length⟩
    change vm₁.objects[vm.objects.length]? = _
    rw [hobjects]
    simp
  obtain ⟨hbuild', hkeeps', hext⟩ := declareMethods_builds hbuild hmethods
  obtain ⟨methods', hclass, hfinds'⟩ := hbuild'.methods
  refine ⟨⟨methods', hclass, fun name => ?_⟩, hbuild'.bounded, hext, ?_, ?_⟩
  · simp only [findMethod_visitClass]
    exact hfinds' name
  · exact hkeeps.length.trans hkeeps'.length
  · intro b name ms hb
    have hlt := (List.getElem?_eq_some_iff.1 hb).1
    exact hkeeps'.klass b name ms hlt.ne (hkeeps.klass b name ms hb)

/-- What holds of all classes while a machine runs. -/
theorem declared_sameMethods [Double N] {vm : VM N (List Addr)}
    {classes : List (Addr × LoxClass D)} {closures : Closures D}
    (h : Declared vm classes closures) :
    Bounded closures vm.objects ∧ ∀ c ∈ classes, SameMethods vm closures c.1 c.2 := by
  induction h with
  | start vm =>
    refine ⟨fun a d h => ?_, fun c hc => ?_⟩
    · cases h
    · cases hc
  | other _ hcurrent hi hstep ih =>
    obtain ⟨hbounded, hclasses⟩ := ih
    have hkeeps := Clox.step_keeps hcurrent hi hstep
    refine ⟨hbounded.mono hkeeps.length, fun c hc => ?_⟩
    obtain ⟨methods, hclass, hfinds⟩ := hclasses c hc
    exact ⟨methods, hkeeps.klass _ _ _ hclass, hfinds⟩
  | declare _ slots enclosing d superclass hthere hrun ih =>
    obtain ⟨hbounded, hclasses⟩ := ih
    obtain ⟨hsame, hbounded', hext, hkeeps⟩ :=
      declareClass_builds (fun s hs => hclasses s (hthere s hs)) hbounded hrun
    refine ⟨hbounded', fun c hc => ?_⟩
    rcases List.mem_cons.1 hc with rfl | hc
    · exact hsame
    · obtain ⟨methods, hclass, hfinds⟩ := hclasses c hc
      exact ⟨methods, hkeeps.klass _ _ _ hclass, hfinds.mono hext⟩

theorem declared_superclass [Double N] {vm : VM N (List Addr)}
    {classes : List (Addr × LoxClass D)} {closures : Closures D}
    (h : Declared vm classes closures) :
    ∀ c ∈ classes, ∀ s, c.2.superclass = some s → ∃ b, (b, s) ∈ classes := by
  induction h with
  | start vm =>
    intro c hc
    cases hc
  | other _ _ _ _ ih => exact ih
  | declare _ slots enclosing d superclass hthere hrun ih =>
    intro c hc s hs
    rcases List.mem_cons.1 hc with rfl | hc
    · obtain ⟨⟨b, s'⟩, hb, rfl⟩ := Option.map_eq_some_iff.1 hs
      exact ⟨b, List.mem_cons_of_mem _ (hthere _ hb)⟩
    · obtain ⟨b, hb⟩ := ih c hc s hs
      exact ⟨b, List.mem_cons_of_mem _ hb⟩

end Lox
