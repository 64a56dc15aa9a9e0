import Lox.Clox.Codegen

/-!
# Certificates for bytecode

`run` checks nothing of what it executes: slots, constants, jump targets and several casts are
taken on trust.  A certificate says at every instruction of a function what the compiler knew
there: how many slots the frame has and, for each slot, what kind of value it holds and whether a
closure may have captured it.

* `Shape` is the static view of a frame, `transfer` the effect of one instruction on it.
* `Cert` says that annotated code fits together along every fall-through and jump.
* `Frag` is the same for a piece of code, from the shape before it to the shape after it, with the
  rules to put pieces together (`Frag.append`, `Frag.skip`, ...).
* `WellTyped` is a certificate for a function and, through its closures, for all functions in it.
-/

namespace Lox.Clox

/-! ### Shapes -/

/-- What is known of a value: nothing beyond being a first-class value, an instance, a class, or
a closure that is the code of a method. -/
inductive Kind where
  | any | inst | klass | meth
  deriving DecidableEq, Repr

/-- A value of the first kind may stand where one of the second is expected. -/
def Kind.Sub (k k' : Kind) : Prop := k = k' ∨ (k ≠ .meth ∧ k' = .any)

/-- A slot of a frame: its kind, and whether an open upvalue may point at it. -/
structure Slot where
  kind : Kind
  captured : Bool
  deriving DecidableEq, Repr

/-- A captured slot keeps its kind; any other one may be seen as less than it is. -/
def Slot.Sub (s t : Slot) : Prop :=
  (s.captured = true → t = s) ∧ (s.captured = false → s.kind.Sub t.kind)

/-- The variable of the class that is being declared. -/
inductive ClassVar where
  | local_ (slot : ℕ)
  | global (name : Name)
  deriving DecidableEq, Repr

/-- The static view of a frame: its slots, the top of the stack first, and a variable known to
hold a class, as long as no other code can run. -/
structure Shape where
  slots : List Slot
  cls : Option ClassVar
  deriving DecidableEq, Repr

/-- The kind of slot 0. -/
def bottomKind (slots : List Slot) : Option Kind := slots.getLast?.map Slot.kind

/-- Forgetting some of what is known, but not what slot 0 is. -/
def Shape.Sub (a b : Shape) : Prop :=
  List.Forall₂ Slot.Sub a.slots b.slots ∧ (b.cls = none ∨ b.cls = a.cls) ∧
    bottomKind b.slots = bottomKind a.slots

/-- The slot with a given number, counted from the bottom of the frame. -/
def slotAt {α : Type} (i : ℕ) : List α → Option α
  | [] => none
  | a :: as => if as.length = i then some a else slotAt i as

/-- A slot that an instruction may pop and copy elsewhere. -/
def Slot.plain (s : Slot) : Bool := !s.captured && s.kind ≠ .meth

/-- Pop `n` slots, never the last one. -/
def popSlots : ℕ → List Slot → Option (List Slot)
  | 0, [] => none
  | 0, s :: ss => some (s :: ss)
  | n + 1, s :: ss => if s.plain then popSlots n ss else none
  | _ + 1, [] => none

namespace Shape

/-- Push a new value. -/
def push (k : Kind) (a : Shape) : Shape := { a with slots := ⟨k, false⟩ :: a.slots }

/-- Other code may run or assign variables. -/
def forget (a : Shape) : Shape := { a with cls := none }

/-- Pop `n` values and push new ones. -/
def replace (n : ℕ) (ks : List Kind) (a : Shape) : Option Shape :=
  (popSlots n a.slots).map fun r => ⟨ks.map (fun k => ⟨k, false⟩) ++ r, none⟩

/-- There is a value on top, above slot 0, that may be copied. -/
def peekable (a : Shape) : Bool :=
  match a.slots with
  | s :: _ :: _ => s.kind ≠ .meth
  | _ => false

end Shape

/-! ### Instructions -/

variable {N : Type}

/-- What the instructions of a function refer to: its constants and the kinds of its upvalues. -/
structure Info (N : Type) where
  constants : List (Constant N)
  upvalues : List Kind

/-- What callers of a closure have to know of its function: whether slot 0 must hold an instance,
and the kinds of its upvalues. -/
structure Signature where
  method : Bool
  upvalues : List Kind

/-- The constant an index names is a number or a string. -/
def literalAt (constants : List (Constant N)) (k : UInt8) : Bool :=
  match constants[k.toNat]? with
  | some (.number _) | some (.string _) => true
  | _ => false

/-- The shape after an instruction that goes on to the next one; closures are in `Ok`. -/
def transfer (I : Info N) (i : Instr) (a : Shape) : Option Shape :=
  match i with
  | .constant k => if literalAt I.constants k then some (a.push .any) else none
  | .nil | .true_ | .false_ => some (a.push .any)
  | .pop | .print => a.replace 1 []
  | .getLocal slot => do
      let s ← slotAt slot.toNat a.slots
      return a.push (if a.cls = some (.local_ slot.toNat) then .klass else s.kind)
  | .setLocal slot => do
      let s ← slotAt slot.toNat a.slots
      if s.kind = .any && a.peekable then some a.forget else none
  | .getGlobal k => do
      let name ← stringAt I.constants k
      return a.push (if a.cls = some (.global name) then .klass else .any)
  | .defineGlobal k => do
      let name ← stringAt I.constants k
      let b ← a.replace 1 []
      return { b with cls :=
        if (a.slots.head?.map Slot.kind) = some .klass then some (.global name) else none }
  | .setGlobal k => do
      let _ ← stringAt I.constants k
      if a.peekable then some a.forget else none
  | .getUpvalue slot => do
      let k ← I.upvalues[slot.toNat]?
      return a.push k
  | .setUpvalue slot => do
      let k ← I.upvalues[slot.toNat]?
      if k = .any && a.peekable then some a.forget else none
  | .getProperty k => do
      let _ ← stringAt I.constants k
      a.replace 1 [.any]
  | .setProperty k => do
      let _ ← stringAt I.constants k
      a.replace 2 [.any]
  | .equal | .greater | .less | .add | .subtract | .multiply | .divide => a.replace 2 [.any]
  | .not | .negate => a.replace 1 [.any]
  | .call argCount => a.replace (argCount.toNat + 1) [.any]
  | .invoke k argCount => do
      let _ ← stringAt I.constants k
      a.replace (argCount.toNat + 1) [.any]
  | .superInvoke k argCount => do
      let _ ← stringAt I.constants k
      if (a.slots[0]?.map Slot.kind) = some .klass ∧
          (a.slots[argCount.toNat + 1]?.map Slot.kind) = some .inst then
        a.replace (argCount.toNat + 2) [.any]
      else none
  | .getSuper k => do
      let _ ← stringAt I.constants k
      if (a.slots[0]?.map Slot.kind) = some .klass ∧
          (a.slots[1]?.map Slot.kind) = some .inst then
        a.replace 2 [.any]
      else none
  | .closeUpvalue =>
      match a.slots with
      | _ :: s :: ss => some ⟨s :: ss, none⟩
      | _ => none
  | .class_ k => do
      let _ ← stringAt I.constants k
      return { a.push .klass with cls := some (.local_ a.slots.length) }
  | .method k => do
      let _ ← stringAt I.constants k
      match a.slots with
      | m :: c :: s :: ss =>
        if m.kind = .meth ∧ m.captured = false ∧ c.kind = .klass then some ⟨c :: s :: ss, a.cls⟩
        else none
      | _ => none
  | .inherit =>
      match a.slots with
      | sub :: sup :: s :: ss =>
        if sub.kind = .klass ∧ sub.captured = false ∧ sup.plain ∧
            a.cls ≠ some (.local_ (ss.length + 2)) then
          some ⟨⟨.klass, false⟩ :: s :: ss, a.cls⟩
        else none
      | _ => none
  | .closure _ _ | .jump _ | .jumpIfFalse _ | .loop _ | .return_ => none

/-! ### Annotated code -/

/-- What a certificate says at an instruction: the shape before it and, for `OP_CLOSURE`, the
signature of the function. -/
structure Note where
  shape : Shape
  sig : Signature

/-- Annotated code. -/
abbrev Code := List (Note × Instr)

/-- The instructions of annotated code. -/
def Code.instrs (cs : Code) : List Instr := cs.map Prod.snd

/-- The number of bytes of annotated code. -/
def Code.size (cs : Code) : ℕ := codeSize cs.instrs

/-- The shape at the start of code that ends in the shape `z`. -/
def Code.entry : Code → Shape → Shape
  | [], z => z
  | (n, _) :: _, _ => n.shape

/-- The shape at the instruction that starts at a byte offset. -/
def Code.target : Code → Shape → ℕ → Option Shape
  | [], z, d => if d = 0 then some z else none
  | (n, i) :: cs, z, d =>
    if d = 0 then some n.shape else if d < i.size then none else Code.target cs z (d - i.size)

/-- A capture pair fits the enclosing frame, whose shape after the instruction is `b`. -/
def CaptureOk (I : Info N) (b : Shape) (u : Upvalue) (k : Kind) : Prop :=
  if u.isLocal then slotAt u.index.toNat b.slots = some ⟨k, true⟩
  else I.upvalues[u.index.toNat]? = some k

section Certificates

variable (W : ObjFunction N → Signature → Prop) (I : Info N)

/-- The instruction `i`, annotated with `n`, fits between `p` and `q`, with `z` after them. -/
def Ok (p : Code) (n : Note) (i : Instr) (q : Code) (z : Shape) : Prop :=
  n.shape.slots ≠ [] ∧
  match i with
  | .jump d => d ≤ 65535 ∧ ∃ b, Code.target q z d = some b ∧ n.shape.Sub b
  | .jumpIfFalse d =>
      d ≤ 65535 ∧ n.shape.peekable = true ∧ n.shape.Sub (Code.entry q z) ∧
        ∃ b, Code.target q z d = some b ∧ n.shape.Sub b
  | .loop d =>
      d ≤ 65535 ∧ d ≤ Code.size p + 3 ∧
        ∃ b, Code.target (p ++ (n, .loop d) :: q) z (Code.size p + 3 - d) = some b ∧ n.shape.Sub b
  | .return_ => n.shape.peekable = true
  | .closure k captures =>
      (∃ f, functionAt I.constants k = some f ∧ f.upvalueCount = captures.length ∧ W f n.sig) ∧
      (n.shape.push (if n.sig.method then .meth else .any)).Sub (Code.entry q z) ∧
      List.Forall₂ (CaptureOk I (Code.entry q z)) captures n.sig.upvalues
  | i => ∃ b, transfer I i n.shape = some b ∧ b.Sub (Code.entry q z)

/-- The code `cs` fits between `p` and `q`, with `z` after them. -/
def Cert : Code → Code → Code → Shape → Prop
  | _, [], _, _ => True
  | p, (n, i) :: cs, q, z => Ok W I p n i (cs ++ q) z ∧ Cert (p ++ [(n, i)]) cs q z

/-- The instructions `is` can be annotated to lead from the shape `a` to the shape `b`, whatever
code is around them. -/
def Frag (a : Shape) (is : List Instr) (b : Shape) : Prop :=
  ∃ cs : Code, cs.instrs = is ∧ a.Sub (cs.entry b) ∧
    ∀ p q z, b.Sub (Code.entry q z) → Cert W I p cs q z

end Certificates

/-- The shape of a frame when its function is called. -/
def entryShape (arity : ℕ) (method : Bool) : Shape :=
  ⟨List.replicate arity ⟨.any, false⟩ ++ [⟨if method then .inst else .any, false⟩], none⟩

/-- A function with a certificate, where `W` describes the functions in its constants. -/
structure Certified (W : ObjFunction N → Signature → Prop) (f : ObjFunction N) (sig : Signature) :
    Prop where
  upvalues : f.upvalueCount = sig.upvalues.length
  functions : ∀ g, Constant.function g ∈ f.constants → ∃ t, W g t
  code : ∃ cs : Code, f.code = encodeAll cs.instrs ∧ cs.instrs.getLast? = some .return_ ∧
    (entryShape f.arity sig.method).Sub (cs.entry ⟨[], none⟩) ∧
    Cert W ⟨f.constants, sig.upvalues⟩ [] cs [] ⟨[], none⟩

/-- A function that has a certificate, and so have the functions in its constants. -/
inductive WellTyped : ObjFunction N → Signature → Prop where
  | intro (W : ObjFunction N → Signature → Prop) (f : ObjFunction N) (sig : Signature)
      (nested : ∀ g t, W g t → WellTyped g t) (certified : Certified W f sig) : WellTyped f sig

/-! ### Forgetting -/

theorem Kind.Sub.refl (k : Kind) : k.Sub k := .inl rfl

theorem Kind.Sub.trans {k l m : Kind} (h₁ : k.Sub l) (h₂ : l.Sub m) : k.Sub m := by
  rcases h₁ with rfl | ⟨hk, rfl⟩
  · exact h₂
  · rcases h₂ with rfl | ⟨-, rfl⟩
    · exact .inr ⟨hk, rfl⟩
    · exact .inr ⟨hk, rfl⟩

theorem Slot.Sub.refl (s : Slot) : s.Sub s := ⟨fun _ => rfl, fun _ => Kind.Sub.refl _⟩

theorem Slot.Sub.trans {s t u : Slot} (h₁ : s.Sub t) (h₂ : t.Sub u) : s.Sub u := by
  refine ⟨fun h => ?_, fun h => ?_⟩
  · obtain rfl := h₁.1 h
    exact h₂.1 h
  · have hst := h₁.2 h
    cases ht : t.captured with
    | true => exact h₂.1 ht ▸ hst
    | false => exact hst.trans (h₂.2 ht)

theorem Shape.Sub.refl (a : Shape) : a.Sub a :=
  ⟨List.forall₂_same.2 fun s _ => Slot.Sub.refl s, .inr rfl, rfl⟩

theorem forall₂_trans {α : Type} {R : α → α → Prop} (hR : ∀ a b c, R a b → R b c → R a c) :
    ∀ {as bs cs : List α}, List.Forall₂ R as bs → List.Forall₂ R bs cs → List.Forall₂ R as cs
  | _, _, _, .nil, .nil => .nil
  | _, _, _, .cons h hs, .cons k ks => .cons (hR _ _ _ h k) (forall₂_trans hR hs ks)

theorem Shape.Sub.trans {a b c : Shape} (h₁ : a.Sub b) (h₂ : b.Sub c) : a.Sub c := by
  refine ⟨forall₂_trans (R := Slot.Sub) (fun _ _ _ h k => h.trans k) h₁.1 h₂.1, ?_,
    h₂.2.2.trans h₁.2.2⟩
  rcases h₂.2.1 with h | h
  · exact .inl h
  · rw [h]
    exact h₁.2.1

theorem Shape.sub_forget (a : Shape) : a.Sub a.forget :=
  ⟨(Shape.Sub.refl a).1, .inl rfl, rfl⟩

@[simp] theorem bottomKind_cons {s : Slot} {R : List Slot} (hR : R ≠ []) :
    bottomKind (s :: R) = bottomKind R := by
  unfold bottomKind
  rw [List.getLast?_cons_of_ne_nil hR]

/-! ### Offsets in annotated code -/

namespace Code

@[simp] theorem instrs_append (cs ds : Code) : Code.instrs (cs ++ ds) = cs.instrs ++ ds.instrs := by
  simp [Code.instrs]

@[simp] theorem instrs_cons (n : Note) (i : Instr) (cs : Code) :
    Code.instrs ((n, i) :: cs) = i :: cs.instrs := rfl

@[simp] theorem instrs_nil : Code.instrs [] = [] := rfl

theorem size_nil : Code.size [] = 0 := rfl

theorem size_append (cs ds : Code) : Code.size (cs ++ ds) = cs.size + ds.size := by
  simp [Code.size, codeSize, encodeAll]

theorem size_cons (n : Note) (i : Instr) (cs : Code) :
    Code.size ((n, i) :: cs) = i.size + cs.size := by
  simp [Code.size, codeSize, encodeAll, Instr.size]

theorem entry_append (cs ds : Code) (z : Shape) :
    Code.entry (cs ++ ds) z = cs.entry (ds.entry z) := by
  cases cs <;> rfl

theorem target_zero (cs : Code) (z : Shape) : cs.target z 0 = some (cs.entry z) := by
  cases cs <;> simp [Code.target, Code.entry]

theorem target_append (cs ds : Code) (z : Shape) (d : ℕ) :
    Code.target (cs ++ ds) z (cs.size + d) = ds.target z d := by
  induction cs with
  | nil => simp [Code.size_nil]
  | cons c cs ih =>
    obtain ⟨n, i⟩ := c
    have hi := i.size_pos
    simp only [List.cons_append, Code.target, Code.size_cons]
    rw [if_neg (by omega), if_neg (by omega), show i.size + Code.size cs + d - i.size = Code.size cs + d by omega]
    exact ih

theorem target_size (cs ds : Code) (z : Shape) :
    Code.target (cs ++ ds) z cs.size = some (ds.entry z) := by
  have h := Code.target_append cs ds z 0
  rwa [Nat.add_zero, Code.target_zero] at h

end Code

/-! ### Putting pieces together -/

section Rules

variable {W : ObjFunction N → Signature → Prop} {I : Info N}

theorem Cert.append {p cs ds q : Code} {z : Shape} :
    Cert W I p (cs ++ ds) q z ↔ Cert W I p cs (ds ++ q) z ∧ Cert W I (p ++ cs) ds q z := by
  induction cs generalizing p with
  | nil => simp [Cert]
  | cons c cs ih =>
    obtain ⟨n, i⟩ := c
    simp only [List.cons_append, Cert, ih, List.append_assoc, and_assoc, List.nil_append]

theorem Cert.single {p q : Code} {n : Note} {i : Instr} {z : Shape} :
    Cert W I p [(n, i)] q z ↔ Ok W I p n i q z := by
  simp [Cert]

theorem Cert.cons {p cs q : Code} {n : Note} {i : Instr} {z : Shape} :
    Cert W I p ((n, i) :: cs) q z ↔ Ok W I p n i (cs ++ q) z ∧ Cert W I (p ++ [(n, i)]) cs q z :=
  Iff.rfl

theorem Frag.nil {a b : Shape} (h : a.Sub b) : Frag W I a [] b :=
  ⟨[], rfl, h, fun _ _ _ _ => trivial⟩

theorem Frag.weaken {a a' b b' : Shape} {is : List Instr} (h : Frag W I a is b)
    (ha : a'.Sub a) (hb : b.Sub b') : Frag W I a' is b' := by
  obtain ⟨cs, hi, he, hc⟩ := h
  refine ⟨cs, hi, ?_, fun p q z hz => hc p q z (hb.trans hz)⟩
  cases cs with
  | nil => exact ha.trans (he.trans hb)
  | cons c cs => exact ha.trans he

theorem Frag.append {a b c : Shape} {is js : List Instr} (h₁ : Frag W I a is b)
    (h₂ : Frag W I b js c) : Frag W I a (is ++ js) c := by
  obtain ⟨cs, rfl, he, hc⟩ := h₁
  obtain ⟨ds, rfl, hf, hd⟩ := h₂
  refine ⟨cs ++ ds, by simp, ?_, fun p q z hz => Cert.append.2 ⟨hc _ _ _ ?_, hd _ _ _ hz⟩⟩
  · rw [Code.entry_append]
    cases cs with
    | nil => exact he.trans hf
    | cons c cs => exact he
  · rw [Code.entry_append]
    cases ds with
    | nil => exact hf.trans hz
    | cons d ds => exact hf

/-- The signature of notes that are not at a closure. -/
def noSig : Signature := ⟨false, []⟩

theorem Frag.cons {a b c : Shape} {i : Instr} {is : List Instr} (h₁ : Frag W I a [i] b)
    (h₂ : Frag W I b is c) : Frag W I a (i :: is) c :=
  h₁.append h₂

/-- One instruction that goes on to the next. -/
theorem Frag.instr {a b : Shape} {i : Instr} (ha : a.slots ≠ []) (h : transfer I i a = some b) :
    Frag W I a [i] b := by
  refine ⟨[(⟨a, noSig⟩, i)], rfl, Shape.Sub.refl a, fun p q z hz => Cert.single.2 ⟨ha, ?_⟩⟩
  cases i with
  | closure | jump | jumpIfFalse | loop | return_ => cases h
  | _ => exact ⟨b, h, hz⟩

/-- A conditional jump over code that keeps the shape. -/
theorem Frag.skip {a b : Shape} {is : List Instr} (hp : a.peekable = true) (hab : a.Sub b)
    (hs : codeSize is ≤ 65535) (h : Frag W I a is b) :
    Frag W I a (.jumpIfFalse (codeSize is) :: is) b := by
  have ha : a.slots ≠ [] := by
    intro h0; simp [Shape.peekable, h0] at hp
  obtain ⟨cs, rfl, he, hc⟩ := h
  refine ⟨(⟨a, noSig⟩, .jumpIfFalse cs.size) :: cs, rfl, Shape.Sub.refl a, fun p q z hz => ?_⟩
  refine Cert.cons.2 ⟨⟨ha, hs, hp, ?_, _, Code.target_size cs q z, hab.trans hz⟩, hc _ _ _ hz⟩
  rw [Code.entry_append]
  cases cs with
  | nil => exact he.trans hz
  | cons c cs => exact he

/-- The jumps of `or`: if the value is true, jump over the code. -/
theorem Frag.skipUnless {a b : Shape} {is : List Instr} (hp : a.peekable = true) (hab : a.Sub b)
    (hs : codeSize is ≤ 65535) (h : Frag W I a is b) :
    Frag W I a (.jumpIfFalse 3 :: .jump (codeSize is) :: is) b := by
  have ha : a.slots ≠ [] := by
    intro h0; simp [Shape.peekable, h0] at hp
  obtain ⟨cs, rfl, he, hc⟩ := h
  refine ⟨(⟨a, noSig⟩, .jumpIfFalse 3) :: (⟨a, noSig⟩, .jump cs.size) :: cs, rfl,
    Shape.Sub.refl a, fun p q z hz => ?_⟩
  have hentry : a.Sub (Code.entry (cs ++ q) z) := by
    rw [Code.entry_append]
    cases cs with
    | nil => exact he.trans hz
    | cons c cs => exact he
  refine Cert.cons.2 ⟨⟨ha, by omega, hp, Shape.Sub.refl a, _,
    Code.target_size [(⟨a, noSig⟩, .jump cs.size)] (cs ++ q) z, hentry⟩, Cert.cons.2 ⟨⟨ha, hs, _,
    Code.target_size cs q z, hab.trans hz⟩, hc _ _ _ hz⟩⟩

/-- Two branches. -/
theorem Frag.branch {a b : Shape} {ts es : List Instr} (hp : a.peekable = true)
    (hb : b.slots ≠ []) (ht : codeSize (ts ++ [.jump 0]) ≤ 65535) (he : codeSize es ≤ 65535)
    (h₁ : Frag W I a ts b) (h₂ : Frag W I a es b) :
    Frag W I a (.jumpIfFalse (codeSize (ts ++ [.jump 0])) :: ts ++ .jump (codeSize es) :: es) b := by
  have ha : a.slots ≠ [] := by
    intro h0; simp [Shape.peekable, h0] at hp
  obtain ⟨cs, rfl, hec, hc⟩ := h₁
  obtain ⟨ds, rfl, hed, hd⟩ := h₂
  have hsize : codeSize (cs.instrs ++ [.jump 0]) = (cs ++ [(⟨b, noSig⟩, .jump ds.size)] : Code).size := by
    simp [Code.size, codeSize, encodeAll, Instr.encode, shortBytes]
  refine ⟨(⟨a, noSig⟩, .jumpIfFalse (codeSize (cs.instrs ++ [.jump 0]))) :: (cs ++
    (⟨b, noSig⟩, .jump ds.size) :: ds), by simp [Code.size], Shape.Sub.refl a, fun p q z hz => ?_⟩
  have hentry : a.Sub (Code.entry (ds ++ q) z) := by
    rw [Code.entry_append]
    cases ds with
    | nil => exact hed.trans hz
    | cons d ds => exact hed
  refine Cert.cons.2 ⟨⟨ha, ht, hp, ?_, _, ?_, hentry⟩, Cert.append.2 ⟨hc _ _ _ (Shape.Sub.refl b),
    Cert.cons.2 ⟨⟨hb, he, _, Code.target_size ds q z, hz⟩, hd _ _ _ hz⟩⟩⟩
  · rw [Code.entry_append, Code.entry_append]
    exact hec
  · rw [hsize]
    have h := Code.target_size (cs ++ [(⟨b, noSig⟩, .jump ds.size)]) (ds ++ q) z
    simpa using h

/-! ### Loops -/

/-- The condition of a loop, as annotated code: it goes on in the shape `a`, or jumps `exit` bytes
ahead with its value still on the stack. -/
theorem conditionCode_cert {a : Shape} (ha : a.slots ≠ []) (exit : ℕ) (hexit : exit ≤ 65535)
    {condition : Option (List Instr)}
    (h : ∀ is, condition = some is → Frag W I a is (a.push .any)) (hcls : a.cls = none) :
    ∃ hs : Code, hs.instrs = conditionCode exit condition ∧ a.Sub (hs.entry a) ∧
      ∀ p q z, a.Sub (Code.entry q z) →
        (condition ≠ none → 0 < exit ∧
          ∃ b, Code.target q z (exit - 1) = some b ∧ (a.push .any).Sub b) →
        Cert W I p hs q z := by
  cases condition with
  | none => exact ⟨[], rfl, Shape.Sub.refl a, fun _ _ _ _ _ => trivial⟩
  | some is =>
    obtain ⟨cs, rfl, he, hc⟩ := h is rfl
    have hpeek : (a.push .any).peekable = true := by
      unfold Shape.push Shape.peekable
      cases hs : a.slots with
      | nil => exact absurd hs ha
      | cons s ss => simp
    have hpop : transfer I .pop (a.push .any) = some a := by
      cases a with
      | mk slots cls =>
        cases slots with
        | nil => exact absurd rfl ha
        | cons s ss => cases hcls; rfl
    refine ⟨cs ++ [(⟨a.push .any, noSig⟩, .jumpIfFalse exit), (⟨a.push .any, noSig⟩, .pop)], ?_, ?_,
      fun p q z hz hout => ?_⟩
    · simp [conditionCode]
    · rw [Code.entry_append]
      exact he
    · obtain ⟨hpos, b, hb, hab⟩ := hout (by simp)
      have hne : (a.push .any).slots ≠ [] := by simp [Shape.push]
      refine Cert.append.2 ⟨hc _ _ _ (Shape.Sub.refl _), Cert.cons.2 ⟨⟨hne, hexit, hpeek,
        Shape.Sub.refl _, b, ?_, hab⟩, Cert.single.2 ⟨hne, a, hpop, hz⟩⟩⟩
      have htarget := Code.target_append [(⟨a.push .any, noSig⟩, .pop)] q z (exit - 1)
      have hsize : Code.size [(⟨a.push .any, noSig⟩, .pop)] = 1 := rfl
      rw [hsize, show 1 + (exit - 1) = exit by omega] at htarget
      rw [← hb]
      exact htarget

theorem Code.entry_sub {a b : Shape} {cs q : Code} {z : Shape} (h : a.Sub (cs.entry b))
    (hb : b.Sub (q.entry z)) : a.Sub (Code.entry (cs ++ q) z) := by
  rw [Code.entry_append]
  cases cs with
  | nil => exact h.trans hb
  | cons c cs => exact h

theorem Code.size_conditionCode {hs : Code} {exit : ℕ} {condition : Option (List Instr)}
    (h : hs.instrs = conditionCode exit condition) :
    hs.size = codeSize (conditionCode 0 condition) := by
  unfold Code.size
  rw [h]
  cases condition <;> simp [conditionCode, codeSize, encodeAll, Instr.encode, shortBytes]

/-- A jump back over `p₁`. -/
theorem Ok.loop {p p₁ q : Code} {n : Note} {d : ℕ} {z : Shape} (hn : n.shape.slots ≠ [])
    (hd : d = Code.size p₁ + 3) (hle : d ≤ 65535)
    (h : n.shape.Sub (Code.entry (p₁ ++ (n, .loop d) :: q) z)) :
    Ok W I (p ++ p₁) n (.loop d) q z := by
  refine ⟨hn, hle, by rw [Code.size_append]; omega, _, ?_, h⟩
  rw [Code.size_append, hd, show Code.size p + Code.size p₁ + 3 - (Code.size p₁ + 3) = Code.size p by omega,
    List.append_assoc]
  exact Code.target_size p _ z

/-- The value of the condition is dropped after the loop. -/
def loopTail (condition : Option (List Instr)) : List Instr :=
  match condition with
  | none => []
  | some _ => [.pop]

theorem jumpOver_some {jump : ℕ → Instr} {body : List Instr} {i : Instr}
    (h : jumpOver jump body = some i) : codeSize body ≤ 65535 ∧ i = jump (codeSize body) := by
  unfold jumpOver at h
  split at h
  · cases h
  · exact ⟨by omega, (Option.some.inj h).symm⟩

/-- A loop as a row of pieces, with the distances of its jumps. -/
theorem loopCode_eq {condition increment : Option (List Instr)} {body loop : List Instr}
    (h : loopCode condition increment body = some loop) :
    ∃ step back exit, incrementCode (conditionCode 0 condition) increment = some step ∧
      back = codeSize (loopBody (conditionCode 0 condition) step body) + 3 ∧ back ≤ 65535 ∧
      exit = 1 + codeSize step + codeSize body + 3 ∧ (condition ≠ none → exit ≤ 65535) ∧
      loop = conditionCode exit condition ++ step ++ body ++ [.loop back] ++ loopTail condition := by
  simp only [loopCode, loopOver, Option.bind_eq_bind, Option.bind_eq_some_iff] at h
  obtain ⟨step, hstep, back, hback, h⟩ := h
  split at hback
  · cases hback
  rename_i hle
  obtain rfl := Option.some.inj hback
  refine ⟨step, _, _, hstep, rfl, by omega, rfl, ?_⟩
  cases condition with
  | none =>
    obtain rfl := Option.some.inj h
    simp [conditionCode, loopTail]
  | some is =>
    simp only [jumpOver, Option.bind_eq_some_iff] at h
    obtain ⟨exit, hexit, h⟩ := h
    have hsize : codeSize ([.pop] ++ step ++ body ++ [.loop (codeSize
        (loopBody (conditionCode 0 (some is)) step body) + 3)])
        = 1 + codeSize step + codeSize body + 3 := by
      simp [codeSize, encodeAll, Instr.encode, shortBytes]
      omega
    rw [hsize] at hexit
    split at hexit
    · cases hexit
    obtain rfl := Option.some.inj hexit
    obtain rfl := Option.some.inj h
    exact ⟨fun _ => by omega, by simp [conditionCode, loopTail]⟩

theorem incrementCode_eq {head js step : List Instr} (h : incrementCode head (some js) = some step) :
    ∃ again past, again = codeSize (head ++ [.jump 0] ++ js ++ [.pop]) + 3 ∧ again ≤ 65535 ∧
      past = codeSize (js ++ [.pop, .loop again]) ∧ past ≤ 65535 ∧
      step = .jump past :: (js ++ [.pop, .loop again]) := by
  simp only [incrementCode, loopOver, jumpOver, Option.bind_eq_bind, Option.bind_eq_some_iff] at h
  obtain ⟨again, hagain, past, hpast, h⟩ := h
  split at hagain
  · cases hagain
  obtain rfl := Option.some.inj hagain
  split at hpast
  · cases hpast
  obtain rfl := Option.some.inj hpast
  obtain rfl := Option.some.inj h
  exact ⟨_, _, rfl, by omega, rfl, by omega, by simp⟩

/-- The drop after the loop. -/
theorem loopTail_cert {a : Shape} (ha : a.slots ≠ []) (hcls : a.cls = none)
    (condition : Option (List Instr)) :
    ∃ ts : Code, ts.instrs = loopTail condition ∧
      (condition ≠ none → ∀ q z, Code.entry (ts ++ q) z = a.push .any) ∧
      ∀ p q z, a.Sub (Code.entry q z) → Cert W I p ts q z := by
  cases condition with
  | none => exact ⟨[], rfl, fun h => absurd rfl h, fun _ _ _ _ => trivial⟩
  | some is =>
    refine ⟨[(⟨a.push .any, noSig⟩, .pop)], rfl, fun _ _ _ => rfl, fun p q z hz => ?_⟩
    refine Cert.single.2 ⟨by simp [Shape.push], a, ?_, hz⟩
    cases a with
    | mk slots cls =>
      cases slots with
      | nil => exact absurd rfl ha
      | cons s ss => cases hcls; rfl

/-- A loop whose pieces keep the shape `a` keeps it. -/
theorem Frag.loop {a : Shape} (ha : a.slots ≠ []) (hcls : a.cls = none)
    {condition increment : Option (List Instr)} {body loop : List Instr}
    (hc : ∀ is, condition = some is → Frag W I a is (a.push .any))
    (hi : ∀ is, increment = some is → Frag W I a is (a.push .any))
    (hb : Frag W I a body a) (h : loopCode condition increment body = some loop) :
    Frag W I a loop a := by
  obtain ⟨step, back, exit, hstep, hback, hle, hexit, hexitle, rfl⟩ := loopCode_eq h
  obtain ⟨hs, hhs, hhe, hhc⟩ : ∃ hs : Code, hs.instrs = conditionCode exit condition ∧
      a.Sub (hs.entry a) ∧ ∀ p q z, a.Sub (Code.entry q z) →
        (condition ≠ none → 0 < exit ∧
          ∃ b, Code.target q z (exit - 1) = some b ∧ (a.push .any).Sub b) →
        Cert W I p hs q z := by
    cases condition with
    | none => exact ⟨[], rfl, Shape.Sub.refl a, fun _ _ _ _ _ => trivial⟩
    | some is => exact conditionCode_cert ha exit (hexitle (by simp)) hc hcls
  have hhsize := Code.size_conditionCode hhs
  obtain ⟨bs, rfl, hbe, hbc⟩ := hb
  obtain ⟨ts, hts, hte, htc⟩ := loopTail_cert (W := W) (I := I) ha hcls condition
  have hbsize : codeSize bs.instrs = bs.size := rfl
  cases increment with
  | none =>
    obtain rfl := Option.some.inj hstep
    refine ⟨hs ++ (bs ++ ((⟨a, noSig⟩, .loop back) :: ts)), by simp [hhs, hts], ?_,
      fun p q z hz => Cert.append.2 ⟨hhc _ _ _ ?_ fun hne => ⟨by omega, _, ?_,
        Shape.Sub.refl _⟩, Cert.append.2 ⟨hbc _ _ _ (Shape.Sub.refl a),
        Cert.cons.2 ⟨?_, htc _ _ _ hz⟩⟩⟩⟩
    · exact Code.entry_sub hhe (Code.entry_sub hbe (Shape.Sub.refl a))
    · rw [List.append_assoc]
      exact Code.entry_sub hbe (Shape.Sub.refl a)
    · rw [← hte hne q z, ← Code.target_size (bs ++ [(⟨a, noSig⟩, .loop back)]) (ts ++ q) z,
        Code.size_append, show Code.size [(⟨a, noSig⟩, Instr.loop back)] = 3 from rfl, hexit, hbsize]
      simp only [List.append_assoc, List.cons_append, List.nil_append]
      rw [show codeSize [] = 0 from rfl]
      congr 1
      omega
    · rw [List.append_assoc]
      refine Ok.loop ha ?_ hle ?_
      · rw [hback, Code.size_append, hhsize]
        simp [loopBody, codeSize, encodeAll, Code.size]
      · rw [List.append_assoc]
        exact Code.entry_sub hhe (Code.entry_sub hbe (Shape.Sub.refl a))
  | some js =>
    obtain ⟨again, past, hagain, hagainle, hpast, hpastle, rfl⟩ := incrementCode_eq hstep
    obtain ⟨js, rfl, hje, hjc⟩ := hi js rfl
    -- The loop, piece by piece: condition, jump into the body, increment, body, jump back.
    set rest : Code := (⟨a, noSig⟩, .loop back) :: ts with hrest
    set inc : Code := js ++ [(⟨a.push .any, noSig⟩, .pop), (⟨a, noSig⟩, .loop again)] with hinc
    have hjsize : codeSize js.instrs = js.size := rfl
    have hinc_size : inc.size = js.size + 4 := by
      rw [hinc, Code.size_append]
      rfl
    have hinc_entry : ∀ q z, a.Sub (Code.entry (inc ++ q) z) := by
      intro q z
      rw [hinc, List.append_assoc]
      exact Code.entry_sub hje (Shape.Sub.refl _)
    have hstep_size : codeSize (Instr.jump past :: (js.instrs ++ [.pop, .loop again]))
        = 3 + inc.size := by
      rw [hinc_size, ← hjsize]
      simp [codeSize, encodeAll, Instr.encode, shortBytes]
      omega
    have hpush : (a.push .any).slots ≠ [] := by simp [Shape.push]
    have hpop : transfer I .pop (a.push .any) = some a := by
      cases a with
      | mk slots cls =>
        cases slots with
        | nil => exact absurd rfl ha
        | cons s ss => cases hcls; rfl
    have hbody_entry : ∀ q z, a.Sub (Code.entry (bs ++ (rest ++ q)) z) := fun q z =>
      Code.entry_sub hbe (Shape.Sub.refl a)
    refine ⟨hs ++ ((⟨a, noSig⟩, .jump past) :: (inc ++ (bs ++ rest))), by
      simp [hhs, hts, hinc, hrest], ?_, fun p q z hz => Cert.append.2 ⟨hhc _ _ _ ?_ fun hne =>
      ⟨by omega, _, ?_, Shape.Sub.refl _⟩, Cert.cons.2 ⟨⟨ha, hpastle, _, ?_, hbody_entry q z⟩,
      Cert.append.2 ⟨?_, Cert.append.2 ⟨hbc _ _ _ (Shape.Sub.refl a),
        Cert.cons.2 ⟨?_, htc _ _ _ hz⟩⟩⟩⟩⟩⟩
    · exact Code.entry_sub hhe (Shape.Sub.refl a)
    · exact Shape.Sub.refl a
    · -- The way out: over the increment, the body and the jump back.
      have ht := Code.target_size ((⟨a, noSig⟩, .jump past) :: (inc ++ (bs ++
        [(⟨a, noSig⟩, .loop back)])) : Code) (ts ++ q) z
      rw [hte hne q z, Code.size_cons, Code.size_append inc, Code.size_append bs,
        show Code.size [(⟨a, noSig⟩, Instr.loop back)] = 3 from rfl,
        show (Instr.jump past).size = 3 from rfl] at ht
      rw [hstep_size, hbsize] at hexit
      rw [← ht, show exit - 1 = 3 + (Code.size inc + (Code.size bs + 3)) by omega]
      simp [hrest]
    · have ht := Code.target_size inc (bs ++ (rest ++ q)) z
      rw [hpast, ← ht]
      congr 1
      · simp
      · rw [hinc_size, ← hjsize]
        simp [codeSize, encodeAll, Instr.encode, shortBytes]
    · -- The increment, and its jump back to the condition.
      refine Cert.append.2 ⟨hjc _ _ _ (Shape.Sub.refl _), Cert.cons.2 ⟨⟨hpush, a, hpop,
        Shape.Sub.refl a⟩, Cert.single.2 ?_⟩⟩
      simp only [List.append_assoc]
      refine Ok.loop ha ?_ hagainle ?_
      · rw [hagain, Code.size_append, hhsize]
        simp only [Code.size, Code.instrs_append, Code.instrs_cons, Code.instrs_nil, codeSize, encodeAll, List.flatMap_append, List.length_append]
        simp [codeSize, encodeAll, Instr.encode, shortBytes]
        omega
      · rw [List.append_assoc]
        exact Code.entry_sub hhe (Shape.Sub.refl a)
    · -- The jump at the end goes back to the increment.
      have hassoc : p ++ hs ++ [(⟨a, noSig⟩, .jump past)] ++ inc ++ bs
          = (p ++ hs ++ [(⟨a, noSig⟩, .jump past)]) ++ (inc ++ bs) := by simp
      rw [hassoc]
      refine Ok.loop ha ?_ hle ?_
      · rw [hback, Code.size_append, hinc_size, ← hjsize, ← hbsize]
        simp [loopBody, codeSize, encodeAll, Instr.encode, shortBytes]
        omega
      · rw [List.append_assoc]
        exact hinc_entry _ _

end Rules

end Lox.Clox
