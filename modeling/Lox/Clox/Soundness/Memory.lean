import Lox.Clox.Layout
import Lox.Clox.Certify.Chain
import Lox.Clox.VM

/-!
# Types for the machine

What the certificates say about kinds of values, said of a machine: every object has a type (`Ty`),
every value the kind that the slot, variable or field it is in calls for (`HasKind`), and the list of
open upvalues is in order.  `MemoryOk` collects this for everything but the frames; the operations of
the machine on its stack and its objects keep it.
-/

namespace Lox.Clox

variable {N : Type}

/-! ### Types of objects, kinds of values -/

/-- The type of an object: what does not change about it. -/
inductive Ty (N : Type) where
  | closure (function : ObjFunction N) (sig : Signature)
  | upvalue (kind : Kind)
  | klass | inst | bound | native

/-- A variable may hold the object. -/
def Ty.FirstClass : Ty N → Prop
  | .closure _ sig => sig.method = false
  | .upvalue _ => False
  | _ => True

/-- A value has a kind, when the objects have the types `S`. -/
def HasKind (S : List (Ty N)) : Value N → Kind → Prop
  | .obj a, .any => ∃ T, S[a]? = some T ∧ T.FirstClass
  | .obj a, .inst => S[a]? = some .inst
  | .obj a, .klass => S[a]? = some .klass
  | .obj a, .meth => ∃ f sig, S[a]? = some (.closure f sig) ∧ sig.method = true
  | _, .any => True
  | _, _ => False

/-- All values of a table have a kind. -/
def TableOk (S : List (Ty N)) (k : Kind) (t : Table N) : Prop :=
  ∀ key v, t key = some v → HasKind S v k

/-- The upvalues of a closure have the kinds that its function expects. -/
def UpvaluesOk (S : List (Ty N)) (us : List (Option Addr)) (kinds : List Kind) : Prop :=
  List.Forall₂ (fun u k => ∃ a, u = some a ∧ S[a]? = some (.upvalue k)) us kinds

/-- An object has a type; a closure that is not `ready` does not have its upvalues yet. -/
def ObjOk (S : List (Ty N)) (ready : Prop) : Obj N → Ty N → Prop
  | .closure f us, .closure g sig =>
      f = g ∧ WellTyped f sig ∧ (ready → UpvaluesOk S us sig.upvalues)
  | .upvalue none v, .upvalue k => HasKind S v k
  | .upvalue (some _) _, .upvalue _ => True
  | .klass _ methods, .klass => TableOk S .meth methods
  | .inst klass fields, .inst => S[klass]? = some .klass ∧ TableOk S .any fields
  | .boundMethod receiver method, .bound => HasKind S receiver .inst ∧ HasKind S (.obj method) .meth
  | .native, .native => True
  | _, _ => False

/-- All objects have their types.  `hole` is a closure that is just being made. -/
structure HeapOk (hole : Option Addr) (S : List (Ty N)) (objects : List (Obj N)) : Prop where
  length : S.length = objects.length
  typed : ∀ (a : Addr) o T, objects[a]? = some o → S[a]? = some T → ObjOk S (hole ≠ some a) o T

section Kinds

variable {S S' : List (Ty N)}

theorem HasKind.mono (h : S <+: S') {v : Value N} {k : Kind} (hv : HasKind S v k) :
    HasKind S' v k := by
  cases v with
  | obj a =>
    cases k with
    | any =>
      obtain ⟨T, hT, hfirst⟩ := hv
      exact ⟨T, prefix_getElem? h hT, hfirst⟩
    | inst => exact prefix_getElem? h hv
    | klass => exact prefix_getElem? h hv
    | meth =>
      obtain ⟨f, sig, hT, hmethod⟩ := hv
      exact ⟨f, sig, prefix_getElem? h hT, hmethod⟩
  | nil | bool b | number n | string s => cases k <;> exact hv

theorem HasKind.sub {v : Value N} {k k' : Kind} (hv : HasKind S v k) (h : k.Sub k') :
    HasKind S v k' := by
  rcases h with rfl | ⟨hne, rfl⟩
  · exact hv
  · cases v with
    | obj a =>
      cases k with
      | any => exact hv
      | inst => exact ⟨.inst, hv, trivial⟩
      | klass => exact ⟨.klass, hv, trivial⟩
      | meth => exact absurd rfl hne
    | nil | bool b | number n | string s => trivial

theorem TableOk.mono (h : S <+: S') {k : Kind} {t : Table N} (ht : TableOk S k t) :
    TableOk S' k t :=
  fun key v hv => (ht key v hv).mono h

theorem TableOk.empty (S : List (Ty N)) (k : Kind) : TableOk S k Table.empty := by
  intro key v hv
  cases hv

theorem TableOk.set {k : Kind} {t : Table N} (ht : TableOk S k t) (name : Name) {v : Value N}
    (hv : HasKind S v k) : TableOk S k (t.set name v) := by
  intro key w hw
  unfold Table.set at hw
  split at hw
  · obtain rfl := Option.some.inj hw
    exact hv
  · exact ht key w hw

theorem TableOk.addAll {k : Kind} {s t : Table N} (hs : TableOk S k s) (ht : TableOk S k t) :
    TableOk S k (s.addAll t) := by
  intro key v hv
  unfold Table.addAll at hv
  cases hsource : s key with
  | some w =>
    rw [hsource] at hv
    obtain rfl := Option.some.inj hv
    exact hs key w hsource
  | none =>
    rw [hsource] at hv
    exact ht key v hv

theorem UpvaluesOk.mono (h : S <+: S') {us : List (Option Addr)} {kinds : List Kind}
    (hus : UpvaluesOk S us kinds) : UpvaluesOk S' us kinds := by
  refine hus.imp ?_
  rintro u k ⟨a, hu, ha⟩
  exact ⟨a, hu, prefix_getElem? h ha⟩

theorem ObjOk.mono (h : S <+: S') {ready ready' : Prop} (hready : ready' → ready) {o : Obj N}
    {T : Ty N} (ho : ObjOk S ready o T) : ObjOk S' ready' o T := by
  cases o with
  | closure f us =>
    cases T with
    | closure g sig =>
      obtain ⟨hfg, hwell, hus⟩ := ho
      exact ⟨hfg, hwell, fun hr => (hus (hready hr)).mono h⟩
    | _ => exact ho.elim
  | upvalue location v =>
    cases T with
    | upvalue k =>
      cases location with
      | none => exact HasKind.mono h ho
      | some l => trivial
    | _ => cases location <;> exact ho.elim
  | klass name methods =>
    cases T with
    | klass => exact TableOk.mono h ho
    | _ => exact ho.elim
  | inst klass fields =>
    cases T with
    | inst => exact ⟨prefix_getElem? h ho.1, ho.2.mono h⟩
    | _ => exact ho.elim
  | boundMethod receiver method =>
    cases T with
    | bound => exact ⟨ho.1.mono h, ho.2.mono h⟩
    | _ => exact ho.elim
  | native =>
    cases T with
    | native => trivial
    | _ => exact ho.elim

end Kinds

/-! ### Objects -/

namespace HeapOk

variable {hole : Option Addr} {S : List (Ty N)} {objects : List (Obj N)}

theorem get (h : HeapOk hole S objects) {a : Addr} {T : Ty N} (ha : S[a]? = some T) :
    ∃ o, objects[a]? = some o ∧ ObjOk S (hole ≠ some a) o T := by
  have hlt := (List.getElem?_eq_some_iff.1 ha).1
  rw [h.length] at hlt
  have ho := List.getElem?_eq_getElem hlt
  exact ⟨_, ho, h.typed a _ T ho ha⟩

theorem type_of (h : HeapOk hole S objects) {a : Addr} {o : Obj N} (ha : objects[a]? = some o) :
    ∃ T, S[a]? = some T ∧ ObjOk S (hole ≠ some a) o T := by
  have hlt := (List.getElem?_eq_some_iff.1 ha).1
  rw [← h.length] at hlt
  have hT := List.getElem?_eq_getElem hlt
  exact ⟨_, hT, h.typed a o _ ha hT⟩

theorem closure (h : HeapOk hole S objects) {a : Addr} {f : ObjFunction N} {sig : Signature}
    (ha : S[a]? = some (.closure f sig)) : ∃ us, objects[a]? = some (.closure f us) ∧
      WellTyped f sig ∧ (hole ≠ some a → UpvaluesOk S us sig.upvalues) := by
  obtain ⟨o, ho, hok⟩ := h.get ha
  cases o with
  | closure g us =>
    obtain ⟨rfl, hwell, hus⟩ := hok
    exact ⟨us, ho, hwell, hus⟩
  | upvalue location v => cases location <;> exact hok.elim
  | _ => exact hok.elim

theorem klass (h : HeapOk hole S objects) {a : Addr} (ha : S[a]? = some .klass) :
    ∃ name methods, objects[a]? = some (.klass name methods) ∧ TableOk S .meth methods := by
  obtain ⟨o, ho, hok⟩ := h.get ha
  cases o with
  | klass name methods => exact ⟨name, methods, ho, hok⟩
  | upvalue location v => cases location <;> exact hok.elim
  | _ => exact hok.elim

theorem inst (h : HeapOk hole S objects) {a : Addr} (ha : S[a]? = some .inst) :
    ∃ klass fields, objects[a]? = some (.inst klass fields) ∧ S[klass]? = some .klass ∧
      TableOk S .any fields := by
  obtain ⟨o, ho, hok⟩ := h.get ha
  cases o with
  | inst klass fields => exact ⟨klass, fields, ho, hok.1, hok.2⟩
  | upvalue location v => cases location <;> exact hok.elim
  | _ => exact hok.elim

theorem upvalue (h : HeapOk hole S objects) {a : Addr} {k : Kind} (ha : S[a]? = some (.upvalue k)) :
    ∃ location v, objects[a]? = some (.upvalue location v) ∧ (location = none → HasKind S v k) := by
  obtain ⟨o, ho, hok⟩ := h.get ha
  cases o with
  | upvalue location v =>
    refine ⟨location, v, ho, fun hnone => ?_⟩
    subst hnone
    exact hok
  | _ => exact hok.elim

theorem prefix_append (S : List (Ty N)) (T : Ty N) : S <+: S ++ [T] := List.prefix_append _ _

/-- An object is allocated. -/
theorem append {hole' : Option Addr} (h : HeapOk hole S objects) {o : Obj N} {T : Ty N}
    (ho : ObjOk (S ++ [T]) (hole' ≠ some objects.length) o T)
    (hhole : ∀ a < objects.length, hole' ≠ some a → hole ≠ some a) :
    HeapOk hole' (S ++ [T]) (objects ++ [o]) := by
  refine ⟨by simp [h.length], fun a o' T' ha hT => ?_⟩
  rcases Nat.lt_or_ge a objects.length with hlt | hge
  · rw [List.getElem?_append_left hlt] at ha
    rw [List.getElem?_append_left (by rw [h.length]; exact hlt)] at hT
    exact (h.typed a o' T' ha hT).mono (prefix_append S T) (hhole a hlt)
  · rw [List.getElem?_append_right hge] at ha
    rw [List.getElem?_append_right (by rw [h.length]; exact hge)] at hT
    have hlt := (List.getElem?_eq_some_iff.1 ha).1
    have heq : a = objects.length := by
      rw [List.length_singleton] at hlt
      exact Nat.le_antisymm (Nat.le_of_sub_eq_zero (Nat.lt_one_iff.1 hlt)) hge
    obtain rfl := List.mem_singleton.1 (List.mem_of_getElem? ha)
    obtain rfl := List.mem_singleton.1 (List.mem_of_getElem? hT)
    rw [heq]
    exact ho

/-- An object is changed, and keeps its type. -/
theorem set {hole' : Option Addr} (h : HeapOk hole S objects) {a : Addr} {o : Obj N} {T : Ty N}
    (hT : S[a]? = some T) (ho : ObjOk S (hole' ≠ some a) o T)
    (hhole : ∀ b, b ≠ a → hole' ≠ some b → hole ≠ some b) : HeapOk hole' S (objects.set a o) := by
  refine ⟨by simp [h.length], fun b o' T' hb hT' => ?_⟩
  by_cases hab : a = b
  · subst hab
    rw [hT] at hT'
    obtain rfl := Option.some.inj hT'
    have hlt := (List.getElem?_eq_some_iff.1 hb).1
    rw [List.length_set] at hlt
    rw [List.getElem?_set_self hlt] at hb
    obtain rfl := Option.some.inj hb
    exact ho
  · rw [List.getElem?_set_ne hab] at hb
    exact (h.typed b o' T' hb hT').mono List.prefix_rfl (hhole b (Ne.symm hab))

end HeapOk

/-! ### Open upvalues and the stack -/

/-- The upvalue `a` points to the stack slot `l`. -/
def OpenAt (objects : List (Obj N)) (a : Addr) (l : ℕ) : Prop :=
  ∃ v, objects[a]? = some (.upvalue (some l) v)

/-- The list of open upvalues: the ones that point into the stack, from the top down. -/
structure OpenOk (objects : List (Obj N)) (upvalues : List Addr) (top : ℕ) : Prop where
  sorted : ∃ ls : List ℕ, List.Forall₂ (OpenAt objects) upvalues ls ∧ ls.Pairwise (· > ·)
  below : ∀ a l, OpenAt objects a l → l < top
  listed : ∀ a l, OpenAt objects a l → a ∈ upvalues

/-- The stack slot `j` holds what the certificate says, and so do the upvalues that point to it. -/
def SlotOk (S : List (Ty N)) (objects : List (Obj N)) (stack : ℕ → Value N) (j : ℕ) (s : Slot) :
    Prop :=
  HasKind S (stack j) s.kind ∧
    ∀ a, OpenAt objects a j → s.captured = true ∧ S[a]? = some (.upvalue s.kind)

/-- The stack, from the top down. -/
def StackOk (S : List (Ty N)) (objects : List (Obj N)) (stack : ℕ → Value N) : List Slot → Prop
  | [] => True
  | s :: ss => SlotOk S objects stack ss.length s ∧ StackOk S objects stack ss

/-- The memory of the machine, when its stack has the given slots. -/
structure MemoryOk (hole : Option Addr) (S : List (Ty N)) (vm : VM N (List Addr))
    (slots : List Slot) : Prop where
  heap : HeapOk hole S vm.objects
  globals : TableOk S .any vm.globals
  opens : OpenOk vm.objects vm.upvalues vm.stackTop
  top : vm.stackTop = slots.length
  stack : StackOk S vm.objects vm.stack slots

theorem OpenAt.unique {objects : List (Obj N)} {a : Addr} {l l' : ℕ} (h : OpenAt objects a l)
    (h' : OpenAt objects a l') : l = l' := by
  obtain ⟨v, hv⟩ := h
  obtain ⟨v', hv'⟩ := h'
  rw [hv] at hv'
  cases hv'
  rfl

/-- No upvalue is opened by the allocation of another object. -/
theorem openAt_append {objects : List (Obj N)} {o : Obj N} (ho : ∀ l v, o ≠ .upvalue (some l) v)
    {a : Addr} {l : ℕ} : OpenAt (objects ++ [o]) a l ↔ OpenAt objects a l := by
  constructor
  · rintro ⟨v, hv⟩
    rcases Nat.lt_or_ge a objects.length with hlt | hge
    · rw [List.getElem?_append_left hlt] at hv
      exact ⟨v, hv⟩
    · rw [List.getElem?_append_right hge] at hv
      exact absurd (List.mem_singleton.1 (List.mem_of_getElem? hv)).symm (ho l v)
  · rintro ⟨v, hv⟩
    exact ⟨v, by rw [List.getElem?_append_left (List.getElem?_eq_some_iff.1 hv).1, hv]⟩

/-- No upvalue is opened or closed by a change of another object. -/
theorem openAt_set {objects : List (Obj N)} {b : Addr} {old o : Obj N} (hold : objects[b]? = some old)
    (hne : ∀ l v, old ≠ .upvalue (some l) v) (ho : ∀ l v, o ≠ .upvalue (some l) v) {a : Addr} {l : ℕ} :
    OpenAt (objects.set b o) a l ↔ OpenAt objects a l := by
  have hlt := (List.getElem?_eq_some_iff.1 hold).1
  unfold OpenAt
  by_cases hab : b = a
  · subst hab
    rw [List.getElem?_set_self hlt, hold]
    exact ⟨fun ⟨v, hv⟩ => absurd (Option.some.inj hv) (ho l v),
      fun ⟨v, hv⟩ => absurd (Option.some.inj hv) (hne l v)⟩
  · rw [List.getElem?_set_ne hab]

theorem OpenOk.congr {objects objects' : List (Obj N)} {upvalues : List Addr} {top top' : ℕ}
    (h : OpenOk objects upvalues top) (hopen : ∀ a l, OpenAt objects' a l ↔ OpenAt objects a l)
    (htop : ∀ a l, OpenAt objects a l → l < top') : OpenOk objects' upvalues top' := by
  obtain ⟨ls, hls, hsorted⟩ := h.sorted
  refine ⟨⟨ls, hls.imp fun a l ha => (hopen a l).2 ha, hsorted⟩, fun a l ha => ?_, fun a l ha => ?_⟩
  · exact htop a l ((hopen a l).1 ha)
  · exact h.listed a l ((hopen a l).1 ha)

/-- Every number below the height names a slot. -/
theorem exists_slotAt {α : Type} {i : ℕ} : ∀ {as : List α}, i < as.length →
    ∃ a, slotAt i as = some a := by
  intro as
  induction as with
  | nil =>
    intro h
    cases h
  | cons a as ih =>
    intro h
    by_cases hi : as.length = i
    · exact ⟨a, by simp [slotAt, hi]⟩
    · rw [List.length_cons] at h
      obtain ⟨b, hb⟩ := ih (by omega)
      exact ⟨b, by simp [slotAt, hi, hb]⟩

namespace StackOk

variable {S S' : List (Ty N)} {objects objects' : List (Obj N)} {stack stack' : ℕ → Value N}

theorem congr (hS : S <+: S') (hopen : ∀ a l, OpenAt objects' a l → OpenAt objects a l) :
    ∀ {slots : List Slot}, StackOk S objects stack slots →
      (∀ j < slots.length, stack' j = stack j) → StackOk S' objects' stack' slots := by
  intro slots
  induction slots with
  | nil =>
    intro _ _
    trivial
  | cons s ss ih =>
    intro h hstack
    obtain ⟨⟨hkind, hups⟩, hss⟩ := h
    refine ⟨⟨?_, fun a ha => ?_⟩, ih hss fun j hj => hstack j (by rw [List.length_cons]; omega)⟩
    · rw [hstack _ (by simp)]
      exact hkind.mono hS
    · obtain ⟨hcaptured, hT⟩ := hups a (hopen a _ ha)
      exact ⟨hcaptured, prefix_getElem? hS hT⟩

theorem slotAt {j : ℕ} {s : Slot} : ∀ {slots : List Slot}, StackOk S objects stack slots →
    Lox.Clox.slotAt j slots = some s → SlotOk S objects stack j s := by
  intro slots
  induction slots with
  | nil =>
    intro _ hs
    cases hs
  | cons t ts ih =>
    intro h hs
    simp only [Lox.Clox.slotAt] at hs
    split at hs
    · rename_i hj
      obtain rfl := Option.some.inj hs
      rw [← hj]
      exact h.1
    · exact ih h.2 hs

theorem of_slotAt : ∀ {slots : List Slot},
    (∀ j s, Lox.Clox.slotAt j slots = some s → SlotOk S objects stack j s) →
    StackOk S objects stack slots := by
  intro slots
  induction slots with
  | nil =>
    intro _
    trivial
  | cons t ts ih =>
    intro h
    refine ⟨h _ t (slotAt_cons_self t ts), ih fun j s hs => h j s ?_⟩
    have hlt := slotAt_lt hs
    simp only [Lox.Clox.slotAt]
    rw [if_neg (by omega)]
    exact hs

/-- The slot at a distance from the top. -/
theorem getElem? {d : ℕ} {s : Slot} : ∀ {slots : List Slot}, StackOk S objects stack slots →
    slots[d]? = some s → SlotOk S objects stack (slots.length - 1 - d) s := by
  intro slots
  induction slots generalizing d with
  | nil =>
    intro _ hs
    cases hs
  | cons t ts ih =>
    intro h hs
    cases d with
    | zero =>
      obtain rfl := Option.some.inj hs
      exact h.1
    | succ d =>
      have hd := ih h.2 hs
      have heq : (t :: ts).length - 1 - (d + 1) = ts.length - 1 - d := by
        rw [List.length_cons]
        omega
      rw [heq]
      exact hd

theorem of_append {as bs : List Slot} (h : StackOk S objects stack (as ++ bs)) :
    StackOk S objects stack bs := by
  induction as with
  | nil => exact h
  | cons a as ih => exact ih h.2

theorem sub : ∀ {slots slots' : List Slot}, List.Forall₂ Slot.Sub slots slots' →
    StackOk S objects stack slots → StackOk S objects stack slots' := by
  intro slots slots' hsub
  induction hsub with
  | nil => exact id
  | @cons s t ss ts hst hsub ih =>
    intro h
    obtain ⟨⟨hkind, hups⟩, hss⟩ := h
    refine ⟨?_, ih hss⟩
    rw [← hsub.length_eq]
    cases hcaptured : s.captured with
    | true =>
      rw [hst.1 hcaptured]
      exact ⟨hkind, hups⟩
    | false =>
      refine ⟨hkind.sub (hst.2 hcaptured), fun a ha => ?_⟩
      rw [hcaptured] at hups
      exact absurd (hups a ha).1 (by simp)

/-- A slot gets a value of its kind. -/
theorem write {j : ℕ} {v : Value N} {s : Slot} : ∀ {slots : List Slot},
    StackOk S objects stack slots → Lox.Clox.slotAt j slots = some s → HasKind S v s.kind →
    StackOk S objects (Function.update stack j v) slots := by
  intro slots
  induction slots with
  | nil =>
    intro _ _ _
    trivial
  | cons t ts ih =>
    intro h hs hv
    simp only [Lox.Clox.slotAt] at hs
    split at hs
    · rename_i hj
      obtain rfl := Option.some.inj hs
      subst hj
      refine ⟨⟨by rw [Function.update_self]; exact hv, h.1.2⟩, ?_⟩
      refine h.2.congr List.prefix_rfl (fun _ _ ha => ha) fun j hj => ?_
      exact Function.update_of_ne (by omega) _ _
    · rename_i hj
      refine ⟨⟨?_, h.1.2⟩, ih h.2 hs hv⟩
      rw [Function.update_of_ne (by exact hj)]
      exact h.1.1

end StackOk

/-! ### Operations on the memory -/

namespace MemoryOk

variable {hole : Option Addr} {S : List (Ty N)} {vm : VM N (List Addr)} {slots rest : List Slot}

theorem sub (h : MemoryOk hole S vm slots) (hsub : List.Forall₂ Slot.Sub slots rest) :
    MemoryOk hole S vm rest :=
  ⟨h.heap, h.globals, h.opens, h.top.trans hsub.length_eq, h.stack.sub hsub⟩

/-- The same memory, with other frames and another output. -/
theorem of_eq (h : MemoryOk hole S vm slots) {vm' : VM N (List Addr)} (hobjects : vm'.objects = vm.objects)
    (hglobals : vm'.globals = vm.globals) (hupvalues : vm'.upvalues = vm.upvalues)
    (htop : vm'.stackTop = vm.stackTop) (hstack : vm'.stack = vm.stack) : MemoryOk hole S vm' slots := by
  refine ⟨?_, ?_, ?_, htop.trans h.top, ?_⟩
  · rw [hobjects]
    exact h.heap
  · rw [hglobals]
    exact h.globals
  · rw [hobjects, hupvalues, htop]
    exact h.opens
  · rw [hobjects, hstack]
    exact h.stack

theorem push (h : MemoryOk hole S vm slots) {v : Value N} {k : Kind} (hv : HasKind S v k) :
    MemoryOk hole S (vm.push v) (⟨k, false⟩ :: slots) := by
  refine ⟨h.heap, h.globals, ?_, ?_, ⟨?_, fun a ha => ?_⟩, ?_⟩
  · exact h.opens.congr (fun _ _ => Iff.rfl) fun a l ha =>
      Nat.lt_succ_of_lt (h.opens.below a l ha)
  · simp [VM.push, h.top]
  · simp only [VM.push, h.top, Function.update_self]
    exact hv
  · have hlt := h.opens.below a _ ha
    rw [h.top] at hlt
    exact absurd hlt (Nat.lt_irrefl _)
  · refine h.stack.congr List.prefix_rfl (fun _ _ ha => ha) fun j hj => ?_
    simp only [VM.push, h.top]
    exact Function.update_of_ne (by omega) _ _

theorem pop_one {s : Slot} (h : MemoryOk hole S vm (s :: slots)) (hs : s.captured = false) :
    MemoryOk hole S (vm.pop 1) slots := by
  have htop := h.top
  rw [List.length_cons] at htop
  refine ⟨h.heap, h.globals, ?_, ?_, h.stack.2⟩
  · refine h.opens.congr (fun _ _ => Iff.rfl) fun a l ha => ?_
    have hlt := h.opens.below a l ha
    have hne : l ≠ slots.length := by
      rintro rfl
      have hcaptured := (h.stack.1.2 a ha).1
      rw [hs] at hcaptured
      cases hcaptured
    change l < vm.stackTop - 1
    omega
  · change vm.stackTop - 1 = slots.length
    omega

theorem pop (n : ℕ) : ∀ {vm : VM N (List Addr)} {slots rest : List Slot} (below : List Slot),
    MemoryOk hole S vm (slots ++ below) → popSlots n slots = some rest →
    MemoryOk hole S (vm.pop n) (rest ++ below) := by
  induction n with
  | zero =>
    intro vm slots rest below h hpop
    cases slots with
    | nil => cases hpop
    | cons s ss =>
      obtain rfl := Option.some.inj hpop
      exact h.of_eq rfl rfl rfl rfl rfl
  | succ n ih =>
    intro vm slots rest below h hpop
    cases slots with
    | nil => cases hpop
    | cons s ss =>
      simp only [popSlots] at hpop
      split at hpop
      · rename_i hplain
        have hcaptured : s.captured = false := by
          simp only [Slot.plain, Bool.and_eq_true, Bool.not_eq_true'] at hplain
          exact hplain.1
        have hmemory := ih below (h.pop_one hcaptured) hpop
        exact hmemory.of_eq rfl rfl rfl (by simp [VM.pop, VM.truncate]; omega) rfl
      · cases hpop

/-- The value at a distance from the top. -/
theorem peek (h : MemoryOk hole S vm slots) {d : ℕ} {s : Slot} (hs : slots[d]? = some s) :
    HasKind S (vm.peek d) s.kind := by
  have hslot := (h.stack.getElem? hs).1
  rw [← h.top] at hslot
  exact hslot

/-- An assignment to a slot. -/
theorem write (h : MemoryOk hole S vm slots) {j : ℕ} {s : Slot} (hs : slotAt j slots = some s)
    {v : Value N} (hv : HasKind S v s.kind) :
    MemoryOk hole S { vm with stack := Function.update vm.stack j v } slots :=
  ⟨h.heap, h.globals, h.opens, h.top, h.stack.write hs hv⟩

theorem defineGlobal (h : MemoryOk hole S vm slots) (name : Name) {v : Value N}
    (hv : HasKind S v .any) :
    MemoryOk hole S { vm with globals := vm.globals.set name v } slots :=
  ⟨h.heap, h.globals.set name hv, h.opens, h.top, h.stack⟩

/-- The allocation of an object that is not an open upvalue. -/
theorem allocate {hole' : Option Addr} (h : MemoryOk hole S vm slots) {o : Obj N} {T : Ty N}
    (ho : ObjOk (S ++ [T]) (hole' ≠ some vm.objects.length) o T)
    (hhole : ∀ a < vm.objects.length, hole' ≠ some a → hole ≠ some a)
    (hopen : ∀ l v, o ≠ .upvalue (some l) v) :
    MemoryOk hole' (S ++ [T]) (vm.allocate o).2 slots := by
  have hpre := HeapOk.prefix_append S T
  refine ⟨h.heap.append ho hhole, h.globals.mono hpre, ?_, h.top, ?_⟩
  · exact h.opens.congr (fun a l => openAt_append hopen) h.opens.below
  · exact h.stack.congr hpre (fun a l => (openAt_append hopen).1) fun _ _ => rfl

/-- A change of an object that is not an open upvalue. -/
theorem update {hole' : Option Addr} (h : MemoryOk hole S vm slots) {a : Addr} {old o : Obj N}
    {T : Ty N} (hold : vm.objects[a]? = some old) (hT : S[a]? = some T)
    (ho : ObjOk S (hole' ≠ some a) o T) (hhole : ∀ b, b ≠ a → hole' ≠ some b → hole ≠ some b)
    (hne : ∀ l v, old ≠ .upvalue (some l) v) (hopen : ∀ l v, o ≠ .upvalue (some l) v) :
    MemoryOk hole' S (vm.update a o) slots := by
  refine ⟨h.heap.set hT ho hhole, h.globals, ?_, h.top, ?_⟩
  · exact h.opens.congr (fun b l => openAt_set hold hne hopen) h.opens.below
  · exact h.stack.congr List.prefix_rfl (fun b l => (openAt_set hold hne hopen).1) fun _ _ => rfl

/-! ### Upvalues -/

/-- Reading a captured variable. -/
theorem getUpvalue (h : MemoryOk hole S vm slots) {a : Addr} {k : Kind}
    (ha : S[a]? = some (.upvalue k)) :
    ∃ v, Lox.Clox.getUpvalue a vm = some v ∧ HasKind S v k := by
  obtain ⟨location, v, ho, hclosed⟩ := h.heap.upvalue ha
  cases location with
  | none => exact ⟨v, by simp [Lox.Clox.getUpvalue, ho], hclosed rfl⟩
  | some l =>
    have hopen : OpenAt vm.objects a l := ⟨v, ho⟩
    have hlt := h.opens.below a l hopen
    rw [h.top] at hlt
    obtain ⟨s, hs⟩ := exists_slotAt hlt
    obtain ⟨hkind, hups⟩ := h.stack.slotAt hs
    obtain ⟨-, hT⟩ := hups a hopen
    rw [ha] at hT
    cases hT
    exact ⟨vm.stack l, by simp [Lox.Clox.getUpvalue, ho], hkind⟩

/-- Assigning a captured variable. -/
theorem setUpvalue (h : MemoryOk hole S vm slots) {a : Addr} {k : Kind} {v : Value N}
    (ha : S[a]? = some (.upvalue k)) (hv : HasKind S v k) :
    ∃ vm', Lox.Clox.setUpvalue a v vm = some vm' ∧ MemoryOk hole S vm' slots := by
  obtain ⟨location, w, ho, hclosed⟩ := h.heap.upvalue ha
  cases location with
  | none =>
    have hobj : ObjOk S (hole ≠ some a) (.upvalue none v) (.upvalue k) := hv
    exact ⟨_, by simp only [Lox.Clox.setUpvalue, ho],
      h.update ho ha hobj (fun _ _ h => h) (by simp) (by simp)⟩
  | some l =>
    have hopen : OpenAt vm.objects a l := ⟨w, ho⟩
    have hlt := h.opens.below a l hopen
    rw [h.top] at hlt
    obtain ⟨s, hs⟩ := exists_slotAt hlt
    obtain ⟨-, hT⟩ := (h.stack.slotAt hs).2 a hopen
    rw [ha] at hT
    cases hT
    exact ⟨_, by simp only [Lox.Clox.setUpvalue, ho], h.write hs hv⟩

end MemoryOk

end Lox.Clox
