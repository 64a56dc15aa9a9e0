import Lox.Clox.Certificate
import Lox.Clox.Names

/-!
# The chain of compilers while code is generated

The slots of a frame are only implicit in the compiler: the initialized locals, then the
temporaries.  This file has what the chain of compilers keeps throughout (`Good`), how it grows
(`Grows`), and how it relates to what will be known when its functions are finished (`Chain`), with
the kind of value each name stands for (`resolveVariable_frag`).
-/

namespace Lox.Clox

variable {N : Type}

/-! ### Slots by number -/

theorem slotAt_lt {α : Type} {i : ℕ} {as : List α} {a : α} (h : slotAt i as = some a) :
    i < as.length := by
  induction as with
  | nil => cases h
  | cons b bs ih =>
    simp only [slotAt] at h
    split at h
    · simp only [List.length_cons]
      omega
    · have := ih h
      simp only [List.length_cons]
      omega

theorem slotAt_append {α : Type} {i : ℕ} (as : List α) {bs : List α} (h : i < bs.length) :
    slotAt i (as ++ bs) = slotAt i bs := by
  induction as with
  | nil => rfl
  | cons a as ih =>
    simp only [List.cons_append, slotAt]
    rw [if_neg (by simp only [List.length_append]; omega)]
    exact ih

theorem slotAt_mem {α : Type} {i : ℕ} {as : List α} {a : α} (h : slotAt i as = some a) : a ∈ as := by
  induction as with
  | nil => cases h
  | cons b bs ih =>
    simp only [slotAt] at h
    split at h
    · obtain rfl := Option.some.inj h
      simp
    · exact List.mem_cons_of_mem _ (ih h)

theorem slotAt_forall₂ {α β : Type} {R : α → β → Prop} {i : ℕ} {as : List α} {bs : List β} {a : α}
    (h : List.Forall₂ R as bs) (ha : slotAt i as = some a) : ∃ b, slotAt i bs = some b ∧ R a b := by
  induction h with
  | nil => cases ha
  | @cons a' b' as bs hab hs ih =>
    simp only [slotAt, hs.length_eq] at ha ⊢
    split at ha
    · rename_i hi
      obtain rfl := Option.some.inj ha
      exact ⟨b', if_pos hi, hab⟩
    · rename_i hi
      rw [if_neg hi]
      exact ih ha

theorem slotAt_cons_self {α : Type} (a : α) (as : List α) : slotAt as.length (a :: as) = some a := by
  simp [slotAt]

/-! ### Frames -/

/-- The kind of a local: `super` holds a class, and slot 0 of a method an instance. -/
def localKind (type : FunctionType) (slot : ℕ) (name : Name) : Kind :=
  if name = "super".toList then .klass
  else if slot = 0 ∧ (type = .method ∨ type = .initializer) then .inst
  else .any

/-- The slots of locals, given which slots are captured. -/
def localSlots (type : FunctionType) (captured : ℕ → Bool) : List Local → List Slot
  | [] => []
  | l :: ls => ⟨localKind type ls.length l.name, captured ls.length⟩ :: localSlots type captured ls

/-- The locals that have a value; only the last one can be waiting for its initializer. -/
def readyLocals : List Local → List Local
  | [] => []
  | l :: ls => if l.depth = -1 then ls else l :: ls

@[simp] theorem length_localSlots (type : FunctionType) (captured : ℕ → Bool) (ls : List Local) :
    (localSlots type captured ls).length = ls.length := by
  induction ls with
  | nil => rfl
  | cons l ls ih => simp [localSlots, ih]

theorem slotAt_localSlots (type : FunctionType) (captured : ℕ → Bool) {i : ℕ} {ls : List Local}
    {l : Local} (h : slotAt i ls = some l) :
    slotAt i (localSlots type captured ls) = some ⟨localKind type i l.name, captured i⟩ := by
  induction ls with
  | nil => cases h
  | cons l' ls ih =>
    simp only [localSlots, slotAt, length_localSlots] at h ⊢
    split at h
    · rename_i hi
      obtain rfl := Option.some.inj h
      rw [if_pos hi, hi]
    · rename_i hi
      rw [if_neg hi]
      exact ih h

/-- What is known of a function when it is finished: its constants, the kinds of its upvalues and
which slots of the present scope get captured. -/
structure Final (N : Type) where
  constants : List (Constant N)
  upvalues : List Kind
  captured : ℕ → Bool

def Final.info (F : Final N) : Info N := ⟨F.constants, F.upvalues⟩

/-- The slots of the frame of a compiler. -/
def Compiler.frame (c : Compiler N) (F : Final N) : List Slot :=
  localSlots c.type F.captured (readyLocals c.locals)

/-! ### Growing -/

/-- A local keeps its name and depth; it may get captured. -/
def Local.Grows (l l' : Local) : Prop :=
  l'.name = l.name ∧ l'.depth = l.depth ∧ (l.isCaptured = true → l'.isCaptured = true)

/-- A compiler goes on: more constants and upvalues, and `extra` locals on top. -/
structure Compiler.Grows (extra : List Local) (c c' : Compiler N) : Prop where
  type : c'.type = c.type
  name : c'.name = c.name
  arity : c'.arity = c.arity
  scopeDepth : c'.scopeDepth = c.scopeDepth
  constants : c.constants <+: c'.constants
  upvalues : c.upvalues <+: c'.upvalues
  locals : ∃ ls, c'.locals = extra ++ ls ∧ List.Forall₂ Local.Grows c.locals ls

/-- The whole chain goes on, with new locals in the innermost compiler only. -/
inductive ChainGrows (extra : List Local) : List (Compiler N) → List (Compiler N) → Prop where
  | cons {c c' : Compiler N} {cs cs' : List (Compiler N)} (head : c.Grows extra c')
      (tail : List.Forall₂ (Compiler.Grows []) cs cs') : ChainGrows extra (c :: cs) (c' :: cs')

theorem Local.Grows.refl (l : Local) : l.Grows l := ⟨rfl, rfl, fun h => h⟩

theorem Local.Grows.trans {l m n : Local} (h₁ : l.Grows m) (h₂ : m.Grows n) : l.Grows n :=
  ⟨h₂.1.trans h₁.1, h₂.2.1.trans h₁.2.1, fun h => h₂.2.2 (h₁.2.2 h)⟩

theorem Compiler.Grows.refl (c : Compiler N) : c.Grows [] c :=
  ⟨rfl, rfl, rfl, rfl, List.prefix_rfl, List.prefix_rfl, c.locals, rfl,
    List.forall₂_same.2 fun l _ => Local.Grows.refl l⟩

theorem Compiler.Grows.trans {extra : List Local} {c d e : Compiler N} (h₁ : c.Grows [] d)
    (h₂ : d.Grows extra e) : c.Grows extra e := by
  obtain ⟨ls, hls, hg⟩ := h₁.locals
  obtain ⟨ms, hms, hg'⟩ := h₂.locals
  rw [List.nil_append] at hls
  subst hls
  exact ⟨h₂.type.trans h₁.type, h₂.name.trans h₁.name, h₂.arity.trans h₁.arity,
    h₂.scopeDepth.trans h₁.scopeDepth, h₁.constants.trans h₂.constants,
    h₁.upvalues.trans h₂.upvalues, ms, hms,
    forall₂_trans (R := Local.Grows) (fun _ _ _ h k => h.trans k) hg hg'⟩

theorem compilersGrow_refl (cs : List (Compiler N)) : List.Forall₂ (Compiler.Grows []) cs cs :=
  List.forall₂_same.2 fun c _ => Compiler.Grows.refl c

theorem compilersGrow_trans {cs ds es : List (Compiler N)}
    (h₁ : List.Forall₂ (Compiler.Grows []) cs ds) (h₂ : List.Forall₂ (Compiler.Grows []) ds es) :
    List.Forall₂ (Compiler.Grows []) cs es :=
  forall₂_trans (R := Compiler.Grows []) (fun _ _ _ h k => h.trans k) h₁ h₂

theorem ChainGrows.refl {cs : List (Compiler N)} (h : cs ≠ []) : ChainGrows [] cs cs := by
  cases cs with
  | nil => exact absurd rfl h
  | cons c cs => exact .cons (Compiler.Grows.refl c) (compilersGrow_refl cs)

theorem ChainGrows.forall₂ {cs ds : List (Compiler N)} (h : ChainGrows [] cs ds) :
    List.Forall₂ (Compiler.Grows []) cs ds := by
  cases h with
  | cons head tail => exact .cons head tail

theorem ChainGrows.of_forall₂ {cs ds : List (Compiler N)} (hne : cs ≠ [])
    (h : List.Forall₂ (Compiler.Grows []) cs ds) : ChainGrows [] cs ds := by
  cases h with
  | nil => exact absurd rfl hne
  | cons head tail => exact .cons head tail

theorem ChainGrows.trans {extra : List Local} {cs ds es : List (Compiler N)}
    (h₁ : ChainGrows [] cs ds) (h₂ : ChainGrows extra ds es) : ChainGrows extra cs es := by
  cases h₁ with
  | cons head tail =>
    cases h₂ with
    | cons head' tail' => exact .cons (head.trans head') (compilersGrow_trans tail tail')

theorem readyLocals_grows {ls ms : List Local} (h : List.Forall₂ Local.Grows ls ms) :
    List.Forall₂ Local.Grows (readyLocals ls) (readyLocals ms) := by
  cases h with
  | nil => exact .nil
  | cons hl hs =>
    simp only [readyLocals, hl.2.1]
    split
    · exact hs
    · exact .cons hl hs

theorem localSlots_grows {type : FunctionType} {captured : ℕ → Bool} {ls ms : List Local}
    (h : List.Forall₂ Local.Grows ls ms) :
    localSlots type captured ms = localSlots type captured ls := by
  induction h with
  | nil => rfl
  | cons hl hs ih => simp [localSlots, ih, hl.1, hs.length_eq]

theorem Compiler.Grows.frame_eq {c c' : Compiler N} (h : c.Grows [] c') (F : Final N) :
    c'.frame F = c.frame F := by
  obtain ⟨ls, hls, hg⟩ := h.locals
  unfold Compiler.frame
  rw [hls, h.type]
  exact localSlots_grows (readyLocals_grows hg)

/-! ### What the chain keeps -/

/-- A capture refers to a captured local or to an upvalue of the enclosing compiler. -/
def UpvalueOk (e : Compiler N) (u : Upvalue) : Prop :=
  if u.isLocal then ∃ l, slotAt u.index.toNat e.locals = some l ∧ l.isCaptured = true
  else u.index.toNat < e.upvalues.length

/-- The locals, scopes and limits of one compiler.  Slot 0 is set aside by `initCompiler`; only the
last local can be without a value. -/
structure Compiler.Good (c : Compiler N) : Prop where
  base : ∃ b, slotAt 0 c.locals = some b ∧ b.depth = 0 ∧
    b.name = if c.type = .function then [] else "this".toList
  names : ∀ i l, slotAt i c.locals = some l → i ≠ 0 → l.name ≠ "this".toList
  depth : ∀ l ∈ c.locals, l.depth ≤ c.scopeDepth
  ready : ∀ l ∈ c.locals.tail, 0 ≤ l.depth
  script : c.scopeDepth = 0 → c.type = .script ∧ c.locals.length = 1
  locals_le : c.locals.length ≤ 256
  upvalues_le : c.upvalues.length ≤ 256
  functions : ∀ g, Constant.function g ∈ c.constants → ∃ t, WellTyped g t

/-- No local is waiting for its initializer. -/
def Compiler.Ready (c : Compiler N) : Prop := ∀ l ∈ c.locals, 0 ≤ l.depth

/-- The chain of compilers, innermost first, with the script at the end. -/
def Good : List (Compiler N) → Prop
  | [] => False
  | [c] => c.Good ∧ c.type = .script ∧ c.upvalues = []
  | c :: e :: cs =>
      c.Good ∧ c.type ≠ .script ∧ (∀ u ∈ c.upvalues, UpvalueOk e u) ∧ e.Ready ∧ Good (e :: cs)

theorem Good.ne_nil {cs : List (Compiler N)} (h : Good cs) : cs ≠ [] := by
  rintro rfl
  exact h

theorem Good.head {c : Compiler N} {cs : List (Compiler N)} (h : Good (c :: cs)) : c.Good := by
  cases cs with
  | nil => exact h.1
  | cons e cs => exact h.1

theorem Compiler.Ready.readyLocals_eq {c : Compiler N} (h : c.Ready) :
    readyLocals c.locals = c.locals := by
  cases hl : c.locals with
  | nil => rfl
  | cons l ls =>
    have := h l (by simp [hl])
    simp only [readyLocals]
    rw [if_neg (by omega)]

/-! ### What is known at the end -/

/-- The kind of a captured variable. -/
def captureKind (e : Compiler N) (G : Final N) (u : Upvalue) : Option Kind :=
  if u.isLocal then
    (slotAt u.index.toNat e.locals).map fun l => localKind e.type u.index.toNat l.name
  else G.upvalues[u.index.toNat]?

/-- Everything recorded so far is there at the end. -/
def Compiler.Within (c : Compiler N) (F : Final N) : Prop :=
  c.constants <+: F.constants ∧
    ∀ i l, slotAt i c.locals = some l → l.isCaptured = true → F.captured i = true

/-- The chain of compilers and what is known of each of them at the end. -/
def Chain : List (Compiler N) → List (Final N) → Prop
  | [], [] => True
  | [c], [F] => c.Within F
  | c :: e :: cs, F :: G :: Fs =>
      c.Within F ∧
      (∀ (j : ℕ) (u : Upvalue), c.upvalues[j]? = some u →
        ∃ k, F.upvalues[j]? = some k ∧ captureKind e G u = some k) ∧
      Chain (e :: cs) (G :: Fs)
  | _, _ => False

theorem Compiler.Grows.within {extra : List Local} {c c' : Compiler N} {F : Final N}
    (h : c.Grows extra c') (hw : c'.Within F) : c.Within F := by
  obtain ⟨ls, hls, hg⟩ := h.locals
  refine ⟨h.constants.trans hw.1, fun i l hi hc => ?_⟩
  obtain ⟨l', hi', hl⟩ := slotAt_forall₂ hg hi
  refine hw.2 i l' ?_ (hl.2.2 hc)
  rw [hls, slotAt_append _ (slotAt_lt hi')]
  exact hi'

theorem captureKind_grows {extra : List Local} {e e' : Compiler N} {G : Final N} {u : Upvalue}
    (h : e.Grows extra e') (hu : UpvalueOk e u) : captureKind e' G u = captureKind e G u := by
  unfold captureKind
  unfold UpvalueOk at hu
  split at hu
  · rename_i hl
    obtain ⟨ls, hls, hg⟩ := h.locals
    obtain ⟨l, hi, -⟩ := hu
    obtain ⟨l', hi', hgl⟩ := slotAt_forall₂ hg hi
    rw [if_pos hl, if_pos hl, hls, slotAt_append _ (slotAt_lt hi'), hi', hi, h.type]
    simp [hgl.1]
  · rename_i hl
    rw [if_neg hl, if_neg hl]

theorem Chain.not_nil {c : Compiler N} {cs : List (Compiler N)} : ¬ Chain (c :: cs) [] := by
  cases cs <;> exact id

theorem prefix_getElem? {α : Type} {l l' : List α} (h : l <+: l') {i : ℕ} {a : α}
    (ha : l[i]? = some a) : l'[i]? = some a := by
  obtain ⟨t, rfl⟩ := h
  rw [List.getElem?_append_left (List.getElem?_eq_some_iff.1 ha).1]
  exact ha

theorem Chain.mono_tail {c c' : Compiler N} {extra : List Local} {F : Final N}
    (hc : c.Grows extra c') : ∀ {cs cs' : List (Compiler N)} {Fs : List (Final N)},
    Good (c :: cs) → List.Forall₂ (Compiler.Grows []) cs cs' → Chain (c' :: cs') (F :: Fs) →
    Chain (c :: cs) (F :: Fs) := by
  intro cs
  induction cs generalizing c c' extra F with
  | nil =>
    intro cs' Fs _ hcs h
    cases hcs
    cases Fs with
    | nil => exact hc.within h
    | cons G Fs => exact h.elim
  | cons e cs ih =>
    intro cs' Fs hgood hcs h
    cases hcs with
    | cons he hcs =>
      cases Fs with
      | nil => exact h.elim
      | cons G Fs =>
        obtain ⟨hw, hup, hrest⟩ := h
        refine ⟨hc.within hw, fun j u hj => ?_, ih he hgood.2.2.2.2 hcs hrest⟩
        obtain ⟨k, hk, hkind⟩ := hup j u (prefix_getElem? hc.upvalues hj)
        refine ⟨k, hk, ?_⟩
        rw [← captureKind_grows he (hgood.2.2.1 u (List.mem_of_getElem? hj))]
        exact hkind

theorem Chain.mono {extra : List Local} {cs cs' : List (Compiler N)} {Fs : List (Final N)}
    (hgood : Good cs) (h : ChainGrows extra cs cs') (hc : Chain cs' Fs) : Chain cs Fs := by
  cases h with
  | cons head tail =>
    cases Fs with
    | nil => exact absurd hc Chain.not_nil
    | cons F Fs => exact Chain.mono_tail head hgood tail hc

/-! ### Growing keeps the chain good -/

theorem Local.Grows.mem {ls ms : List Local} (h : List.Forall₂ Local.Grows ls ms) {m : Local}
    (hm : m ∈ ms) : ∃ l ∈ ls, l.Grows m := by
  induction h with
  | nil => cases hm
  | cons hl hs ih =>
    rcases List.mem_cons.1 hm with rfl | hm
    · exact ⟨_, by simp, hl⟩
    · obtain ⟨l, hl', hg⟩ := ih hm
      exact ⟨l, List.mem_cons_of_mem _ hl', hg⟩

theorem forall₂_tail {α β : Type} {R : α → β → Prop} {as : List α} {bs : List β}
    (h : List.Forall₂ R as bs) : List.Forall₂ R as.tail bs.tail := by
  cases h with
  | nil => exact .nil
  | cons _ hs => exact hs

theorem Compiler.Grows.locals_eq {c c' : Compiler N} (h : c.Grows [] c') :
    List.Forall₂ Local.Grows c.locals c'.locals := by
  obtain ⟨ls, hls, hg⟩ := h.locals
  rw [hls]
  exact hg

theorem Compiler.Grows.good {c c' : Compiler N} (h : c.Grows [] c') (hc : c.Good)
    (hu : c'.upvalues.length ≤ 256)
    (hf : ∀ g, Constant.function g ∈ c'.constants → ∃ t, WellTyped g t) : c'.Good := by
  have hg := h.locals_eq
  have hback : ∀ {i : ℕ} {l' : Local}, slotAt i c'.locals = some l' →
      ∃ l, slotAt i c.locals = some l ∧ l.Grows l' :=
    fun hi => slotAt_forall₂ (List.Forall₂.flip hg) hi
  refine ⟨?_, ?_, ?_, ?_, ?_, ?_, hu, hf⟩
  · obtain ⟨b, hb, hdepth, hname⟩ := hc.base
    obtain ⟨b', hb', hgb⟩ := slotAt_forall₂ hg hb
    exact ⟨b', hb', hgb.2.1.trans hdepth, by rw [hgb.1, hname, h.type]⟩
  · intro i l' hi h0
    obtain ⟨l, hl, hgl⟩ := hback hi
    rw [hgl.1]
    exact hc.names i l hl h0
  · intro l' hl'
    obtain ⟨l, hl, hgl⟩ := Local.Grows.mem hg hl'
    rw [hgl.2.1, h.scopeDepth]
    exact hc.depth l hl
  · intro l' hl'
    obtain ⟨l, hl, hgl⟩ := Local.Grows.mem (forall₂_tail hg) hl'
    rw [hgl.2.1]
    exact hc.ready l hl
  · rw [h.scopeDepth, h.type, ← hg.length_eq]
    exact hc.script
  · rw [← hg.length_eq]
    exact hc.locals_le

theorem Compiler.Grows.ready {c c' : Compiler N} (h : c.Grows [] c') (hc : c.Ready) : c'.Ready := by
  intro l' hl'
  obtain ⟨l, hl, hgl⟩ := Local.Grows.mem h.locals_eq hl'
  rw [hgl.2.1]
  exact hc l hl

theorem UpvalueOk.grows {e e' : Compiler N} {u : Upvalue} (h : e.Grows [] e')
    (hu : UpvalueOk e u) : UpvalueOk e' u := by
  unfold UpvalueOk at hu ⊢
  split at hu
  · rename_i hl
    rw [if_pos hl]
    obtain ⟨l, hi, hc⟩ := hu
    obtain ⟨l', hi', hgl⟩ := slotAt_forall₂ h.locals_eq hi
    exact ⟨l', hi', hgl.2.2 hc⟩
  · rename_i hl
    rw [if_neg hl]
    exact lt_of_lt_of_le hu h.upvalues.length_le

theorem Good.replace_head {e e' : Compiler N} {cs : List (Compiler N)} (h : Good (e :: cs))
    (he' : e'.Good) (htype : e'.type = e.type) (hups : e'.upvalues = e.upvalues) :
    Good (e' :: cs) := by
  cases cs with
  | nil => exact ⟨he', htype.trans h.2.1, hups.trans h.2.2⟩
  | cons d cs => exact ⟨he', htype ▸ h.2.1, hups ▸ h.2.2.1, h.2.2.2⟩

/-! ### Resolving names -/

theorem resolveLocal_some {name : Name} {ls : List Local} {slot : ℕ} {uninitialized : Bool}
    (h : resolveLocal name ls = some (slot, uninitialized)) :
    ∃ l, slotAt slot ls = some l ∧ l.name = name ∧ uninitialized = decide (l.depth = -1) := by
  induction ls with
  | nil => cases h
  | cons l ls ih =>
    simp only [resolveLocal] at h
    split at h
    · rename_i hname
      obtain ⟨rfl, rfl⟩ := Prod.mk.inj (Option.some.inj h)
      exact ⟨l, slotAt_cons_self l ls, hname, rfl⟩
    · obtain ⟨l', hl', hrest⟩ := ih h
      refine ⟨l', ?_, hrest⟩
      simp only [slotAt]
      rw [if_neg (by have := slotAt_lt hl'; omega)]
      exact hl'

theorem resolveLocal_none {name : Name} {ls : List Local} (h : resolveLocal name ls = none) :
    ∀ l ∈ ls, l.name ≠ name := by
  induction ls with
  | nil => simp
  | cons l ls ih =>
    simp only [resolveLocal] at h
    split at h
    · cases h
    · rename_i hname
      intro l' hl'
      rcases List.mem_cons.1 hl' with rfl | hl'
      · exact hname
      · exact ih h l' hl'

theorem captureLocal_grows (slot : ℕ) (ls : List Local) :
    List.Forall₂ Local.Grows ls (captureLocal slot ls) := by
  induction ls with
  | nil => exact .nil
  | cons l ls ih =>
    simp only [captureLocal]
    split
    · exact .cons ⟨rfl, rfl, fun _ => rfl⟩ (List.forall₂_same.2 fun l _ => Local.Grows.refl l)
    · exact .cons (Local.Grows.refl l) ih

theorem slotAt_captureLocal {slot : ℕ} {ls : List Local} {l : Local} (h : slotAt slot ls = some l) :
    ∃ l', slotAt slot (captureLocal slot ls) = some l' ∧ l'.isCaptured = true := by
  induction ls with
  | nil => cases h
  | cons l' ls ih =>
    simp only [slotAt, captureLocal] at h ⊢
    by_cases hs : ls.length = slot
    · rw [if_pos hs]
      exact ⟨{ l' with isCaptured := true }, by simp [slotAt, hs], rfl⟩
    · rw [if_neg hs] at h ⊢
      have hlen : (captureLocal slot ls).length = ls.length := (captureLocal_grows slot ls).length_eq.symm
      simp only [slotAt, hlen]
      rw [if_neg hs]
      exact ih h

theorem addUpvalue_ok {index : UInt8} {isLocal : Bool} {c c' : Compiler N} {i : ℕ}
    (h : addUpvalue index isLocal c = (i, c', [])) (hc : c.upvalues.length ≤ 256) :
    c'.upvalues[i]? = some ⟨index, isLocal⟩ ∧ c.Grows [] c' ∧ c'.upvalues.length ≤ 256 ∧
      c'.constants = c.constants ∧ ∀ u ∈ c'.upvalues, u ∈ c.upvalues ∨ u = ⟨index, isLocal⟩ := by
  unfold addUpvalue at h
  split at h
  · rename_i j hj
    obtain ⟨rfl, rfl, -⟩ : j = i ∧ c = c' ∧ True := by simpa using h
    obtain ⟨hlt, heq, -⟩ := List.idxOf?_eq_some_iff.1 hj
    exact ⟨List.getElem?_eq_some_iff.2 ⟨hlt, by simpa using heq⟩, Compiler.Grows.refl c, hc,
      rfl, fun u hu => .inl hu⟩
  · split at h
    · simp at h
    · rename_i hlen
      obtain ⟨rfl, rfl, -⟩ : c.upvalues.length = i ∧ _ = c' ∧ True := by simpa using h
      refine ⟨by simp, ⟨rfl, rfl, rfl, rfl, List.prefix_rfl, ⟨_, rfl⟩, c.locals, rfl,
        List.forall₂_same.2 fun l _ => Local.Grows.refl l⟩, ?_, rfl, ?_⟩
      · simp only [List.length_append, List.length_singleton]
        omega
      · intro u hu
        simpa using hu

/-- The kind of the variable a name stands for, if it is a local of some compiler in the chain. -/
def scopeKind (name : Name) : List (Compiler N) → Option Kind
  | [] => none
  | c :: cs =>
    match resolveLocal name c.locals with
    | some (slot, _) => some (localKind c.type slot name)
    | none => scopeKind name cs

/-- What `resolveUpvalue` found, `j` in the captures of the innermost compiler. -/
def UpvalueFound (name : Name) (cs cs' : List (Compiler N)) (j : ℕ) : Prop :=
  ∃ c' es k, cs' = c' :: es ∧ j < c'.upvalues.length ∧ scopeKind name cs.tail = some k ∧
    ∀ F Fs, Chain cs' (F :: Fs) → F.upvalues[j]? = some k

theorem resolveUpvalue_ok {name : Name} : ∀ {cs cs' : List (Compiler N)} {r : Option ℕ},
    resolveUpvalue name cs = (r, cs', []) → Good cs →
    Good cs' ∧ List.Forall₂ (Compiler.Grows []) cs cs' ∧
      (r = none → scopeKind name cs.tail = none) ∧
      (∀ j, r = some j → UpvalueFound name cs cs' j) := by
  intro cs
  induction cs with
  | nil => intro cs' r _ hgood; exact hgood.elim
  | cons c cs ih =>
    intro cs' r h hgood
    cases cs with
    | nil =>
      obtain ⟨rfl, rfl, -⟩ : none = r ∧ [c] = cs' ∧ True := by simpa [resolveUpvalue] using h
      exact ⟨hgood, compilersGrow_refl _, fun _ => rfl, fun j hj => by cases hj⟩
    | cons e cs =>
      obtain ⟨hc, htype, hups, hready, hrest⟩ := hgood
      have he := hrest.head
      simp only [resolveUpvalue] at h
      cases hl : resolveLocal name e.locals with
      | some found =>
        obtain ⟨slot, uninitialized⟩ := found
        simp only [hl] at h
        rcases ha : addUpvalue (UInt8.ofNat slot) true c with ⟨i, c₁, errors⟩
        simp only [ha] at h
        obtain ⟨rfl, rfl, herr⟩ : some i = r ∧
            c₁ :: { e with locals := captureLocal slot e.locals } :: cs = cs' ∧
            ownInitializer uninitialized ++ errors = [] := by simpa using h
        obtain rfl : errors = [] := (List.append_eq_nil_iff.1 herr).2
        obtain ⟨l, hslot, hname, -⟩ := resolveLocal_some hl
        obtain ⟨hget, hgrow, hlen, hconst, hmem⟩ := addUpvalue_ok ha hc.upvalues_le
        have hslot256 : (UInt8.ofNat slot).toNat = slot := by
          have h1 := slotAt_lt hslot
          have h2 := he.locals_le
          rw [UInt8.toNat_ofNat']
          omega
        have hgrow_e : e.Grows [] { e with locals := captureLocal slot e.locals } :=
          ⟨rfl, rfl, rfl, rfl, List.prefix_rfl, List.prefix_rfl, _, rfl, captureLocal_grows slot _⟩
        obtain ⟨l', hl', hcap⟩ := slotAt_captureLocal hslot
        refine ⟨⟨hgrow.good hc hlen (hconst ▸ hc.functions), hgrow.type ▸ htype, ?_, hgrow_e.ready hready, ?_⟩,
          .cons hgrow (.cons hgrow_e (compilersGrow_refl cs)), fun h => (by cases h), ?_⟩
        · intro u hu
          rcases hmem u hu with hu | rfl
          · exact (hups u hu).grows hgrow_e
          · refine (if_pos rfl).mpr ⟨l', ?_, hcap⟩
            rw [hslot256]
            exact hl'
        · exact Good.replace_head hrest (hgrow_e.good he he.upvalues_le he.functions) rfl rfl
        · rintro j ⟨⟩
          refine ⟨c₁, _, localKind e.type slot name, rfl,
            (List.getElem?_eq_some_iff.1 hget).1, by simp [scopeKind, hl], ?_⟩
          rintro F (- | ⟨G, Fs⟩) hchain
          · exact hchain.elim
          · obtain ⟨-, hup, -⟩ := hchain
            obtain ⟨k, hk, hkind⟩ := hup i _ hget
            obtain ⟨l'', hl'', hgl⟩ := slotAt_forall₂ (captureLocal_grows slot e.locals) hslot
            simp only [captureKind, if_true, hslot256, hl'', Option.map_some, Option.some.injEq,
              hgl.1, hname] at hkind
            rw [hk, ← hkind]
      | none =>
        simp only [hl] at h
        rcases hr : resolveUpvalue name (e :: cs) with ⟨r', cs₁, errors⟩
        cases r' with
        | none =>
          simp only [hr] at h
          obtain ⟨rfl, rfl, rfl⟩ : none = r ∧ c :: cs₁ = cs' ∧ errors = [] := by simpa using h
          obtain ⟨hgood₁, hgrow₁, hnone, -⟩ := ih hr hrest
          cases hgrow₁ with
          | @cons _ e' _ es he' hes =>
            refine ⟨⟨hc, htype, fun u hu => (hups u hu).grows he', he'.ready hready, hgood₁⟩,
              .cons (Compiler.Grows.refl c) (.cons he' hes), fun _ => ?_, fun j hj => by cases hj⟩
            simpa [scopeKind, hl] using hnone rfl
        | some upvalue =>
          simp only [hr] at h
          rcases ha : addUpvalue (UInt8.ofNat upvalue) false c with ⟨i, c₁, errors'⟩
          simp only [ha] at h
          obtain ⟨rfl, rfl, herr⟩ : some i = r ∧ c₁ :: cs₁ = cs' ∧ errors ++ errors' = [] := by
            simpa using h
          obtain ⟨rfl, rfl⟩ := List.append_eq_nil_iff.1 herr
          obtain ⟨hgood₁, hgrow₁, -, hsome⟩ := ih hr hrest
          obtain ⟨e', es, k, rfl, hlt, hkind, hfinal⟩ := hsome upvalue rfl
          obtain ⟨hget, hgrow, hlen, hconst, hmem⟩ := addUpvalue_ok ha hc.upvalues_le
          have hup256 : (UInt8.ofNat upvalue).toNat = upvalue := by
            have h2 := hgood₁.head.upvalues_le
            rw [UInt8.toNat_ofNat']
            omega
          cases hgrow₁ with
          | cons he' hes =>
            refine ⟨⟨hgrow.good hc hlen (hconst ▸ hc.functions), hgrow.type ▸ htype, ?_, he'.ready hready, hgood₁⟩,
              .cons hgrow (.cons he' hes), fun h => (by cases h), ?_⟩
            · intro u hu
              rcases hmem u hu with hu | rfl
              · exact (hups u hu).grows he'
              · refine (if_neg (by simp)).mpr ?_
                rw [hup256]
                exact hlt
            · rintro j ⟨⟩
              refine ⟨c₁, _, k, rfl, (List.getElem?_eq_some_iff.1 hget).1, ?_, ?_⟩
              · simpa [scopeKind, hl] using hkind
              · rintro F (- | ⟨G, Fs⟩) hchain
                · exact hchain.elim
                · obtain ⟨-, hup, hrest'⟩ := hchain
                  obtain ⟨k', hk', hkind'⟩ := hup i _ hget
                  simp only [captureKind, Bool.false_eq_true, if_false, hup256] at hkind'
                  rw [hfinal G Fs hrest'] at hkind'
                  rw [hk', ← hkind']

/-! ### The kinds of names -/

theorem Good.tail {c e : Compiler N} {cs : List (Compiler N)} (h : Good (c :: e :: cs)) :
    Good (e :: cs) :=
  h.2.2.2.2

theorem scopeKind_plain {name : Name} (hname : PlainName name) : ∀ {cs : List (Compiler N)}
    {k : Kind}, Good cs → scopeKind name cs = some k → k = .any := by
  intro cs
  induction cs with
  | nil => intro k _ h; cases h
  | cons c cs ih =>
    intro k hgood h
    simp only [scopeKind] at h
    split at h
    · rename_i slot _ hl
      obtain rfl := Option.some.inj h
      obtain ⟨l, hslot, hl, -⟩ := resolveLocal_some hl
      unfold localKind
      rw [if_neg hname.2]
      split
      · rename_i hthis
        obtain ⟨rfl, htype⟩ := hthis
        obtain ⟨b, hb, -, hbname⟩ := hgood.head.base
        rw [if_neg (by rintro h; simp [h] at htype)] at hbname
        rw [hb] at hslot
        obtain rfl := Option.some.inj hslot
        exact absurd (hl.symm.trans hbname) hname.1
      · rfl
    · cases cs with
      | nil => cases h
      | cons e cs => exact ih hgood.tail h

/-- Code here is inside a method, whatever functions are around it. -/
def HasThis : List (Compiler N) → Prop
  | [] => False
  | c :: cs => c.type = .method ∨ c.type = .initializer ∨ (c.type = .function ∧ HasThis cs)

/-- Some compiler in the chain has the local `super`. -/
def HasSuper (cs : List (Compiler N)) : Prop := ∃ c ∈ cs, ∃ l ∈ c.locals, l.name = "super".toList

theorem scopeKind_this : ∀ {cs : List (Compiler N)}, Good cs → HasThis cs →
    scopeKind "this".toList cs = some .inst := by
  intro cs
  induction cs with
  | nil => intro h _; exact h.elim
  | cons c cs ih =>
    intro hgood hthis
    obtain ⟨b, hb, -, hbname⟩ := hgood.head.base
    simp only [scopeKind]
    cases hl : resolveLocal "this".toList c.locals with
    | some found =>
      obtain ⟨slot, u⟩ := found
      obtain ⟨l, hslot, hl, -⟩ := resolveLocal_some hl
      have h0 : slot = 0 := by
        by_contra h0
        exact hgood.head.names slot l hslot h0 hl
      subst h0
      rw [hb] at hslot
      obtain rfl := Option.some.inj hslot
      have hmethod : c.type = .method ∨ c.type = .initializer := by
        rcases hthis with h | h | ⟨h, -⟩
        · exact .inl h
        · exact .inr h
        · rw [h, if_pos rfl] at hbname
          rw [hbname] at hl
          cases hl
      simp [localKind, hmethod]
    | none =>
      have hnone := resolveLocal_none hl
      rcases hthis with h | h | ⟨-, h⟩
      · exact absurd (hbname.trans (if_neg (by simp [h]))) (hnone b (slotAt_mem hb))
      · exact absurd (hbname.trans (if_neg (by simp [h]))) (hnone b (slotAt_mem hb))
      · cases cs with
        | nil => exact h.elim
        | cons e cs => exact ih hgood.tail h

theorem scopeKind_super : ∀ {cs : List (Compiler N)}, HasSuper cs →
    scopeKind "super".toList cs = some .klass := by
  intro cs
  induction cs with
  | nil => rintro ⟨c, hc, -⟩; cases hc
  | cons c cs ih =>
    rintro ⟨d, hd, l, hl, hname⟩
    simp only [scopeKind]
    cases hr : resolveLocal "super".toList c.locals with
    | some found => simp [localKind]
    | none =>
      rcases List.mem_cons.1 hd with rfl | hd
      · exact absurd hname (resolveLocal_none hr l hl)
      · exact ih ⟨d, hd, l, hl, hname⟩

/-- Inside a class there is a `this`, and a `super` if the class has a superclass. -/
structure ScopeOk (x : Ctx N) : Prop where
  this_ : x.classes ≠ [] → HasThis x.compilers
  super_ : (x.classes.head?.map (·.hasSuperclass)).getD false = true → HasSuper x.compilers

theorem HasThis.grows {cs ds : List (Compiler N)} (h : HasThis cs)
    (hg : List.Forall₂ (Compiler.Grows []) cs ds) : HasThis ds := by
  induction hg with
  | nil => exact h
  | cons hc _ ih =>
    rcases h with h | h | ⟨h, hrest⟩
    · exact .inl (hc.type.trans h)
    · exact .inr (.inl (hc.type.trans h))
    · exact .inr (.inr ⟨hc.type.trans h, ih hrest⟩)

theorem HasThis.chainGrows {extra : List Local} {cs ds : List (Compiler N)} (h : HasThis cs)
    (hg : ChainGrows extra cs ds) : HasThis ds := by
  cases hg with
  | cons hc hcs =>
    rcases h with h | h | ⟨h, hrest⟩
    · exact .inl (hc.type.trans h)
    · exact .inr (.inl (hc.type.trans h))
    · exact .inr (.inr ⟨hc.type.trans h, hrest.grows hcs⟩)

theorem mem_forall₂ {α β : Type} {R : α → β → Prop} {as : List α} {bs : List β} {a : α}
    (h : List.Forall₂ R as bs) (ha : a ∈ as) : ∃ b ∈ bs, R a b := by
  induction h with
  | nil => cases ha
  | cons hab _ ih =>
    rcases List.mem_cons.1 ha with rfl | ha
    · exact ⟨_, by simp, hab⟩
    · obtain ⟨b, hb, hr⟩ := ih ha
      exact ⟨b, List.mem_cons_of_mem _ hb, hr⟩

theorem Compiler.Grows.mem_locals {extra : List Local} {c c' : Compiler N} (h : c.Grows extra c')
    {l : Local} (hl : l ∈ c.locals) : ∃ l' ∈ c'.locals, l'.name = l.name := by
  obtain ⟨ls, hls, hg⟩ := h.locals
  obtain ⟨l', hl', hgl⟩ := mem_forall₂ hg hl
  exact ⟨l', by rw [hls]; simp [hl'], hgl.1⟩

theorem HasSuper.chainGrows {extra : List Local} {cs ds : List (Compiler N)} (h : HasSuper cs)
    (hg : ChainGrows extra cs ds) : HasSuper ds := by
  obtain ⟨c, hc, l, hl, hname⟩ := h
  cases hg with
  | cons hhead htail =>
    rcases List.mem_cons.1 hc with rfl | hc
    · obtain ⟨l', hl', hn⟩ := hhead.mem_locals hl
      exact ⟨_, by simp, l', hl', hn.trans hname⟩
    · obtain ⟨d, hd, hcd⟩ := mem_forall₂ htail hc
      obtain ⟨l', hl', hn⟩ := hcd.mem_locals hl
      exact ⟨d, List.mem_cons_of_mem _ hd, l', hl', hn.trans hname⟩

/-! ### Contexts -/

/-- From `x` to `x'` code was generated that leaves the locals as they are. -/
structure Ctx.Grows (x x' : Ctx N) : Prop where
  classes : x'.classes = x.classes
  good : Good x'.compilers
  chain : ChainGrows [] x.compilers x'.compilers

theorem Ctx.Grows.refl {x : Ctx N} (h : Good x.compilers) : x.Grows x :=
  ⟨rfl, h, ChainGrows.refl h.ne_nil⟩

theorem Ctx.Grows.trans {x y z : Ctx N} (h₁ : x.Grows y) (h₂ : y.Grows z) : x.Grows z :=
  ⟨h₂.classes.trans h₁.classes, h₂.good, h₁.chain.trans h₂.chain⟩

theorem ScopeOk.grows {extra : List Local} {x x' : Ctx N} (h : ScopeOk x)
    (hclasses : x'.classes = x.classes) (hg : ChainGrows extra x.compilers x'.compilers) :
    ScopeOk x' :=
  ⟨fun hc => (h.this_ (hclasses ▸ hc)).chainGrows hg,
    fun hc => (h.super_ (hclasses ▸ hc)).chainGrows hg⟩

theorem Ctx.Grows.scopeOk {x x' : Ctx N} (h : x.Grows x') (hs : ScopeOk x) : ScopeOk x' :=
  hs.grows h.classes h.chain

/-- The slots of the innermost frame. -/
def Ctx.frame (x : Ctx N) (F : Final N) : List Slot :=
  match x.compilers with
  | [] => []
  | c :: _ => c.frame F

theorem Ctx.Grows.frame_eq {x x' : Ctx N} (h : x.Grows x') (F : Final N) :
    x'.frame F = x.frame F := by
  unfold Ctx.frame
  have hc := h.chain
  revert hc
  rcases x.compilers with _ | ⟨c, cs⟩ <;> rcases x'.compilers with _ | ⟨c', cs'⟩ <;> intro hc <;>
    cases hc
  rename_i hhead htail
  exact hhead.frame_eq F

theorem Compiler.Good.readyLocals_ne {c : Compiler N} (h : c.Good) : readyLocals c.locals ≠ [] := by
  obtain ⟨b, hb, hdepth, -⟩ := h.base
  cases hl : c.locals with
  | nil => simp [hl, slotAt] at hb
  | cons l ls =>
    simp only [readyLocals]
    split
    · rename_i hd
      rintro rfl
      simp only [hl, slotAt, List.length_nil, if_true, Option.some.injEq] at hb
      subst hb
      omega
    · simp

theorem Ctx.frame_ne {x : Ctx N} (h : Good x.compilers) (F : Final N) : x.frame F ≠ [] := by
  unfold Ctx.frame
  cases hc : x.compilers with
  | nil => exact absurd hc h.ne_nil
  | cons c cs =>
    rw [hc] at h
    intro hf
    have hlen := congrArg List.length hf
    simp only [Compiler.frame, length_localSlots, List.length_nil, List.length_eq_zero_iff] at hlen
    exact h.head.readyLocals_ne hlen

theorem makeConstant_ok {v : Constant N} {k : UInt8} {x x' : Ctx N}
    (h : x.makeConstant v = some (k, x')) (hgood : Good x.compilers)
    (hv : ∀ g, v = .function g → ∃ t, WellTyped g t) :
    x.Grows x' ∧ ∀ F Fs, Chain x'.compilers (F :: Fs) → F.constants[k.toNat]? = some v := by
  unfold Ctx.makeConstant at h
  simp only at h
  split at h
  · cases h
  · rename_i hle
    obtain ⟨rfl, rfl⟩ := Prod.mk.inj (Option.some.inj h)
    cases hc : x.compilers with
    | nil => exact absurd hc hgood.ne_nil
    | cons c cs =>
      rw [hc] at hgood
      simp only [hc, List.head?_cons, Option.map_some, Option.getD_some] at hle ⊢
      have hcs : (x.mapCurrent fun c => { c with constants := c.constants ++ [v] }).compilers
          = { c with constants := c.constants ++ [v] } :: cs := by
        simp [Ctx.mapCurrent, hc]
      have hgrow : c.Grows [] { c with constants := c.constants ++ [v] } :=
        ⟨rfl, rfl, rfl, rfl, ⟨_, rfl⟩, List.prefix_rfl, c.locals, rfl,
          List.forall₂_same.2 fun l _ => Local.Grows.refl l⟩
      refine ⟨⟨rfl, ?_, ?_⟩, fun F Fs hchain => ?_⟩
      · rw [hcs]
        refine hgood.replace_head (hgrow.good hgood.head hgood.head.upvalues_le fun g hg => ?_) rfl rfl
        rcases List.mem_append.1 hg with hg | hg
        · exact hgood.head.functions g hg
        · exact hv g (List.mem_singleton.1 hg).symm
      · rw [hc, hcs]
        exact .cons hgrow (compilersGrow_refl cs)
      · rw [hcs] at hchain
        have hw : Compiler.Within { c with constants := c.constants ++ [v] } F := by
          cases cs with
          | nil =>
            cases Fs with
            | nil => exact hchain
            | cons G Fs => exact hchain.elim
          | cons e cs =>
            cases Fs with
            | nil => exact hchain.elim
            | cons G Fs => exact hchain.1
        refine prefix_getElem? hw.1 ?_
        rw [UInt8.toNat_ofNat', Nat.mod_eq_of_lt (by omega)]
        simp

theorem identifierConstant_ok {name : Name} {k : UInt8} {x x' : Ctx N}
    (h : x.identifierConstant name = some (k, x')) (hgood : Good x.compilers) :
    x.Grows x' ∧ ∀ F Fs, Chain x'.compilers (F :: Fs) →
      F.constants[k.toNat]? = some (.string name) :=
  makeConstant_ok h hgood fun _ hg => by cases hg

/-- A resolved name: the slot, the upvalue or the constant it refers to, with its kind. -/
def VarRef.Has (I : Info N) (slots : List Slot) (name : Name) (kind : Option Kind) : VarRef → Prop
  | .local_ slot => ∃ s, slotAt slot.toNat slots = some s ∧ kind = some s.kind
  | .upvalue index => ∃ k, I.upvalues[index.toNat]? = some k ∧ kind = some k
  | .global k => stringAt I.constants k = some name ∧ kind = none

theorem slotAt_readyLocals {ls : List Local} {i : ℕ} {l : Local} (h : slotAt i ls = some l)
    (hl : l.depth ≠ -1) : slotAt i (readyLocals ls) = some l := by
  cases ls with
  | nil => cases h
  | cons m ls =>
    simp only [readyLocals]
    split
    · rename_i hm
      simp only [slotAt] at h
      split at h
      · obtain rfl := Option.some.inj h
        exact absurd hm hl
      · exact h
    · exact h

theorem resolveVariable_ok {name : Name} {ref : VarRef} {x x' : Ctx N}
    (h : x.resolveVariable name = some (ref, x')) (hgood : Good x.compilers) :
    x.Grows x' ∧ ∀ F Fs, Chain x'.compilers (F :: Fs) →
      ref.Has F.info (x.frame F) name (scopeKind name x.compilers) := by
  unfold Ctx.resolveVariable at h
  cases hc : x.compilers with
  | nil => exact absurd hc hgood.ne_nil
  | cons c cs =>
    have hlocals : x.locals = c.locals := by simp [Ctx.locals, hc]
    have hframe : ∀ F, x.frame F = c.frame F := fun F => by simp [Ctx.frame, hc]
    rw [hlocals] at h
    cases hl : resolveLocal name c.locals with
    | some found =>
      obtain ⟨slot, uninitialized⟩ := found
      simp only [hl] at h
      split at h
      · cases h
      · rename_i huninit
        obtain ⟨rfl, rfl⟩ := Prod.mk.inj (Option.some.inj h)
        refine ⟨Ctx.Grows.refl hgood, fun F Fs _ => ?_⟩
        obtain ⟨l, hslot, hname, hu⟩ := resolveLocal_some hl
        have hdepth : l.depth ≠ -1 := by
          intro hd
          rw [hu] at huninit
          simp [hd] at huninit
        have hslot256 : (UInt8.ofNat slot).toNat = slot := by
          rw [hc] at hgood
          have h1 := slotAt_lt hslot
          have h2 := hgood.head.locals_le
          rw [UInt8.toNat_ofNat']
          omega
        refine ⟨⟨localKind c.type slot l.name, F.captured slot⟩, ?_, ?_⟩
        · rw [hframe, hslot256]
          exact slotAt_localSlots _ _ (slotAt_readyLocals hslot hdepth)
        · simp [scopeKind, hl, hname]
    | none =>
      simp only [hl, hc] at h
      rw [hc] at hgood
      rcases hr : resolveUpvalue name (c :: cs) with ⟨r, cs', errors⟩
      cases r with
      | some upvalue =>
        simp only [hr] at h
        split at h
        · rename_i herr
          obtain rfl := List.isEmpty_iff.1 herr
          obtain ⟨rfl, rfl⟩ := Prod.mk.inj (Option.some.inj h)
          obtain ⟨hgood', hgrow, -, hsome⟩ := resolveUpvalue_ok hr hgood
          refine ⟨⟨rfl, hgood', by rw [hc]; exact .of_forall₂ (by simp) hgrow⟩,
            fun F Fs hchain => ?_⟩
          obtain ⟨c', es, k, rfl, hlt, hkind, hfinal⟩ := hsome upvalue rfl
          refine ⟨k, ?_, ?_⟩
          · rw [UInt8.toNat_ofNat', Nat.mod_eq_of_lt (by have := hgood'.head.upvalues_le; omega)]
            exact hfinal F Fs hchain
          · simpa [scopeKind, hl] using hkind
        · cases h
      | none =>
        simp only [hr] at h
        split at h
        · rename_i herr
          obtain rfl := List.isEmpty_iff.1 herr
          simp only [Option.bind_eq_bind, Option.bind_eq_some_iff, Prod.exists] at h
          obtain ⟨k, x₁, hk, h⟩ := h
          obtain ⟨rfl, rfl⟩ := Prod.mk.inj (Option.some.inj h)
          obtain ⟨hgood', hgrow, hnone, -⟩ := resolveUpvalue_ok hr hgood
          obtain ⟨hgrow', hfinal⟩ := identifierConstant_ok hk hgood'
          have hfirst : x.Grows { x with compilers := cs' } :=
            ⟨rfl, hgood', by rw [hc]; exact .of_forall₂ (by simp) hgrow⟩
          refine ⟨hfirst.trans hgrow', fun F Fs hchain => ⟨?_, ?_⟩⟩
          · unfold stringAt
            rw [show F.info.constants = F.constants from rfl, hfinal F Fs hchain]
          · simpa [scopeKind, hl] using hnone rfl
        · cases h

end Lox.Clox
