import Lox.Clox.Soundness.Memory

/-!
# Captured variables

Capturing a variable, closing upvalues and making a closure keep the memory in order: a variable has
at most one upvalue while it is on the stack, and takes its value along when it leaves.
-/

namespace Lox.Clox

variable {N : Type}

/-! ### Capturing variables -/

/-- The frames and globals are the same, and so is what was on the stack. -/
structure VM.Keeps (vm vm' : VM N (List Addr)) : Prop where
  frames : vm'.frames = vm.frames
  globals : vm'.globals = vm.globals
  stack : ∀ j < vm.stackTop, vm'.stack j = vm.stack j
  stackTop : vm.stackTop ≤ vm'.stackTop

theorem VM.Keeps.refl (vm : VM N (List Addr)) : vm.Keeps vm := ⟨rfl, rfl, fun _ _ => rfl, le_rfl⟩

theorem VM.Keeps.trans {vm vm₁ vm₂ : VM N (List Addr)} (h₁ : vm.Keeps vm₁) (h₂ : vm₁.Keeps vm₂) :
    vm.Keeps vm₂ :=
  ⟨h₂.frames.trans h₁.frames, h₂.globals.trans h₁.globals,
    fun j hj => (h₂.stack j (hj.trans_le h₁.stackTop)).trans (h₁.stack j hj),
    h₁.stackTop.trans h₂.stackTop⟩

theorem VM.Keeps.push (vm : VM N (List Addr)) (v : Value N) : vm.Keeps (vm.push v) := by
  refine ⟨rfl, rfl, fun j hj => ?_, Nat.le_succ _⟩
  exact Function.update_of_ne hj.ne _ _

theorem forall₂_imp_mem {α β : Type} {R R' : α → β → Prop} {as : List α} {bs : List β}
    (h : List.Forall₂ R as bs) (himp : ∀ a b, R a b → a ∈ as → b ∈ bs → R' a b) :
    List.Forall₂ R' as bs := by
  induction h with
  | nil => exact .nil
  | cons head tail ih =>
    exact .cons (himp _ _ head (by simp) (by simp))
      (ih fun a b hab ha hb => himp a b hab (by simp [ha]) (by simp [hb]))

theorem getElem?_forall₂ {α β : Type} {R : α → β → Prop} {as : List α} {bs : List β} {i : ℕ} {b : β}
    (h : List.Forall₂ R as bs) (hb : bs[i]? = some b) : ∃ a, as[i]? = some a ∧ R a b := by
  induction h generalizing i with
  | nil => cases hb
  | cons head tail ih =>
    cases i with
    | zero =>
      cases hb
      exact ⟨_, rfl, head⟩
    | succ i => exact ih hb

/-- The list of open upvalues, split at a slot. -/
theorem openAbove_spec {objects : List (Obj N)} (slot : ℕ) : ∀ {as : List Addr} {ls : List ℕ},
    List.Forall₂ (OpenAt objects) as ls → ls.Pairwise (· > ·) →
    ∃ above rest ls₁ ls₂, openAbove objects slot as = some (above, rest) ∧ as = above ++ rest ∧
      ls = ls₁ ++ ls₂ ∧ List.Forall₂ (OpenAt objects) above ls₁ ∧
      List.Forall₂ (OpenAt objects) rest ls₂ ∧ (∀ l ∈ ls₁, slot < l) ∧ ∀ l ∈ ls₂, l ≤ slot := by
  intro as ls h
  induction h with
  | nil => exact fun _ => ⟨[], [], [], [], rfl, rfl, rfl, .nil, .nil, by simp, by simp⟩
  | @cons a l as ls ha has ih =>
    intro hsorted
    obtain ⟨hhead, hsorted⟩ := List.pairwise_cons.1 hsorted
    obtain ⟨v, hv⟩ := ha
    by_cases hl : l > slot
    · obtain ⟨above, rest, ls₁, ls₂, hopen, rfl, rfl, habove, hrest, hgt, hle⟩ := ih hsorted
      refine ⟨a :: above, rest, l :: ls₁, ls₂, ?_, rfl, rfl, .cons ⟨v, hv⟩ habove, hrest, ?_, hle⟩
      · simp [openAbove, hv, hl, hopen]
      · intro l' hl'
        rcases List.mem_cons.1 hl' with rfl | hl'
        · exact hl
        · exact hgt l' hl'
    · refine ⟨[], a :: as, [], l :: ls, ?_, rfl, rfl, .nil, .cons ⟨v, hv⟩ has, by simp, ?_⟩
      · simp [openAbove, hv, hl]
      · intro l' hl'
        rcases List.mem_cons.1 hl' with rfl | hl'
        · omega
        · have := hhead l' hl'
          omega

/-- An upvalue for the slot is at the head of the rest, or there is none. -/
theorem pointsTo_spec {objects : List (Obj N)} {slot : ℕ} {rest : List Addr} {ls : List ℕ}
    (hrest : List.Forall₂ (OpenAt objects) rest ls) (hsorted : ls.Pairwise (· > ·))
    (hle : ∀ l ∈ ls, l ≤ slot) :
    (∃ a, pointsTo objects slot rest = some a ∧ OpenAt objects a slot) ∨
      (pointsTo objects slot rest = none ∧ ∀ l ∈ ls, l < slot) := by
  cases hrest with
  | nil => exact .inr ⟨rfl, by simp⟩
  | @cons a l as ls ha has =>
    obtain ⟨hhead, -⟩ := List.pairwise_cons.1 hsorted
    have hl := hle l (by simp)
    obtain ⟨v, hv⟩ := ha
    by_cases heq : l = slot
    · subst heq
      exact .inl ⟨a, by simp [pointsTo, hv], ⟨v, hv⟩⟩
    · refine .inr ⟨by simp [pointsTo, hv, heq], fun l' hl' => ?_⟩
      rcases List.mem_cons.1 hl' with rfl | hl'
      · omega
      · have := hhead l' hl'
        omega

/-- The upvalues that are open after a new one. -/
theorem openAt_concat {objects : List (Obj N)} {slot : ℕ} {v : Value N} {a : Addr} {l : ℕ} :
    OpenAt (objects ++ [.upvalue (some slot) v]) a l ↔
      OpenAt objects a l ∨ (a = objects.length ∧ l = slot) := by
  unfold OpenAt
  rcases Nat.lt_trichotomy a objects.length with hlt | rfl | hgt
  · rw [List.getElem?_append_left hlt]
    exact ⟨fun h => .inl h, fun h => h.resolve_right fun hr => hlt.ne hr.1⟩
  · rw [List.getElem?_concat_length]
    constructor
    · rintro ⟨w, hw⟩
      cases hw
      exact .inr ⟨rfl, rfl⟩
    · rintro (⟨w, hw⟩ | ⟨-, rfl⟩)
      · exact absurd (List.getElem?_eq_some_iff.1 hw).1 (Nat.lt_irrefl _)
      · exact ⟨v, rfl⟩
  · have hnone : (objects ++ [.upvalue (some slot) v])[a]? = none := by
      rw [List.getElem?_eq_none]
      simp only [List.length_append, List.length_singleton]
      omega
    have hnone' : objects[a]? = none := List.getElem?_eq_none (by omega)
    rw [hnone, hnone']
    constructor
    · rintro ⟨w, hw⟩
      cases hw
    · rintro (⟨w, hw⟩ | ⟨heq, -⟩)
      · cases hw
      · exact absurd heq hgt.ne'

/-- A captured variable has one upvalue: one that is open already, or a new one. -/
theorem MemoryOk.captureUpvalue {hole : Option Addr} {S : List (Ty N)} {vm : VM N (List Addr)} {slots : List Slot}
    (h : MemoryOk hole S vm slots) {slot : ℕ} {k : Kind} (hs : slotAt slot slots = some ⟨k, true⟩) :
    ∃ S' a vm', Lox.Clox.captureUpvalue slot vm = some (a, vm') ∧ S <+: S' ∧
      MemoryOk hole S' vm' slots ∧ S'[a]? = some (.upvalue k) ∧ vm.Keeps vm' := by
  obtain ⟨ls, hls, hsorted⟩ := h.opens.sorted
  obtain ⟨above, rest, ls₁, ls₂, hopen, hsplit, rfl, habove, hrest, hgt, hle⟩ :=
    openAbove_spec slot hls hsorted
  obtain ⟨hsorted₁, hsorted₂, hcross⟩ := List.pairwise_append.1 hsorted
  rcases pointsTo_spec hrest hsorted₂ hle with ⟨a, ha, hat⟩ | ⟨hnone, hlt⟩
  · refine ⟨S, a, vm, ?_, List.prefix_rfl, h, ((h.stack.slotAt hs).2 a hat).2, VM.Keeps.refl vm⟩
    simp [Lox.Clox.captureUpvalue, hopen, ha]
  · -- A new upvalue goes between those above the slot and those below it.
    have hpre := HeapOk.prefix_append S (.upvalue k)
    have hnew : (S ++ [.upvalue k])[vm.objects.length]? = some (.upvalue k) := by
      rw [← h.heap.length]
      exact List.getElem?_concat_length
    have hobj : ObjOk (S ++ [.upvalue k]) (hole ≠ some vm.objects.length) (.upvalue (some slot) .nil)
        (.upvalue k) := trivial
    have hold : ∀ {a l}, OpenAt vm.objects a l →
        OpenAt (vm.objects ++ [.upvalue (some slot) .nil]) a l := fun ha => openAt_concat.2 (.inl ha)
    refine ⟨S ++ [.upvalue k], vm.objects.length,
      { vm with
        objects := vm.objects ++ [.upvalue (some slot) .nil]
        upvalues := above ++ vm.objects.length :: rest }, ?_, hpre, ⟨h.heap.append hobj fun _ _ h => h,
      h.globals.mono hpre, ⟨⟨ls₁ ++ slot :: ls₂, ?_, ?_⟩, fun a l ha => ?_, fun a l ha => ?_⟩,
      h.top, ?_⟩, hnew, ⟨rfl, rfl, fun _ _ => rfl, le_rfl⟩⟩
    · simp only [Lox.Clox.captureUpvalue, hopen, hnone, VM.allocate, Option.bind_eq_bind,
        Option.bind_some]
      rfl
    · exact List.rel_append (habove.imp fun _ _ ha => hold ha)
        (.cons (openAt_concat.2 (.inr ⟨rfl, rfl⟩)) (hrest.imp fun _ _ ha => hold ha))
    · refine List.pairwise_append.2 ⟨hsorted₁, List.pairwise_cons.2 ⟨fun l hl => hlt l hl, hsorted₂⟩,
        fun l hl l' hl' => ?_⟩
      rcases List.mem_cons.1 hl' with rfl | hl'
      · exact hgt l hl
      · exact hcross l hl l' hl'
    · rcases openAt_concat.1 ha with ha | ⟨-, rfl⟩
      · exact h.opens.below a l ha
      · change l < vm.stackTop
        rw [h.top]
        exact slotAt_lt hs
    · rcases openAt_concat.1 ha with ha | ⟨rfl, -⟩
      · have hmem := h.opens.listed a l ha
        rw [hsplit] at hmem
        rcases List.mem_append.1 hmem with hmem | hmem
        · exact List.mem_append_left _ hmem
        · exact List.mem_append_right _ (List.mem_cons_of_mem _ hmem)
      · exact List.mem_append_right _ (List.mem_cons_self ..)
    · refine StackOk.of_slotAt fun j s hj => ?_
      obtain ⟨hkind, hups⟩ := h.stack.slotAt hj
      refine ⟨hkind.mono hpre, fun a ha => ?_⟩
      rcases openAt_concat.1 ha with ha | ⟨rfl, rfl⟩
      · obtain ⟨hcaptured, hT⟩ := hups a ha
        exact ⟨hcaptured, prefix_getElem? hpre hT⟩
      · rw [hs] at hj
        cases hj
        exact ⟨rfl, hnew⟩

/-! ### Closing upvalues -/

/-- What closing the slots from `last` on does to an object. -/
def closeObj (stack : ℕ → Value N) (last : ℕ) : Obj N → Obj N
  | .upvalue (some l) v => if l ≥ last then .upvalue none (stack l) else .upvalue (some l) v
  | o => o

theorem closeObj_other {stack : ℕ → Value N} {last : ℕ} {o : Obj N}
    (h : ∀ l v, o = .upvalue (some l) v → l < last) : closeObj stack last o = o := by
  unfold closeObj
  split
  · rename_i l v
    exact if_neg (Nat.not_le.2 (h l v rfl))
  · rfl

/-- Nothing points to the slots from `last` on. -/
theorem map_closeObj {stack : ℕ → Value N} {last : ℕ} {objects : List (Obj N)}
    (h : ∀ a l, OpenAt objects a l → l < last) : objects.map (closeObj stack last) = objects := by
  have hsame : objects.map (closeObj stack last) = objects.map id := by
    refine List.map_congr_left fun o ho => closeObj_other fun l v heq => ?_
    obtain ⟨a, ha⟩ := List.getElem?_of_mem ho
    exact h a l ⟨v, by rw [ha, heq]⟩
  rw [hsame, List.map_id]

/-- The loop closes what is at `last` or above, and keeps the rest of the list. -/
theorem closeLoop_eq (stack : ℕ → Value N) (last : ℕ) : ∀ {as : List Addr} {ls : List ℕ}
    {objects : List (Obj N)}, List.Forall₂ (OpenAt objects) as ls → ls.Pairwise (· > ·) →
    (∀ a l, OpenAt objects a l → last ≤ l → a ∈ as) →
    ∃ low ls', closeLoop stack last as objects = some (low, objects.map (closeObj stack last)) ∧
      List.Forall₂ (OpenAt objects) low ls' ∧ ls'.Pairwise (· > ·) ∧ (∀ l ∈ ls', l < last) ∧
      ∀ a l, OpenAt objects a l → a ∈ as → l < last → a ∈ low := by
  intro as
  induction as with
  | nil =>
    intro ls objects has hsorted hlisted
    have hlow : ∀ a l, OpenAt objects a l → l < last := by
      intro a l ha
      by_contra hge
      cases hlisted a l ha (Nat.not_lt.1 hge)
    exact ⟨[], [], by rw [map_closeObj hlow]; rfl, .nil, .nil, by simp, fun _ _ _ ha _ => ha⟩
  | cons a as ih =>
    intro ls objects has hsorted hlisted
    cases has with
    | @cons _ l _ ls ha has =>
      obtain ⟨hhead, htail⟩ := List.pairwise_cons.1 hsorted
      obtain ⟨v, hv⟩ := ha
      have hlt := (List.getElem?_eq_some_iff.1 hv).1
      by_cases hl : l ≥ last
      · -- The first upvalue is closed, and the loop goes on with the others.
        have hother : ∀ {b m}, OpenAt (objects.set a (.upvalue none (stack l))) b m ↔
            OpenAt objects b m ∧ b ≠ a := by
          intro b m
          unfold OpenAt
          by_cases hab : a = b
          · subst hab
            simp [List.getElem?_set_self hlt]
          · rw [List.getElem?_set_ne hab]
            exact ⟨fun h => ⟨h, Ne.symm hab⟩, fun h => h.1⟩
        have hne : ∀ {b m}, OpenAt objects b m → m ∈ ls → b ≠ a := by
          rintro b m hb hm rfl
          have hlm := hhead m hm
          have := hb.unique ⟨v, hv⟩
          omega
        have has' : List.Forall₂ (OpenAt (objects.set a (.upvalue none (stack l)))) as ls :=
          forall₂_imp_mem has fun b m hb _ hm => hother.2 ⟨hb, hne hb hm⟩
        obtain ⟨low, ls', hloop, hlow, hsorted', hlow', hkept⟩ := ih has' htail (by
          intro b m hb hm
          obtain ⟨hb, hba⟩ := hother.1 hb
          exact (List.mem_cons.1 (hlisted b m hb hm)).resolve_left hba)
        have hmap : (objects.set a (.upvalue none (stack l))).map (closeObj stack last)
            = objects.map (closeObj stack last) := by
          have hclosed : closeObj stack last (.upvalue (some l) v) = .upvalue none (stack l) :=
            if_pos hl
          rw [List.map_set]
          refine List.ext_getElem? fun b => ?_
          by_cases hab : a = b
          · subst hab
            rw [List.getElem?_set_self (by simpa using hlt), List.getElem?_map, hv]
            exact congrArg some hclosed.symm
          · rw [List.getElem?_set_ne hab]
        refine ⟨low, ls', ?_, hlow.imp fun b m hb => (hother.1 hb).1, hsorted', hlow',
          fun b m hb hmem hm => ?_⟩
        · simp only [closeLoop, hv]
          rw [if_pos hl, hloop, hmap]
        · have hba : b ≠ a := by
            rintro rfl
            have := hb.unique ⟨v, hv⟩
            omega
          exact hkept b m (hother.2 ⟨hb, hba⟩) ((List.mem_cons.1 hmem).resolve_left hba) hm
      · -- All others are below the first one.
        have hlow : ∀ m ∈ l :: ls, m < last := by
          intro m hm
          rcases List.mem_cons.1 hm with rfl | hm
          · omega
          · have := hhead m hm
            omega
        have hbelow : ∀ b m, OpenAt objects b m → m < last := by
          intro b m hb
          by_contra hge
          obtain ⟨m', hm', hb'⟩ := mem_forall₂ (.cons ⟨v, hv⟩ has)
            (hlisted b m hb (Nat.not_lt.1 hge))
          have := hlow m' hm'
          have := hb.unique hb'
          omega
        refine ⟨a :: as, l :: ls, ?_, .cons ⟨v, hv⟩ has, hsorted, hlow, fun b m _ hmem _ => hmem⟩
        simp only [closeLoop, hv]
        rw [if_neg hl, map_closeObj hbelow]

/-- What is open after closing the slots from `last` on. -/
theorem openAt_closeObj {stack : ℕ → Value N} {last : ℕ} {objects : List (Obj N)} {a : Addr}
    {l : ℕ} : OpenAt (objects.map (closeObj stack last)) a l ↔ OpenAt objects a l ∧ l < last := by
  unfold OpenAt
  rw [List.getElem?_map]
  constructor
  · rintro ⟨v, hv⟩
    obtain ⟨o, ho, hclosed⟩ := Option.map_eq_some_iff.1 hv
    unfold closeObj at hclosed
    split at hclosed
    · split at hclosed
      · cases hclosed
      · rename_i hlow
        cases hclosed
        exact ⟨⟨v, ho⟩, Nat.not_le.1 hlow⟩
    · rename_i hother
      exact absurd hclosed (hother l v)
  · rintro ⟨⟨v, hv⟩, hl⟩
    refine ⟨v, ?_⟩
    rw [hv, Option.map_some, closeObj, if_neg (Nat.not_le.2 hl)]

/-- A slot that no upvalue points to any more. -/
def Slot.release (s : Slot) : Slot := ⟨s.kind, false⟩

theorem slotAt_append_left {α : Type} {j : ℕ} {as bs : List α} (h : bs.length ≤ j) :
    slotAt j (as ++ bs) = slotAt (j - bs.length) as := by
  induction as with
  | nil =>
    cases hs : slotAt j bs with
    | none => exact hs
    | some s => exact absurd (slotAt_lt hs) (by omega)
  | cons a as ih =>
    simp only [List.cons_append, slotAt, List.length_append, ih]
    by_cases heq : as.length + bs.length = j
    · rw [if_pos heq, if_pos (by omega)]
    · rw [if_neg heq, if_neg (by omega)]

theorem slotAt_map {α β : Type} {j : ℕ} (f : α → β) (as : List α) :
    slotAt j (as.map f) = (slotAt j as).map f := by
  induction as with
  | nil => rfl
  | cons a as ih =>
    simp only [List.map_cons, slotAt, List.length_map, ih]
    split <;> rfl

namespace MemoryOk

variable {hole : Option Addr} {S : List (Ty N)} {vm : VM N (List Addr)} {above rest : List Slot}

/-- The value of a captured variable moves into its upvalue. -/
theorem closeObj_ok (h : MemoryOk hole S vm above) (last : ℕ) :
    HeapOk hole S (vm.objects.map (closeObj vm.stack last)) := by
  refine ⟨by rw [List.length_map, h.heap.length], fun a o T ha hT => ?_⟩
  rw [List.getElem?_map] at ha
  obtain ⟨old, hold, rfl⟩ := Option.map_eq_some_iff.1 ha
  have hok := h.heap.typed a old T hold hT
  unfold closeObj
  split
  · rename_i l v
    split
    · obtain ⟨k, rfl⟩ : ∃ k, T = .upvalue k := by
        cases T with
        | upvalue k => exact ⟨k, rfl⟩
        | _ => exact hok.elim
      have hlt := h.opens.below a l ⟨v, hold⟩
      rw [h.top] at hlt
      obtain ⟨s, hs⟩ := exists_slotAt hlt
      obtain ⟨hkind, hups⟩ := h.stack.slotAt hs
      have hT' := (hups a ⟨v, hold⟩).2
      rw [hT] at hT'
      cases hT'
      exact hkind
    · exact hok
  · exact hok

/-- Closing all upvalues of the upper part of the stack. -/
theorem closeUpvalues (h : MemoryOk hole S vm (above ++ rest)) : ∃ vm',
    Lox.Clox.closeUpvalues rest.length vm = some vm' ∧ vm'.stack = vm.stack ∧
      vm'.stackTop = vm.stackTop ∧ vm'.frames = vm.frames ∧
      MemoryOk hole S vm' (above.map Slot.release ++ rest) := by
  obtain ⟨ls, hls, hsorted⟩ := h.opens.sorted
  obtain ⟨low, ls', hloop, hlow, hsorted', hlt, hkept⟩ :=
    closeLoop_eq vm.stack rest.length hls hsorted
      fun a l ha _ => h.opens.listed a l ha
  refine ⟨{ vm with
    upvalues := low
    objects := vm.objects.map (closeObj vm.stack rest.length) }, ?_, rfl, rfl, rfl,
    h.closeObj_ok _, h.globals, ⟨⟨ls', ?_, hsorted'⟩, fun a l ha => ?_, fun a l ha => ?_⟩, ?_, ?_⟩
  · simp only [Lox.Clox.closeUpvalues, hloop, Option.bind_eq_bind, Option.bind_some]
    rfl
  · exact forall₂_imp_mem hlow fun a l ha _ hl => openAt_closeObj.2 ⟨ha, hlt l hl⟩
  · exact h.opens.below a l (openAt_closeObj.1 ha).1
  · obtain ⟨ha, hl⟩ := openAt_closeObj.1 ha
    exact hkept a l ha (h.opens.listed a l ha) hl
  · rw [List.length_append, List.length_map, ← List.length_append]
    exact h.top
  · refine StackOk.of_slotAt fun j s hs => ?_
    rcases Nat.lt_or_ge j rest.length with hj | hj
    · rw [slotAt_append _ hj] at hs
      obtain ⟨hkind, hups⟩ := h.stack.slotAt (by rw [slotAt_append _ hj]; exact hs)
      exact ⟨hkind, fun a ha => hups a (openAt_closeObj.1 ha).1⟩
    · rw [slotAt_append_left hj, slotAt_map] at hs
      obtain ⟨t, ht, rfl⟩ := Option.map_eq_some_iff.1 hs
      obtain ⟨hkind, -⟩ := h.stack.slotAt (by rw [slotAt_append_left hj]; exact ht)
      refine ⟨hkind, fun a ha => ?_⟩
      exact absurd (openAt_closeObj.1 ha).2 (Nat.not_lt.2 hj)

/-- Slots that nothing points to can be dropped. -/
theorem truncate (h : MemoryOk hole S vm (above ++ rest))
    (hfree : ∀ s ∈ above, s.captured = false) :
    MemoryOk hole S (vm.truncate rest.length) rest := by
  refine ⟨h.heap, h.globals, ?_, rfl, h.stack.of_append⟩
  refine h.opens.congr (fun _ _ => Iff.rfl) fun a l ha => ?_
  by_contra hge
  rw [Nat.not_lt] at hge
  have hlt := h.opens.below a l ha
  rw [h.top] at hlt
  obtain ⟨s, hs⟩ := exists_slotAt hlt
  have hcaptured := ((h.stack.slotAt hs).2 a ha).1
  rw [slotAt_append_left hge] at hs
  rw [hfree s (slotAt_mem hs)] at hcaptured
  cases hcaptured

end MemoryOk

/-! ### New closures -/

namespace MemoryOk

variable {hole : Option Addr} {S : List (Ty N)} {vm : VM N (List Addr)} {a : Shape}
  {below : List Slot} {I : Info N} {enclosing : List (Option Addr)}

/-- The captures of a new closure: variables of the frame, or upvalues of its function. -/
theorem captures {us : List Upvalue} {kinds : List Kind}
    (hcaptures : List.Forall₂ (CaptureOk I a) us kinds) : ∀ {S : List (Ty N)}
    {vm : VM N (List Addr)}, UpvaluesOk S enclosing I.upvalues →
    MemoryOk hole S vm (a.slots ++ below) →
    ∃ S' as vm', VM.captures openUpvalues below.length enclosing us vm = some (as, vm') ∧
      S <+: S' ∧ MemoryOk hole S' vm' (a.slots ++ below) ∧ UpvaluesOk S' as kinds ∧
      vm.Keeps vm' := by
  induction hcaptures with
  | nil =>
    intro S vm _ h
    exact ⟨S, [], vm, rfl, List.prefix_rfl, h, .nil, VM.Keeps.refl vm⟩
  | @cons u k us kinds hu hus ih =>
    intro S vm henclosing h
    unfold CaptureOk at hu
    cases hlocal : u.isLocal with
    | true =>
      rw [hlocal, if_pos rfl] at hu
      have hslot : slotAt (below.length + u.index.toNat) (a.slots ++ below) = some ⟨k, true⟩ := by
        rw [slotAt_append_left (Nat.le_add_right _ _), Nat.add_sub_cancel_left]
        exact hu
      obtain ⟨S₁, b, vm₁, hcapture, hS₁, h₁, hb, hkeeps₁⟩ := h.captureUpvalue hslot
      obtain ⟨S₂, as, vm₂, hrest, hS₂, h₂, has, hkeeps⟩ := ih (henclosing.mono hS₁) h₁
      refine ⟨S₂, some b :: as, vm₂, ?_, hS₁.trans hS₂, h₂,
        .cons ⟨b, rfl, prefix_getElem? hS₂ hb⟩ has, hkeeps₁.trans hkeeps⟩
      simp only [VM.captures, hlocal, if_true]
      change (Lox.Clox.captureUpvalue _ vm).bind _ = _
      rw [hcapture, Option.bind_some]
      simp only [hrest, Option.bind_eq_bind, Option.bind_some]
      rfl
    | false =>
      rw [hlocal] at hu
      obtain ⟨o, ho, b, rfl, hb⟩ := getElem?_forall₂ henclosing hu
      obtain ⟨S₂, as, vm₂, hrest, hS₂, h₂, has, hkeeps⟩ := ih henclosing h
      refine ⟨S₂, some b :: as, vm₂, ?_, hS₂, h₂, .cons ⟨b, rfl, prefix_getElem? hS₂ hb⟩ has, hkeeps⟩
      simp only [VM.captures, hlocal, ho, hrest, Option.bind_eq_bind, Option.bind_some]
      rfl

/-- `OP_CLOSURE`: the closure is allocated first and gets its upvalues then. -/
theorem makeClosure {f : ObjFunction N} {sig : Signature} {us : List Upvalue} {b : Shape}
    (h : MemoryOk none S vm (a.slots ++ below)) (hf : WellTyped f sig)
    (hsub : (a.push (if sig.method then .meth else .any)).Sub b)
    (hcaptures : List.Forall₂ (CaptureOk I b) us sig.upvalues)
    (henclosing : UpvaluesOk S enclosing I.upvalues) :
    ∃ S' vm', vm.makeClosure openUpvalues below.length enclosing f us = some (.running vm') ∧
      S <+: S' ∧ MemoryOk none S' vm' (b.slots ++ below) ∧ vm.Keeps vm' := by
  have hpre := HeapOk.prefix_append S (.closure f sig)
  have hnew : (S ++ [.closure f sig])[vm.objects.length]? = some (.closure f sig) := by
    rw [← h.heap.length]
    exact List.getElem?_concat_length
  have hobj : ObjOk (S ++ [.closure f sig]) (some vm.objects.length ≠ some vm.objects.length)
      (.closure f (List.replicate f.upvalueCount none)) (.closure f sig) :=
    ⟨rfl, hf, fun hne => (hne rfl).elim⟩
  have h₁ := h.allocate hobj (fun _ _ _ => by simp) (by simp)
  have hkind : HasKind (S ++ [.closure f sig]) (.obj vm.objects.length)
      (if sig.method then .meth else .any) := by
    cases hmethod : sig.method with
    | true => exact ⟨f, sig, hnew, hmethod⟩
    | false => exact ⟨.closure f sig, hnew, hmethod⟩
  have hsubs : List.Forall₂ Slot.Sub
      (⟨if sig.method then .meth else .any, false⟩ :: (a.slots ++ below)) (b.slots ++ below) :=
    List.rel_append hsub.1 (Shape.Sub.refl ⟨below, none⟩).1
  have h₂ := (h₁.push hkind).sub hsubs
  obtain ⟨S', as, vm', hrun, hS', h₃, has, hkeeps⟩ := captures hcaptures (henclosing.mono hpre) h₂
  have hT := prefix_getElem? hS' hnew
  obtain ⟨us', hold, -, -⟩ := h₃.heap.closure hT
  refine ⟨S', vm'.update vm.objects.length (.closure f as), ?_, hpre.trans hS', ?_, ?_⟩
  · simp only [VM.makeClosure, VM.allocate]
    rw [show ({ vm with objects := vm.objects ++ [.closure f (List.replicate f.upvalueCount none)] }
      : VM N (List Addr)) = (vm.allocate (.closure f (List.replicate f.upvalueCount none))).2 from rfl,
      hrun]
    rfl
  · refine h₃.update hold hT ⟨rfl, hf, fun _ => has⟩ (fun b hb _ => ?_) (by simp) (by simp)
    exact fun heq => hb (Option.some.inj heq).symm
  · have hpushed : vm.Keeps ((vm.allocate (.closure f
        (List.replicate f.upvalueCount none))).2.push (.obj vm.objects.length)) :=
      (show vm.Keeps (vm.allocate _).2 from ⟨rfl, rfl, fun _ _ => rfl, le_rfl⟩).trans
        (VM.Keeps.push _ _)
    have hall := hpushed.trans hkeeps
    exact ⟨hall.frames, hall.globals, hall.stack, hall.stackTop⟩

end MemoryOk

end Lox.Clox
