import Lox.Clox.Cells

/-!
# The list of open upvalues implements cells

For an accepted program the list of open upvalues, with its captures and closings, cannot be told from
the machine with cells: run side by side, the two machines print the same, report the same errors and
end in the same state.  So all closures that capture a variable share it with the function it belongs
to, it keeps its value when it leaves the stack, and variables that have the same slot one after the
other are different ones.  In particular code that the compiler accepts closes upvalues wherever a
captured variable leaves the stack.
-/

namespace Lox.Clox

variable {N : Type} {m : ℕ} {vm : VM N (List Addr)} {vm' : VM N Cells}

/-! ### The list -/

theorem open_unique {objects : List (Obj N)} {as : List Addr} {ls : List ℕ}
    (h : List.Forall₂ (OpenAt objects) as ls) (hsorted : ls.Pairwise (· > ·)) {a b : Addr} {j : ℕ}
    (ha : a ∈ as) (hb : b ∈ as) (hja : OpenAt objects a j) (hjb : OpenAt objects b j) : a = b := by
  induction h with
  | nil => cases ha
  | @cons c l as ls hc hrest ih =>
    obtain ⟨hhead, hsorted⟩ := List.pairwise_cons.1 hsorted
    -- Nothing after the head points to where the head points to.
    have hlater : ∀ d ∈ as, ¬ OpenAt objects d l := by
      intro d hd hopen
      obtain ⟨k, hk, hdk⟩ := mem_forall₂ hrest hd
      have hlt := hhead k hk
      rw [hopen.unique hdk] at hlt
      exact Nat.lt_irrefl _ hlt
    rcases List.mem_cons.1 ha with rfl | ha'
    · rcases List.mem_cons.1 hb with rfl | hb'
      · rfl
      · exact absurd (hc.unique hja ▸ hjb) (hlater b hb')
    · rcases List.mem_cons.1 hb with rfl | hb'
      · exact absurd (hc.unique hjb ▸ hja) (hlater a ha')
      · exact ih hsorted ha' hb'

/-- A variable has at most one open upvalue. -/
theorem OpenOk.unique {objects : List (Obj N)} {upvalues : List Addr} {top : ℕ}
    (h : OpenOk objects upvalues top) {a b : Addr} {j : ℕ} (ha : OpenAt objects a j)
    (hb : OpenAt objects b j) : a = b := by
  obtain ⟨ls, hls, hsorted⟩ := h.sorted
  exact open_unique hls hsorted (h.listed a j ha) (h.listed b j hb) ha hb

/-- The instructions that close upvalues. -/
def Instr.closes : Instr → Bool
  | .closeUpvalue | .return_ => true
  | _ => false

namespace Sim

variable {top : ℕ} {a : Addr} {j : ℕ}

theorem strengthen (h : Sim m vm vm') {k : ℕ} (hk : ∀ a j, OpenAt vm.objects a j → j < k) :
    Sim k vm vm' :=
  ⟨h.toShows, h.cells, hk⟩

/-- The cell of a variable on the stack. -/
theorem cell_of_open (h : Sim m vm vm') (hopen : OpenOk vm.objects vm.upvalues top)
    (ha : OpenAt vm.objects a j) : vm'.upvalues j = some a :=
  (h.cells j a).2 ⟨ha, hopen.listed a j ha⟩

/-- An open upvalue is written through. -/
theorem write (h : Sim m vm vm') (hopen : OpenOk vm.objects vm.upvalues top)
    (ha : OpenAt vm.objects a j) (value : Value N) :
    ∃ vm₁, vm'.writeCell a value = some vm₁ ∧
      Sim m { vm with stack := Function.update vm.stack j value } vm₁ := by
  obtain ⟨v, hv⟩ := ha
  have hget : vm'.objects[a]? = some (.upvalue none (vm.stack j)) := by
    rw [h.get, hv]
    rfl
  refine ⟨_, VM.writeCell_eq hget value, ⟨h.frames, ?_, h.stackTop, h.globals, ?_, h.stdout,
    h.stderr, h.clock, h.ticks⟩, h.cells, h.below⟩
  · funext slot
    show (if vm'.upvalues slot = some a then value else vm'.stack slot)
      = Function.update vm.stack j value slot
    by_cases hslot : slot = j
    · rw [hslot, Function.update_self, if_pos (h.cell_of_open hopen ⟨v, hv⟩)]
    · rw [Function.update_of_ne hslot, if_neg fun heq => ?_, h.stack]
      exact hslot (((h.cells slot a).1 heq).1.unique ⟨v, hv⟩)
  · show vm'.objects.set a (.upvalue none value) = vm.objects.map (Obj.cell _)
    apply List.ext_getElem?
    intro b
    by_cases hab : a = b
    · subst hab
      rw [List.getElem?_set_self (List.getElem?_eq_some_iff.1 hget).1, List.getElem?_map, hv]
      simp [Obj.cell]
    · rw [List.getElem?_set_ne hab, h.get, List.getElem?_map]
      cases ho : vm.objects[b]? with
      | none => rfl
      | some o =>
        cases o with
        | upvalue location w =>
          cases location with
          | none => rfl
          | some l =>
            have hl : l ≠ j := by
              rintro rfl
              exact hab (hopen.unique ⟨v, hv⟩ ⟨w, ho⟩)
            simp [Obj.cell, Function.update_of_ne hl]
        | _ => rfl

theorem setLocal (h : Sim m vm vm') (hopen : OpenOk vm.objects vm.upvalues top) (slot : ℕ)
    (value : Value N) :
    ∃ vm₁, heapCells.setLocal slot value vm' = some vm₁ ∧
      Sim m { vm with stack := Function.update vm.stack slot value } vm₁ := by
  cases hcell : vm'.upvalues slot with
  | some a =>
    obtain ⟨vm₁, hwrite, hsim⟩ := h.write hopen ((h.cells slot a).1 hcell).1 value
    exact ⟨vm₁, by simp only [heapCells, hcell, hwrite], hsim⟩
  | none =>
    refine ⟨{ vm' with stack := Function.update vm'.stack slot value },
      by simp only [heapCells, hcell], ?_⟩
    have hcongr : vm.objects.map (Obj.cell (Function.update vm.stack slot value))
        = vm.objects.map (Obj.cell vm.stack) := by
      refine cell_congr fun a l ha => Function.update_of_ne ?_ _ _
      rintro rfl
      rw [h.cell_of_open hopen ha] at hcell
      cases hcell
    exact ⟨⟨h.frames, by rw [h.stack], h.stackTop, h.globals, h.objects.trans hcongr.symm, h.stdout,
      h.stderr, h.clock, h.ticks⟩, h.cells, h.below⟩

theorem getLocal (h : Sim m vm vm') (slot : ℕ) : heapCells.getLocal slot vm' = some (vm.stack slot) := by
  cases hcell : vm'.upvalues slot with
  | some a =>
    obtain ⟨v, hv⟩ := ((h.cells slot a).1 hcell).1
    have hget : vm'.objects[a]? = some (.upvalue none (vm.stack slot)) := by
      rw [h.get, hv]
      rfl
    simp only [heapCells, hcell, VM.readCell, hget]
  | none => simp only [heapCells, hcell, h.stack]

theorem getUpvalue (h : Sim m vm vm') (a : Addr) : vm'.readCell a = Lox.Clox.getUpvalue a vm := by
  simp only [VM.readCell, Lox.Clox.getUpvalue, h.get]
  cases vm.objects[a]? with
  | none => rfl
  | some o =>
    cases o with
    | upvalue location v =>
      cases location with
      | _ => rfl
    | _ => rfl

theorem setUpvalue (h : Sim m vm vm') (hopen : OpenOk vm.objects vm.upvalues top) (a : Addr)
    (value : Value N) :
    Option.Rel (Sim m) (Lox.Clox.setUpvalue a value vm) (vm'.writeCell a value) := by
  cases ho : vm.objects[a]? with
  | none =>
    simp only [Lox.Clox.setUpvalue, VM.writeCell, h.get, ho, Option.map_none]
    exact .none
  | some o =>
    cases o with
    | upvalue location v =>
      cases location with
      | some l =>
        obtain ⟨vm₁, hwrite, hsim⟩ := h.write hopen ⟨v, ho⟩ value
        simp only [Lox.Clox.setUpvalue, ho, hwrite]
        exact .some hsim
      | none =>
        have hget : vm'.objects[a]? = some (.upvalue none v) := by
          rw [h.get, ho]
          rfl
        -- A cell that no variable on the stack is in.
        have hstack : (fun slot => if vm'.upvalues slot = some a then value else vm'.stack slot)
            = vm'.stack := by
          funext slot
          refine if_neg fun heq => ?_
          obtain ⟨w, hw⟩ := ((h.cells slot a).1 heq).1
          rw [ho] at hw
          cases hw
        simp only [Lox.Clox.setUpvalue, ho, VM.writeCell_eq hget, hstack]
        exact .some (h.update ho (fun _ _ heq => by cases heq) fun _ _ heq => by cases heq)
    | _ =>
      simp only [Lox.Clox.setUpvalue, VM.writeCell, h.get, ho, Option.map_some, Obj.cell]
      exact .none

/-! ### Capturing -/

theorem cell_iff (h : Sim m vm vm') (hopen : OpenOk vm.objects vm.upvalues top) :
    vm'.upvalues j = some a ↔ OpenAt vm.objects a j :=
  (h.cells j a).trans ⟨fun ha => ha.1, fun ha => ⟨ha, hopen.listed a j ha⟩⟩

/-- The open upvalue of a variable is its cell; if there is none, the value moves into a new one. -/
theorem capture (h : Sim m vm vm') (hopen : OpenOk vm.objects vm.upvalues top) {slot : ℕ}
    (hslot : slot < m) :
    ∃ a vm₁ vm₁', captureUpvalue slot vm = some (a, vm₁) ∧
      heapCells.captureUpvalue slot vm' = some (a, vm₁') ∧ Sim m vm₁ vm₁' ∧
      OpenOk vm₁.objects vm₁.upvalues m ∧ vm.objects <+: vm₁.objects := by
  obtain ⟨ls, hls, hsorted⟩ := hopen.sorted
  obtain ⟨above, rest, ls₁, ls₂, hsplit, happend, rfl, habove, hrest, hgt, hle⟩ :=
    openAbove_spec slot hls hsorted
  obtain ⟨hsorted₁, hsorted₂, hcross⟩ := List.pairwise_append.1 hsorted
  rcases pointsTo_spec hrest hsorted₂ hle with ⟨a, ha, hat⟩ | ⟨hnone, hlt⟩
  · refine ⟨a, vm, vm', by simp [captureUpvalue, hsplit, ha], ?_, h,
      ⟨hopen.sorted, h.below, hopen.listed⟩, List.prefix_rfl⟩
    simp only [heapCells, h.cell_of_open hopen hat]
  · have hfree : ∀ b, ¬ OpenAt vm.objects b slot := by
      intro b hb
      obtain ⟨l, hl, hbl⟩ := mem_forall₂ hls (hopen.listed b slot hb)
      obtain rfl := hb.unique hbl
      rcases List.mem_append.1 hl with hl | hl
      · exact Nat.lt_irrefl _ (hgt _ hl)
      · exact Nat.lt_irrefl _ (hlt _ hl)
    have hcell : vm'.upvalues slot = none := by
      cases hc : vm'.upvalues slot with
      | none => rfl
      | some b => exact absurd ((h.cell_iff hopen).1 hc) (hfree b)
    have hlength : vm'.objects.length = vm.objects.length := by rw [h.objects, List.length_map]
    have hold : ∀ {b l}, OpenAt vm.objects b l →
        OpenAt (vm.objects ++ [Obj.upvalue (some slot) .nil]) b l :=
      fun hb => openAt_concat.2 (.inl hb)
    have hbelow : ∀ b l, OpenAt (vm.objects ++ [Obj.upvalue (some slot) .nil]) b l → l < m := by
      intro b l hb
      rcases openAt_concat.1 hb with hb | ⟨-, rfl⟩
      · exact h.below b l hb
      · exact hslot
    have hlisted : ∀ b l, OpenAt (vm.objects ++ [Obj.upvalue (some slot) .nil]) b l →
        b ∈ above ++ vm.objects.length :: rest := by
      intro b l hb
      rcases openAt_concat.1 hb with hb | ⟨rfl, -⟩
      · have hmem := hopen.listed b l hb
        rw [happend, List.mem_append] at hmem
        exact List.mem_append.2 (hmem.imp_right (List.mem_cons_of_mem _))
      · exact List.mem_append_right _ (List.mem_cons_self ..)
    refine ⟨vm.objects.length,
      { (vm.allocate (.upvalue (some slot) .nil)).2 with
        upvalues := above ++ vm.objects.length :: rest },
      { (vm'.allocate (.upvalue none (vm'.stack slot))).2 with
        upvalues := Function.update vm'.upvalues slot (some vm.objects.length) },
      ?_, ?_, ⟨⟨h.frames, h.stack, h.stackTop, h.globals, ?_, h.stdout, h.stderr, h.clock, h.ticks⟩,
      fun j a => ?_, hbelow⟩, ⟨⟨ls₁ ++ slot :: ls₂, ?_, ?_⟩, hbelow, hlisted⟩,
      List.prefix_append _ _⟩
    · simp only [captureUpvalue, hsplit, hnone, VM.allocate, Option.bind_eq_bind, Option.bind_some]
      rfl
    · simp only [heapCells, hcell, VM.allocate, hlength]
    · show vm'.objects ++ [Obj.upvalue none (vm'.stack slot)]
        = (vm.objects ++ [Obj.upvalue (some slot) .nil]).map (Obj.cell vm.stack)
      rw [List.map_append, ← h.objects, h.stack]
      rfl
    · show Function.update vm'.upvalues slot (some vm.objects.length) j = some a ↔
        OpenAt (vm.objects ++ [Obj.upvalue (some slot) .nil]) a j ∧
          a ∈ above ++ vm.objects.length :: rest
      rw [and_iff_left_of_imp (hlisted a j), openAt_concat]
      by_cases hj : j = slot
      · subst hj
        rw [Function.update_self]
        constructor
        · intro heq
          exact .inr ⟨(Option.some.inj heq).symm, rfl⟩
        · rintro (ha | ⟨rfl, -⟩)
          · exact absurd ha (hfree a)
          · rfl
      · rw [Function.update_of_ne hj, h.cell_iff hopen]
        exact ⟨.inl, fun ha => ha.resolve_right fun heq => hj heq.2⟩
    · exact List.rel_append (habove.imp fun _ _ ha => hold ha)
        (.cons (openAt_concat.2 (.inr ⟨rfl, rfl⟩)) (hrest.imp fun _ _ ha => hold ha))
    · refine List.pairwise_append.2 ⟨hsorted₁, List.pairwise_cons.2 ⟨hlt, hsorted₂⟩,
        fun l hl l' hl' => ?_⟩
      rcases List.mem_cons.1 hl' with rfl | hl'
      · exact hgt l hl
      · exact hcross l hl l' hl'

/-- The captures of a new closure. -/
theorem captures {slots : ℕ} {enclosing : List (Option Addr)} : ∀ {us : List Upvalue}
    {vm : VM N (List Addr)} {vm' : VM N Cells}, Sim m vm vm' → OpenOk vm.objects vm.upvalues top →
    (∀ u ∈ us, u.isLocal = true → slots + u.index.toNat < m) →
    Option.Rel (fun r r' => r'.1 = r.1 ∧ Sim m r.2 r'.2 ∧ vm.objects <+: r.2.objects)
      (VM.captures openUpvalues slots enclosing us vm) (VM.captures heapCells slots enclosing us vm')
  := by
  intro us
  induction us generalizing top with
  | nil => exact fun h _ _ => .some ⟨rfl, h, List.prefix_rfl⟩
  | cons u us ih =>
    intro vm vm' h hopen hus
    have hrest : ∀ v ∈ us, v.isLocal = true → slots + v.index.toNat < m :=
      fun v hv => hus v (List.mem_cons_of_mem _ hv)
    simp only [VM.captures]
    split
    · rename_i hlocal
      obtain ⟨a, vm₁, vm₁', hcapture, hcapture', h₁, hopen₁, hprefix⟩ :=
        h.capture hopen (hus u (List.mem_cons_self ..) hlocal)
      show Option.Rel _ ((captureUpvalue _ vm).bind _) ((heapCells.captureUpvalue _ vm').bind _)
      rw [hcapture, hcapture', Option.bind_some, Option.bind_some]
      refine rel_bind (ih h₁ hopen₁ hrest) fun r r' hr => ?_
      exact .some ⟨by rw [hr.1], hr.2.1, hprefix.trans hr.2.2⟩
    · refine rel_bind_same fun a _ => rel_bind (ih h hopen hrest) fun r r' hr => ?_
      exact .some ⟨by rw [hr.1], hr.2.1, hr.2.2⟩

theorem mono (h : Sim m vm vm') {k : ℕ} (hk : m ≤ k) : Sim k vm vm' :=
  h.strengthen fun a j ha => (h.below a j ha).trans_le hk

/-- `OP_CLOSURE`, which may capture the variable that the closure itself becomes. -/
theorem makeClosure (h : Sim m vm vm') (hopen : OpenOk vm.objects vm.upvalues top)
    (hm : m ≤ vm.stackTop) {slots : ℕ} (enclosing : List (Option Addr)) (f : ObjFunction N)
    {us : List Upvalue} (hus : ∀ u ∈ us, u.isLocal = true → slots + u.index.toNat ≤ vm.stackTop) :
    Option.Rel SimOutcome (vm.makeClosure openUpvalues slots enclosing f us)
      (vm'.makeClosure heapCells slots enclosing f us) := by
  have hclosure : ∀ us' l v, Obj.closure f us' ≠ .upvalue (some l) v := by
    intro us' l v heq
    cases heq
  obtain ⟨haddr, hallocated⟩ := h.allocate (hclosure (List.replicate f.upvalueCount none))
  have hpushed := (hallocated.push hm (.obj (vm.allocate
    (.closure f (List.replicate f.upvalueCount none))).1)).mono (Nat.le_succ_of_le hm)
  have hopened : OpenOk (vm.allocate (.closure f (List.replicate f.upvalueCount none))).2.objects
      vm.upvalues top :=
    hopen.congr (fun a l => openAt_append (hclosure _)) hopen.below
  unfold VM.makeClosure
  simp only [haddr]
  refine rel_bind (captures hpushed hopened fun u hu hlocal => Nat.lt_succ_of_le (hus u hu hlocal))
    fun r r' hr => ?_
  obtain ⟨heq, hsim, hprefix⟩ := hr
  have hold : r.2.objects[vm.objects.length]?
      = some (.closure f (List.replicate f.upvalueCount none)) :=
    prefix_getElem? hprefix List.getElem?_concat_length
  rw [heq]
  exact (hsim.update hold (hclosure _) (hclosure _)).goOn

/-! ### Closing -/

theorem cell_closeObj (stack : ℕ → Value N) (last : ℕ) (o : Obj N) :
    Obj.cell stack (closeObj stack last o) = Obj.cell stack o := by
  cases o with
  | upvalue location v =>
    cases location with
    | none => rfl
    | some l =>
      simp only [closeObj]
      split
      · rfl
      · rfl
  | _ => rfl

/-- Closing the upvalues from `last` on does not change a cell. -/
theorem close (h : Sim m vm vm') (hopen : OpenOk vm.objects vm.upvalues top) (last : ℕ) :
    ∃ vm₁, closeUpvalues last vm = some vm₁ ∧ vm₁.stackTop = vm.stackTop ∧ Shows vm₁ vm' ∧
      Sim last (vm₁.truncate last) (vm'.truncate last) := by
  obtain ⟨ls, hls, hsorted⟩ := hopen.sorted
  obtain ⟨low, ls', hloop, -, -, -, hkept⟩ := closeLoop_eq vm.stack last hls hsorted
    fun a l ha _ => hopen.listed a l ha
  have hobjects : vm'.objects
      = (vm.objects.map (closeObj vm.stack last)).map (Obj.cell vm.stack) := by
    rw [List.map_map, h.objects]
    exact List.map_congr_left fun o _ => (cell_closeObj vm.stack last o).symm
  refine ⟨{ vm with upvalues := low, objects := vm.objects.map (closeObj vm.stack last) }, ?_, rfl,
    ⟨h.frames, h.stack, h.stackTop, h.globals, hobjects, h.stdout, h.stderr, h.clock, h.ticks⟩,
    ⟨⟨h.frames, h.stack, rfl, h.globals, hobjects, h.stdout, h.stderr, h.clock, h.ticks⟩,
    fun j a => ?_, fun a j ha => (openAt_closeObj.1 ha).2⟩⟩
  · simp only [closeUpvalues, hloop, Option.bind_eq_bind, Option.bind_some]
    rfl
  · show (if j < last then vm'.upvalues j else none) = some a ↔
      OpenAt (vm.objects.map (closeObj vm.stack last)) a j ∧ a ∈ low
    rw [openAt_closeObj]
    constructor
    · intro ha
      split at ha
      · rename_i hj
        obtain ⟨hat, hmem⟩ := (h.cells j a).1 ha
        exact ⟨⟨hat, hj⟩, hkept a j hat hmem hj⟩
      · cases ha
    · rintro ⟨⟨hat, hj⟩, -⟩
      rw [if_pos hj]
      exact h.cell_of_open hopen hat

/-- `OP_CLOSE_UPVALUE`. -/
theorem closeUpvalue (h : Sim m vm vm') (hopen : OpenOk vm.objects vm.upvalues top) :
    Option.Rel SimOutcome
      ((openUpvalues.closeUpvalues (vm.stackTop - 1) vm).bind fun vm => (vm.pop 1).goOn)
      ((heapCells.closeUpvalues (vm'.stackTop - 1) vm').bind fun vm => (vm.pop 1).goOn) := by
  obtain ⟨vm₁, hclose, htop, -, hsim⟩ := h.close hopen (vm.stackTop - 1)
  simp only [openUpvalues, heapCells, hclose, Option.bind_some, VM.pop, htop, h.stackTop]
  exact hsim.goOn

/-- `OP_RETURN`. -/
theorem return_ (h : Sim m vm vm') (hopen : OpenOk vm.objects vm.upvalues top) {frame : CallFrame}
    (hslots : frame.slots < vm.stackTop) (frames : List CallFrame) :
    Option.Rel SimOutcome (vm.return_ openUpvalues frame frames)
      (vm'.return_ heapCells frame frames) := by
  obtain ⟨vm₁, hclose, htop, hshows, hsim⟩ := h.close hopen frame.slots
  have hpopped : openUpvalues.closeUpvalues frame.slots (vm.pop 1) = some (vm₁.pop 1) := by
    show Lox.Clox.closeUpvalues frame.slots (vm.pop 1) = _
    rw [Running.closeUpvalues_pop, hclose, Option.map_some]
  have hcells : ({ vm'.pop 1 with frames := frames }.truncate frame.slots : VM N Cells)
      = { vm'.truncate frame.slots with frames := frames } := by
    have htruncate : Tracking.truncate frame.slots (Tracking.truncate (vm'.stackTop - 1) vm'.upvalues)
        = Tracking.truncate frame.slots vm'.upvalues := by
      funext slot
      show (if slot < frame.slots then if slot < vm'.stackTop - 1 then vm'.upvalues slot else none
        else none) = if slot < frame.slots then vm'.upvalues slot else none
      rw [h.stackTop]
      split
      · rw [if_pos (by omega)]
      · rfl
    simp only [VM.pop, VM.truncate, htruncate]
  simp only [VM.return_, h.peek, hpopped, heapCells, Option.bind_eq_bind, Option.bind_some]
  split
  · refine .some (.finished _ ⟨rfl, hshows.stack, ?_, hshows.globals, hshows.objects, hshows.stdout,
      hshows.stderr, hshows.clock, hshows.ticks⟩ fun j hj => ?_)
    · show vm'.stackTop - 1 - 1 = vm₁.stackTop - 1 - 1
      rw [hshows.stackTop]
    · exact if_neg (Nat.not_lt.2 hj)
  · rw [hcells]
    exact ((hsim.setFrames frames).push (le_refl _) _).goOn

/-! ### Instructions -/

section Execute

variable [Double N] {frame : CallFrame} {rest : List CallFrame} {f : ObjFunction N}
  {us : List (Option Addr)}

/-- An instruction that closes upvalues, or works on slots no upvalue points to. -/
theorem execute (h : Sim m vm vm') (hopen : OpenOk vm.objects vm.upvalues top) (hm : m ≤ vm.stackTop)
    (hslots : frame.slots < vm.stackTop) {i : Instr}
    (hpops : i.closes = false → m + i.pops ≤ vm.stackTop)
    (hcaptures : ∀ k captures, i = .closure k captures → ∀ u ∈ captures, u.isLocal = true →
      frame.slots + u.index.toNat ≤ vm.stackTop) :
    Option.Rel SimOutcome (Lox.Clox.execute openUpvalues frame rest f us vm i)
      (Lox.Clox.execute heapCells frame rest f us vm' i) := by
  cases i with
  | constant k => exact h.constant hm k f
  | nil | true_ | false_ => exact (h.push hm _).goOn
  | pop => exact (h.pop (hpops rfl)).goOn
  | getLocal slot =>
    simp only [Lox.Clox.execute, h.getLocal, openUpvalues]
    exact (h.push hm _).goOn
  | setLocal slot =>
    obtain ⟨vm₁, hset, hsim⟩ := h.setLocal hopen (frame.slots + slot.toNat) (vm.peek 0)
    simp only [Lox.Clox.execute, h.peek, hset, openUpvalues]
    exact hsim.goOn
  | getGlobal k => exact rel_bind_same fun name _ => h.getGlobal hm name
  | defineGlobal k =>
    refine rel_bind_same fun name _ => ?_
    have hset := h.setGlobals (vm.globals.set name (vm.peek 0))
    rw [h.globals, h.peek]
    exact (hset.pop (hpops rfl)).goOn
  | setGlobal k => exact rel_bind_same fun name _ => h.setGlobal name
  | getUpvalue slot =>
    refine rel_bind_same fun a _ => ?_
    show Option.Rel _ ((Lox.Clox.getUpvalue a vm).bind _) ((vm'.readCell a).bind _)
    rw [h.getUpvalue]
    exact rel_bind_same fun value _ => (h.push hm value).goOn
  | setUpvalue slot =>
    refine rel_bind_same fun a _ => ?_
    rw [h.peek]
    exact rel_bind (h.setUpvalue hopen a _) fun vm₁ vm₁' hsim => hsim.goOn
  | equal =>
    simp only [Lox.Clox.execute, h.peek]
    exact (h.replace (hpops rfl) _).goOn
  | greater | less | subtract | multiply | divide => exact h.binaryOp _ (hpops rfl)
  | add => exact h.add (hpops rfl)
  | not =>
    simp only [Lox.Clox.execute, h.peek]
    exact (h.replace (hpops rfl) _).goOn
  | negate => exact h.negate (hpops rfl)
  | jump offset => exact (h.jumpTo _).goOn
  | jumpIfFalse offset =>
    simp only [Lox.Clox.execute, h.peek]
    split
    · exact (h.jumpTo _).goOn
    · exact h.goOn
  | print =>
    simp only [Lox.Clox.execute, h.peek, h.printValue, h.stdout]
    refine rel_bind_same fun printed _ => ?_
    exact ((h.setStdout (vm.stdout ++ [printed])).pop (hpops rfl)).goOn
  | loop offset =>
    simp only [Lox.Clox.execute]
    split
    · exact .none
    · exact (h.jumpTo _).goOn
  | call argCount =>
    simp only [Lox.Clox.execute, h.peek]
    exact check (h.callValue _ (hpops rfl))
  | method k => exact rel_bind_same fun name _ => h.defineMethod (hpops rfl) name
  | closure k captures =>
    exact rel_bind_same fun g _ => h.makeClosure hopen hm us g (hcaptures k captures rfl)
  | closeUpvalue => exact h.closeUpvalue hopen
  | getProperty k => exact rel_bind_same fun name _ => h.getProperty (hpops rfl) name
  | setProperty k => exact rel_bind_same fun name _ => h.setProperty (hpops rfl) name
  | inherit => exact h.inherit_ (hpops rfl)
  | invoke k argCount =>
    exact rel_bind_same fun name _ => check (h.invoke name (hpops rfl))
  | class_ k =>
    refine rel_bind_same fun name _ => ?_
    obtain ⟨haddr, hallocated⟩ := h.allocate (o := .klass name Table.empty) fun l v heq => by cases heq
    simp only [haddr]
    exact (hallocated.push hm _).goOn
  | superInvoke k argCount =>
    have htop : m + (argCount.toNat + 2) ≤ vm.stackTop := hpops rfl
    exact rel_bind_same fun name _ => h.superInvoke (by omega) name
  | getSuper k => exact rel_bind_same fun name _ => h.getSuper (hpops rfl) name
  | return_ => exact h.return_ hopen hslots rest

end Execute

end Sim

/-! ### What an instruction works on -/

section Free

variable {S : List (Ty N)} {frame : CallFrame} {rest : List CallFrame} {f : ObjFunction N}
  {sig : Signature} {cs : Code} {a b : Shape} {below : List Slot} {u : Addr} {l : ℕ}

/-- No upvalue points to slots on top that are not captured. -/
theorem Running.free (h : Running S vm frame rest f sig cs a below) {above r : List Slot}
    (hs : a.slots = above ++ r) (hfree : ∀ s ∈ above, s.captured = false)
    (hopen : OpenAt vm.objects u l) : l + above.length < vm.stackTop := by
  have htop : vm.stackTop = above.length + (r ++ below).length := by
    rw [h.memory.top, hs, List.append_assoc, List.length_append]
  by_contra hge
  have hlt := h.memory.opens.below u l hopen
  rw [h.memory.top] at hlt
  obtain ⟨s, hslot⟩ := exists_slotAt hlt
  have hcaptured := ((h.memory.stack.slotAt hslot).2 u hopen).1
  rw [hs, List.append_assoc, slotAt_append_left (by omega)] at hslot
  rw [hfree s (slotAt_mem hslot)] at hcaptured
  cases hcaptured

theorem Running.free_replace (h : Running S vm frame rest f sig cs a below) {n : ℕ} {ks : List Kind}
    (hb : a.replace n ks = some b) (hopen : OpenAt vm.objects u l) : l + n < vm.stackTop := by
  obtain ⟨above, r, hs, hlength, hplain, -⟩ := h.pops hb
  have hfree := h.free hs (fun s hs => (Slot.plain_iff.1 (hplain s hs)).1) hopen
  rw [hlength] at hfree
  exact hfree

variable [Double N] {us : List (Option Addr)} {n : Note} {i : Instr}

/-- No upvalue points to what an instruction takes off the stack. -/
theorem Next.free (h : Next S vm frame rest f us sig cs n i below) (hcloses : i.closes = false)
    (hopen : OpenAt vm.objects u l) : l + i.pops < vm.stackTop := by
  have hbelow : l < vm.stackTop := h.running.memory.opens.below u l hopen
  have hsound := h.sound
  cases i with
  | closeUpvalue | return_ => cases hcloses
  | constant | nil | true_ | false_ | getLocal | setLocal | getGlobal | setGlobal | getUpvalue
  | setUpvalue | jump | jumpIfFalse | loop | closure | class_ => exact hbelow
  | pop | print | equal | greater | less | subtract | multiply | divide | add | not | negate | call =>
    obtain ⟨b, hb, -⟩ := hsound
    exact h.running.free_replace hb hopen
  | defineGlobal k =>
    obtain ⟨b, hb, -⟩ := hsound
    simp only [transfer, Option.bind_eq_bind, Option.bind_eq_some_iff] at hb
    obtain ⟨name, -, c, hc, -⟩ := hb
    exact h.running.free_replace hc hopen
  | getProperty | setProperty | invoke =>
    obtain ⟨b, hb, -⟩ := hsound
    simp only [transfer, Option.bind_eq_bind, Option.bind_eq_some_iff] at hb
    obtain ⟨name, -, hb⟩ := hb
    exact h.running.free_replace hb hopen
  | superInvoke | getSuper =>
    obtain ⟨b, hb, -⟩ := hsound
    simp only [transfer, Option.bind_eq_bind, Option.bind_eq_some_iff,
      Option.ite_none_right_eq_some] at hb
    obtain ⟨name, -, -, hb⟩ := hb
    exact h.running.free_replace hb hopen
  | method k =>
    obtain ⟨b, hb, -⟩ := hsound
    simp only [transfer, Option.bind_eq_bind, Option.bind_eq_some_iff] at hb
    obtain ⟨name, -, hb⟩ := hb
    split at hb
    · rename_i s _ _ _ hs
      simp only [Option.ite_none_right_eq_some] at hb
      obtain ⟨⟨-, hcaptured, -⟩, -⟩ := hb
      exact h.running.free (show n.shape.slots = [s] ++ _ from hs) (by simpa using hcaptured) hopen
    · cases hb
  | inherit =>
    obtain ⟨b, hb, -⟩ := hsound
    simp only [transfer] at hb
    split at hb
    · rename_i s _ _ _ hs
      simp only [Option.ite_none_right_eq_some] at hb
      obtain ⟨⟨-, hcaptured, -⟩, -⟩ := hb
      exact h.running.free (show n.shape.slots = [s] ++ _ from hs) (by simpa using hcaptured) hopen
    · cases hb

theorem Instr.pops_le_reads (i : Instr) : i.pops ≤ i.reads := by
  cases i with
  | method | inherit => exact Nat.le_succ 1
  | setLocal | setGlobal | setUpvalue | jumpIfFalse => exact Nat.zero_le 1
  | _ => exact le_rfl

/-- The variables that a closure captures are on the stack, or the closure itself is one of them. -/
theorem Next.captures_below (h : Next S vm frame rest f us sig cs n i below) {k : UInt8}
    {captures : List Upvalue} (hi : i = .closure k captures) {u : Upvalue} (hu : u ∈ captures)
    (hlocal : u.isLocal = true) : frame.slots + u.index.toNat ≤ vm.stackTop := by
  have hsound := h.sound
  subst hi
  obtain ⟨-, n', i', -, hsub, hcaptures⟩ := hsound
  obtain ⟨kind, -, hkind⟩ := mem_forall₂ hcaptures hu
  unfold CaptureOk at hkind
  rw [hlocal, if_pos rfl] at hkind
  have hlt := slotAt_lt hkind
  have hlength := hsub.1.length_eq
  have htop := h.stackTop
  simp only [Shape.push, List.length_cons] at hlength
  omega

end Free

/-! ### Runs -/

section Runs

variable [Double N] {S : List (Ty N)}

/-- An accepted program takes the same step on both machines. -/
theorem Sim.step (h : Sim m vm vm') (htyped : Typed S vm) :
    Option.Rel SimOutcome (Lox.Clox.step vm) (stepWith heapCells vm') := by
  obtain ⟨S', frame, rest, f, us, sig, cs, n, i, below, -, hnext⟩ := htyped.next
  have hopen := hnext.running.memory.opens
  have htop := hnext.stackTop
  have hpos := List.length_pos_of_ne_nil hnext.slots
  have hreads : i.reads ≤ vm.stackTop := by
    have hle := hnext.annotated.reads hnext.at_
    omega
  have hclosure : vm'.asClosure frame.closure = some (f, us) := by
    rw [h.asClosure]
    exact VM.asClosure_eq_some.2 hnext.closure
  rw [hnext.step, stepWith_eq heapCells (h.frames.trans hnext.running.frames) hclosure
    (hnext.annotated.fetch hnext.at_) (h.stackTop.symm ▸ hreads)]
  -- All open upvalues are below what the instruction works on.
  obtain ⟨k, hk, hsim, hpops⟩ : ∃ k ≤ vm.stackTop, Sim k vm vm' ∧
      (i.closes = false → k + i.pops ≤ vm.stackTop) := by
    cases hcloses : i.closes with
    | true => exact ⟨vm.stackTop, le_rfl, h.strengthen hopen.below, fun hfalse => by cases hfalse⟩
    | false =>
      have hle := i.pops_le_reads.trans hreads
      refine ⟨vm.stackTop - i.pops, Nat.sub_le _ _, h.strengthen fun a j ha => ?_, fun _ => ?_⟩
      · have hfree := hnext.free hcloses ha
        omega
      · omega
  have hfetched := hsim.setFrames ({ frame with ip := frame.ip + i.size } :: rest)
  refine hfetched.execute hopen hk ?_ hpops
    fun k captures hi u hu hlocal => hnext.captures_below hi hu hlocal
  show frame.slots < vm.stackTop
  omega

/-- A program that stopped with an error, or that goes on. -/
theorem Sim.run (h : Sim m vm vm') (htyped : Typed S vm ∨ vm.frames = []) (k : ℕ) :
    Option.Rel SimOutcome (Lox.Clox.run k vm) (runWith heapCells k vm') := by
  induction k generalizing m vm vm' S with
  | zero => exact .some (.running h)
  | succ k ih =>
    rcases htyped with htyped | hframes
    · obtain ⟨o, ho, hsound⟩ := step_typed htyped
      have hstep := h.step htyped
      unfold Lox.Clox.run runWith
      rw [ho] at hstep
      change stepWith openUpvalues vm = some o at ho
      rw [ho]
      cases hcells : stepWith heapCells vm' with
      | none =>
        rw [hcells] at hstep
        cases hstep
      | some o' =>
        rw [hcells] at hstep
        obtain hout : SimOutcome o o' := by
          cases hstep
          assumption
        cases hout with
        | @running m₁ vm₁ vm₁' h₁ => exact ih h₁ (hsound.imp_right Failed.frames)
        | finished result h₁ free => exact .some (.finished result h₁ free)
    · have hframes' : vm'.frames = [] := h.frames.trans hframes
      have hlist : stepWith openUpvalues vm = none := by simp only [stepWith, hframes]
      have hcells : stepWith heapCells vm' = none := by simp only [stepWith, hframes']
      simp only [Lox.Clox.run, runWith, hlist, hcells]
      exact .none

omit [Double N] in
theorem Sim.init (clock : ℕ → N) : Sim 0 (VM.init clock) (VM.init clock) := by
  have hnone : ∀ a l, ¬ OpenAt ([.native] : List (Obj N)) a l := by
    rintro a l ⟨v, hv⟩
    cases List.mem_singleton.1 (List.mem_of_getElem? hv)
  refine ⟨⟨rfl, rfl, rfl, rfl, rfl, rfl, rfl, rfl, rfl⟩, fun j a => ?_,
    fun a j ha => absurd ha (hnone a j)⟩
  constructor
  · intro hcell
    cases hcell
  · rintro ⟨ha, -⟩
    exact absurd ha (hnone a j)

omit [Double N] in
theorem Sim.start (h : Sim m vm vm') (hm : m ≤ vm.stackTop) (f : ObjFunction N) :
    Sim m (vm.start f) (vm'.start f) := by
  obtain ⟨haddr, hallocated⟩ := h.allocate (o := .closure f (List.replicate f.upvalueCount none))
    fun l v heq => by cases heq
  have hpushed := hallocated.push hm
    (.obj (vm.allocate (.closure f (List.replicate f.upvalueCount none))).1)
  have hcall := hpushed.call (vm.allocate (.closure f (List.replicate f.upvalueCount none))).1 0
  unfold VM.start
  simp only [haddr]
  split
  · rename_i hlist
    rw [hlist] at hcall
    split
    · rename_i hcells
      rw [hcells] at hcall
      cases hcall with
      | some hcall =>
        cases hcall with
        | done h => exact h
        | failed h message => exact h.runtimeError message
    · rename_i hcells
      rw [hcells] at hcall
      cases hcall
  · rename_i hlist
    rw [hlist] at hcall
    split
    · rename_i hcells
      rw [hcells] at hcall
      cases hcall
    · exact hpushed

/-- The list of open upvalues cannot be told from cells.  Until an error is reported it is in order:
it has exactly the upvalues that point into the stack, from the top down. -/
theorem variables_shared {source : List Char} {f : ObjFunction N}
    (haccepts : Accepts (scanAll source) f) (clock : ℕ → N) (k : ℕ) :
    Option.Rel SimOutcome (Lox.Clox.run k ((VM.init clock).start f))
        (runWith heapCells k ((VM.init clock).start f)) ∧
      ∀ vm, Lox.Clox.run k ((VM.init clock).start f) = some (.running vm) → vm.stderr = [] →
        OpenOk vm.objects vm.upvalues vm.stackTop := by
  have htyped : Typed [.native] ((VM.init clock).start f) :=
    start_typed (init_memory clock) rfl (accepts_arity haccepts) (compile_wellTyped haccepts)
  refine ⟨((Sim.init clock).start (Nat.zero_le _) f).run (.inl htyped) k, fun vm hrun hquiet => ?_⟩
  have hreached := (run_typed haccepts clock hrun).resolve_right fun h => h.2 hquiet
  obtain ⟨S, frame, rest, g, us, sig, cs, n, i, below, -, hnext⟩ := hreached.next
  exact hnext.running.memory.opens

end Runs

/-- A closure that counts a variable of the function that it is in. -/
theorem variables_shared_counter : ∃ f : ObjFunction ℤ, Accepts (scanAll
    "fun f() \x7b var x = 1; fun g() \x7b x = x + 1; \x7d g(); print x; \x7d f();".toList) f ∧
    Option.Rel SimOutcome (run 40 ((VM.init fun _ => 0).start f))
        (runWith heapCells 40 ((VM.init fun _ => 0).start f)) ∧
      ∀ vm, run 40 ((VM.init fun _ => 0).start f) = some (.running vm) → vm.stderr = [] →
        OpenOk vm.objects vm.upvalues vm.stackTop := by
  have hsome : ((compile (N := ℤ) 60 (scanAll
      "fun f() \x7b var x = 1; fun g() \x7b x = x + 1; \x7d g(); print x; \x7d f();".toList)).join).isSome
      := by decide +kernel
  obtain ⟨f, hf⟩ := Option.isSome_iff_exists.1 hsome
  have haccepts : Accepts (scanAll
      "fun f() \x7b var x = 1; fun g() \x7b x = x + 1; \x7d g(); print x; \x7d f();".toList) f :=
    ⟨60, Option.join_eq_some_iff.1 hf⟩
  exact ⟨f, haccepts, variables_shared haccepts (fun _ => 0) 40⟩

end Lox.Clox
