import Lox.Clox.Memory.Objects
import Lox.Lib.LinkedList
import Lox.Lib.Tracing

/-!
# The garbage collector of `memory.c`

`collectGarbage` marks what can be reached from the roots, takes the strings without a mark out of
`vm.strings`, and unlinks and frees every object without a mark.  The loops of the source are bounded
here by a number of rounds; `none` means that the rounds did not suffice, or that a pointer was
followed to memory without an object.

A marking of the heap is a `Tracing.Marking` of the addresses (`VM.withMarking`), so the marks are
those of the general algorithm; the sweep is followed along the linked list of objects.
-/

namespace Lox.Clox.Memory

open HashTable Tracing LinkedList

variable {N : Type}

/-! ### Marking -/

namespace VM

/-- `markObject`. -/
def markObject (object : Option Addr) (vm : VM N) : Option (VM N) :=
  match object with
  | none => some vm
  | some a => do
    let o ← vm.heap a
    if o.isMarked then some vm
    else some { vm with
      heap := Function.update vm.heap a (some { o with isMarked := true })
      grayStack := a :: vm.grayStack }

/-- `markValue`. -/
def markValue (value : Value N) (vm : VM N) : Option (VM N) :=
  match value with
  | .obj a => vm.markObject (some a)
  | _ => some vm

/-- `markTable`. -/
def markTable (table : Table N) (vm : VM N) : Option (VM N) :=
  table.entries.foldlM (fun vm entry => do
    let vm ← vm.markObject entry.key
    vm.markValue entry.value) vm

/-- `markArray`. -/
def markArray (array : ValueArray N) (vm : VM N) : Option (VM N) :=
  array.values.foldlM (fun vm value => vm.markValue value) vm

/-- `markCompilerRoots`. -/
def markCompilerRoots (vm : VM N) : Option (VM N) :=
  vm.compilers.foldlM (fun vm function => vm.markObject (some function)) vm

/-- `markRoots`. -/
def markRoots (vm : VM N) : Option (VM N) := do
  let vm ← vm.stack.foldlM (fun vm value => vm.markValue value) vm
  let vm ← vm.frames.foldlM (fun vm closure => vm.markObject (some closure)) vm
  let vm ← vm.openUpvalues.foldlM (fun vm upvalue => vm.markObject (some upvalue)) vm
  let vm ← vm.markTable vm.globals
  let vm ← vm.markCompilerRoots
  vm.markObject vm.initString

/-- `blackenObject`. -/
def blackenObject (object : Addr) (vm : VM N) : Option (VM N) := do
  let o ← vm.heap object
  match o.data with
  | .boundMethod receiver method => do
    let vm ← vm.markValue receiver
    vm.markObject (some method)
  | .inst klass fields => do
    let vm ← vm.markObject (some klass)
    vm.markTable fields
  | .klass name methods => do
    let vm ← vm.markObject (some name)
    vm.markTable methods
  | .closure function upvalues => do
    let vm ← vm.markObject (some function)
    upvalues.foldlM (fun vm upvalue => vm.markObject upvalue) vm
  | .function _ _ chunk name => do
    let vm ← vm.markObject name
    vm.markArray chunk.constants
  | .upvalue _ closed => vm.markValue closed
  | .native => some vm
  | .string _ _ => some vm

/-- `traceReferences`. -/
def traceReferences : ℕ → VM N → Option (VM N)
  | n, vm =>
    match vm.grayStack with
    | [] => some vm
    | object :: rest =>
      match n with
      | 0 => none
      | n + 1 => do
        let vm ← { vm with grayStack := rest }.blackenObject object
        vm.traceReferences n

/-! ### Sweeping -/

/-- Take an object out of the list: `previous->next = object` or `vm.objects = object`. -/
def unlink (previous object : Option Addr) (vm : VM N) : Option (VM N) :=
  match previous with
  | none => some { vm with objects := object }
  | some p => do
    let o ← vm.heap p
    some { vm with heap := Function.update vm.heap p (some { o with next := object }) }

/-- `object->isMarked = false`. -/
def clearMark (a : Addr) (o : Obj N) (vm : VM N) : VM N :=
  { vm with heap := Function.update vm.heap a (some { o with isMarked := false }) }

/-- The loop of `sweep`. -/
def sweepLoop (size : Sizes) : ℕ → Option Addr → Option Addr → VM N → Option (VM N)
  | _, _, none, vm => some vm
  | 0, _, some _, _ => none
  | n + 1, previous, some object, vm => do
    let o ← vm.heap object
    if o.isMarked then
      sweepLoop size n (some object) o.next (vm.clearMark object o)
    else
      let vm ← vm.unlink previous o.next
      sweepLoop size n previous o.next (vm.freeObject size object o.data)

/-- `sweep`. -/
def sweep (size : Sizes) (n : ℕ) (vm : VM N) : Option (VM N) := sweepLoop size n none vm.objects vm

/-- `collectGarbage`. -/
def collectGarbage (size : Sizes) (n : ℕ) (vm : VM N) : Option (VM N) := do
  let vm ← vm.markRoots
  let vm ← vm.traceReferences n
  let strings ← tableRemoveWhite vm.hash vm.isMarked vm.strings
  let vm ← { vm with strings := strings }.sweep size n
  return { vm with nextGC := vm.ledger.bytesAllocated * 2 }

/-! ### The marks are a marking of the addresses -/

/-- The machine with the marks and the gray stack of a marking. -/
def withMarking (vm : VM N) (t : Marking Addr) : VM N :=
  { vm with
    heap := fun a => (vm.heap a).map fun o => { o with isMarked := decide (a ∈ t.marked) }
    grayStack := t.gray }

/-- `f` marks the addresses of the list, in that order. -/
def Marks (vm : VM N) (f : VM N → Option (VM N)) (as : List Addr) : Prop :=
  (∀ a ∈ as, (vm.heap a).isSome) →
    ∀ t, f (vm.withMarking t) = some (vm.withMarking (markAll as t))

variable {vm : VM N}

theorem Marks.none : vm.Marks some [] := fun _ _ => rfl

theorem Marks.bind {f g : VM N → Option (VM N)} {as bs : List Addr} (hf : vm.Marks f as)
    (hg : vm.Marks g bs) : vm.Marks (fun vm => f vm >>= g) (as ++ bs) := by
  intro hall t
  have hfirst := hf (fun a ha => hall a (List.mem_append_left bs ha)) t
  have hsecond := hg (fun a ha => hall a (List.mem_append_right as ha)) (markAll as t)
  simp only [hfirst, markAll_append, Option.bind_eq_bind, Option.bind_some, hsecond]

theorem Marks.foldlM {β : Type} {f : VM N → β → Option (VM N)} {refs : β → List Addr}
    (hf : ∀ b, vm.Marks (f · b) (refs b)) (bs : List β) :
    vm.Marks (fun vm => bs.foldlM f vm) (bs.flatMap refs) := by
  induction bs with
  | nil => exact Marks.none
  | cons b bs ih =>
    simp only [List.foldlM_cons, List.flatMap_cons]
    exact (hf b).bind ih

theorem marks_object (a : Addr) : vm.Marks (fun vm => vm.markObject (some a)) [a] := by
  intro hall t
  obtain ⟨o, ho⟩ := Option.isSome_iff_exists.1 (hall a List.mem_cons_self)
  simp only [markObject, withMarking, ho, Option.map_some, Option.bind_eq_bind, Option.bind_some]
  show _ = some (vm.withMarking (mark a t))
  unfold mark
  by_cases hmarked : a ∈ t.marked
  · rw [if_pos hmarked, if_pos (by simpa using hmarked)]
    rfl
  · rw [if_neg hmarked, if_neg (by simpa using hmarked)]
    simp only [withMarking, Option.some.injEq, VM.mk.injEq, and_true]
    funext b
    by_cases hb : b = a
    · rw [hb, Function.update_self, ho]
      simp
    · rw [Function.update_of_ne hb]
      simp [hb]

theorem marks_option (object : Option Addr) :
    vm.Marks (fun vm => vm.markObject object) object.toList := by
  cases object with
  | none => exact Marks.none
  | some a => exact marks_object a

theorem marks_value (value : Value N) : vm.Marks (fun vm => vm.markValue value) value.refs := by
  cases value with
  | obj a => exact marks_object a
  | nil => exact Marks.none
  | bool b => exact Marks.none
  | number n => exact Marks.none

theorem marks_table (table : Table N) : vm.Marks (fun vm => vm.markTable table) (tableRefs table) :=
  Marks.foldlM (fun entry => (marks_option entry.key).bind (marks_value entry.value)) table.entries

theorem marks_objects (as : List Addr) :
    vm.Marks (fun vm => as.foldlM (fun vm a => vm.markObject (some a)) vm) as := by
  have h : vm.Marks _ _ := Marks.foldlM (f := fun vm a => vm.markObject (some a)) marks_object as
  simpa using h

theorem marks_roots : vm.Marks markRoots vm.roots := by
  have hinit : vm.Marks (fun v => v.markObject v.initString) vm.initString.toList :=
    marks_option vm.initString
  have hcompilers : vm.Marks (fun v => v.markCompilerRoots) vm.compilers :=
    marks_objects vm.compilers
  have hglobals : vm.Marks (fun v => v.markTable v.globals) (tableRefs vm.globals) :=
    marks_table vm.globals
  have hupvalues : vm.Marks (fun v => v.openUpvalues.foldlM (fun v a => v.markObject (some a)) v)
      vm.openUpvalues := marks_objects vm.openUpvalues
  have hframes : vm.Marks (fun v => v.frames.foldlM (fun v a => v.markObject (some a)) v)
      vm.frames := marks_objects vm.frames
  have hstack : vm.Marks (fun v => v.stack.foldlM (fun v value => v.markValue value) v)
      (vm.stack.flatMap Value.refs) := Marks.foldlM marks_value vm.stack
  have hroots := hstack.bind (hframes.bind (hupvalues.bind (hglobals.bind (hcompilers.bind hinit))))
  simp only [roots, List.append_assoc]
  exact hroots

/-- What `blackenObject` marks are the references of the object. -/
theorem marks_blacken {a : Addr} {o : Obj N} (ho : vm.heap a = some o) :
    vm.Marks (fun vm => vm.blackenObject a) o.data.refs := by
  intro hall t
  have hobject : (vm.withMarking t).heap a
      = some { o with isMarked := decide (a ∈ t.marked) } := by
    simp [withMarking, ho]
  simp only [blackenObject, hobject, Option.bind_eq_bind, Option.bind_some]
  cases hdata : o.data with
  | boundMethod receiver method =>
    rw [hdata] at hall
    exact ((marks_value receiver).bind (marks_object method)) hall t
  | native => rfl
  | inst klass fields =>
    rw [hdata] at hall
    exact ((marks_object klass).bind (marks_table fields)) hall t
  | klass name methods =>
    rw [hdata] at hall
    exact ((marks_object name).bind (marks_table methods)) hall t
  | function arity upvalueCount chunk name =>
    rw [hdata] at hall
    exact ((marks_option name).bind (Marks.foldlM marks_value chunk.constants.values)) hall t
  | closure function upvalues =>
    rw [hdata] at hall
    exact ((marks_object function).bind (Marks.foldlM marks_option upvalues)) hall t
  | string chars hash => rfl
  | upvalue location closed =>
    rw [hdata] at hall
    exact marks_value closed hall t

/-- No reference of an object leads outside the heap. -/
def Closed (vm : VM N) : Prop := ∀ a, (vm.heap a).isSome → ∀ b ∈ vm.refs a, (vm.heap b).isSome

theorem traceReferences_eq (hclosed : vm.Closed) (n : ℕ) : ∀ t : Marking Addr,
    (∀ a ∈ t.gray, (vm.heap a).isSome) →
      (vm.withMarking t).traceReferences n = (traceLoop vm.refs n t).map vm.withMarking := by
  induction n with
  | zero =>
    intro t hgray
    obtain ⟨marked, gray⟩ := t
    cases gray with
    | nil => rfl
    | cons a rest => rfl
  | succ n ih =>
    intro t hgray
    obtain ⟨marked, gray⟩ := t
    cases gray with
    | nil => rfl
    | cons a rest =>
      obtain ⟨o, ho⟩ := Option.isSome_iff_exists.1 (hgray a List.mem_cons_self)
      have hrefs : vm.refs a = o.data.refs := by simp [refs, dataAt, ho]
      have hblack : (vm.withMarking ⟨marked, rest⟩).blackenObject a
          = some (vm.withMarking (markAll o.data.refs ⟨marked, rest⟩)) :=
        marks_blacken ho (fun b hb => hclosed a (by simp [ho]) b (hrefs ▸ hb)) ⟨marked, rest⟩
      show (vm.withMarking ⟨marked, rest⟩).blackenObject a >>= _ = _
      rw [hblack, traceLoop, hrefs]
      refine ih _ fun b hb => ?_
      rcases mem_gray_markAll hb with hb | hb
      · exact hgray b (List.mem_cons_of_mem a hb)
      · exact hclosed a (by simp [ho]) b (hrefs ▸ hb)

/-! ### The sweep follows the list -/

/-- The objects at the addresses are freed, one after the other. -/
def freeAll (size : Sizes) (data : Addr → Option (Data N)) (as : List Addr) (l : Ledger) : Ledger :=
  as.foldl (fun l a => ((data a).map fun d => l.freeObject size a d).getD l) l

theorem freeAll_congr {size : Sizes} {data data' : Addr → Option (Data N)} {as : List Addr}
    (h : ∀ a ∈ as, data' a = data a) (l : Ledger) :
    freeAll size data' as l = freeAll size data as l := by
  induction as generalizing l with
  | nil => rfl
  | cons a as ih =>
    simp only [freeAll, List.foldl_cons, h a List.mem_cons_self]
    exact ih (fun b hb => h b (List.mem_cons_of_mem a hb)) _

/-- What the sweep of the objects `rest` leaves behind. -/
structure Swept (size : Sizes) (rest : List Addr) (vm vm' : VM N) : Prop where
  same : vm' = { vm with heap := vm'.heap, objects := vm'.objects, ledger := vm'.ledger }
  data : ∀ a, vm'.dataAt a = if a ∈ rest ∧ vm.isMarked a = false then none else vm.dataAt a
  marks : ∀ a, vm'.isMarked a = (vm.isMarked a && a ∉ rest)
  ledger : vm'.ledger = freeAll size vm.dataAt (rest.filter fun a => !vm.isMarked a) vm.ledger

section Steps

variable {a : Addr} {o : Obj N} (ho : vm.heap a = some o)

include ho

theorem link_clearMark : (vm.clearMark a o).link = vm.link := by
  funext b
  by_cases hb : b = a
  · simp [link, clearMark, hb, ho]
  · simp [link, clearMark, hb]

theorem dataAt_clearMark : (vm.clearMark a o).dataAt = vm.dataAt := by
  funext b
  by_cases hb : b = a
  · simp [dataAt, clearMark, hb, ho]
  · simp [dataAt, clearMark, hb]

omit ho in
theorem isMarked_clearMark (b : Addr) :
    (vm.clearMark a o).isMarked b = (vm.isMarked b && b ≠ a) := by
  by_cases hb : b = a
  · simp [isMarked, clearMark, hb]
  · simp [isMarked, clearMark, hb]

omit ho in
theorem heap_clearMark (b : Addr) (h : (vm.heap b).isSome) :
    ((vm.clearMark a o).heap b).isSome := by
  by_cases hb : b = a
  · simp [clearMark, hb]
  · simpa [clearMark, hb] using h

end Steps

section Freed

variable {size : Sizes} {a : Addr} {data : Data N}

theorem link_freeObject {b : Addr} (hb : b ≠ a) : (vm.freeObject size a data).link b = vm.link b := by
  simp [link, freeObject, hb]

theorem dataAt_freeObject (b : Addr) :
    (vm.freeObject size a data).dataAt b = if b = a then none else vm.dataAt b := by
  by_cases hb : b = a
  · simp [dataAt, freeObject, hb]
  · simp [dataAt, freeObject, hb]

theorem isMarked_freeObject (b : Addr) :
    (vm.freeObject size a data).isMarked b = (vm.isMarked b && b ≠ a) := by
  by_cases hb : b = a
  · simp [isMarked, freeObject, hb]
  · simp [isMarked, freeObject, hb]

end Freed

/-- What is kept is linked to what comes after the object that is taken out. -/
structure Unlinked (kept : List Addr) (object : Option Addr) (vm vm' : VM N) : Prop where
  same : vm' = { vm with heap := vm'.heap, objects := vm'.objects }
  data : vm'.dataAt = vm.dataAt
  marks : vm'.isMarked = vm.isMarked
  segment : Segment vm'.link vm'.objects kept object
  others : ∀ b ∉ kept, vm'.heap b = vm.heap b

theorem unlink_spec {kept : List Addr} {stop : Option Addr} (object : Option Addr)
    (hkept : Segment vm.link vm.objects kept stop) (hnodup : kept.Nodup)
    (hall : ∀ a ∈ kept, (vm.heap a).isSome) :
    ∃ vm', vm.unlink kept.getLast? object = some vm' ∧ Unlinked kept object vm vm' := by
  induction kept using List.reverseRecOn with
  | nil => exact ⟨_, rfl, rfl, rfl, rfl, rfl, fun b _ => rfl⟩
  | append_singleton kept last _ =>
    obtain ⟨o, ho⟩ := Option.isSome_iff_exists.1 (hall last (by simp))
    have hlast : last ∉ kept := fun hmem =>
      (List.nodup_append.1 hnodup).2.2 last hmem last List.mem_cons_self rfl
    have hlink : VM.link { vm with
        heap := Function.update vm.heap last (some { o with next := object }) }
        = Function.update vm.link last object := by
      funext b
      by_cases hb : b = last
      · simp [link, hb]
      · simp [link, hb]
    refine ⟨{ vm with heap := Function.update vm.heap last (some { o with next := object }) },
      by simp [unlink, ho], rfl, ?_, ?_, ?_, ?_⟩
    · funext b
      by_cases hb : b = last
      · simp [dataAt, hb, ho]
      · simp [dataAt, hb]
    · funext b
      by_cases hb : b = last
      · simp [isMarked, hb, ho]
      · simp [isMarked, hb]
    · rw [hlink]
      exact hkept.relink hlast
    · intro b hb
      have hne : b ≠ last := fun heq => hb (by simp [heq])
      exact Function.update_of_ne hne _ _

theorem Swept.keep {size : Sizes} {a : Addr} {o : Obj N} {rest : List Addr} {vm' : VM N}
    (h : Swept size rest (vm.clearMark a o) vm') (ho : vm.heap a = some o) (hmarked : o.isMarked = true)
    (ha : a ∉ rest) : Swept size (a :: rest) vm vm' := by
  have hmark : vm.isMarked a = true := by simp [isMarked, ho, hmarked]
  have hothers : ∀ b ∈ rest, (vm.clearMark a o).isMarked b = vm.isMarked b := by
    intro b hb
    have hne : b ≠ a := fun heq => ha (heq ▸ hb)
    simp [isMarked_clearMark, hne]
  refine ⟨h.same, fun b => ?_, fun b => ?_, ?_⟩
  · rw [h.data, dataAt_clearMark ho]
    by_cases hb : b ∈ rest
    · simp [hb, hothers b hb]
    · have hout : ¬ (b ∈ a :: rest ∧ vm.isMarked b = false) := by
        rintro ⟨hmem, hfalse⟩
        rcases List.mem_cons.1 hmem with rfl | hmem
        · rw [hmark] at hfalse
          cases hfalse
        · exact hb hmem
      rw [if_neg (by simp [hb]), if_neg hout]
  · rw [h.marks, isMarked_clearMark, Bool.and_assoc]
    simp [not_or]
  · rw [h.ledger, dataAt_clearMark ho]
    have hfilter : rest.filter (fun a' => !(vm.clearMark a o).isMarked a')
        = rest.filter fun a' => !vm.isMarked a' :=
      List.filter_congr fun b hb => by rw [hothers b hb]
    rw [hfilter, List.filter_cons_of_neg (by simp [hmark])]
    rfl

theorem Swept.drop {size : Sizes} {a : Addr} {o : Obj N} {kept rest : List Addr}
    {object : Option Addr} {vm₁ vm' : VM N} (h : Swept size rest (vm₁.freeObject size a o.data) vm')
    (hunlinked : Unlinked kept object vm vm₁) (ho : vm.heap a = some o) (hmarked : o.isMarked = false)
    (ha : a ∉ rest) : Swept size (a :: rest) vm vm' := by
  have hmark : vm.isMarked a = false := by simp [isMarked, ho, hmarked]
  have hothers : ∀ b, b ≠ a → (vm₁.freeObject size a o.data).isMarked b = vm.isMarked b := by
    intro b hb
    rw [isMarked_freeObject, hunlinked.marks]
    simp [hb]
  refine ⟨?_, fun b => ?_, fun b => ?_, ?_⟩
  · rw [h.same, hunlinked.same]
    rfl
  · rw [h.data, dataAt_freeObject, hunlinked.data]
    by_cases hb : b = a
    · simp [hb, hmark]
    · simp [hb, hothers b hb]
  · rw [h.marks]
    by_cases hb : b = a
    · simp [hb, isMarked_freeObject, hmark]
    · simp [hb, hothers b hb]
  · have hfilter : rest.filter (fun a' => !(vm₁.freeObject size a o.data).isMarked a')
        = rest.filter fun a' => !vm.isMarked a' :=
      List.filter_congr fun b hb => by rw [hothers b fun heq => ha (heq ▸ hb)]
    have hdata : ∀ b ∈ rest.filter (fun a' => !vm.isMarked a'),
        (vm₁.freeObject size a o.data).dataAt b = vm.dataAt b := by
      intro b hb
      have hne : b ≠ a := fun heq => ha (heq ▸ List.mem_of_mem_filter hb)
      rw [dataAt_freeObject, if_neg hne, hunlinked.data]
    have hledger : (vm₁.freeObject size a o.data).ledger = vm.ledger.freeObject size a o.data := by
      rw [hunlinked.same]
      rfl
    have hat : vm.dataAt a = some o.data := by simp [dataAt, ho]
    rw [h.ledger, hfilter, freeAll_congr hdata, hledger, List.filter_cons_of_pos (by simp [hmark])]
    simp only [freeAll, List.foldl_cons, hat, Option.map_some, Option.getD_some]

theorem sweepLoop_spec (size : Sizes) (rest : List Addr) : ∀ (kept : List Addr) (object : Option Addr)
    (vm : VM N) {n : ℕ}, rest.length ≤ n → Segment vm.link vm.objects kept object →
    Segment vm.link object rest none → (kept ++ rest).Nodup →
    (∀ a ∈ kept ++ rest, (vm.heap a).isSome) →
    ∃ vm', sweepLoop size n kept.getLast? object vm = some vm' ∧
      Segment vm'.link vm'.objects (kept ++ rest.filter vm.isMarked) none ∧ Swept size rest vm vm' := by
  induction rest with
  | nil =>
    intro kept object vm n _ hkept hrest _ _
    have hnone : object = none := hrest
    subst hnone
    refine ⟨vm, by cases n <;> rfl, by simpa using hkept, ?_⟩
    exact ⟨rfl, by simp, by simp, rfl⟩
  | cons a rest ih =>
    intro kept object vm n hn hkept hrest hnodup hall
    obtain ⟨n, rfl⟩ : ∃ m, n = m + 1 := ⟨n - 1, by simp at hn; omega⟩
    obtain ⟨rfl, hrest⟩ := hrest
    obtain ⟨o, ho⟩ := Option.isSome_iff_exists.1 (hall a (by simp))
    have hlink : vm.link a = o.next := by simp [link, ho]
    have hmark : vm.isMarked a = o.isMarked := by simp [isMarked, ho]
    simp only [List.length_cons, Nat.add_le_add_iff_right] at hn
    have hnodup' : (kept ++ [a] ++ rest).Nodup := by simpa using hnodup
    have hkeptNodup : (kept ++ rest).Nodup :=
      hnodup.sublist ((List.sublist_cons_self a rest).append_left kept)
    have hnotKept : a ∉ kept := fun hmem =>
      (List.nodup_append.1 hnodup).2.2 a hmem a List.mem_cons_self rfl
    have hnotRest : a ∉ rest := (List.nodup_cons.1 (List.nodup_append.1 hnodup).2.1).1
    simp only [sweepLoop, ho, Option.bind_eq_bind, Option.bind_some]
    by_cases hmarked : o.isMarked = true
    · rw [if_pos hmarked]
      have hsegment : Segment vm.link vm.objects (kept ++ [a]) o.next :=
        segment_append.2 ⟨some a, hkept, rfl, hlink⟩
      obtain ⟨vm', hrun, hlinked, hswept⟩ := ih (kept ++ [a]) o.next
        (vm.clearMark a o) hn (by rw [link_clearMark ho]; exact hsegment)
        (by rw [link_clearMark ho, ← hlink]; exact hrest) hnodup'
        (fun b hb => heap_clearMark b (hall b (by simpa using hb)))
      have hothers : ∀ b ∈ rest, (vm.clearMark a o).isMarked b = vm.isMarked b := by
        intro b hb
        have hne : b ≠ a := fun heq => hnotRest (heq ▸ hb)
        simp [isMarked_clearMark, hne]
      refine ⟨vm', by simpa using hrun, ?_, hswept.keep ho hmarked hnotRest⟩
      rw [List.filter_congr hothers] at hlinked
      simpa [hmark, hmarked] using hlinked
    · rw [if_neg hmarked]
      obtain ⟨vm₁, hunlink, hunlinked⟩ := unlink_spec o.next hkept
        (List.nodup_append.1 hkeptNodup).1 fun b hb => hall b (by simp [hb])
      simp only [hunlink, Option.bind_some]
      have hlinks : ∀ b ∈ rest, (vm₁.freeObject size a o.data).link b = vm.link b := by
        intro b hb
        have hne : b ≠ a := fun heq => hnotRest (heq ▸ hb)
        have hout : b ∉ kept := fun hmem => (List.nodup_append.1 hkeptNodup).2.2 b hmem b hb rfl
        rw [link_freeObject hne, link, hunlinked.others b hout]
        rfl
      have hall' : ∀ b ∈ kept ++ rest, ((vm₁.freeObject size a o.data).heap b).isSome := by
        intro b hb
        have hne : b ≠ a := by
          rintro rfl
          exact (List.mem_append.1 hb).elim hnotKept hnotRest
        have hmem : b ∈ kept ++ a :: rest :=
          ((List.sublist_cons_self a rest).append_left kept).subset hb
        have hsome : (vm₁.dataAt b).isSome := by
          rw [hunlinked.data]
          simpa [dataAt] using hall b hmem
        simpa [dataAt, freeObject, hne] using hsome
      obtain ⟨vm', hrun, hlinked, hswept⟩ := ih kept o.next
        (vm₁.freeObject size a o.data) hn
        (hunlinked.segment.congr fun b hb => link_freeObject fun heq => hnotKept (heq ▸ hb))
        ((hlink ▸ hrest).congr hlinks) hkeptNodup hall'
      refine ⟨vm', hrun, ?_, hswept.drop hunlinked ho (by simpa using hmarked) hnotRest⟩
      have hothers : ∀ b ∈ rest, (vm₁.freeObject size a o.data).isMarked b = vm.isMarked b := by
        intro b hb
        have hne : b ≠ a := fun heq => hnotRest (heq ▸ hb)
        rw [isMarked_freeObject, hunlinked.marks]
        simp [hne]
      rw [List.filter_congr hothers] at hlinked
      simpa [hmark, hmarked] using hlinked

/-! ### The whole collection -/

/-- An object that the program can still use. -/
def Reachable (vm : VM N) (a : Addr) : Prop := Tracing.Reachable vm.refs vm.roots a

/-- What a collection relies on: the objects are listed and without marks, what they and the roots
refer to is among them, and so are the strings of `vm.strings`. -/
structure Collectable (vm : VM N) (addrs : List Addr) : Prop where
  linked : Segment vm.link vm.objects addrs none
  listed : ∀ a, (vm.heap a).isSome ↔ a ∈ addrs
  unmarked : ∀ a, vm.isMarked a = false
  gray : vm.grayStack = []
  closed : vm.Closed
  rooted : ∀ a ∈ vm.roots, (vm.heap a).isSome
  strings : Wf vm.hash vm.strings
  interned : ∀ entry ∈ vm.strings.entries, ∀ key ∈ entry.key, (vm.heap key).isSome

theorem Collectable.reachable {addrs : List Addr} (h : Collectable vm addrs) {a : Addr}
    (ha : vm.Reachable a) : (vm.heap a).isSome :=
  ha.induct (P := fun a => (vm.heap a).isSome) h.rooted fun b c hb hc => h.closed b hb c hc

theorem withMarking_empty {addrs : List Addr} (h : Collectable vm addrs) :
    vm.withMarking ⟨∅, []⟩ = vm := by
  have hheap : (fun a => (vm.heap a).map fun o => { o with isMarked := decide (a ∈ (∅ : Finset Addr)) })
      = vm.heap := by
    funext a
    have hmark := h.unmarked a
    cases ho : vm.heap a with
    | none => rfl
    | some o =>
      have hfalse : o.isMarked = false := by simpa [isMarked, ho] using hmark
      simp [← hfalse]
  have hgray := h.gray
  obtain ⟨⟩ := vm
  simp only [withMarking, VM.mk.injEq, and_true, true_and] at hheap hgray ⊢
  exact ⟨hheap, hgray.symm⟩

/-- The objects that are reachable are marked. -/
theorem mark_spec {addrs : List Addr} (h : Collectable vm addrs) {n : ℕ} (hn : addrs.length ≤ n) :
    ∃ t : Marking Addr, (vm.markRoots >>= traceReferences n) = some (vm.withMarking t) ∧
      t.gray = [] ∧ ∀ a, a ∈ t.marked ↔ vm.Reachable a := by
  have hmarks : vm.Marks markRoots vm.roots := marks_roots
  have hroots := hmarks h.rooted ⟨∅, []⟩
  rw [withMarking_empty h] at hroots
  have hgray : ∀ a ∈ (markAll vm.roots ⟨∅, []⟩).gray, (vm.heap a).isSome := by
    intro a ha
    exact h.rooted a ((mem_gray_markAll ha).resolve_left (by simp))
  have hnodes : ∀ a ∈ addrs.toFinset, ∀ b ∈ vm.refs a, b ∈ addrs.toFinset := by
    intro a ha b hb
    rw [List.mem_toFinset] at ha ⊢
    exact (h.listed b).1 (h.closed a ((h.listed a).2 ha) b hb)
  have hrooted : ∀ a ∈ vm.roots, a ∈ addrs.toFinset := fun a ha =>
    List.mem_toFinset.2 ((h.listed a).1 (h.rooted a ha))
  have hmarked : (markAll vm.roots ⟨∅, []⟩).marked ⊆ addrs.toFinset := by
    intro a ha
    exact hrooted a ((mem_marked_markAll.1 ha).resolve_left (by simp))
  have hcard := card_markAll hrooted ⟨∅, []⟩
  have hle := addrs.toFinset_card_le
  simp only [Finset.sdiff_empty, List.length_nil, Nat.add_zero] at hcard
  obtain ⟨t, hrun, ht, hreach⟩ := traceLoop_spec hnodes n (Closing.init vm.refs vm.roots) hmarked
    (by omega)
  refine ⟨t, ?_, ht, hreach⟩
  rw [hroots]
  show (vm.withMarking _).traceReferences n = _
  rw [traceReferences_eq h.closed n _ hgray, hrun]
  rfl

theorem dataAt_withMarking (t : Marking Addr) : (vm.withMarking t).dataAt = vm.dataAt := by
  funext a
  simp [dataAt, withMarking]
  rfl

theorem link_withMarking (t : Marking Addr) : (vm.withMarking t).link = vm.link := by
  funext a
  cases ho : vm.heap a with
  | none => simp [link, withMarking, ho]
  | some o => simp [link, withMarking, ho]

theorem isMarked_withMarking (t : Marking Addr) (a : Addr) :
    (vm.withMarking t).isMarked a = ((vm.heap a).isSome && a ∈ t.marked) := by
  cases ho : vm.heap a with
  | none => simp [isMarked, withMarking, ho]
  | some o => simp [isMarked, withMarking, ho]

section Classical

open Classical

/-- The objects for which `keep` does not hold are gone, the others stay as they are and in their
order, and `vm.strings` loses the strings that are gone. -/
structure Survives (keep : Addr → Prop) (addrs : List Addr) (vm vm' : VM N) : Prop where
  same : vm' = { vm with
    heap := vm'.heap, objects := vm'.objects, strings := vm'.strings, nextGC := vm'.nextGC
    ledger := vm'.ledger }
  linked : Segment vm'.link vm'.objects (addrs.filter keep) none
  data : ∀ a, vm'.dataAt a = if keep a then vm.dataAt a else none
  unmarked : ∀ a, vm'.isMarked a = false
  strings : ∀ m, Represents vm.hash vm.strings m →
    Represents vm'.hash vm'.strings fun key => if keep key then m key else none
  capacity : vm'.strings.capacity = vm.strings.capacity

/-- What a collection does: exactly the objects that can be reached survive, and the others are
freed. -/
structure Collected (size : Sizes) (addrs : List Addr) (vm vm' : VM N) : Prop
    extends Survives vm.Reachable addrs vm vm' where
  ledger : vm'.ledger = freeAll size vm.dataAt (addrs.filter fun a => ¬ vm.Reachable a) vm.ledger
  nextGC : vm'.nextGC = vm'.ledger.bytesAllocated * 2

theorem collectGarbage_spec {addrs : List Addr} (h : Collectable vm addrs) (size : Sizes) {n : ℕ}
    (hn : addrs.length ≤ n) :
    ∃ vm', vm.collectGarbage size n = some vm' ∧ Collected size addrs vm vm' := by
  obtain ⟨t, hmark, hgray, hreach⟩ := mark_spec h hn
  have hmarks : ∀ a, (vm.withMarking t).isMarked a = decide (vm.Reachable a) := by
    intro a
    rw [isMarked_withMarking]
    by_cases ha : vm.Reachable a
    · simp [h.reachable ha, ha, hreach]
    · simp [ha, hreach]
  have hhash : (vm.withMarking t).hash = vm.hash := by
    funext a
    simp only [hash, dataAt_withMarking]
  -- The strings without a mark are taken out of the table.
  obtain ⟨m, hm⟩ := h.strings.exists_represents
  obtain ⟨strings, hremove, -⟩ := tableRemoveWhite_spec hm (vm.withMarking t).isMarked
  have hstrings : ∀ m, Represents vm.hash vm.strings m →
      Represents vm.hash strings fun key => if vm.Reachable key then m key else none := by
    intro m hm
    obtain ⟨strings', hremove', hrep⟩ := tableRemoveWhite_spec hm (vm.withMarking t).isMarked
    obtain rfl : strings = strings' := Option.some.inj (hremove.symm.trans hremove')
    simpa [hmarks] using hrep
  -- The objects without a mark are taken out of the list.
  obtain ⟨vm', hsweep, hlinked, hswept⟩ := sweepLoop_spec size addrs [] vm.objects
    { vm.withMarking t with strings := strings } hn rfl
    (by
      have hlink : VM.link { vm.withMarking t with strings := strings } = vm.link :=
        link_withMarking t
      rw [hlink]
      exact h.linked) h.linked.nodup (fun a ha => by
      simpa [withMarking] using (h.listed a).2 ha)
  refine ⟨{ vm' with nextGC := vm'.ledger.bytesAllocated * 2 }, ?_, ?_⟩
  · obtain ⟨vm₀, hroots, htrace⟩ := Option.bind_eq_some_iff.1 hmark
    have hremove' : tableRemoveWhite (vm.withMarking t).hash (vm.withMarking t).isMarked
        (vm.withMarking t).strings = some strings := by
      rw [hhash]
      exact hremove
    simp only [collectGarbage, hroots, htrace, hremove', Option.bind_eq_bind, Option.bind_some]
    have hsweep' : ({ vm.withMarking t with strings := strings } : VM N).sweep size n = some vm' :=
      hsweep
    simp only [hsweep', Option.bind_some]
    rfl
  · have hdata : ∀ a, vm'.dataAt a = if vm.Reachable a then vm.dataAt a else none := by
      intro a
      rw [hswept.data]
      show (if a ∈ addrs ∧ (vm.withMarking t).isMarked a = false then none
        else (vm.withMarking t).dataAt a) = _
      rw [dataAt_withMarking, hmarks]
      by_cases ha : vm.Reachable a
      · simp [ha]
      · by_cases hmem : a ∈ addrs
        · simp [ha, hmem]
        · have hnone : vm.heap a = none := by
            rw [← Option.not_isSome_iff_eq_none]
            exact fun hsome => hmem ((h.listed a).1 hsome)
          simp [ha, hmem, dataAt, hnone]
    have hsame := hswept.same
    have hstringsAt : vm'.strings = strings := by rw [hsame]
    refine ⟨⟨?_, ?_, hdata, ?_, ?_, ?_⟩, ?_, rfl⟩
    · have hnil := h.gray
      obtain ⟨⟩ := vm
      rw [hsame]
      simp only [withMarking] at hgray hnil ⊢
      rw [hgray, hnil]
    · have hfilter : addrs.filter (vm.withMarking t).isMarked
          = addrs.filter (fun a => decide (vm.Reachable a)) :=
        List.filter_congr fun a _ => hmarks a
      rw [← hfilter]
      exact hlinked
    · intro a
      show vm'.isMarked a = false
      rw [hswept.marks]
      show ((vm.withMarking t).isMarked a && decide (a ∉ addrs)) = false
      rw [hmarks]
      by_cases ha : vm.Reachable a
      · simp [(h.listed a).1 (h.reachable ha)]
      · simp [ha]
    · intro m hm
      show Represents vm'.hash vm'.strings _
      rw [hstringsAt]
      refine (hstrings m hm).congr fun key value hkey => ?_
      have hkept : vm.Reachable key := by
        by_contra hnot
        rw [if_neg hnot] at hkey
        cases hkey
      simp only [hash, hdata, if_pos hkept]
    · show vm'.strings.capacity = _
      rw [hstringsAt]
      exact removeFrom_capacity _ hremove
    · show vm'.ledger = _
      rw [hswept.ledger]
      show freeAll size (vm.withMarking t).dataAt
        (addrs.filter fun a => !(vm.withMarking t).isMarked a) vm.ledger = _
      have hfilter : addrs.filter (fun a => !(vm.withMarking t).isMarked a)
          = addrs.filter (fun a => decide (¬ vm.Reachable a)) :=
        List.filter_congr fun a _ => by rw [hmarks, decide_not]
      rw [dataAt_withMarking, hfilter]

theorem isSome_heap_iff {a : Addr} : (vm.heap a).isSome ↔ (vm.dataAt a).isSome := by
  simp [dataAt]

/-- What can be reached is kept, and what is kept refers to nothing else. -/
structure Safe (vm : VM N) (keep : Addr → Prop) : Prop where
  rooted : ∀ a ∈ vm.roots, keep a
  closed : ∀ a, keep a → ∀ b ∈ vm.refs a, keep b

theorem safe_reachable : vm.Safe vm.Reachable := ⟨fun _ ha => .root ha, fun _ ha _ hb => ha.step hb⟩

theorem Safe.reachable {keep : Addr → Prop} (h : vm.Safe keep) {a : Addr} (ha : vm.Reachable a) :
    keep a :=
  ha.induct h.rooted fun b c hb hc => h.closed b hb c hc

section Survivors

variable {addrs : List Addr} {keep : Addr → Prop} {vm' : VM N} (h : Survives keep addrs vm vm')

include h

theorem Survives.roots_eq : vm'.roots = vm.roots := by
  rw [h.same]
  rfl

theorem Survives.refs_eq {a : Addr} (ha : keep a) : vm'.refs a = vm.refs a := by
  simp only [refs, h.data, if_pos ha]

theorem Survives.heap_iff (a : Addr) : (vm'.heap a).isSome ↔ keep a ∧ (vm.heap a).isSome := by
  rw [isSome_heap_iff, isSome_heap_iff, h.data]
  by_cases ha : keep a
  · simp [ha]
  · simp [ha]

/-- What could be reached before a collection can be reached after it, and nothing else. -/
theorem Survives.reachable_iff (hsafe : vm.Safe keep) (a : Addr) : vm'.Reachable a ↔ vm.Reachable a := by
  constructor
  · intro ha
    refine ha.induct (P := vm.Reachable) (fun r hr => .root (h.roots_eq ▸ hr)) fun b c hb hc => ?_
    exact hb.step (h.refs_eq (hsafe.reachable hb) ▸ hc)
  · intro ha
    refine ha.mono (fun r hr => .root (h.roots_eq ▸ hr)) fun b hb c hc => ?_
    rw [h.refs_eq (hsafe.reachable hb)]
    exact hc

theorem Survives.mem_entries_iff (hwf : Wf vm.hash vm.strings) (key : Addr) (value : Value N) :
    ⟨some key, value⟩ ∈ vm'.strings.entries ↔
      keep key ∧ (⟨some key, value⟩ : Entry Addr (Value N)) ∈ vm.strings.entries := by
  obtain ⟨m, hm⟩ := hwf.exists_represents
  rw [mem_entries, mem_entries]
  have hafter := (h.strings m hm).maps key value
  have hbefore := hm.maps key value
  rw [← show _ ↔ Probing.Holds vm'.strings.entries.length (slots vm'.strings.entries) key value
    from hafter, ← show _ ↔ Probing.Holds vm.strings.entries.length (slots vm.strings.entries) key
    value from hbefore]
  by_cases ha : keep key
  · simp [ha]
  · simp [ha]

/-- After a collection the memory is ready for the next one; in particular no reference leads to an
object that was freed. -/
theorem Survives.collectable (hsafe : vm.Safe keep) (hc : Collectable vm addrs) :
    Collectable vm' (addrs.filter keep) := by
  have hgray : vm'.grayStack = [] := by
    rw [h.same]
    exact hc.gray
  obtain ⟨m, hm⟩ := hc.strings.exists_represents
  refine ⟨h.linked, fun a => ?_, h.unmarked, hgray, fun a ha b hb => ?_, fun a ha => ?_,
    (h.strings m hm).wf, fun entry hentry key hkey => ?_⟩
  · rw [h.heap_iff, List.mem_filter, decide_eq_true_eq, hc.listed, and_comm]
  · obtain ⟨hkeep, hsome⟩ := (h.heap_iff a).1 ha
    rw [h.refs_eq hkeep] at hb
    exact (h.heap_iff b).2 ⟨hsafe.closed a hkeep b hb, hc.closed a hsome b hb⟩
  · rw [h.roots_eq] at ha
    exact (h.heap_iff a).2 ⟨hsafe.rooted a ha, hc.rooted a ha⟩
  · obtain ⟨okey, value⟩ := entry
    obtain rfl : okey = some key := hkey
    obtain ⟨hkeep, hentry⟩ := (h.mem_entries_iff hc.strings key value).1 hentry
    exact (h.heap_iff key).2 ⟨hkeep, hc.interned _ hentry key rfl⟩

end Survivors

/-- `collectGarbage` ends after as many rounds as there are objects, with cycles or not, and frees
exactly the objects that cannot be reached from the roots. -/
theorem collection_exact {addrs : List Addr} (h : Collectable vm addrs) (size : Sizes) :
    ∃ vm', vm.collectGarbage size addrs.length = some vm' ∧ Collected size addrs vm vm' ∧
      Collectable vm' (addrs.filter vm.Reachable) := by
  obtain ⟨vm', hrun, hcollected⟩ := collectGarbage_spec h size (le_refl _)
  exact ⟨vm', hrun, hcollected, hcollected.toSurvives.collectable safe_reachable h⟩

/-- Two upvalues that hold each other, and a string on the stack. -/
def cyclic : VM ℕ where
  heap a :=
    if a = 0 then some ⟨false, none, .upvalue none (.obj 1)⟩
    else if a = 1 then some ⟨false, some 0, .upvalue none (.obj 0)⟩
    else if a = 2 then some ⟨false, some 1, .string "a".toList 0⟩
    else none
  objects := some 2
  stack := [.obj 2]
  frames := []
  openUpvalues := []
  globals := initTable
  strings := initTable
  compilers := []
  initString := none
  grayStack := []
  nextGC := 0
  ledger := ⟨0, fun _ => 0, true⟩

theorem heap_cyclic (a : Addr) : (cyclic.heap a).isSome ↔ a ∈ [2, 1, 0] := by
  simp only [cyclic]
  split_ifs <;> simp_all

theorem cyclic_collectable : Collectable cyclic [2, 1, 0] where
  linked := by simp [Segment, cyclic, link]
  listed := heap_cyclic
  unmarked a := by
    simp only [isMarked, cyclic]
    split_ifs <;> rfl
  gray := rfl
  closed a ha b hb := by
    rw [heap_cyclic] at ha ⊢
    simp only [List.mem_cons, List.not_mem_nil, or_false] at ha
    rcases ha with rfl | rfl | rfl <;>
      simp_all [refs, dataAt, cyclic, Data.refs, Value.refs]
  rooted a ha := by
    rw [heap_cyclic]
    simp [roots, cyclic, Value.refs, tableRefs, initTable] at ha
    simp [ha]
  strings := represents_init.wf
  interned entry hentry := by simp [cyclic, initTable] at hentry

theorem collection_exact_cyclic :
    ∃ vm', cyclic.collectGarbage lp64 3 = some vm' ∧ vm'.dataAt 0 = none ∧ vm'.dataAt 1 = none ∧
      vm'.dataAt 2 = some (.string "a".toList 0) := by
  obtain ⟨vm', hrun, hcollected, -⟩ := collection_exact cyclic_collectable lp64
  have hreach : ∀ a, cyclic.Reachable a ↔ a = 2 := by
    intro a
    constructor
    · intro ha
      refine ha.induct (P := (· = 2)) ?_ ?_
      · simp [roots, cyclic, Value.refs, tableRefs, initTable]
      · rintro b c rfl hc
        simp [refs, dataAt, cyclic, Data.refs] at hc
    · rintro rfl
      exact .root (by simp [roots, cyclic, Value.refs])
  refine ⟨vm', hrun, ?_, ?_, ?_⟩
  · rw [hcollected.data, if_neg (by simp [hreach])]
  · rw [hcollected.data, if_neg (by simp [hreach])]
  · rw [hcollected.data, if_pos (by simp [hreach])]
    rfl

end Classical

end VM

end Lox.Clox.Memory
