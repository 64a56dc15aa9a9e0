import Lox.Clox.Memory.Invariant

/-!
# Growing memory

`reallocate` may collect before it returns.  `Collects` is what its callers can rely on then, and the
ledger is right afterwards, also while the capacity of an array is ahead of its size: what an object
owns need only be known for objects that can be freed.
-/

namespace Lox.Clox.Memory

open HashTable LinkedList Rounds

variable {N : Type}

namespace VM

variable {vm vm' : VM N} {addrs addrs' : List Addr} {size : Sizes} {n : ℕ}

/-! ### More rounds -/

theorem traceReferences_mono {m : ℕ} : ∀ {n : ℕ} {vm : VM N}, n ≤ m →
    vm.traceReferences n = some vm' → vm.traceReferences m = some vm' := by
  induction m with
  | zero =>
    intro n vm hle h
    obtain rfl : n = 0 := by omega
    exact h
  | succ m ih =>
    intro n vm hle h
    unfold traceReferences at h ⊢
    cases hgray : vm.grayStack with
    | nil =>
      rw [hgray] at h
      exact h
    | cons object rest =>
      rw [hgray] at h
      cases n with
      | zero => cases h
      | succ n =>
        obtain ⟨vm₁, hblack, h⟩ := Option.bind_eq_some_iff.1 h
        exact Option.bind_eq_some_iff.2 ⟨vm₁, hblack, ih (by omega) h⟩

theorem sweepLoop_mono {m : ℕ} : ∀ {n : ℕ} {previous object : Option Addr} {vm : VM N}, n ≤ m →
    sweepLoop size n previous object vm = some vm' →
      sweepLoop size m previous object vm = some vm' := by
  induction m with
  | zero =>
    intro n previous object vm hle h
    obtain rfl : n = 0 := by omega
    exact h
  | succ m ih =>
    intro n previous object vm hle h
    cases object with
    | none =>
      unfold sweepLoop at h ⊢
      exact h
    | some a =>
      cases n with
      | zero => cases h
      | succ n =>
        simp only [sweepLoop, Option.bind_eq_bind] at h ⊢
        obtain ⟨o, ho, h⟩ := Option.bind_eq_some_iff.1 h
        refine Option.bind_eq_some_iff.2 ⟨o, ho, ?_⟩
        by_cases hmarked : o.isMarked = true
        · rw [if_pos hmarked] at h ⊢
          exact ih (by omega) h
        · rw [if_neg hmarked] at h ⊢
          obtain ⟨vm₁, hunlink, h⟩ := Option.bind_eq_some_iff.1 h
          exact Option.bind_eq_some_iff.2 ⟨vm₁, hunlink, ih (by omega) h⟩

/-- A collection that ends has the same result with more rounds. -/
theorem collectGarbage_mono {m : ℕ} (hle : n ≤ m) (h : vm.collectGarbage size n = some vm') :
    vm.collectGarbage size m = some vm' := by
  simp only [collectGarbage, Option.bind_eq_bind] at h ⊢
  obtain ⟨vm₁, hroots, h⟩ := Option.bind_eq_some_iff.1 h
  obtain ⟨vm₂, htrace, h⟩ := Option.bind_eq_some_iff.1 h
  obtain ⟨strings, hstrings, h⟩ := Option.bind_eq_some_iff.1 h
  obtain ⟨vm₃, hsweep, h⟩ := Option.bind_eq_some_iff.1 h
  refine Option.bind_eq_some_iff.2 ⟨vm₁, hroots, ?_⟩
  refine Option.bind_eq_some_iff.2 ⟨vm₂, traceReferences_mono hle htrace, ?_⟩
  refine Option.bind_eq_some_iff.2 ⟨strings, hstrings, ?_⟩
  exact Option.bind_eq_some_iff.2 ⟨vm₃, sweepLoop_mono hle hsweep, h⟩

section Classical

open Classical

/-- However many rounds a collection had, it frees what cannot be reached. -/
theorem collectGarbage_runs (h : Collectable vm addrs) (size : Sizes) {enough : Prop}
    (hn : enough → addrs.length ≤ n) :
    Runs enough (vm.collectGarbage size n) (Collected size addrs vm) where
  returns he := by
    obtain ⟨vm', hrun, -⟩ := collectGarbage_spec h size (hn he)
    rw [hrun]
    rfl
  result vm' hrun := by
    obtain ⟨vm'', hrun', hcollected⟩ := collectGarbage_spec h size (le_max_right n addrs.length)
    have hsame := collectGarbage_mono (le_max_left n addrs.length) hrun
    obtain rfl := Option.some.inj (hsame.symm.trans hrun')
    exact hcollected

end Classical

/-! ### Collecting or not -/

/-- The roots besides the globals are the same. -/
structure SameRoots (vm vm' : VM N) : Prop where
  stack : vm'.stack = vm.stack
  frames : vm'.frames = vm.frames
  openUpvalues : vm'.openUpvalues = vm.openUpvalues
  compilers : vm'.compilers = vm.compilers
  initString : vm'.initString = vm.initString

theorem SameRoots.refl (vm : VM N) : SameRoots vm vm := ⟨rfl, rfl, rfl, rfl, rfl⟩

theorem SameRoots.trans {vm₁ vm₂ vm₃ : VM N} (h : SameRoots vm₁ vm₂) (h' : SameRoots vm₂ vm₃) :
    SameRoots vm₁ vm₃ :=
  ⟨h'.stack.trans h.stack, h'.frames.trans h.frames, h'.openUpvalues.trans h.openUpvalues,
    h'.compilers.trans h.compilers, h'.initString.trans h.initString⟩

theorem SameRoots.roots_eq (h : SameRoots vm vm') (hglobals : vm'.globals = vm.globals) :
    vm'.roots = vm.roots := by
  simp only [roots, h.stack, h.frames, h.openUpvalues, h.compilers, h.initString, hglobals]

/-- What is left of the memory when there may have been a collection. -/
structure Collects (vm vm' : VM N) (addrs addrs' : List Addr) : Prop where
  same : vm' = { vm with
    heap := vm'.heap, objects := vm'.objects, strings := vm'.strings, nextGC := vm'.nextGC
    ledger := vm'.ledger }
  data : ∀ a, vm.Reachable a → vm'.dataAt a = vm.dataAt a
  old : ∀ a data, vm'.dataAt a = some data → vm.dataAt a = some data
  reachable : ∀ a, vm'.Reachable a ↔ vm.Reachable a
  capacity : vm'.strings.capacity = vm.strings.capacity
  sublist : addrs'.Sublist addrs

theorem Collects.refl (vm : VM N) (addrs : List Addr) : Collects vm vm addrs addrs :=
  ⟨rfl, fun _ _ => rfl, fun _ _ h => h, fun _ => Iff.rfl, rfl, List.Sublist.refl _⟩

theorem Collects.roots (h : Collects vm vm' addrs addrs') : SameRoots vm vm' := by
  rw [h.same]
  exact ⟨rfl, rfl, rfl, rfl, rfl⟩

theorem Collects.globals (h : Collects vm vm' addrs addrs') : vm'.globals = vm.globals := by
  rw [h.same]

theorem Collects.tableBlocks_eq (h : Collects vm vm' addrs addrs') :
    vm'.tableBlocks size = vm.tableBlocks size := by
  simp only [tableBlocks, h.globals, h.capacity]

theorem Collects.blocksAt_eq (h : Collects vm vm' addrs addrs') {a : Addr}
    (ha : (vm'.heap a).isSome) : vm'.blocksAt size a = vm.blocksAt size a := by
  rw [isSome_heap_iff] at ha
  obtain ⟨data, hdata⟩ := Option.isSome_iff_exists.1 ha
  simp only [blocksAt, hdata, h.old a data hdata]

theorem Collects.isString (h : Collects vm vm' addrs addrs') {a : Addr} (ha : vm.Reachable a)
    (hstring : vm.IsString a) : vm'.IsString a := by
  obtain ⟨chars, hash, hdata⟩ := hstring
  exact ⟨chars, hash, (h.data a ha).trans hdata⟩

theorem Collects.fresh (hc : Collects vm vm' addrs addrs') {a : Addr} (h : vm.heap a = none) :
    vm'.heap a = none := by
  rw [← Option.not_isSome_iff_eq_none, isSome_heap_iff]
  intro hsome
  obtain ⟨d, hd⟩ := Option.isSome_iff_exists.1 hsome
  have hold := hc.old a d hd
  simp [dataAt, h] at hold

/-- A table that belongs to a reachable object, or to the machine, is as it was, apart from
`vm.strings`. -/
theorem Collects.tableAt_eq (h : Collects vm vm' addrs addrs') {table : TableRef}
    (hne : table ≠ .strings) (howner : ∀ a, table.owner = some a → vm.Reachable a) :
    vm'.tableAt table = vm.tableAt table := by
  cases table with
  | globals =>
    rw [h.same]
    rfl
  | strings => exact absurd rfl hne
  | methods a => simp only [tableAt, h.data a (howner a rfl)]
  | fields a => simp only [tableAt, h.data a (howner a rfl)]

variable {c : ℕ} {pending : Option Addr} {gc : VM N → Bool} {enough : Prop}
  {own : Addr → List (Block × ℕ)} {locals : List (Block × ℕ)} {pointer : Option Block}
  {oldSize : ℕ}

section Classical

open Classical

/-- The books after a collection. -/
theorem Collected.holds {extra : ℤ} (h : Collected size addrs vm vm')
    (hbooks : vm.ledger.Holds (locals ++ (addrs.flatMap own ++ vm.tableBlocks size)) extra)
    (hown : ∀ a ∈ addrs, ¬ vm.Reachable a → own a = vm.blocksAt size a) :
    vm'.ledger.Holds (locals ++ ((addrs.filter vm.Reachable).flatMap own ++ vm.tableBlocks size))
      extra := by
  rw [h.ledger]
  refine freeAll_holds _ (hbooks.perm ?_)
  have hfreed : (addrs.filter fun a => ¬ vm.Reachable a).flatMap own
      = (addrs.filter fun a => ¬ vm.Reachable a).flatMap (vm.blocksAt size) := by
    refine List.flatMap_congr fun a ha => ?_
    obtain ⟨hmem, hnot⟩ := List.mem_filter.1 ha
    exact hown a hmem (by simpa using hnot)
  have hsplit : (addrs.flatMap own).Perm
      ((addrs.filter fun a => ¬ vm.Reachable a).flatMap (vm.blocksAt size) ++
        (addrs.filter vm.Reachable).flatMap own) := by
    rw [← hfreed, ← List.flatMap_append]
    refine List.Perm.flatMap_right own ?_
    refine (List.filter_append_perm (fun a => decide (vm.Reachable a)) addrs).symm.trans ?_
    simp only [decide_not]
    exact List.perm_append_comm
  refine ((hsplit.append_right _).append_left _).trans ?_
  rw [List.append_assoc]
  exact List.perm_append_comm_assoc _ _ _

theorem Collected.collects (h : Collected size addrs vm vm') :
    Collects vm vm' addrs (addrs.filter vm.Reachable) where
  same := h.same
  data a ha := by rw [h.data, if_pos ha]
  old a data hdata := by
    rw [h.data] at hdata
    split at hdata
    · exact hdata
    · cases hdata
  reachable := h.toSurvives.reachable_iff safe_reachable
  capacity := h.capacity
  sublist := List.filter_sublist

end Classical

/-- What the caller of `reallocate` knows afterwards. -/
structure Reallocated (c : ℕ) (size : Sizes) (pending : Option Addr) (locals : List (Block × ℕ))
    (own : Addr → List (Block × ℕ)) (extra : ℤ) (vm : VM N) (addrs : List Addr) (l : Ledger)
    (vm' : VM N) (addrs' : List Addr) : Prop where
  collects : Collects vm vm' addrs addrs'
  heapOk : HeapOk c vm' addrs' pending
  holds : l.Holds (locals ++ (addrs'.flatMap own ++ vm'.tableBlocks size)) extra

/-- `reallocate`, called with the right old size. -/
theorem reallocate_runs (h : HeapOk c vm addrs pending)
    (hbooks : vm.ledger.Holds (locals ++ (addrs.flatMap own ++ vm.tableBlocks size)) 0)
    (hown : ∀ a ∈ addrs, ¬ vm.Reachable a → own a = vm.blocksAt size a)
    (hold : (pointer.map vm.ledger.blocks).getD 0 = oldSize) (hn : enough → addrs.length ≤ n)
    (newSize : ℕ) (block : Block) :
    Runs enough (vm.reallocate gc size n pointer oldSize newSize block) fun vm' =>
      ∃ addrs' l, vm'.ledger = l.resize block newSize ∧
        Reallocated c size pending locals own (newSize - oldSize) vm addrs l vm' addrs' := by
  have hbooks' := hbooks.account hold newSize
  rw [zero_add] at hbooks'
  have h₀ : HeapOk c { vm with ledger := vm.ledger.account pointer oldSize newSize } addrs pending :=
    h.reroot h.rooted
  -- Whether or not there is a collection, `reallocate` goes on with memory that is as it should be.
  have hcollect : Runs enough (if newSize > oldSize ∧
      gc { vm with ledger := vm.ledger.account pointer oldSize newSize } = true then
        VM.collectGarbage size n { vm with ledger := vm.ledger.account pointer oldSize newSize }
      else some { vm with ledger := vm.ledger.account pointer oldSize newSize }) fun vm' =>
      ∃ addrs', Reallocated c size pending locals own (newSize - oldSize) vm addrs vm'.ledger vm'
        addrs' := by
    split
    · refine (collectGarbage_runs h₀.toCollectable size hn).imp fun vm' hcollected => ?_
      have hc := hcollected.collects
      refine ⟨_, ⟨?_, hc.data, hc.old, hc.reachable, hc.capacity, hc.sublist⟩,
        h₀.survives safe_reachable hcollected.toSurvives, ?_⟩
      · rw [hc.same]
      · rw [hc.tableBlocks_eq]
        exact hcollected.holds hbooks' hown
    · refine Runs.pure ⟨addrs, ⟨rfl, fun _ _ => rfl, fun _ _ h => h, fun _ => Iff.rfl, rfl,
        List.Sublist.refl _⟩, h₀, hbooks'⟩
  have hrun : vm.reallocate gc size n pointer oldSize newSize block = (if newSize > oldSize ∧
      gc { vm with ledger := vm.ledger.account pointer oldSize newSize } = true then
        VM.collectGarbage size n { vm with ledger := vm.ledger.account pointer oldSize newSize }
      else some { vm with ledger := vm.ledger.account pointer oldSize newSize }) >>= fun vm' =>
        some { vm' with ledger := vm'.ledger.resize block newSize } := by
    unfold reallocate
    simp only
    split
    · rfl
    · rfl
  rw [hrun]
  refine hcollect.bind fun vm' hvm' => Runs.pure ?_
  obtain ⟨addrs', hc, hok, hholds⟩ := hvm'
  refine ⟨addrs', vm'.ledger, rfl, ⟨?_, hc.data, hc.old, hc.reachable, hc.capacity, hc.sublist⟩,
    hok.reroot hok.rooted, hholds⟩
  rw [hc.same]

end VM

end Lox.Clox.Memory
