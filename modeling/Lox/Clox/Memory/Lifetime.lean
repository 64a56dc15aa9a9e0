import Lox.Clox.Memory.Effects

/-!
# From `initVM` to `freeVM`

Every operation takes a sound memory to a sound one, so the memory is sound in every state of a session.
Hence the accounts are exact, strings are interned, no operation meets a dangling pointer, and what
`freeVM` leaves behind is known exactly: the array of the globals.
-/

namespace Lox.Clox.Memory

open HashTable LinkedList Rounds

variable {N : Type}

open Lox.Clox.Memory.VM

variable {vm vm' : VM N} {addrs : List Addr} {size : Sizes} {n c : ℕ} {gc : VM N → Bool}
  {enough : Prop}

/-! ### Sessions -/

/-- The machine when `initVM` begins to allocate. -/
def VM.blank : VM N :=
  { (VM.static : VM N) with
    nextGC := 1024 * 1024
    ledger := { (VM.static : VM N).ledger.free (.entries .globals) 0 with bytesAllocated := 0 } }

theorem heapOk_blank : VM.HeapOk 0 (VM.blank : VM N) [] none where
  linked := rfl
  listed a := by simp [VM.blank, VM.static]
  unmarked a := rfl
  gray := rfl
  closed a ha := by cases ha
  rooted a ha := by simp [roots, VM.blank, VM.static, tableRefs, initTable] at ha
  strings := represents_init.wf
  interned entry hentry := by cases hentry
  tables table t ht := by
    rcases tableAt_cases ht with ⟨-, rfl⟩ | ⟨-, rfl⟩ | ⟨b, data, -, hb, -⟩
    · exact tableOk_init
    · exact tableOk_init
    · cases hb
  keys a := by
    constructor
    · rintro ⟨value, hmem⟩
      cases hmem
    · rintro ⟨⟨chars, hash, ha⟩, -⟩
      cases ha
  hashes a chars hash ha := by cases ha
  unique a b ha := by
    obtain ⟨chars, hash, ha⟩ := ha
    cases ha
  room := Nat.zero_le _

theorem sound_blank (size : Sizes) : VM.Sound 0 size none [] (VM.blank : VM N) [] where
  heapOk := heapOk_blank
  books := by
    refine ⟨by simp [owned, tableBlocks], fun p hp => ?_, fun b hb => ?_, ?_, ?_⟩
    · simp only [owned, tableBlocks, List.flatMap_nil, List.nil_append, List.mem_cons,
        List.not_mem_nil, or_false] at hp
      rcases hp with rfl | rfl
      · simp [VM.blank, VM.static, initTable, capacity, Ledger.free, Ledger.account, Ledger.resize]
      · simp [VM.blank, VM.static, initTable, capacity, Ledger.free, Ledger.account, Ledger.resize]
    · show Function.update (fun _ => 0) (Block.entries TableRef.globals) 0 b = 0
      by_cases heq : b = .entries .globals
      · rw [heq, Function.update_self]
      · rw [Function.update_of_ne heq]
    · simp [owned, tableBlocks, VM.blank, VM.static, initTable, capacity]
    · simp [VM.blank, VM.static, Ledger.free, Ledger.account, Ledger.resize]

/-- A table with room for a key has an array of at least 8 entries. -/
theorem VM.TableOk.eight_le {t : Table N} (h : vm.TableOk t) (hpos : 0 < t.capacity) : 8 ≤ t.capacity := by
  rcases h.wf.entries with hnil | hentries
  · simp [capacity, hnil] at hpos
  · obtain ⟨e, he, hpower⟩ := hentries.power
    have hle : 2 ^ 3 ≤ 2 ^ e := Nat.pow_le_pow_right (by omega) he
    show 8 ≤ t.entries.length
    omega

/-- After `defineNative` there is an entry in the globals. -/
theorem defineNative_runs (h : VM.Sound c size none [] vm addrs) (name : Name) (a b : Addr) :
    Runs False (vm.defineNative gc size n name a b) fun vm' => ∃ addrs',
      VM.Sound 8 size none [] vm' addrs' := by
  unfold defineNative
  refine (copyString_runs h (fun hf => hf.elim) (fun hf => hf.elim)).bind ?_
  rintro result ⟨addrs₁, hinterned⟩
  have hstring := hinterned.string
  have hpushed := hinterned.sound.push (.obj result.1) fun d hd => by
    rw [List.mem_singleton.1 hd]
    exact hstring.isSome
  have hreach : (result.2.push (.obj result.1)).Reachable result.1 :=
    reachable_push (.inl List.mem_cons_self)
  refine (new_runs hpushed (fun hf => hf.elim) (fun hf => hf.elim) (fun d hd => by cases hd)
    (fun t ht => by cases ht) rfl (fun p hp => by cases hp) (by exact List.nodup_nil)
    fun p hp => by cases hp).bind ?_
  rintro vm₂ ⟨addrs₂, hsound₂, hcreated⟩
  have hdata := hcreated.same
  have hpushed₂ := hsound₂.push (.obj b) fun d hd => by
    rw [List.mem_singleton.1 hd]
    exact (hsound₂.heapOk.listed b).2 List.mem_cons_self
  have hkey : (vm₂.push (.obj b)).Reachable result.1 := by
    refine reachable_push (.inr (.root ?_))
    rw [hcreated.roots.roots_eq hcreated.globals]
    exact mem_roots_push.2 (.inl List.mem_cons_self)
  have hkeyString : (vm₂.push (.obj b)).IsString result.1 := by
    obtain ⟨chars, hash, hd⟩ := hstring
    exact ⟨chars, hash, (hdata _ hreach).trans hd⟩
  refine (tableSet_runs hpushed₂ (fun hf => hf.elim) .globals rfl (fun d hd => by cases hd) hkey
    hkeyString (fun d hd => ?_) (.inr ⟨fun heq => (by cases heq), rfl⟩)).bind ?_
  · rw [List.mem_singleton.1 hd]
    exact reachable_push (.inl List.mem_cons_self)
  rintro vm₃ ⟨addrs₃, t', hgrown⟩
  have hok := hgrown.sound.heapOk
  have hroom : 8 ≤ vm₃.globals.capacity := by
    refine VM.TableOk.eight_le (hok.tables .globals _ rfl) ?_
    obtain rfl := Option.some.inj hgrown.at_
    exact hgrown.array
  have hsound : VM.Sound 8 size none [] vm₃ addrs₃ := ⟨{ hok with room := hroom }, hgrown.sound.books⟩
  exact Runs.pure ⟨addrs₃, hsound.pop.pop⟩

theorem initVM_runs (size : Sizes) (a b d : Addr) :
    Runs False ((VM.static : VM N).initVM gc size n a b d) fun vm' => ∃ addrs',
      VM.Sound 8 size none [] vm' addrs' := by
  have hblank : (VM.static : VM N).initVM gc size n a b d =
      ((VM.blank : VM N).copyString gc size n a "init".toList >>= fun result =>
        { result.2 with initString := some result.1 }.defineNative gc size n "clock".toList b d) := by
    rfl
  rw [hblank]
  refine (copyString_runs (sound_blank size) (fun hf => hf.elim) (fun hf => hf.elim)).bind ?_
  rintro result ⟨addrs₁, hinterned⟩
  refine defineNative_runs (hinterned.sound.reroot fun e he => ?_) _ b d
  have hcases : e ∈ result.2.roots ∨ e = result.1 := by
    simp only [roots, List.mem_append, Option.toList_some, List.mem_singleton] at he ⊢
    tauto
  rcases hcases with he | rfl
  · exact hinterned.sound.heapOk.rooted e he
  · exact hinterned.string.isSome

/-- The memory is sound in every state between `initVM` and `freeVM`. -/
theorem Session.sound (h : Session size vm) : ∃ addrs, VM.Sound 8 size none [] vm addrs := by
  induction h with
  | start h => exact (initVM_runs size _ _ _).result _ h
  | step _ hstep ih =>
    obtain ⟨addrs, hsound⟩ := ih
    obtain ⟨gc, n, op, results, vm₁, roots, henabled, hrun, hroots, rfl⟩ := hstep
    obtain ⟨r, change, hdone⟩ :=
      (Operation.run_runs hsound op henabled (fun hf : False => hf.elim) fun hf => hf.elim).result _ hrun
    obtain ⟨addrs', hsound'⟩ := hdone.sound
    refine ⟨addrs', hsound'.reroot fun a ha => ?_⟩
    have hcases : a ∈ roots.addrs ∨ a ∈ vm₁.roots := by
      simp only [VM.roots, Roots.addrs, List.mem_append] at ha ⊢
      tauto
    rcases hcases with ha | ha
    · rcases hroots a ha with hreach | hmem
      · exact hsound'.heapOk.reachable hreach
      · exact hdone.results_live a hmem
    · exact hsound'.heapOk.rooted a ha

/-- A session that has only begun. -/
theorem exists_session : ∃ vm : VM ℕ, Session lp64 vm := by
  have hsome : ((VM.static : VM ℕ).initVM (fun _ => true) lp64 3 0 1 2).isSome := by decide
  obtain ⟨vm, hvm⟩ := Option.isSome_iff_exists.1 hsome
  exact ⟨vm, .start hvm⟩

/-! ### The accounts are exact -/

/-- Between two operations of a session `bytesAllocated` is the sum of the sizes of the objects on
`vm.objects`, of the arrays they own and of the arrays of the two tables of the machine; these are
exactly the blocks the allocator has given out, and every old size `reallocate` was told was right. -/
theorem accounts_exact (h : Session size vm) : ∃ addrs, Segment vm.link vm.objects addrs none ∧
    (∀ a, (vm.heap a).isSome ↔ a ∈ addrs) ∧
    vm.ledger.bytesAllocated = ((vm.owned size addrs).map Prod.snd).sum ∧
    ((vm.owned size addrs).map Prod.fst).Nodup ∧
    (∀ p ∈ vm.owned size addrs, vm.ledger.blocks p.1 = p.2) ∧
    (∀ b ∉ (vm.owned size addrs).map Prod.fst, vm.ledger.blocks b = 0) ∧
    vm.ledger.sizesRight = true := by
  obtain ⟨addrs, hsound⟩ := h.sound
  have hbooks := hsound.books
  refine ⟨addrs, hsound.heapOk.linked, hsound.heapOk.listed, ?_, hbooks.nodup, hbooks.sizes,
    hbooks.others, hbooks.right⟩
  rw [hbooks.bytes, add_zero, List.nil_append]

theorem accounts_exact_start : ∃ vm : VM ℕ, 0 ≤ vm.ledger.bytesAllocated ∧
    vm.ledger.sizesRight = true := by
  obtain ⟨vm, h⟩ := exists_session
  obtain ⟨addrs, -, -, hbytes, -, -, -, hright⟩ := accounts_exact h
  exact ⟨vm, hbytes ▸ Nat.cast_nonneg _, hright⟩

/-! ### Strings are interned -/

/-- The keys of `vm.strings` are exactly the strings that exist, with the hashes of their characters,
and no two of them have the same characters.  So a table finds under a string what was stored under any
string with these characters. -/
theorem strings_canonical (h : Session size vm) :
    (∀ a, (∃ value, ⟨some a, value⟩ ∈ vm.strings.entries) ↔ vm.IsString a) ∧
    (∀ a, vm.IsString a → vm.hash a = hashString (vm.chars a)) ∧
    (∀ a b, vm.IsString a → vm.IsString b → (a = b ↔ vm.chars a = vm.chars b)) ∧
    ∀ table t, vm.tableAt table = some t → ∀ key, vm.IsString key →
      ∃ found, tableGet vm.hash key t = some found ∧ ∀ value, found = some value ↔
        ∃ key', ⟨some key', value⟩ ∈ t.entries ∧ vm.chars key' = vm.chars key := by
  obtain ⟨addrs, hsound⟩ := h.sound
  have hok := hsound.heapOk
  refine ⟨fun a => ?_, ?_, fun a b ha hb => ⟨fun heq => by rw [heq], hok.unique a b ha hb⟩,
    fun table t ht key hkey => ?_⟩
  · rw [hok.keys a]
    simp
  · rintro a ⟨chars, hash, hdata⟩
    rw [chars_eq hdata, ← hok.hashes a chars hash hdata]
    simp [VM.hash, hdata]
  · have htable := hok.tables table t ht
    obtain ⟨m, hm⟩ := htable.wf.exists_represents
    refine ⟨m key, tableGet_spec hm key, fun value => ?_⟩
    rw [hm.maps]
    show Probing.Holds t.entries.length (slots t.entries) key value ↔ _
    rw [← mem_entries]
    constructor
    · intro hmem
      exact ⟨key, hmem, rfl⟩
    · rintro ⟨key', hmem, hchars⟩
      obtain rfl := hok.unique key' key (htable.keys key' value hmem) hkey hchars
      exact hmem

theorem strings_canonical_start : ∃ vm : VM ℕ, ∀ a b, vm.IsString a → vm.IsString b →
    vm.chars a = vm.chars b → a = b := by
  obtain ⟨vm, h⟩ := exists_session
  exact ⟨vm, fun a b ha hb => ((strings_canonical h).2.2.1 a b ha hb).2⟩

/-! ### Nothing dangles -/

/-- `freeObjects` frees the objects of the list, one after the other. -/
theorem freeObjects_spec (size : Sizes) : ∀ {addrs : List Addr} (vm : VM N) {object : Option Addr}
    {n : ℕ}, addrs.length ≤ n → Segment vm.link object addrs none → addrs.Nodup →
    (∀ a ∈ addrs, (vm.heap a).isSome) →
    ∃ vm', vm.freeObjects size n object = some vm' ∧
      (∀ a, vm'.heap a = if a ∈ addrs then none else vm.heap a) ∧
      vm'.ledger = freeAll size vm.dataAt addrs vm.ledger := by
  intro addrs
  induction addrs with
  | nil =>
    intro vm object n _ hsegment _ _
    have hnone : object = none := hsegment
    subst hnone
    exact ⟨vm, by cases n <;> rfl, fun a => by simp, rfl⟩
  | cons a addrs ih =>
    intro vm object n hn hsegment hnodup hall
    obtain ⟨n, rfl⟩ : ∃ m, n = m + 1 := ⟨n - 1, by simp at hn; omega⟩
    obtain ⟨rfl, hrest⟩ := hsegment
    obtain ⟨o, ho⟩ := Option.isSome_iff_exists.1 (hall a List.mem_cons_self)
    obtain ⟨hnot, hnodup⟩ := List.nodup_cons.1 hnodup
    have hne : ∀ b ∈ addrs, b ≠ a := fun b hb heq => hnot (heq ▸ hb)
    have hlink : vm.link a = o.next := by simp [link, ho]
    rw [hlink] at hrest
    obtain ⟨vm', hrun, hheap, hledger⟩ := ih (vm.freeObject size a o.data) (n := n)
      (by simpa using hn) (hrest.congr fun b hb => link_freeObject (hne b hb)) hnodup
      fun b hb => by simpa [VM.freeObject, hne b hb] using hall b (List.mem_cons_of_mem a hb)
    refine ⟨vm', ?_, fun b => ?_, ?_⟩
    · simp only [freeObjects, ho, Option.bind_eq_bind, Option.bind_some]
      exact hrun
    · rw [hheap]
      by_cases hb : b = a
      · simp [hb, VM.freeObject]
      · simp [hb, VM.freeObject]
    · have hat : vm.dataAt a = some o.data := by simp [dataAt, ho]
      have hdata : ∀ b ∈ addrs, (vm.freeObject size a o.data).dataAt b = vm.dataAt b := by
        intro b hb
        rw [dataAt_freeObject, if_neg (hne b hb)]
      rw [hledger, freeAll_congr hdata]
      simp only [freeAll, List.foldl_cons, hat]
      rfl

/-- After `freeVM` no object is left, and exactly one block is: the array of the globals, which has at
least 8 entries by then.  All other sizes were told right. -/
theorem freeVM_leaves (h : Session size vm) : ∃ bound, ∀ n, bound ≤ n →
    ∃ vm', vm.freeVM size n = some vm' ∧ (∀ a, vm'.heap a = none) ∧
      8 ≤ vm.globals.capacity ∧
      (∀ b, vm'.ledger.blocks b =
        if b = .entries .globals then size.entry * vm.globals.capacity else 0) ∧
      vm'.ledger.bytesAllocated = size.entry * vm.globals.capacity ∧
      0 < vm'.ledger.bytesAllocated ∧ vm'.ledger.sizesRight = true := by
  obtain ⟨addrs, hsound⟩ := h.sound
  have hok := hsound.heapOk
  refine ⟨addrs.length, fun n hn => ?_⟩
  obtain ⟨vm', hrun, hheap, hledger⟩ := freeObjects_spec size
    { vm with
      strings := initTable, initString := none
      ledger := vm.ledger.free (.entries .strings) (size.entry * vm.strings.capacity) }
    hn hok.linked hok.linked.nodup fun a ha => (hok.listed a).2 ha
  have hbooks : vm'.ledger.Holds [(.entries .globals, size.entry * vm.globals.capacity)] 0 := by
    rw [hledger]
    refine freeAll_holds addrs ?_
    refine Ledger.Holds.free (hsound.books.perm ?_)
    exact ((List.Perm.swap _ _ _).append_left _).trans List.perm_middle
  have hroom := hok.room
  have hpos := size.entry_pos
  refine ⟨vm', hrun, fun a => ?_, hroom, fun b => ?_, ?_, ?_, hbooks.right⟩
  · rw [hheap]
    split
    · rfl
    · rename_i hnot
      exact Option.not_isSome_iff_eq_none.1 fun hsome => hnot ((hok.listed a).1 hsome)
  · split
    · rename_i heq
      rw [heq]
      exact hbooks.sizes _ List.mem_cons_self
    · rename_i hne
      exact hbooks.others b (by simpa using hne)
  · rw [hbooks.bytes]
    simp
  · rw [hbooks.bytes]
    simp only [List.map_cons, List.map_nil, List.sum_cons, List.sum_nil, add_zero]
    exact_mod_cast Nat.mul_pos hpos (by omega)

theorem freeVM_leaves_start : ∃ (vm vm' : VM ℕ) (n : ℕ), Session lp64 vm ∧
    vm.freeVM lp64 n = some vm' ∧ 0 < vm'.ledger.bytesAllocated := by
  obtain ⟨vm, h⟩ := exists_session
  obtain ⟨bound, hshutdown⟩ := freeVM_leaves h
  obtain ⟨vm', hrun, -, -, -, -, hpos, -⟩ := hshutdown bound le_rfl
  exact ⟨vm, vm', bound, h, hrun, hpos⟩

end Lox.Clox.Memory
