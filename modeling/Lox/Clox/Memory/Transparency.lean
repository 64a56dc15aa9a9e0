import Lox.Clox.Memory.Equivariance

/-!
# Programs cannot tell when memory is collected

An operation on two similar memories, with garbage collected at different moments, leads to similar
memories again and returns corresponding objects.  So all that a program does with one collector it
does with any other, and also with none, up to the addresses of its objects.
-/

namespace Lox.Clox.Memory

open HashTable Rounds Lox.Clox.Memory.VM

variable {N : Type} {vm vm' vm₁ vm₁' : VM N} {a : Addr} {φ : Addr → Addr} {op : Operation N}
  {held : List Addr} {change : Change N}

/-! ### One operation on two memories -/

theorem Operation.dataAt_pushed (op : Operation N) (vm : VM N) (b : Addr) :
    (op.pushed vm).dataAt b = vm.dataAt b := by
  cases op with
  | _ => rfl

theorem Operation.address_rename (op : Operation N) (φ : Addr → Addr) (a : Addr) :
    (op.rename φ a).address = op.address.map fun _ => a := by
  cases op with
  | _ => rfl

theorem Operation.isSome_address_rename (op : Operation N) (φ : Addr → Addr) (a : Addr) :
    (op.rename φ a).address.isSome = op.address.isSome := by
  rw [address_rename, Option.isSome_map]

theorem Operation.Done.target_new {size : Sizes} {c : ℕ} {r : Addr} {result : List Addr × VM N}
    (d : op.Done c size vm r change result) (hnew : op.address.isSome) :
    ∃ data, change.written = some (none, data) ∧ change.target r = some (r, data) ∧
      (vm.Reachable r → data.isString ∧ vm.dataAt r = some data) := by
  obtain ⟨data, hwritten, hstring⟩ := d.new hnew
  exact ⟨data, hwritten, by simp [Change.target, hwritten], hstring⟩

theorem Change.Within.target_mem {r b : Addr} {data : Data N} (h : Change.Within op vm change)
    (hb : change.target r = some (b, data)) :
    (op.pushed vm).Reachable b ∨ (op.address.isSome ∧ b = r) := by
  obtain ⟨⟨t, data'⟩, hwritten, hpair⟩ := Option.map_eq_some_iff.1 hb
  obtain ⟨rfl, rfl⟩ := Prod.mk.inj hpair
  cases t with
  | none => exact .inr ⟨h.address _ hwritten, rfl⟩
  | some b => exact .inl (Operation.reachable_pushed (h.target b _ hwritten))

/-- All that can be reached afterwards, also from what is returned, could be reached before, or is
new. -/
theorem Operation.Done.reachable {size : Sizes} {c : ℕ} {r b : Addr} {results : List Addr}
    (d : op.Done c size vm r change (results, vm₁)) (hwithin : Change.Within op vm change)
    (hb : (vm₁.hold results).Reachable b) :
    (op.pushed vm).Reachable b ∨ (op.address.isSome ∧ b = r) := by
  refine hb.induct (P := fun b => (op.pushed vm).Reachable b ∨ (op.address.isSome ∧ b = r))
    (fun x hx => ?_) fun x y hx hy => ?_
  · have hreturned : results = if op.address.isSome then [r] else [] := d.returned
    rcases mem_roots_hold.1 hx with hx | hx
    · rw [hreturned] at hx
      split at hx
      · rename_i hnew
        exact .inr ⟨hnew, List.mem_singleton.1 hx⟩
      · cases hx
    · refine .inl (reachable_pushed ?_)
      have hroots : SameRoots vm vm₁ := d.roots
      have hglobals : vm₁.globals = change.globals := d.globals
      by_cases hchanged : x ∈ tableRefs change.globals
      · exact hwithin.globals x hchanged
      · refine .root ?_
        simp only [VM.roots, hroots.stack, hroots.frames, hroots.openUpvalues, hroots.compilers,
          hroots.initString, hglobals, List.mem_append] at hx ⊢
        tauto
  · have hy' : y ∈ vm₁.refs x := hy
    by_cases htarget : ∃ data, change.target r = some (x, data)
    · obtain ⟨data, htarget⟩ := htarget
      obtain ⟨⟨t, data'⟩, hwritten, hpair⟩ := Option.map_eq_some_iff.1 htarget
      obtain ⟨-, rfl⟩ := Prod.mk.inj hpair
      rw [refs_eq (d.written x _ htarget)] at hy'
      exact .inl (hwithin.refs t _ hwritten y hy')
    · rcases hx with hx | ⟨hnew, rfl⟩
      · refine .inl (hx.step ?_)
        have hsame : vm₁.dataAt x = vm.dataAt x := d.same x hx fun data hdata => htarget ⟨data, hdata⟩
        simpa only [VM.refs, dataAt_pushed, hsame] using hy'
      · obtain ⟨data, -, hnew', -⟩ := d.target_new hnew
        exact absurd ⟨data, hnew'⟩ htarget

section TwoMemories

variable {size size' : Sizes} {c c' : ℕ} {r r' : Addr} {results results' : List Addr}
  {ψ : Addr → Addr}

/-- If the new address in the one memory is that of an object in the other, both are the same string. -/
theorem Operation.Done.new_unique (d : op.Done c size vm r change (results, vm₁))
    (d' : (op.rename φ a).Done c' size' vm' r' (change.rename φ) (results', vm₁'))
    (h : Similar φ vm vm') (hnew : op.address.isSome) {b : Addr} (hb : vm.Reachable b)
    (heq : φ b = r') : b = r := by
  obtain ⟨data, hwritten, htarget, -⟩ := d.target_new hnew
  obtain ⟨data', hwritten', -, hstring⟩ := d'.target_new (by rw [Operation.isSome_address_rename]; exact hnew)
  obtain rfl : data.rename φ = data' := by
    simp only [Change.rename, hwritten, Option.map_some, Option.some.injEq, Prod.mk.injEq] at hwritten'
    exact hwritten'.2
  obtain ⟨hstring, hat'⟩ := hstring (heq ▸ h.reachable hb)
  by_contra hne
  have hsame : vm₁.dataAt b = vm.dataAt b := d.same b (reachable_pushed hb) fun data hdata => by
    obtain ⟨heq, -⟩ := Prod.mk.inj (Option.some.inj (htarget.symm.trans hdata))
    exact hne heq.symm
  have hat : vm₁.dataAt r = some data := d.written r data htarget
  have hold := h.data b hb
  rw [heq, hat'] at hold
  obtain ⟨addrs, hsound⟩ := d.sound
  cases data with
  | string text textHash =>
    obtain ⟨old, hb', hrename⟩ := Option.map_eq_some_iff.1 hold.symm
    obtain rfl : old = .string text textHash := by
      cases old with
      | string text' textHash' => exact hrename
      | _ => cases hrename
    rw [hb'] at hsame
    refine hne (hsound.heapOk.unique b r ⟨_, _, hsame⟩ ⟨_, _, hat⟩ ?_)
    rw [chars_eq hsame, chars_eq hat]
  | _ => cases hstring

/-- A string that was found was at the address that belongs to it. -/
theorem Operation.Done.found (d : op.Done c size vm r change (results, vm₁))
    (d' : (op.rename φ a).Done c' size' vm' r' (change.rename φ) (results', vm₁'))
    (h : Similar φ vm vm') (hnew : op.address.isSome) (hr : vm.Reachable r) : φ r = r' := by
  obtain ⟨data, hwritten, -, hstring⟩ := d.target_new hnew
  obtain ⟨data', hwritten', htarget', -⟩ := d'.target_new (by rw [Operation.isSome_address_rename]; exact hnew)
  obtain rfl : data.rename φ = data' := by
    simp only [Change.rename, hwritten, Option.map_some, Option.some.injEq, Prod.mk.injEq] at hwritten'
    exact hwritten'.2
  obtain ⟨hstring, hat⟩ := hstring hr
  by_contra hne
  have hsame : vm₁'.dataAt (φ r) = vm'.dataAt (φ r) :=
    d'.same (φ r) (reachable_pushed (h.reachable hr)) fun data hdata => by
      obtain ⟨heq, -⟩ := Prod.mk.inj (Option.some.inj (htarget'.symm.trans hdata))
      exact hne heq.symm
  rw [h.data r hr, hat] at hsame
  have hat' : vm₁'.dataAt r' = some (data.rename φ) := d'.written r' _ htarget'
  obtain ⟨addrs, hsound⟩ := d'.sound
  cases data with
  | string text textHash =>
    refine hne (hsound.heapOk.unique (φ r) r' ⟨_, _, hsame⟩ ⟨_, _, hat'⟩ ?_)
    rw [chars_eq hsame, chars_eq hat']
  | _ => cases hstring

/-- The addresses that belong together afterwards. -/
theorem Operation.Done.exists_rename (d : op.Done c size vm r change (results, vm₁))
    (d' : (op.rename φ a).Done c' size' vm' r' (change.rename φ) (results', vm₁'))
    (h : Similar φ (op.pushed vm) ((op.rename φ a).pushed vm')) (h' : Similar φ vm vm') :
    ∃ ψ : Addr → Addr, (∀ b, (op.pushed vm).Reachable b → ψ b = φ b) ∧
      (op.address.isSome → ψ r = r') ∧
      ∀ b d, (op.pushed vm).Reachable b ∨ (op.address.isSome ∧ b = r) →
        (op.pushed vm).Reachable d ∨ (op.address.isSome ∧ d = r) → ψ b = ψ d → b = d := by
  by_cases hnew : op.address.isSome
  · obtain ⟨b, hb⟩ := Option.isSome_iff_exists.1 hnew
    have hpushed : op.pushed vm = vm := Operation.pushed_of_address hb
    rw [hpushed]
    have hagree : ∀ b, vm.Reachable b → Function.update φ r r' b = φ b := by
      intro b hb
      by_cases hr : b = r
      · rw [hr, Function.update_self]
        exact (d.found d' h' hnew (hr ▸ hb)).symm
      · rw [Function.update_of_ne hr]
    refine ⟨Function.update φ r r', hagree, fun _ => Function.update_self _ _ _, ?_⟩
    rintro b e (hb | ⟨-, rfl⟩) (he | ⟨-, rfl⟩) heq
    · rw [hagree b hb, hagree e he] at heq
      exact h'.injective b e hb he heq
    · rw [hagree b hb, Function.update_self] at heq
      exact d.new_unique d' h' hnew hb heq
    · rw [hagree e he, Function.update_self] at heq
      exact (d.new_unique d' h' hnew he heq.symm).symm
    · rfl
  · refine ⟨φ, fun _ _ => rfl, fun hsome => absurd hsome hnew, ?_⟩
    rintro b e (hb | ⟨hsome, -⟩) (he | ⟨hsome', -⟩) heq
    · exact h.injective b e hb he heq
    · exact absurd hsome' hnew
    · exact absurd hsome hnew
    · exact absurd hsome hnew

/-- One operation on two similar memories. -/
theorem Operation.Done.similar (d : op.Done c size vm r change (results, vm₁))
    (d' : (op.rename φ a).Done c' size' vm' r' (change.rename φ) (results', vm₁'))
    (h : Similar φ (op.pushed vm) ((op.rename φ a).pushed vm')) (h' : Similar φ vm vm')
    (hwithin : Change.Within op vm change) :
    ∃ ψ : Addr → Addr, (∀ b, vm.Reachable b → ψ b = φ b) ∧ results' = results.map ψ ∧
      Similar ψ (vm₁.hold results) (vm₁'.hold (results.map ψ)) := by
  obtain ⟨ψ, hagree, hr, hinjective⟩ := d.exists_rename d' h h'
  have hψ : Similar ψ vm vm' := h'.congr fun b hb => hagree b (reachable_pushed hb)
  have hresults : results' = results.map ψ := by
    have hreturned : results = if op.address.isSome then [r] else [] := d.returned
    have hreturned' : results' = if (op.rename φ a).address.isSome then [r'] else [] := d'.returned
    rw [hreturned', hreturned, Operation.isSome_address_rename]
    split
    · rename_i hnew
      rw [List.map_singleton, hr hnew]
    · rfl
  have htarget : ∀ b data, change.target r = some (b, data) →
      (change.rename φ).target r' = some (ψ b, data.rename ψ) := by
    intro b data hb
    obtain ⟨⟨t, data'⟩, hwritten, hpair⟩ := Option.map_eq_some_iff.1 hb
    obtain ⟨rfl, rfl⟩ := Prod.mk.inj hpair
    have hdata : data'.rename φ = data'.rename ψ :=
      Data.rename_congr fun b hb => (hagree b (hwithin.refs t data' hwritten b hb)).symm
    simp only [Change.target, Change.rename, hwritten, Option.map_some, hdata]
    cases t with
    | none => rw [Option.map_none, Option.getD_none, Option.getD_none, hr (hwithin.address _ hwritten)]
    | some b => rw [Option.map_some, Option.getD_some, Option.getD_some,
        hagree b (reachable_pushed (hwithin.target b _ hwritten))]
  refine ⟨ψ, fun b hb => hagree b (reachable_pushed hb), hresults, ?_, ?_, ?_, ?_, ?_, ?_, fun b hb => ?_,
    fun b e hb he => hinjective b e (d.reachable hwithin hb) (d.reachable hwithin he)⟩
  · show vm₁'.stack ++ (results.map ψ).map Value.obj
      = (vm₁.stack ++ results.map Value.obj).map (Value.rename ψ)
    rw [d'.roots.stack, d.roots.stack, hψ.stack, List.map_append, List.map_map, List.map_map]
    rfl
  · show vm₁'.frames = vm₁.frames.map ψ
    rw [d'.roots.frames, d.roots.frames, hψ.frames]
  · show vm₁'.openUpvalues = vm₁.openUpvalues.map ψ
    rw [d'.roots.openUpvalues, d.roots.openUpvalues, hψ.openUpvalues]
  · show vm₁'.compilers = vm₁.compilers.map ψ
    rw [d'.roots.compilers, d.roots.compilers, hψ.compilers]
  · show vm₁'.initString = vm₁.initString.map ψ
    rw [d'.roots.initString, d.roots.initString, hψ.initString]
  · show vm₁'.globals = renameTable ψ vm₁.globals
    have hglobals : vm₁.globals = change.globals := d.globals
    have hglobals' : vm₁'.globals = renameTable φ change.globals := d'.globals
    rw [hglobals', hglobals]
    exact renameTable_congr fun b hb => (hagree b (reachable_pushed (hwithin.globals b hb))).symm
  · show vm₁'.dataAt (ψ b) = (vm₁.dataAt b).map (Data.rename ψ)
    by_cases hwritten : ∃ data, change.target r = some (b, data)
    · obtain ⟨data, hb'⟩ := hwritten
      have hat : vm₁.dataAt b = some data := d.written b data hb'
      have hat' : vm₁'.dataAt (ψ b) = some (data.rename ψ) := d'.written _ _ (htarget b data hb')
      rw [hat, hat', Option.map_some]
    · rcases d.reachable hwithin hb with hreach | ⟨hnew, rfl⟩
      · have hsame : vm₁.dataAt b = vm.dataAt b :=
          d.same b hreach fun data hdata => hwritten ⟨data, hdata⟩
        have hreach' : ((op.rename φ a).pushed vm').Reachable (ψ b) := by
          rw [hagree b hreach]
          exact h.reachable hreach
        have hsame' : vm₁'.dataAt (ψ b) = vm'.dataAt (ψ b) := by
          refine d'.same (ψ b) hreach' fun data hdata => ?_
          obtain ⟨e, data', he⟩ : ∃ e data', change.target r = some (e, data') := by
            cases hw : change.written with
            | none => simp [Change.target, Change.rename, hw] at hdata
            | some written =>
              exact ⟨written.1.getD r, written.2, by simp only [Change.target, hw, Option.map_some]⟩
          obtain ⟨heq, -⟩ := Prod.mk.inj (Option.some.inj (hdata.symm.trans (htarget e data' he)))
          obtain rfl : b = e := hinjective b e (.inl hreach) (hwithin.target_mem he) heq
          exact hwritten ⟨data', he⟩
        have hdata := (h.congr hagree).data b hreach
        rw [dataAt_pushed, dataAt_pushed] at hdata
        rw [hsame', hsame, hdata]
      · obtain ⟨data, -, htarget', -⟩ := d.target_new hnew
        exact absurd ⟨data, htarget'⟩ hwritten

end TwoMemories

/-! ### Programs -/

theorem Roots.addrs_rename (roots : Roots N) : (roots.rename φ).addrs = roots.addrs.map φ := by
  simp only [Roots.addrs, Roots.rename, flatMap_refs_rename, List.map_append]

/-- The roots change, and what is held. -/
theorem Similar.withRoots {ψ : Addr → Addr} {results : List Addr}
    (h : Similar ψ (vm₁.hold results) (vm₁'.hold (results.map ψ))) (roots : Roots N)
    (hroots : ∀ b ∈ roots.addrs ++ held, vm₁.Reachable b ∨ b ∈ results) :
    Similar ψ ((vm₁.withRoots roots).hold held)
      ((vm₁'.withRoots (roots.rename ψ)).hold (held.map ψ)) := by
  have hrerooted := h.reroot (roots.stack ++ held.map Value.obj) roots.frames roots.openUpvalues
    roots.compilers fun b hb => by
      rw [List.flatMap_append, flatMap_refs_obj, List.mem_append] at hb
      have hmem : b ∈ roots.addrs ++ held := by
        simp only [Roots.addrs, List.mem_append]
        tauto
      rcases hroots b hmem with hreach | hmem
      · exact reachable_hold hreach
      · exact .root (mem_roots_hold.2 (.inl hmem))
  rw [List.map_append, ← map_obj_rename] at hrerooted
  exact hrerooted

/-- A moment at which a program calls an operation. -/
structure Moment (N : Type) where
  vm : VM N
  held : List Addr
  op : Operation N

/-- The same operation is called with the same objects at other addresses. -/
def Moment.Alike (m m' : Moment N) : Prop :=
  ∃ φ a, Similar φ (m.vm.hold m.held) (m'.vm.hold m'.held) ∧ m'.held = m.held.map φ ∧
    m'.op = m.op.rename φ a

/-- A run of a program from the state `vm₀`, with garbage collected as the schedule `gc` says: the
moments so far, the state it is in, and what it holds. -/
inductive Run (size : Sizes) (gc : ℕ → VM N → Bool) (vm₀ : VM N) :
    List (Moment N) → VM N → List Addr → Prop where
  | start : Run size gc vm₀ [] vm₀ []
  | move {past : List (Moment N)} {vm vm₁ : VM N} {held held₁ results : List Addr} {op : Operation N}
      {n : ℕ} {roots : Roots N} (h : Run size gc vm₀ past vm held) (henabled : op.Enabled vm)
      (hholds : op.Holds held vm) (hrun : op.run (gc past.length) size n vm = some (results, vm₁))
      (hroots : ∀ a ∈ roots.addrs ++ held₁, vm₁.Reachable a ∨ a ∈ results) :
      Run size gc vm₀ (past ++ [⟨vm, held, op⟩]) (vm₁.withRoots roots) held₁

variable {size size' : Sizes} {vm₀ : VM N} {gc : ℕ → VM N → Bool} {past : List (Moment N)}

theorem Run.session (h : Run size gc vm₀ past vm held) (h₀ : Session size vm₀) : Session size vm := by
  induction h with
  | start => exact h₀
  | move h henabled hholds hrun hroots ih =>
    exact ih.step ⟨_, _, _, _, _, _, henabled, hrun,
      fun a ha => hroots a (List.mem_append_left _ ha), rfl⟩

theorem exists_fresh (h : Session size vm) : ∃ a, vm.heap a = none := by
  obtain ⟨addrs, hsound⟩ := h.sound
  obtain ⟨a, ha⟩ := Infinite.exists_notMem_finset addrs.toFinset
  refine ⟨a, Option.not_isSome_iff_eq_none.1 fun hsome => ha ?_⟩
  exact List.mem_toFinset.2 ((hsound.heapOk.listed a).1 hsome)

/-- An operation on similar memories has similar results, wherever garbage is collected on the way. -/
theorem operation_transparent (hs : Session size vm) (hs' : Session size' vm')
    (h : Similar φ (vm.hold held) (vm'.hold (held.map φ))) {collect : VM N → Bool} {n : ℕ}
    {results : List Addr} (henabled : op.Enabled vm) (hholds : op.Holds held vm)
    (hrun : op.run collect size n vm = some (results, vm₁)) {a : Addr} (hfresh : vm'.heap a = none) :
    ∃ bound, ∀ collect' n', bound ≤ n' → ∃ ψ vm₁',
      (op.rename φ a).run collect' size' n' vm' = some (results.map ψ, vm₁') ∧
      (∀ b, vm.Reachable b → ψ b = φ b) ∧
      Similar ψ (vm₁.hold results) (vm₁'.hold (results.map ψ)) := by
  obtain ⟨addrs, hsound⟩ := hs.sound
  obtain ⟨addrs', hsound'⟩ := hs'.sound
  obtain ⟨r, change, d⟩ :=
    (Operation.run_runs hsound op henabled (fun hf : False => hf.elim) fun hf => hf.elim).result _ hrun
  have hsimilar := h.of_hold
  have hpushed := h.pushed hholds a
  have henabled' := h.enabled_of_hold hholds henabled a
  refine ⟨addrs'.length + 1, fun collect' n' hn => ?_⟩
  have hruns : Runs True ((op.rename φ a).run collect' size' n' vm') fun result => ∃ r change,
      (op.rename φ a).Done 8 size' vm' r change result := by
    refine Operation.run_runs hsound' _ henabled' (fun _ => hn) fun _ b hb => ?_
    rw [Operation.address_rename] at hb
    obtain ⟨-, -, rfl⟩ := Option.map_eq_some_iff.1 hb
    exact hfresh
  obtain ⟨⟨results', vm₁'⟩, hrun', r', change', d'⟩ := hruns.exists_result trivial
  obtain rfl : change.rename φ = change' :=
    Option.some.inj ((hsimilar.meant henabled hholds d.meant a).symm.trans d'.meant)
  obtain ⟨ψ, hagree, rfl, hψ⟩ := d.similar d' hpushed hsimilar (op.within henabled d.meant)
  exact ⟨ψ, vm₁', hrun', hagree, hψ⟩

/-- Whatever a program does when garbage is collected at some moments, it also does when garbage is
collected at any other moments, or never: it calls the same operations, one after the other, with the
same objects, and all that it can reach in the end is the same, up to addresses. -/
theorem collections_invisible (h₀ : Session size vm₀) (h : Run size gc vm₀ past vm held)
    (gc' : ℕ → VM N → Bool) : ∃ φ past' vm', Run size gc' vm₀ past' vm' (held.map φ) ∧
      List.Forall₂ Moment.Alike past past' ∧ Similar φ (vm.hold held) (vm'.hold (held.map φ)) := by
  induction h with
  | start =>
    refine ⟨id, [], vm₀, .start, .nil, ?_⟩
    exact Similar.refl _
  | @move past vm vm₁ held held₁ results op n roots h henabled hholds hrun hroots ih =>
    obtain ⟨φ, past', vm', hrun', halike, hsimilar⟩ := ih
    have hs' := hrun'.session h₀
    obtain ⟨a, ha⟩ := exists_fresh hs'
    obtain ⟨bound, hop⟩ :=
      operation_transparent (h.session h₀) hs' hsimilar henabled hholds hrun ha
    obtain ⟨ψ, vm₁', hop', hagree, hsimilar'⟩ := hop (gc' past'.length) bound le_rfl
    have hnext := hsimilar'.withRoots roots hroots
    refine ⟨ψ, past' ++ [⟨vm', held.map φ, op.rename φ a⟩], _, ?_, ?_, hnext⟩
    · refine hrun'.move (hsimilar.enabled_of_hold hholds henabled a) (hsimilar.holds hholds a) hop' ?_
      intro b hb
      rw [Roots.addrs_rename, ← List.map_append] at hb
      obtain ⟨e, he, rfl⟩ := List.mem_map.1 hb
      exact (hroots e he).imp hsimilar'.of_hold.reachable List.mem_map_of_mem
    · exact List.rel_append halike (.cons ⟨φ, a, hsimilar, rfl, rfl⟩ .nil)

theorem collections_invisible_start : ∃ (vm₀ vm vm' : VM ℕ) (φ : Addr → Addr)
    (past past' : List (Moment ℕ)), Run lp64 (fun _ _ => true) vm₀ past vm [] ∧ past.length = 1 ∧
      Run lp64 (fun _ _ => false) vm₀ past' vm' [] ∧ Similar φ (vm.hold []) (vm'.hold []) := by
  obtain ⟨vm₀, h₀⟩ := exists_session
  obtain ⟨addrs, hsound⟩ := h₀.sound
  obtain ⟨a, ha⟩ := exists_fresh h₀
  have hruns : Runs True ((Operation.copyString a "lox".toList : Operation ℕ).run (fun _ => true) lp64
      (addrs.length + 1) vm₀) _ :=
    Operation.run_runs hsound _ trivial (fun _ => le_rfl) fun _ b hb => by
      obtain rfl := Option.some.inj hb
      exact ha
  obtain ⟨⟨results, vm₁⟩, hrun, -⟩ := hruns.exists_result trivial
  have h : Run lp64 (fun _ _ => true) vm₀ [⟨vm₀, [], .copyString a "lox".toList⟩]
      (vm₁.withRoots ⟨[], [], [], []⟩) [] :=
    Run.start.move trivial trivial hrun fun b hb => by cases hb
  obtain ⟨φ, past', vm', hrun', -, hsimilar⟩ := collections_invisible h₀ h fun _ _ => false
  exact ⟨vm₀, _, vm', φ, _, past', h, rfl, hrun', hsimilar⟩

end Lox.Clox.Memory
