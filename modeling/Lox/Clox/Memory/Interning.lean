import Lox.Clox.Memory.Operations

/-!
# Strings are interned

`copyString`, `takeString` and `concatenate` look a string up before they make a new one.  Memory may
be collected after the lookup: then strings go away, but none comes, so the new string is still the
only one with its characters when it is put into `vm.strings`.
-/

namespace Lox.Clox.Memory

open HashTable Rounds

variable {N : Type}

namespace VM

variable {vm vm' : VM N} {addrs addrs' : List Addr} {size : Sizes} {n c : ℕ} {pending : Option Addr}
  {gc : VM N → Bool} {enough : Prop} {locals : List (Block × ℕ)} {a : Addr} {chars : Name}

/-! ### Roots -/

theorem Sound.reroot (h : Sound c size pending locals vm addrs) {stack : List (Value N)}
    {frames openUpvalues compilers : List Addr} {initString : Option Addr}
    (hroots : ∀ a ∈ VM.roots { vm with
      stack := stack, frames := frames, openUpvalues := openUpvalues, compilers := compilers
      initString := initString }, (vm.heap a).isSome) :
    Sound c size pending locals { vm with
      stack := stack, frames := frames, openUpvalues := openUpvalues, compilers := compilers
      initString := initString } addrs :=
  ⟨h.heapOk.reroot hroots, h.books⟩

theorem mem_roots_push {value : Value N} {b : Addr} :
    b ∈ (vm.push value).roots ↔ b ∈ value.refs ∨ b ∈ vm.roots := by
  simp only [roots, push, List.flatMap_append, List.flatMap_singleton, List.mem_append]
  tauto

theorem mem_roots_pop {b : Addr} (h : b ∈ vm.pop.roots) : b ∈ vm.roots := by
  simp only [roots, pop, List.mem_append] at h ⊢
  rcases h with ((((hstack | h) | h) | h) | h) | h
  · obtain ⟨value, hvalue, hb⟩ := List.mem_flatMap.1 hstack
    have hmem : b ∈ vm.stack.flatMap Value.refs :=
      List.mem_flatMap.2 ⟨value, List.mem_of_mem_dropLast hvalue, hb⟩
    tauto
  all_goals tauto

theorem Sound.push (h : Sound c size pending locals vm addrs) (value : Value N)
    (hvalue : ∀ b ∈ value.refs, (vm.heap b).isSome) :
    Sound c size pending locals (vm.push value) addrs :=
  h.reroot fun b hb => (mem_roots_push.1 hb).elim (hvalue b) (h.heapOk.rooted b)

theorem Sound.pop (h : Sound c size pending locals vm addrs) :
    Sound c size pending locals vm.pop addrs :=
  h.reroot fun b hb => h.heapOk.rooted b (mem_roots_pop hb)

/-- A value on the stack can be reached, and so can what could be reached before. -/
theorem reachable_push {value : Value N} {b : Addr} (hb : b ∈ value.refs ∨ vm.Reachable b) :
    (vm.push value).Reachable b := by
  rcases hb with hb | hb
  · exact .root (mem_roots_push.2 (.inl hb))
  · exact hb.mono (fun r hr => .root (mem_roots_push.2 (.inr hr))) fun _ _ _ hy => hy

/-! ### Strings -/

theorem chars_eq {hash : UInt32} (h : vm.dataAt a = some (.string chars hash)) :
    vm.chars a = chars := by
  simp [VM.chars, h]

/-- What is known after a string was made or found. -/
structure Interned (c : ℕ) (size : Sizes) (chars : Name) (vm : VM N) (addrs : List Addr) (a : Addr)
    (vm' : VM N) (addrs' : List Addr) : Prop where
  sound : Sound c size none [] vm' addrs'
  at_ : vm'.dataAt a = some (.string chars (hashString chars))
  roots : SameRoots vm vm'
  globals : vm'.globals = vm.globals
  same : ∀ b, vm.Reachable b → vm'.dataAt b = vm.dataAt b
  length : addrs'.length ≤ addrs.length + 1

theorem Interned.string (h : Interned c size chars vm addrs a vm' addrs') : vm'.IsString a :=
  ⟨_, _, h.at_⟩

/-- The string is the same after a collection that came first. -/
theorem Interned.after {vm₁ : VM N} {addrs₁ : List Addr} (hc : Collects vm vm₁ addrs addrs₁)
    (h : Interned c size chars vm₁ addrs₁ a vm' addrs') : Interned c size chars vm addrs a vm' addrs' :=
  ⟨h.sound, h.at_, hc.roots.trans h.roots, h.globals.trans hc.globals,
    fun b hb => (h.same b ((hc.reachable b).2 hb)).trans (hc.data b hb),
    h.length.trans (Nat.succ_le_succ hc.sublist.length_le)⟩

theorem allocateString_runs (h : Sound c size none [(.scratch, chars.length + 1)] vm addrs)
    (hn : enough → addrs.length + 1 ≤ n) (hfresh : enough → vm.heap a = none)
    (hnew : ∀ b, vm.IsString b → vm.chars b ≠ chars) :
    Runs enough (vm.allocateString gc size n a chars (hashString chars)) fun vm' => ∃ addrs',
      Interned c size chars vm addrs a vm' addrs' := by
  unfold allocateString
  refine (allocateObject_runs h (fun he => by have := hn he; omega) hfresh (by simp)
    (fun b hb => by cases hb) (fun t ht => by cases ht) ?_).bind ?_
  · rintro chars' hash' heq
    cases heq
    exact ⟨rfl, hnew⟩
  rintro vm₁ ⟨addrs₁, halloc⟩
  have hsettled := halloc.settle (.chars a) rfl (fun heq => by cases heq)
  have hat : (vm₁.settle (.chars a)).dataAt a = some (.string chars (hashString chars)) := halloc.at_
  have hlive : ((vm₁.settle (.chars a)).heap a).isSome := by
    rw [isSome_heap_iff, hat]
    rfl
  have hpushed := hsettled.push (.obj a) fun b hb => by
    rw [List.mem_singleton.1 hb]
    exact hlive
  have hlength := halloc.length
  have hreach : ((vm₁.settle (.chars a)).push (.obj a)).Reachable a :=
    reachable_push (.inl List.mem_cons_self)
  have hstring : ((vm₁.settle (.chars a)).push (.obj a)).IsString a := ⟨_, _, hat⟩
  refine (tableSet_runs hpushed (fun he => ?_) .strings rfl (fun b hb => by cases hb)
    hreach hstring (fun b hb => by cases hb) (.inl ⟨rfl, rfl⟩)).bind ?_
  · have := hn he
    simp only [List.length_cons]
    omega
  rintro vm₂ ⟨addrs₂, t', hgrown⟩
  have hdata : vm₂.dataAt a = some (.string chars (hashString chars)) :=
    (hgrown.strings a hreach hstring).trans hat
  have hroots := hgrown.roots
  have hpopped : SameRoots vm₁ vm₂.pop :=
    ⟨by simp [pop, hroots.stack, push, VM.settle], hroots.frames, hroots.openUpvalues,
      hroots.compilers, hroots.initString⟩
  refine Runs.pure ⟨addrs₂, hgrown.sound.pop, hdata, halloc.roots.trans hpopped, ?_,
    fun b hb => ?_, ?_⟩
  · exact (hgrown.globals fun heq => by cases heq).trans halloc.globals
  · refine (hgrown.data b (reachable_push (.inr ?_)) fun heq => by cases heq).trans (halloc.same b hb)
    refine hb.mono (fun r hr => .root ?_) fun x hx y hy => ?_
    · show r ∈ vm₁.roots
      rw [halloc.roots.roots_eq halloc.globals]
      exact hr
    · show y ∈ vm₁.refs x
      simp only [refs, halloc.same x hx]
      exact hy
  · have := hgrown.length
    simp only [List.length_cons] at this
    omega

/-- A string that is not found does not exist. -/
theorem HeapOk.not_found (h : HeapOk c vm addrs none)
    (hfind : tableFindString vm.hash vm.chars chars (hashString chars) vm.strings = some none) :
    ∀ b, vm.IsString b → vm.chars b ≠ chars := by
  intro b hb heq
  obtain ⟨value, hmem⟩ := (h.keys b).2 ⟨hb, by simp⟩
  obtain ⟨chars', hash', hdata⟩ := hb
  have hchars : vm.chars b = chars' := chars_eq hdata
  have hhash : vm.hash b = hashString chars := by
    rw [← heq, hchars, ← h.hashes b chars' hash' hdata]
    simp [VM.hash, hdata]
  exact h.strings.tableFindString_none hfind hmem hhash heq

theorem HeapOk.found (h : HeapOk c vm addrs none) {textHash : UInt32}
    (hfind : tableFindString vm.hash vm.chars chars textHash vm.strings = some (some a)) :
    vm.dataAt a = some (.string chars (hashString chars)) := by
  obtain ⟨hmem, hchars⟩ := h.strings.tableFindString_some hfind
  obtain ⟨chars', hash', hdata⟩ := ((h.keys a).1 hmem).1
  have heq : chars' = chars := (chars_eq hdata).symm.trans hchars
  rw [hdata, h.hashes a chars' hash' hdata, heq]

theorem Collects.not_found (hc : Collects vm vm' addrs addrs')
    (hnew : ∀ b, vm.IsString b → vm.chars b ≠ chars) : ∀ b, vm'.IsString b → vm'.chars b ≠ chars := by
  rintro b ⟨chars', hash', hdata⟩
  have hold := hc.old b _ hdata
  rw [chars_congr (hdata.trans hold.symm)]
  exact hnew b ⟨chars', hash', hold⟩

theorem copyString_runs (h : Sound c size none [] vm addrs) (hn : enough → addrs.length + 1 ≤ n)
    (hfresh : enough → vm.heap a = none) :
    Runs enough (vm.copyString gc size n a chars) fun result => ∃ addrs',
      Interned c size chars vm addrs result.1 result.2 addrs' := by
  have hok := h.heapOk
  obtain ⟨interned, hfind⟩ := Option.isSome_iff_exists.1
    (hok.strings.tableFindString_isSome vm.chars chars (hashString chars))
  simp only [copyString, hfind, Option.bind_eq_bind, Option.bind_some]
  cases interned with
  | some string =>
    exact Runs.pure ⟨addrs, h, hok.found hfind, SameRoots.refl vm, rfl, fun _ _ => rfl, by omega⟩
  | none =>
    refine (allocate_runs h (fun he => by have := hn he; omega) _).bind ?_
    rintro vm₁ ⟨addrs₁, hc, h₁⟩
    have hlength := hc.sublist.length_le
    refine (allocateString_runs h₁ (fun he => by have := hn he; omega)
      (fun he => hc.fresh (hfresh he)) (hc.not_found (hok.not_found hfind))).bind ?_
    rintro vm₂ ⟨addrs₂, h₂⟩
    exact Runs.pure ⟨addrs₂, h₂.after hc⟩

theorem takeString_runs (h : Sound c size none [(.scratch, chars.length + 1)] vm addrs)
    (hn : enough → addrs.length + 1 ≤ n) (hfresh : enough → vm.heap a = none) :
    Runs enough (vm.takeString gc size n a chars) fun result => ∃ addrs',
      Interned c size chars vm addrs result.1 result.2 addrs' := by
  have hok := h.heapOk
  obtain ⟨interned, hfind⟩ := Option.isSome_iff_exists.1
    (hok.strings.tableFindString_isSome vm.chars chars (hashString chars))
  simp only [takeString, hfind, Option.bind_eq_bind, Option.bind_some]
  cases interned with
  | some string =>
    exact Runs.pure ⟨addrs, ⟨hok.reroot hok.rooted, h.books.free⟩, hok.found hfind,
      ⟨rfl, rfl, rfl, rfl, rfl⟩, rfl, fun _ _ => rfl, by omega⟩
  | none =>
    refine (allocateString_runs h hn hfresh (hok.not_found hfind)).bind ?_
    rintro vm₁ ⟨addrs₁, h₁⟩
    exact Runs.pure ⟨addrs₁, h₁⟩

theorem concatenate_runs (h : Sound c size none [] vm addrs) (hn : enough → addrs.length + 1 ≤ n)
    (hfresh : enough → vm.heap a = none) (first second : Addr) :
    Runs enough (vm.concatenate gc size n a first second) fun result => ∃ addrs',
      Interned c size (vm.chars first ++ vm.chars second) vm addrs result.1 result.2 addrs' := by
  unfold concatenate
  refine (allocate_runs h (fun he => by have := hn he; omega) _).bind ?_
  rintro vm₁ ⟨addrs₁, hc, h₁⟩
  have hlength := hc.sublist.length_le
  refine (takeString_runs h₁ (fun he => by have := hn he; omega)
    fun he => hc.fresh (hfresh he)).imp ?_
  rintro result ⟨addrs₂, h₂⟩
  exact ⟨addrs₂, h₂.after hc⟩

end VM

end Lox.Clox.Memory
