import Lox.Clox.Memory.Allocation

/-!
# Keeping the books

`Ledger.Holds l owned extra` says that the ledger knows the blocks of a list with their sizes and no
others, and that `bytesAllocated` is their sum, up to `extra` bytes that `reallocate` has counted but
not yet got.
-/

namespace Lox.Clox.Memory

variable {N : Type}

namespace Ledger

/-- The ledger is right about the blocks of the list. -/
structure Holds (l : Ledger) (owned : List (Block × ℕ)) (extra : ℤ) : Prop where
  nodup : (owned.map Prod.fst).Nodup
  sizes : ∀ p ∈ owned, l.blocks p.1 = p.2
  others : ∀ b ∉ owned.map Prod.fst, l.blocks b = 0
  bytes : l.bytesAllocated = (owned.map Prod.snd).sum + extra
  right : l.sizesRight = true

variable {l : Ledger} {owned owned' : List (Block × ℕ)} {extra : ℤ} {b : Block} {k k' : ℕ}

theorem Holds.perm (h : l.Holds owned extra) (hperm : owned.Perm owned') : l.Holds owned' extra where
  nodup := (hperm.map Prod.fst).nodup_iff.1 h.nodup
  sizes p hp := h.sizes p (hperm.mem_iff.2 hp)
  others b hb := h.others b fun hmem => hb ((hperm.map Prod.fst).mem_iff.1 hmem)
  bytes := by rw [h.bytes, (hperm.map Prod.snd).sum_eq]
  right := h.right

/-- No other block has the name of the first one. -/
theorem Holds.ne_head (h : l.Holds ((b, k) :: owned) extra) {p : Block × ℕ} (hp : p ∈ owned) :
    p.1 ≠ b := by
  intro heq
  have hmem : p.1 ∈ owned.map Prod.fst := List.mem_map_of_mem hp
  exact (List.nodup_cons.1 h.nodup).1 (heq ▸ hmem)

/-- The first line of `reallocate`, with the right old size. -/
theorem Holds.account (h : l.Holds owned extra) {pointer : Option Block} {oldSize : ℕ}
    (hold : (pointer.map l.blocks).getD 0 = oldSize) (newSize : ℕ) :
    (l.account pointer oldSize newSize).Holds owned (extra + (newSize - oldSize)) where
  nodup := h.nodup
  sizes := h.sizes
  others := h.others
  bytes := by
    show l.bytesAllocated + _ = _
    rw [h.bytes]
    ring
  right := by simp [Ledger.account, h.right, hold]

/-- A block is new. -/
theorem Holds.grant (h : l.Holds owned (k : ℤ)) (hb : b ∉ owned.map Prod.fst) :
    (l.resize b k).Holds ((b, k) :: owned) 0 where
  nodup := List.nodup_cons.2 ⟨hb, h.nodup⟩
  sizes p hp := by
    rcases List.mem_cons.1 hp with rfl | hp
    · exact Function.update_self _ _ _
    · have hne : p.1 ≠ b := fun heq => hb (heq ▸ List.mem_map_of_mem hp)
      exact (Function.update_of_ne hne _ _).trans (h.sizes p hp)
  others b' hb' := by
    have hne : b' ≠ b := fun heq => hb' (by simp [heq])
    refine (Function.update_of_ne hne _ _).trans (h.others b' fun hmem => hb' ?_)
    exact List.mem_cons_of_mem b hmem
  bytes := by
    show l.bytesAllocated = _
    rw [h.bytes]
    simp
    ring
  right := h.right

/-- A block has got its new size. -/
theorem Holds.grow (h : l.Holds ((b, k) :: owned) (k' - k)) :
    (l.resize b k').Holds ((b, k') :: owned) 0 where
  nodup := h.nodup
  sizes p hp := by
    rcases List.mem_cons.1 hp with rfl | hp
    · exact Function.update_self _ _ _
    · exact (Function.update_of_ne (h.ne_head hp) _ _).trans (h.sizes p (List.mem_cons_of_mem _ hp))
  others b' hb' := by
    have hne : b' ≠ b := fun heq => hb' (by simp [heq])
    exact (Function.update_of_ne hne _ _).trans (h.others b' hb')
  bytes := by
    show l.bytesAllocated = _
    rw [h.bytes]
    simp
    ring
  right := h.right

/-- A block of size 0 is no block. -/
theorem Holds.empty (h : l.Holds owned extra) (hb : b ∉ owned.map Prod.fst) :
    l.Holds ((b, 0) :: owned) extra where
  nodup := List.nodup_cons.2 ⟨hb, h.nodup⟩
  sizes p hp := by
    rcases List.mem_cons.1 hp with rfl | hp
    · exact h.others _ hb
    · exact h.sizes p hp
  others b' hb' := h.others b' fun hmem => hb' (List.mem_cons_of_mem b hmem)
  bytes := by simp [h.bytes]
  right := h.right

theorem Holds.emptyBlocks {blocks : List (Block × ℕ)} (h : l.Holds owned extra)
    (hzero : ∀ p ∈ blocks, p.2 = 0) (hnodup : (blocks.map Prod.fst).Nodup)
    (hnew : ∀ p ∈ blocks, p.1 ∉ owned.map Prod.fst) : l.Holds (blocks ++ owned) extra := by
  induction blocks with
  | nil => exact h
  | cons p blocks ih =>
    obtain ⟨hp, hnodup⟩ := List.nodup_cons.1 hnodup
    have hrest := ih (fun q hq => hzero q (List.mem_cons_of_mem p hq)) hnodup
      fun q hq => hnew q (List.mem_cons_of_mem p hq)
    obtain ⟨b, k⟩ := p
    obtain rfl : k = 0 := hzero _ List.mem_cons_self
    refine hrest.empty fun hmem => ?_
    rw [List.map_append, List.mem_append] at hmem
    exact hmem.elim hp (hnew _ List.mem_cons_self)

theorem Holds.free (h : l.Holds ((b, k) :: owned) extra) : (l.free b k).Holds owned extra where
  nodup := (List.nodup_cons.1 h.nodup).2
  sizes p hp :=
    (Function.update_of_ne (h.ne_head hp) _ _).trans (h.sizes p (List.mem_cons_of_mem _ hp))
  others b' hb' := by
    by_cases hne : b' = b
    · rw [hne]
      exact Function.update_self _ _ _
    · refine (Function.update_of_ne hne _ _).trans (h.others b' fun hmem => ?_)
      exact (List.mem_cons.1 hmem).elim hne hb'
  bytes := by
    show l.bytesAllocated + _ = _
    rw [h.bytes]
    simp
    ring
  right := by
    have hsize : l.blocks b = k := h.sizes (b, k) List.mem_cons_self
    simp [Ledger.free, Ledger.account, Ledger.resize, h.right, hsize]

theorem Holds.freeBlocks {blocks : List (Block × ℕ)} (h : l.Holds (blocks ++ owned) extra) :
    (blocks.foldl (fun l block => l.free block.1 block.2) l).Holds owned extra := by
  induction blocks generalizing l with
  | nil => exact h
  | cons p blocks ih => exact ih (Holds.free h)

/-- The block of a local variable goes to its owner. -/
theorem Holds.settle (h : l.Holds ((.scratch, k) :: owned) extra) (hb : b ∉ owned.map Prod.fst)
    (hne : b ≠ .scratch) :
    ((l.resize b (l.blocks .scratch)).resize .scratch 0).Holds ((b, k) :: owned) extra where
  nodup := List.nodup_cons.2 ⟨hb, (List.nodup_cons.1 h.nodup).2⟩
  sizes p hp := by
    rcases List.mem_cons.1 hp with rfl | hp
    · refine (Function.update_of_ne hne _ _).trans ((Function.update_self _ _ _).trans ?_)
      exact h.sizes (.scratch, k) List.mem_cons_self
    · have hother : p.1 ≠ b := fun heq => hb (heq ▸ List.mem_map_of_mem hp)
      refine (Function.update_of_ne (h.ne_head hp) _ _).trans
        ((Function.update_of_ne hother _ _).trans ?_)
      exact h.sizes p (List.mem_cons_of_mem _ hp)
  others b' hb' := by
    by_cases hscratch : b' = .scratch
    · show Function.update _ Block.scratch 0 b' = 0
      rw [hscratch, Function.update_self]
    · have hother : b' ≠ b := fun heq => hb' (by simp [heq])
      refine (Function.update_of_ne hscratch _ _).trans ((Function.update_of_ne hother _ _).trans ?_)
      refine h.others b' fun hmem => ?_
      exact (List.mem_cons.1 hmem).elim hscratch fun hmem => hb' (List.mem_cons_of_mem b hmem)
  bytes := by
    show l.bytesAllocated = _
    rw [h.bytes]
    simp
  right := h.right

end Ledger

/-- What the objects of a list own is given back. -/
theorem VM.freeAll_holds {size : Sizes} {data : Addr → Option (Data N)} {owned : List (Block × ℕ)}
    {extra : ℤ} (as : List Addr) : ∀ {l : Ledger},
    l.Holds (as.flatMap (fun a => ((data a).map (Data.blocks size a)).getD []) ++ owned) extra →
      (freeAll size data as l).Holds owned extra := by
  induction as with
  | nil =>
    intro l h
    exact h
  | cons a as ih =>
    intro l h
    simp only [freeAll, List.foldl_cons]
    refine ih ?_
    rw [List.flatMap_cons, List.append_assoc] at h
    cases hdata : data a with
    | none =>
      rw [hdata] at h
      exact h
    | some d =>
      rw [hdata] at h
      exact h.freeBlocks

end Lox.Clox.Memory
