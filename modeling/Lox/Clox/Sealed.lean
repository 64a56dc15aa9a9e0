import Lox.Clox.Disassembler

/-!
# Instructions that only follow another one

The compiler emits some instructions as the second half of a pair: `OP_METHOD` after the `OP_CLOSURE`
of the method, and `OP_RETURN` in an initializer after loading slot 0.  No jump goes between the two
halves, so `run` only gets to the second one through the first.

`Sealed B R is` says this of the code `is`: an instruction in `B` has a predecessor, to which it is
related by `R`, and is not the target of a jump.  `Emission.seal` shows it for all code that is
emitted, `init_returnsThis` and `generated_sealed` are the two cases.
-/

namespace Lox.Clox

variable {N : Type}

/-! ### Targets -/

/-- The code does not begin with an instruction in `B`. -/
def HeadFree (B : Instr → Prop) (is : List Instr) : Prop := ∀ j ∈ is.head?, ¬ B j

/-- An offset in the code at which no instruction in `B` starts. -/
def Safe (B : Instr → Prop) (is : List Instr) (t : ℤ) : Prop :=
  ∃ p q, is = p ++ q ∧ t = codeSize p ∧ HeadFree B q

/-- The jumps in `piece`, which comes after `p`, go to safe offsets of `code`. -/
def JumpsSafe (B : Instr → Prop) (code p piece : List Instr) : Prop :=
  ∀ p₁ i q₁ t, piece = p₁ ++ i :: q₁ → i.target (codeSize p + codeSize p₁) = some t → Safe B code t

/-- Instructions in `B` only follow instructions that are related to them. -/
def Paired (B : Instr → Prop) (R : Instr → Instr → Prop) (is : List Instr) : Prop :=
  ∀ p i q, is = p ++ i :: q → B i → ∃ p' j, p = p' ++ [j] ∧ R j i

/-- Instructions in `B` are only reached from the one before. -/
structure Sealed (B : Instr → Prop) (R : Instr → Instr → Prop) (is : List Instr) : Prop where
  paired : Paired B R is
  jumps : JumpsSafe B is [] is

section Pieces

variable {B : Instr → Prop} {R : Instr → Instr → Prop} {code p q is js : List Instr} {i : Instr}

theorem HeadFree.append (h₁ : HeadFree B is) (h₂ : HeadFree B js) : HeadFree B (is ++ js) := by
  cases is with
  | nil => exact h₂
  | cons i is => exact h₁

theorem HeadFree.cons (h : ¬ B i) : HeadFree B (i :: is) := by
  intro j hj
  cases hj
  exact h

theorem HeadFree.nil : HeadFree B [] := by
  intro j hj
  cases hj

theorem Paired.headFree (h : Paired B R is) : HeadFree B is := by
  cases is with
  | nil => exact HeadFree.nil
  | cons i is =>
    refine HeadFree.cons fun hi => ?_
    obtain ⟨p', j, hnil, -⟩ := h [] i is rfl hi
    simp at hnil

theorem Paired.append (h₁ : Paired B R is) (h₂ : Paired B R js) : Paired B R (is ++ js) := by
  intro p i q hsplit hi
  rcases List.append_eq_append_iff.1 hsplit with ⟨r, rfl, hjs⟩ | ⟨r, his, hr⟩
  · obtain ⟨p', j, rfl, hj⟩ := h₂ r i q hjs hi
    exact ⟨is ++ p', j, by simp, hj⟩
  · cases r with
    | nil =>
      obtain ⟨p', j, hnil, -⟩ := h₂ [] i q (by simpa using hr.symm) hi
      simp at hnil
    | cons i' r =>
      obtain ⟨rfl, rfl⟩ := List.cons.inj hr
      exact h₁ p i r his hi

theorem Paired.of_free (h : ∀ i ∈ is, ¬ B i) : Paired B R is := by
  rintro p i q rfl hi
  exact absurd hi (h i (by simp))

theorem Paired.mono {R' : Instr → Instr → Prop} (hR : ∀ j i, R j i → R' j i) (h : Paired B R is) :
    Paired B R' is := by
  intro p i q hsplit hi
  obtain ⟨p', j, hp, hj⟩ := h p i q hsplit hi
  exact ⟨p', j, hp, hR j i hj⟩

theorem JumpsSafe.append (h₁ : JumpsSafe B code p is) (h₂ : JumpsSafe B code (p ++ is) js) :
    JumpsSafe B code p (is ++ js) := by
  intro p₁ i q₁ t hsplit ht
  rcases List.append_eq_append_iff.1 hsplit with ⟨r, rfl, hjs⟩ | ⟨r, his, hr⟩
  · refine h₂ r i q₁ t hjs ?_
    rw [codeSize_append] at ht ⊢
    rw [← ht]
    congr 1
    omega
  · cases r with
    | nil =>
      refine h₂ [] i q₁ t (by simpa using hr.symm) ?_
      rw [List.append_nil] at his
      rw [← ht, his, codeSize_append]
      rfl
    | cons i' r =>
      obtain ⟨rfl, rfl⟩ := List.cons.inj hr
      exact h₁ p₁ i r t his ht

theorem JumpsSafe.single (h : ∀ t, i.target (codeSize p) = some t → Safe B code t) :
    JumpsSafe B code p [i] := by
  intro p₁ j q₁ t hsplit ht
  cases p₁ with
  | nil =>
    obtain ⟨rfl, -⟩ := List.cons.inj hsplit
    exact h t ht
  | cons k p₁ => simp at hsplit

theorem Paired.cons (hi : ¬ B i) (h : Paired B R is) : Paired B R (i :: is) := by
  have hsingle : Paired B R [i] := Paired.of_free (by simpa using hi)
  exact hsingle.append h

theorem JumpsSafe.cons (hi : ∀ t, i.target (codeSize p) = some t → Safe B code t)
    (h : JumpsSafe B code (p ++ [i]) is) : JumpsSafe B code p (i :: is) := by
  have hsingle : JumpsSafe B code p [i] := .single hi
  exact hsingle.append h

/-- Code without jumps. -/
theorem JumpsSafe.of_none (h : ∀ i ∈ is, ∀ o, i.target o = none) : JumpsSafe B code p is := by
  rintro p₁ i q₁ t rfl ht
  rw [h i (by simp)] at ht
  cases ht

theorem target_add {o n : ℕ} {t : ℤ} (h : i.target (o + n) = some t) :
    i.target n = some (t - o) := by
  cases i with
  | jump d | jumpIfFalse d | loop d =>
    simp only [Instr.target, Option.some.injEq] at h ⊢
    push_cast at h
    omega
  | _ => cases h

/-- A sealed piece, with other code around it. -/
theorem Sealed.within (h : Sealed B R is) (hcode : code = p ++ (is ++ q)) (hq : HeadFree B q) :
    JumpsSafe B code p is := by
  intro p₁ i q₁ t hsplit ht
  obtain ⟨p', q', his, ht', hfree⟩ := h.jumps p₁ i q₁ (t - codeSize p) hsplit (by
    rw [show codeSize [] = 0 from rfl, Nat.zero_add]
    exact target_add ht)
  refine ⟨p ++ p', q' ++ q, by rw [hcode, his]; simp, ?_, hfree.append hq⟩
  rw [codeSize_append]
  push_cast
  omega

theorem Sealed.at_end (h : Sealed B R is) (hcode : code = p ++ is) : JumpsSafe B code p is :=
  h.within (by rw [hcode, List.append_nil]) HeadFree.nil

namespace Sealed

theorem headFree (h : Sealed B R is) : HeadFree B is := h.paired.headFree

theorem append (h₁ : Sealed B R is) (h₂ : Sealed B R js) : Sealed B R (is ++ js) :=
  ⟨h₁.paired.append h₂.paired, .append (h₁.within rfl h₂.headFree) (h₂.at_end rfl)⟩

theorem mono {R' : Instr → Instr → Prop} (hR : ∀ j i, R j i → R' j i) (h : Sealed B R is) :
    Sealed B R' is :=
  ⟨h.paired.mono hR, h.jumps⟩

/-- Code without jumps and without instructions in `B`. -/
theorem of_free (hfree : ∀ i ∈ is, ¬ B i) (hnone : ∀ i ∈ is, ∀ o, i.target o = none) :
    Sealed B R is :=
  ⟨Paired.of_free hfree, JumpsSafe.of_none hnone⟩

end Sealed

end Pieces

/-! ### Jumps, branches and loops -/

section Jumps

variable {B : Instr → Prop} {R : Instr → Instr → Prop}

theorem codeSize_single (i : Instr) : codeSize [i] = i.size := by
  rw [codeSize_cons]
  rfl

theorem codeSize_nil : codeSize [] = 0 := rfl

theorem Instr.size_jump (d : ℕ) :
    (Instr.jump d).size = 3 ∧ (Instr.jumpIfFalse d).size = 3 ∧ (Instr.loop d).size = 3 :=
  ⟨rfl, rfl, rfl⟩

theorem Instr.size_pop : Instr.pop.size = 1 := rfl

/-- The instructions of jumps, loops and branches are none of those in `B`. -/
def JumpsFree (B : Instr → Prop) : Prop :=
  ∀ d, ¬ B (.jump d) ∧ ¬ B (.jumpIfFalse d) ∧ ¬ B (.loop d) ∧ ¬ B .pop

/-- A jump over a piece of code. -/
theorem Sealed.skip (hB : JumpsFree B) {is : List Instr} (h : Sealed B R is) {i : Instr}
    (hi : i = .jump (codeSize is) ∨ i = .jumpIfFalse (codeSize is)) : Sealed B R (i :: is) := by
  have hfree : ¬ B i := by
    rcases hi with rfl | rfl
    · exact (hB _).1
    · exact (hB _).2.1
  refine ⟨h.paired.cons hfree, .cons (fun t ht => ⟨i :: is, [], by simp, ?_, HeadFree.nil⟩)
    (h.at_end rfl)⟩
  rcases hi with rfl | rfl
  · simp only [Instr.target, Option.some.injEq, codeSize_nil] at ht
    rw [codeSize_cons, (Instr.size_jump _).1]
    push_cast
    omega
  · simp only [Instr.target, Option.some.injEq, codeSize_nil] at ht
    rw [codeSize_cons, (Instr.size_jump _).2.1]
    push_cast
    omega

/-- `OP_JUMP_IF_FALSE` over an `OP_JUMP` that is the way out. -/
theorem Sealed.skipUnless (hB : JumpsFree B) {is : List Instr} (h : Sealed B R is) :
    Sealed B R (.jumpIfFalse 3 :: .jump (codeSize is) :: is) := by
  have hskip := h.skip hB (.inl rfl)
  refine ⟨hskip.paired.cons (hB 3).2.1, .cons (fun t ht =>
    ⟨[.jumpIfFalse 3, .jump (codeSize is)], is, rfl, ?_, h.headFree⟩) (hskip.at_end rfl)⟩
  simp only [Instr.target, Option.some.injEq, codeSize_nil] at ht
  rw [codeSize_cons, codeSize_single, (Instr.size_jump _).1, (Instr.size_jump _).2.1]
  push_cast
  omega

/-- Two branches. -/
theorem Sealed.branch (hB : JumpsFree B) {ts es : List Instr} (hts : Sealed B R ts)
    (hes : Sealed B R es) :
    Sealed B R (.jumpIfFalse (codeSize ts + 3) :: (ts ++ .jump (codeSize es) :: es)) := by
  have hpast := hes.skip hB (.inl rfl)
  have hrest := hts.append hpast
  refine ⟨hrest.paired.cons (hB _).2.1, .cons (fun t ht =>
    ⟨.jumpIfFalse (codeSize ts + 3) :: (ts ++ [.jump (codeSize es)]), es, by simp, ?_,
      hes.headFree⟩) (hrest.at_end rfl)⟩
  simp only [Instr.target, Option.some.injEq, codeSize_nil] at ht
  rw [codeSize_cons, codeSize_append, codeSize_single, (Instr.size_jump _).1, (Instr.size_jump _).2.1]
  push_cast
  omega

/-- The condition of a loop, whose jump goes to the tail. -/
theorem conditionCode_safe (hB : JumpsFree B) {condition : Option (List Instr)} {exit : ℕ}
    {code q : List Instr} (hcondition : ∀ is, condition = some is → Sealed B R is)
    (hcode : code = conditionCode exit condition ++ q)
    (hexit : ∀ is t, condition = some is → t = (codeSize is + 3 + exit : ℤ) → Safe B code t) :
    Paired B R (conditionCode exit condition) ∧ JumpsSafe B code [] (conditionCode exit condition) := by
  cases condition with
  | none => exact ⟨Paired.of_free (by simp [conditionCode]), JumpsSafe.of_none (by simp [conditionCode])⟩
  | some is =>
    have his := hcondition is rfl
    obtain ⟨-, hjump, -, hpop⟩ := hB exit
    refine ⟨his.paired.append (Paired.of_free (by simp [hjump, hpop])), .append ?_ (.cons ?_ ?_)⟩
    · exact his.within (q := .jumpIfFalse exit :: .pop :: q) (by rw [hcode]; simp [conditionCode])
        (HeadFree.cons hjump)
    · intro t ht
      simp only [Instr.target, Option.some.injEq, List.nil_append] at ht
      exact hexit is t rfl ht.symm
    · exact JumpsSafe.of_none (by simp [Instr.target])

/-- A loop. -/
theorem Sealed.loop (hB : JumpsFree B) {condition increment : Option (List Instr)}
    {body code : List Instr} (hcondition : ∀ is, condition = some is → Sealed B R is)
    (hincrement : ∀ is, increment = some is → Sealed B R is) (hbody : Sealed B R body)
    (h : loopCode condition increment body = some code) : Sealed B R code := by
  obtain ⟨step, back, exit, hstep, hback, -, hexit, -, hcode⟩ := loopCode_eq h
  have hsize : codeSize (conditionCode 0 condition) = codeSize (conditionCode exit condition) := by
    cases condition with
    | none => rfl
    | some is => simp [conditionCode, codeSize_append, codeSize_cons, (Instr.size_jump _).2.1]
  have hloop : ∀ d, ¬ B (.loop d) := fun d => (hB d).2.2.1
  have hpop : ¬ B .pop := (hB 0).2.2.2
  have htail : HeadFree B (loopTail condition) := by
    cases condition with
    | none => exact HeadFree.nil
    | some is => exact HeadFree.cons hpop
  have htails : Paired B R (loopTail condition) ∧ ∀ p, JumpsSafe B code p (loopTail condition) := by
    cases condition with
    | none => exact ⟨Paired.of_free (by simp [loopTail]), fun p => .of_none (by simp [loopTail])⟩
    | some is =>
      exact ⟨Paired.of_free (by simp [loopTail, hpop]),
        fun p => .of_none (by simp [loopTail, Instr.target])⟩
  have hentry : ∀ q, HeadFree B q → HeadFree B (conditionCode exit condition ++ q) := by
    intro q hq
    cases condition with
    | none => exact hq
    | some is => exact ((hcondition is rfl).headFree.append (HeadFree.cons (hB exit).2.1)).append hq
  have hout : ∀ is t, condition = some is → t = (codeSize is + 3 + exit : ℤ) → Safe B code t := by
    intro is t hc ht
    refine ⟨conditionCode exit condition ++ step ++ body ++ [.loop back], loopTail condition,
      hcode, ?_, htail⟩
    rw [ht, hexit, hc]
    simp only [conditionCode, codeSize_append, codeSize_cons, codeSize_nil,
      (Instr.size_jump _).2.1, (Instr.size_jump _).2.2, Instr.size_pop]
    push_cast
    omega
  have hhead : code = conditionCode exit condition ++
      (step ++ body ++ [.loop back] ++ loopTail condition) := by
    rw [hcode]
    simp
  have hcond := conditionCode_safe hB hcondition hhead hout
  cases increment with
  | none =>
    obtain rfl : step = [] := (Option.some.inj hstep).symm
    have hcode' : code = conditionCode exit condition ++ (body ++ (.loop back :: loopTail condition)) := by
      rw [hcode]
      simp
    refine ⟨?_, ?_⟩
    · rw [hcode']
      exact hcond.1.append (hbody.paired.append (htails.1.cons (hloop back)))
    · have hjumps : JumpsSafe B code [] (conditionCode exit condition ++
          (body ++ (.loop back :: loopTail condition))) := by
        refine .append hcond.2 (.append ?_ (.cons (fun t ht => ?_) (htails.2 _)))
        · exact hbody.within (q := .loop back :: loopTail condition) (by rw [hcode']; simp)
            (HeadFree.cons (hloop back))
        · refine ⟨[], code, rfl, ?_, ?_⟩
          · simp only [Instr.target, Option.some.injEq, hback, loopBody, codeSize_append, hsize,
              List.nil_append] at ht
            rw [codeSize_nil, ← ht]
            push_cast
            omega
          · rw [hcode']
            exact hentry _ (hbody.headFree.append (HeadFree.cons (hloop back)))
      rw [← hcode'] at hjumps
      exact hjumps
  | some js =>
    obtain ⟨again, past, hagain, -, hpast, -, rfl⟩ := incrementCode_eq hstep
    have hjs := hincrement js rfl
    have hjump : ¬ B (.jump past) := (hB past).1
    have hcode' : code = conditionCode exit condition ++ (.jump past :: (js ++ (.pop :: .loop again ::
        (body ++ (.loop back :: loopTail condition))))) := by
      rw [hcode]
      simp
    refine ⟨?_, ?_⟩
    · rw [hcode']
      exact hcond.1.append ((hjs.paired.append ((((hbody.paired.append
        (htails.1.cons (hloop back))).cons (hloop again)).cons hpop))).cons hjump)
    · have hjumps : JumpsSafe B code [] (conditionCode exit condition ++
          (.jump past :: (js ++ (.pop :: .loop again ::
            (body ++ (.loop back :: loopTail condition)))))) := by
        refine .append hcond.2 (.cons (fun t ht => ?_) (.append ?_ (.cons (by simp [Instr.target])
          (.cons (fun t ht => ?_) (.append ?_ (.cons (fun t ht => ?_) (htails.2 _)))))))
        · -- Past the increment, into the body.
          refine ⟨conditionCode exit condition ++ (.jump past :: (js ++ [.pop, .loop again])),
            body ++ (.loop back :: loopTail condition), by rw [hcode']; simp, ?_,
            hbody.headFree.append (HeadFree.cons (hloop back))⟩
          simp only [Instr.target, Option.some.injEq, hpast, List.nil_append] at ht
          rw [← ht]
          simp only [codeSize_append, codeSize_cons, codeSize_nil, (Instr.size_jump _).1,
            (Instr.size_jump _).2.2, Instr.size_pop]
          push_cast
          omega
        · exact hjs.within (q := .pop :: .loop again :: (body ++ (.loop back :: loopTail condition)))
            (by rw [hcode']; simp) (HeadFree.cons hpop)
        · -- From the increment to the condition.
          refine ⟨[], code, rfl, ?_, by rw [hcode']; exact hentry _ (HeadFree.cons hjump)⟩
          simp only [Instr.target, Option.some.injEq, hagain, List.nil_append, codeSize_append,
            codeSize_cons, codeSize_nil, (Instr.size_jump _).1, Instr.size_pop, hsize] at ht
          rw [codeSize_nil, ← ht]
          push_cast
          omega
        · exact hbody.within (q := .loop back :: loopTail condition) (by rw [hcode']; simp)
            (HeadFree.cons (hloop back))
        · -- From the end of the body to the increment.
          refine ⟨conditionCode exit condition ++ [.jump past],
            js ++ (.pop :: .loop again :: (body ++ (.loop back :: loopTail condition))),
            by rw [hcode']; simp, ?_, hjs.headFree.append (HeadFree.cons hpop)⟩
          simp only [Instr.target, Option.some.injEq, hback, loopBody, List.nil_append,
            codeSize_append, codeSize_cons, codeSize_nil, (Instr.size_jump _).1,
            (Instr.size_jump _).2.2, Instr.size_pop] at ht ⊢
          rw [← ht]
          push_cast
          omega
      rw [← hcode'] at hjumps
      exact hjumps

end Jumps

/-! ### Emitted code -/

/-- The code is sealed, for the innermost function and its constants. -/
def Ctx.SealedBy (B : FunctionType → Instr → Prop) (R : List (Constant N) → Instr → Instr → Prop)
    (y : Ctx N) (is : List Instr) : Prop :=
  ∀ c cs, y.compilers = c :: cs → Sealed (B c.type) (R c.constants) is

/-- What instructions may be sealed, and by what. -/
structure SealRules (B : FunctionType → Instr → Prop)
    (R : List (Constant N) → Instr → Instr → Prop) : Prop where
  bound : ∀ T i, B T i → (i = .return_ ∧ T = .initializer) ∨ ∃ k, i = .method k
  mono : ∀ C C' j i, C <+: C' → R C j i → R C' j i
  returns : ∀ C, B .initializer .return_ → R C (.getLocal 0) .return_
  method : ∀ {x x₁ y y' x' : Ctx N} {name : Name} {k : UInt8} {is js : List Instr},
    x.identifierConstant name = some (k, x₁) →
    (x₁.initCompiler (methodType name) name).Keeps y → Emission y is y' →
    y'.closure is = some (js, x') → x'.SealedBy B R (js ++ [.method k])

section Emitted

variable {B : FunctionType → Instr → Prop} {R : List (Constant N) → Instr → Instr → Prop}

theorem Ctx.SealedBy.append {y : Ctx N} {is js : List Instr} (h₁ : y.SealedBy B R is)
    (h₂ : y.SealedBy B R js) : y.SealedBy B R (is ++ js) :=
  fun c cs hy => (h₁ c cs hy).append (h₂ c cs hy)

theorem Ctx.SealedBy.follows (hrules : SealRules B R) {x y : Ctx N} {is : List Instr}
    (h : x.SealedBy B R is) (hfollows : x.Follows y) : y.SealedBy B R is := by
  intro c' cs' hy
  unfold Ctx.Follows at hfollows
  rw [hy] at hfollows
  obtain ⟨c, cs, head, -, hx⟩ := List.forall₂_cons_right_iff.1 hfollows
  rw [head.1]
  exact (h c cs hx).mono fun j i => hrules.mono _ _ j i head.2

theorem SealRules.jumpsFree (hrules : SealRules B R) (T : FunctionType) : JumpsFree (B T) := by
  have hfree : ∀ i, i ≠ .return_ → (∀ k, i ≠ .method k) → ¬ B T i := by
    intro i hreturn hmethod hi
    rcases hrules.bound T i hi with ⟨rfl, -⟩ | ⟨k, rfl⟩
    · exact hreturn rfl
    · exact hmethod k rfl
  exact fun d => ⟨hfree _ (by simp) (by simp), hfree _ (by simp) (by simp), hfree _ (by simp) (by simp),
    hfree _ (by simp) (by simp)⟩

theorem Instr.Straight.target {i : Instr} (h : i.Straight) (o : ℕ) : i.target o = none := by
  cases i with
  | jump | jumpIfFalse | loop => exact h.elim
  | _ => rfl

theorem SealRules.straight (hrules : SealRules B R) {y : Ctx N} {is : List Instr}
    (h : ∀ i ∈ is, i.Straight) : y.SealedBy B R is := by
  refine fun c cs _ => .of_free (fun i hi hb => ?_) fun i hi => (h i hi).target
  rcases hrules.bound _ i hb with ⟨rfl, -⟩ | ⟨k, rfl⟩
  · exact h _ hi
  · exact h _ hi

/-- The code of `emitReturn`. -/
theorem SealRules.returnCode (hrules : SealRules B R) (x : Ctx N) : x.SealedBy B R x.returnCode := by
  intro c cs hx
  have htype : x.type = c.type := by simp [Ctx.type, hx]
  refine ⟨fun p i q hsplit hi => ?_, JumpsSafe.of_none ?_⟩
  · unfold Ctx.returnCode at hsplit
    rw [htype] at hsplit
    split at hsplit
    · rename_i hinit
      rcases p with _ | ⟨j, _ | ⟨j', p⟩⟩
      · obtain ⟨rfl, -⟩ := List.cons.inj hsplit
        rcases hrules.bound _ _ hi with ⟨h, -⟩ | ⟨k, h⟩ <;> cases h
      · simp only [List.cons_append, List.nil_append, List.cons.injEq] at hsplit
        obtain ⟨rfl, rfl, -⟩ := hsplit
        rw [hinit] at hi
        exact ⟨[], _, rfl, hrules.returns _ hi⟩
      · simp at hsplit
    · rename_i hinit
      have hmem : i ∈ [Instr.nil, .return_] := by
        rw [hsplit]
        simp
      simp only [List.mem_cons, List.not_mem_nil, or_false] at hmem
      rcases hrules.bound _ _ hi with ⟨-, h⟩ | ⟨k, rfl⟩
      · exact absurd h hinit
      · simp at hmem
  · unfold Ctx.returnCode
    split <;> simp [Instr.target]

/-- All emitted code is sealed. -/
theorem Emission.seal (hrules : SealRules B R) {x y : Ctx N} {is : List Instr}
    (h : Emission x is y) : y.SealedBy B R is := by
  induction h with
  | straight keeps code => exact hrules.straight code
  | append first second ih₁ ih₂ => exact (ih₁.follows hrules second.follows).append ih₂
  | skip op piece fits ih =>
    obtain ⟨-, rfl⟩ := jumpOver_some fits
    intro c cs hy
    refine (ih c cs hy).skip (hrules.jumpsFree _) ?_
    rcases op with rfl | rfl
    · exact .inl rfl
    · exact .inr rfl
  | skipUnless piece fits ih =>
    obtain ⟨-, rfl⟩ := jumpOver_some fits
    exact fun c cs hy => (ih c cs hy).skipUnless (hrules.jumpsFree _)
  | branch thenBranch elseBranch past_fits skip_fits ih₁ ih₂ =>
    obtain ⟨-, rfl⟩ := jumpOver_some past_fits
    obtain ⟨-, rfl⟩ := jumpOver_some skip_fits
    intro c cs hy
    have hts := ih₁.follows hrules elseBranch.follows c cs hy
    have hbranch := hts.branch (hrules.jumpsFree _) (ih₂ c cs hy)
    rw [codeSize_append, codeSize_single, (Instr.size_jump _).1]
    exact hbranch
  | @loop x y z w condition increment body code no_condition some_condition no_increment
      some_increment inside fits ihc ihi ihb =>
    intro c cs hw
    have hz : y.Follows z := follows_clause no_increment fun is h => (some_increment is h).follows
    refine .loop (hrules.jumpsFree _) (fun is h => ?_) (fun is h => ?_) (ihb c cs hw) fits
    · exact (ihc is h).follows hrules (hz.trans inside.follows) c cs hw
    · exact (ihi is h).follows hrules inside.follows c cs hw
  | function begins generated inside closure ih =>
    obtain ⟨c, cs, k, -, rfl, -⟩ := closure_eq closure
    refine fun d ds hx => .of_free (fun i hi hb => ?_) fun i hi o => ?_
    · obtain rfl := List.mem_singleton.1 hi
      rcases hrules.bound _ _ hb with ⟨h, -⟩ | ⟨k, h⟩ <;> cases h
    · obtain rfl := List.mem_singleton.1 hi
      rfl
  | method constant begins generated inside closure ih => exact hrules.method constant begins inside closure
  | @return_ x type =>
    intro c cs hx
    have htype : x.type = c.type := by simp [Ctx.type, hx]
    refine .of_free (fun i hi hb => ?_) fun i hi o => ?_
    · obtain rfl := List.mem_singleton.1 hi
      rw [htype] at type
      rcases hrules.bound _ _ hb with ⟨-, h⟩ | ⟨k, h⟩
      · rw [h] at type
        simp at type
      · cases h
    · obtain rfl := List.mem_singleton.1 hi
      rfl
  | returnCode type => exact hrules.returnCode _

end Emitted

/-! ### Initializers -/

/-- Every `OP_RETURN` follows a load of slot 0, and no jump goes to it. -/
def ReturnsThis (is : List Instr) : Prop := Sealed (· = .return_) (fun j _ => j = .getLocal 0) is

/-- The function is the code of an initializer. -/
def InitCode (f : ObjFunction N) : Prop :=
  ∃ is, f.code = encodeAll is ∧ (∀ i ∈ is, i.Readable f.constants) ∧ ReturnsThis is

/-- The code of a closure and the instruction after it. -/
theorem closure_method_free {B : Instr → Prop} {R : Instr → Instr → Prop} {y' x' : Ctx N}
    {is js : List Instr} {k : UInt8} (h : y'.closure is = some (js, x'))
    (hclosure : ∀ k us, ¬ B (.closure k us)) (hmethod : ¬ B (.method k)) :
    Sealed B R (js ++ [.method k]) := by
  obtain ⟨c, cs, k', -, rfl, -⟩ := closure_eq h
  exact .of_free (by simp [hclosure, hmethod]) (by simp [Instr.target])

theorem return_rules : SealRules (N := N) (fun T i => T = .initializer ∧ i = .return_)
    (fun _ j _ => j = .getLocal 0) where
  bound _ _ h := .inl ⟨h.2, h.1⟩
  mono _ _ _ _ _ h := h
  returns _ _ := rfl
  method _ _ _ h := fun c cs _ => closure_method_free h (by simp) (by simp)

/-- The function of the method `init`. -/
theorem init_returnsThis {x y y' : Ctx N} {name : Name} {is : List Instr} {c : Compiler N}
    {cs : List (Compiler N)} (hbegins : (x.initCompiler .initializer name).Keeps y)
    (hinside : Emission y is y') (hc : y'.compilers = c :: cs) :
    InitCode (c.finish (encodeAll (is ++ y'.returnCode))) := by
  obtain ⟨c', cs', heq, hhead, -⟩ := (hbegins.follows.trans hinside.follows).head rfl
  rw [hc] at heq
  obtain ⟨rfl, rfl⟩ := List.cons.inj heq
  have htype : c.type = .initializer := hhead.1
  refine ⟨is ++ y'.returnCode, rfl, fun i hi => ?_, ?_⟩
  · rcases List.mem_append.1 hi with hi | hi
    · exact hinside.reads c cs hc i hi
    · exact returnCode_readable y' _ i hi
  · have hsealed := (hinside.seal return_rules c cs hc).append (return_rules.returnCode y' c cs hc)
    have hbound : (fun i => c.type = .initializer ∧ i = Instr.return_) = (· = .return_) := by
      funext i
      simp [htype]
    rw [hbound] at hsealed
    exact hsealed

/-- A closure and the instruction that makes it a method: of the name `init` only initializers. -/
def MethodAfter (constants : List (Constant N)) (j i : Instr) : Prop :=
  ∃ k' us k f name, j = .closure k' us ∧ i = .method k ∧ functionAt constants k' = some f ∧
    stringAt constants k = some name ∧ (name = "init".toList → InitCode f)

theorem stringAt_prefix {cs ds : List (Constant N)} (h : cs <+: ds) {k : UInt8} {name : Name}
    (hs : stringAt cs k = some name) : stringAt ds k = some name :=
  stringAt_of_getElem? (prefix_getElem? h (stringAt_some hs))

/-- The name of a constant is at its index. -/
theorem identifierConstant_stringAt {x x₁ : Ctx N} {name : Name} {k : UInt8}
    (h : x.identifierConstant name = some (k, x₁)) {c : Compiler N} {cs : List (Compiler N)}
    (hc : x₁.compilers = c :: cs) : stringAt c.constants k = some name := by
  obtain ⟨hle, rfl, rfl⟩ := makeConstant_eq h
  unfold Ctx.mapCurrent at hc
  cases hx : x.compilers with
  | nil => simp [hx] at hc
  | cons e es =>
    simp only [hx, List.head?_cons, Option.map_some, Option.getD_some] at hle ⊢
    rw [hx] at hc
    obtain ⟨rfl, -⟩ := List.cons.inj hc
    have hindex : (UInt8.ofNat e.constants.length).toNat = e.constants.length := by
      rw [UInt8.toNat_ofNat']
      omega
    exact stringAt_of_getElem? (by rw [hindex]; exact List.getElem?_concat_length)

theorem closure_functionAt {y' x' : Ctx N} {is js : List Instr} (h : y'.closure is = some (js, x'))
    {d : Compiler N} {ds : List (Compiler N)} (hd : x'.compilers = d :: ds) :
    ∃ c cs k, y'.compilers = c :: cs ∧ js = [.closure k c.upvalues] ∧
      functionAt d.constants k = some (c.finish (encodeAll (is ++ y'.returnCode))) := by
  obtain ⟨c, cs, k, hc, hjs, hk⟩ := closure_eq h
  obtain ⟨hle, rfl, rfl⟩ := makeConstant_eq hk
  refine ⟨c, cs, _, hc, hjs, ?_⟩
  cases cs with
  | nil => cases hd
  | cons e es =>
    simp only [List.head?_cons, Option.map_some, Option.getD_some] at hle ⊢
    obtain ⟨rfl, -⟩ := List.cons.inj hd
    have hindex : (UInt8.ofNat e.constants.length).toNat = e.constants.length := by
      rw [UInt8.toNat_ofNat']
      omega
    simp [functionAt, hindex]

theorem method_rules : SealRules (N := N) (fun _ i => ∃ k, i = .method k) MethodAfter where
  bound _ _ h := .inr h
  mono C C' j i h hji := by
    obtain ⟨k', us, k, f, name, hj, hi, hf, hname, hinit⟩ := hji
    exact ⟨k', us, k, f, name, hj, hi, functionAt_prefix h hf, stringAt_prefix h hname, hinit⟩
  returns _ h := by
    obtain ⟨k, hk⟩ := h
    cases hk
  method := by
    intro x x₁ y y' x' name k is js hk hbegins hinside hclosure d ds hd
    obtain ⟨c, cs, k', hc, rfl, hf⟩ := closure_functionAt hclosure hd
    have hfollows := closure_follows hbegins hinside.follows hclosure
    obtain ⟨c₁, cs₁, head, -, hx₁⟩ : ∃ c₁ cs₁, c₁.Extends d ∧ _ ∧ x₁.compilers = c₁ :: cs₁ := by
      unfold Ctx.Follows at hfollows
      rw [hd] at hfollows
      exact List.forall₂_cons_right_iff.1 hfollows
    have hname := stringAt_prefix head.2 (identifierConstant_stringAt hk hx₁)
    refine ⟨fun p i q hsplit hi => ?_, JumpsSafe.of_none (by simp [Instr.target])⟩
    obtain ⟨m, rfl⟩ := hi
    rcases p with _ | ⟨j, _ | ⟨j', p⟩⟩
    · simp at hsplit
    · simp only [List.cons_append, List.nil_append, List.cons.injEq, Instr.method.injEq] at hsplit
      obtain ⟨rfl, rfl, -⟩ := hsplit
      refine ⟨[], _, rfl, k', _, k, _, name, rfl, rfl, hf, hname, fun hinit => ?_⟩
      have htype : methodType name = .initializer := if_pos hinit
      rw [htype] at hbegins
      exact init_returnsThis hbegins hinside hc
    · simp at hsplit

/-- `OP_METHOD` follows the closure of the method, and no jump goes to it. -/
theorem generated_sealed {g : ObjFunction N} {is : List Instr} (h : Generated g is) :
    Sealed (fun i => ∃ k, i = .method k) (MethodAfter g.constants) is := by
  cases h with
  | @intro body x y is c cs generated compiler =>
    have hbody := (genStmts_emission body generated).seal method_rules c cs compiler
    exact hbody.append (method_rules.returnCode y c cs compiler)

end Lox.Clox
