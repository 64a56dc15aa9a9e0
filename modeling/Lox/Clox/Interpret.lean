import Lox.Clox.VM
import Lox.Clox.Compiler
import Lox.Clox.Scanner

/-!
# `interpret`

Compiling a source and running the function it gives, on a machine that earlier calls may have
left behind.  Both `compile` and `run` get the same bound `n`; `none` is lack of fuel in the
compiler or undefined behaviour in the machine.
-/

namespace Lox.Clox

variable {N : Type}

/-- `interpret`, for at most `n` instructions. -/
def interpret [Double N] (n : ℕ) (source : List Char) (vm : VM N (List Addr)) :
    Option (Outcome N (List Addr)) :=
  match compile n (scanAll source) with
  | none => none
  | some none => some (.finished .compileError vm)
  | some (some function) => run n (vm.start function)

/-- `interpret` as it goes on after `compile`. -/
theorem interpret_running [Double N] {n : ℕ} {source : List Char} {vm vm' : VM N (List Addr)}
    (h : interpret n source vm = some (.running vm')) :
    ∃ f, Accepts (scanAll source) f ∧ run n (vm.start f) = some (.running vm') := by
  unfold interpret at h
  cases hc : compile (N := N) n (scanAll source) with
  | none => simp [hc] at h
  | some r =>
    cases r with
    | none => simp [hc] at h
    | some f =>
      simp only [hc] at h
      exact ⟨f, ⟨n, hc⟩, h⟩

/-- A test of the state after `k` instructions of a source that is compiled with the bound `n`, on a
new machine. -/
def afterRunning [Double N] (n k : ℕ) (source : List Char) (clock : ℕ → N)
    (test : VM N (List Addr) → Bool) : Bool :=
  match (compile n (scanAll source)).join with
  | none => false
  | some function =>
    match run k ((VM.init clock).start function) with
    | some (.running vm) => test vm
    | _ => false

theorem afterRunning_running [Double N] {n k : ℕ} {source : List Char} {clock : ℕ → N}
    {test : VM N (List Addr) → Bool} (h : afterRunning n k source clock test = true) :
    ∃ f vm, Accepts (scanAll source) f ∧ run k ((VM.init clock).start f) = some (.running vm) ∧
      test vm = true := by
  unfold afterRunning at h
  split at h
  · cases h
  · rename_i f hf
    split at h
    · rename_i vm hvm
      exact ⟨f, vm, ⟨n, Option.join_eq_some_iff.1 hf⟩, hvm, h⟩
    · cases h

end Lox.Clox
