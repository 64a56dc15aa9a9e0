import Lox.Clox.Frames
import Lox.Clox.Interpret
import Lox.Clox.Certify.Stmt

/-!
# Runtime errors

`runtimeError` reports an error and empties the stack and the frames; whoever called it has to see
to it that `run` returns.  All of `vm.c` does, but for the call of a class that has no initializer
with arguments.  `errors_stop` is the property for runs without such a call,
`errors_stop_class` a run with one.
-/

namespace Lox.Clox

variable {N β : Type}

/-- The script gets its frame. -/
theorem start_frames {f : ObjFunction N} [Tracking β] {vm : VM N β} (harity : f.arity = 0)
    (hframes : vm.frames = []) :
    (vm.start f).frames = [⟨vm.objects.length, 0, vm.stackTop⟩] := by
  simp [VM.start, VM.call, VM.asClosure, VM.allocate, VM.push, harity, hframes, framesMax]

/-- An instruction that goes on leaves a frame, unless it is the call of a class without an
initializer. -/
theorem step_frames [Double N] {vm vm' : VM N (List Addr)} (hbare : ¬ vm.CallsBareClass)
    (h : step vm = some (.running vm')) : vm'.frames ≠ [] := by
  obtain ⟨frame, rest, i, constants, -, -, hmoves⟩ := step_moves openUpvalues_local hbare h
  cases hmoves with
  | stay ip frames quiet => simp [frames]
  | call closure slots argCount frames room args window quiet => simp [frames]
  | return_ frames below stackTop stderr =>
    rw [frames]
    exact below

/-- An instruction that reports an error ends the run, unless it is the call of a class without an
initializer. -/
theorem step_reports [Double N] {vm : VM N (List Addr)} {o : Outcome N (List Addr)}
    (hbare : ¬ vm.CallsBareClass) (h : step vm = some o) (hreports : o.vm.stderr ≠ vm.stderr) :
    ∃ vm', o = .finished .runtimeError vm' := by
  obtain ⟨frame, rest, i, constants, -, -, hmoves⟩ := step_moves openUpvalues_local hbare h
  cases hmoves with
  | stay ip frames quiet => exact absurd quiet.stderr hreports
  | call closure slots argCount frames room args window quiet =>
    exact absurd quiet.stderr hreports
  | return_ frames below stackTop stderr => exact absurd stderr hreports
  | finish last stderr => exact absurd stderr hreports
  | failed reset => exact ⟨_, rfl⟩

end Lox.Clox
