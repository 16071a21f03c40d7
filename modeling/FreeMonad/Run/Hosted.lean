import FreeMonad.Program.Resume
import FreeMonad.Run.Host

set_option autoImplicit false

/-! # Running a program inside a host

A driver resumes the program, hands the pending step to an interpreter, and goes on with the
program that the interpreter answers, inside a host that can stop the run at any step. The
interpreter is a function that keeps a state; it usually answers a step with its payload, but it
can answer with any other program.

The driver records one event before each call of the interpreter and one when the value is
reached. A run is bounded by a number of turns, since an interpreter may answer with ever new
programs; a run that is out of turns returns the program that is left. -/

namespace FreeMonad

universe u

/-- A stateful interpreter of the steps of `V` inside the host `M`. -/
abbrev Interpreter (ν : Type) (V : Vocabulary) (M : Host) (σ : Type u) (α : Type) :=
  σ → Step ν V (Program ν V α) → Traced ν (σ × M.Carrier (Program ν V α))

namespace Program

variable {ν : Type} {V : Vocabulary} {σ : Type u} {α : Type}

/-- One turn of the driver: resumes the program and either finishes or has its step answered.
    The state of the interpreter is kept with the number of steps it was given. -/
def turn (M : Host) (interpret : Interpreter ν V M σ α) (state : σ × Nat) (p : Program ν V α) :
    Traced ν ((σ × Nat) × M.Carrier (Program ν V α ⊕ α)) :=
  p.resume.bind fun
    | .inr a => ⟨[.finished .hosted state.2], (state, M.pure (.inr a))⟩
    | .inl s =>
      ((interpret state.1 s).map fun (world, answer) =>
        ((world, state.2 + 1), M.map .inl answer)).after [.interpreting .hosted (state.2 + 1)]

/-- Runs a program inside the host `M` from the interpreter's state `world`, for at most `turns`
    turns: the final state, and the result or the program that is left. -/
def runInHost (M : Host) (interpret : Interpreter ν V M σ α) (turns : Nat) (world : σ)
    (p : Program ν V α) : Traced ν (σ × (Program ν V α ⊕ M.Carrier α)) :=
  (M.tailRec (turn M interpret) turns (world, 0) p).map fun (state, r) => (state.1, r)

/-- Steps a program by hand, for at most `turns` turns, without any event of a driver: the final
    state, and the result or the program that is left. -/
def stepByHand (M : Host) (interpret : Interpreter ν V M σ α) (turns : Nat) (world : σ)
    (p : Program ν V α) : Traced ν (σ × (Program ν V α ⊕ M.Carrier α)) :=
  M.tailRec (fun world p => p.resume.bind fun
    | .inr a => .pure (world, M.pure (.inr a))
    | .inl s => (interpret world s).map fun (world, answer) => (world, M.map .inl answer))
    turns world p

/-- Runs a program with an interpreter that answers every step. -/
def run (interpret : Interpreter ν V .identity σ α) (turns : Nat) (world : σ)
    (p : Program ν V α) : Traced ν (σ × (Program ν V α ⊕ α)) :=
  runInHost .identity interpret turns world p

/-- Runs a program with an interpreter that may fail; the first error is the result. -/
def tryRun {Error : Type} (interpret : Interpreter ν V (.result Error) σ α) (turns : Nat)
    (world : σ) (p : Program ν V α) : Traced ν (σ × (Program ν V α ⊕ Except Error α)) :=
  runInHost (.result Error) interpret turns world p

end Program

end FreeMonad
