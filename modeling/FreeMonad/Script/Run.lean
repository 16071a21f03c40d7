import FreeMonad.Run.Polled
import FreeMonad.Script.Display
import FreeMonad.Script.World

set_option autoImplicit false

/-! # Running a script

A run builds the program of a script and drives it in a world, by any of the drivers of the
library or step by step. A run by hand can also hand the rest of the program over to a driver
after a number of steps. The report of a run holds the result, the final world and what was seen
on the way; the events are the log of the computation.

An interpreter can keep a run going for ever, so runs are bounded by `Run.turns` turns, a number
that no run comes near. -/

namespace FreeMonad

/-- The drivers of scripts. -/
inductive RunDriver where
  | run
  | identity
  | option
  | result
  | tryRun
  | runAsync
  | tryRunAsync
  | resume
  deriving DecidableEq, Repr

/-- What a run comes to. -/
inductive RunResult where
  /-- The program finished with a value. -/
  | ok (v : Value)
  /-- The host gave nothing. -/
  | none
  /-- The run failed. -/
  | err (message : String)
  /-- The task was dropped before it finished. -/
  | cancelled
  /-- The program was dropped before it finished. -/
  | pending

/-- What a program shows before it is resumed, and what it resumes to. -/
structure View where
  isPure : Bool
  debug : String
  /-- Laid out over several lines, if asked for. -/
  pretty : Option String
  /-- Does it resume to a value? Not known of a program that is dropped. -/
  resumesToValue : Option Bool

/-- What is known after a run. -/
structure Report where
  result : RunResult
  world : World
  /-- The first programs of a run by hand. -/
  views : Option (Array View) := none
  /-- The number of polls of an asynchronous run. -/
  polls : Option Nat := none

/-- A run of a script over a vocabulary. -/
structure Run where
  /-- The vocabulary over which the script is built. -/
  vocab : Vocab
  /-- How often steps are taken by hand before the driver takes over. -/
  handovers : Nat
  driver : RunDriver
  script : Script
  conditions : Conditions
  world : World
  /-- What the run goes on with after a failure, for drivers that cannot fail. -/
  fallback : Value
  /-- The numbers of polls that answers are pending, used in turn. -/
  yields : List Int64
  /-- The number of polls after which a task is dropped. -/
  cancelAfter : Option Int64
  /-- The number of steps by hand, if there is a bound on it. -/
  max : Option Nat
  /-- Whether programs are also shown over several lines. -/
  pretty : Bool

namespace Run

/-- The bound on the turns of a run. -/
def turns : Nat := 4611686018427387904

/-! ## Interpreters -/

/-- Interprets steps in the world and goes on with the fallback after a failure. -/
def recovering (r : Run) : Interpreter Note r.vocab.vocabulary .identity World Value := fun w s =>
  (w.interpret r.conditions s).map fun
    | (w, .ok p) => (w, p)
    | (w, .error _) => (w, .pure r.fallback)

/-- Interprets steps in the world; a failure is absence. -/
def optional (r : Run) : Interpreter Note r.vocab.vocabulary .option World Value := fun w s =>
  (w.interpret r.conditions s).map fun
    | (w, .ok p) => (w, some p)
    | (w, .error _) => (w, none)

/-- Interprets steps in the world; a failure is an error. -/
def failing (r : Run) : Interpreter Note r.vocab.vocabulary (.result String) World Value :=
  fun w s => w.interpret r.conditions s

/-- How many polls the answer to a step is pending. -/
def pendingPolls (r : Run) (count : Nat) : Nat :=
  ((r.yields[(count - 1) % r.yields.length]?).getD 0).toNatClampNeg

/-- Delivers the answers of an interpreter after the polls that the run sets for them. -/
def delayed {M : Host} (r : Run)
    (interpret : Interpreter Note r.vocab.vocabulary M World Value) :
    DelayedInterpreter Note r.vocab.vocabulary M World Value := fun w s =>
  (interpret w s).map fun (w, answer) => (w, ⟨r.pendingPolls w.count, answer⟩)

/-! ## Runs by hand -/

/-- What a program shows. -/
def view (r : Run) (p : Built r.vocab) (resumesToValue : Option Bool) : View where
  isPure := p.isPure
  debug := p.display .oneLine Value.compact
  pretty := if r.pretty then some (p.display .pretty Value.compact) else none
  resumesToValue := resumesToValue

/-- Resumes and answers one program after the other, at most `turns` times, and keeps a view of
    each; `recorded` holds the events so far, the latest first. -/
def resumeAll (r : Run) : (turns : Nat) → (recorded : List (Event Note)) →
    (views : Array View) → World → Built r.vocab → Traced Note Report
  | 0, recorded, views, w, p =>
    ⟨recorded.reverse, ⟨.pending, w, some (keep views (r.view p none)), none⟩⟩
  | turns + 1, recorded, views, w, p =>
    let resumed := p.resume
    let recorded := resumed.log.reverseAux recorded
    match resumed.value with
    | .inr a => ⟨recorded.reverse, ⟨.ok a, w, some (keep views (r.view p (some true))), none⟩⟩
    | .inl s =>
      let views := keep views (r.view p (some false))
      let answered := w.interpret r.conditions s
      let recorded := answered.log.reverseAux recorded
      match answered.value with
      | (w, .ok q) => resumeAll r turns recorded views w q
      | (w, .error message) => ⟨recorded.reverse, ⟨.err message, w, some views, none⟩⟩

/-! ## Drivers -/

/-- The report of a run that either finished in its host or is out of turns. -/
def report {α : Type 1} {β : Type} (result : β → RunResult) (end_ : World × (α ⊕ β)) : Report :=
  match end_ with
  | (w, .inl _) => { result := .pending, world := w }
  | (w, .inr b) => { result := result b, world := w }

/-- The report of a task that finished or was dropped. -/
def reportPolls {β : Type} (result : β → RunResult) (end_ : World × Nat × Option β) : Report :=
  match end_ with
  | (w, polls, none) => { result := .cancelled, world := w, polls := some polls }
  | (w, polls, some b) => { result := result b, world := w, polls := some polls }

/-- The result of a computation that gives a value or nothing. -/
def ofOption : Option Value → RunResult
  | some a => .ok a
  | none => .none

/-- The result of a computation that gives a value or fails. -/
def ofExcept : Except String Value → RunResult
  | .ok a => .ok a
  | .error message => .err message

/-- The number of polls after which a task is dropped. -/
def pollLimit (r : Run) : Nat :=
  match r.cancelAfter with
  | some n => n.toNatClampNeg
  | none => turns

/-- Drives a program from a world to the end. -/
def drive (r : Run) (w : World) (p : Built r.vocab) : Traced Note Report :=
  match r.driver with
  | .run => (p.run r.recovering turns w).map (report .ok)
  | .identity => (p.runInHost .identity r.recovering turns w).map (report .ok)
  | .option => (p.runInHost .option r.optional turns w).map (report ofOption)
  | .result => (p.runInHost (.result String) r.failing turns w).map (report ofExcept)
  | .tryRun => (p.tryRun r.failing turns w).map (report ofExcept)
  | .runAsync =>
    (p.runAsync (r.delayed r.recovering) turns r.pollLimit w).map (reportPolls .ok)
  | .tryRunAsync =>
    (p.tryRunAsync (r.delayed r.failing) turns r.pollLimit w).map (reportPolls ofExcept)
  | .resume => r.resumeAll (r.max.getD turns) [] #[] w p

/-- Takes steps by hand, none without a bound on them, and hands the rest of the program over, as
    often as asked for, and in the end to the driver. A program that finishes early gives its
    value, marked as such. -/
def driveByHand (r : Run) : (handovers : Nat) → World → Built r.vocab → Traced Note Report
  | 0, w, p => r.drive w p
  | handovers + 1, w, p =>
    (p.stepByHand (.result String) r.failing (r.max.getD 0) w).bind fun
      | (w, .inr (.ok a)) => .pure { result := .ok (.list [.text "early", a]), world := w }
      | (w, .inr (.error message)) => .pure { result := .err message, world := w }
      | (w, .inl rest) => (r.driveByHand handovers w rest).after [.user .handover]

/-- Builds the program of the script and runs it. -/
def perform (r : Run) : Traced Note Report :=
  (r.script.build r.conditions.calls [] r.vocab).bind fun p =>
    (r.driveByHand r.handovers r.world p).after [.user .built]

end Run

end FreeMonad
