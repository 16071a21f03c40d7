import FreeMonad.Run.Hosted

set_option autoImplicit false

/-! # Running a program by polling

The asynchronous driver is a task that is polled. Its interpreter computes the answer to a step
when it is called and delivers it later: a `Delayed` answer is pending for a number of polls and
then ready. One poll of the task takes as many steps as have ready answers and stops at the
first answer that is pending, at a failure, or at the value of the program; the next poll goes
on where it stopped. A task that is no longer polled has done nothing but a prefix of its run. -/

namespace FreeMonad

universe u

/-- An answer that is pending for a number of polls and then ready. -/
structure Delayed (α : Type u) where
  /-- How many polls find the answer pending. -/
  pending : Nat
  /-- The answer, computed when it was asked for. -/
  value : α

/-- A stateful interpreter of the steps of `V` whose answers are delivered later. -/
abbrev DelayedInterpreter (ν : Type) (V : Vocabulary) (M : Host) (σ : Type u) (α : Type) :=
  σ → Step ν V (Program ν V α) → Traced ν (σ × Delayed (M.Carrier (Program ν V α)))

/-- A run that has not finished, with the number of steps handed out so far. -/
inductive Task (ν : Type) (V : Vocabulary) (M : Host) (α : Type) : Type 1 where
  /-- About to resume `program`. -/
  | ready (steps : Nat) (program : Program ν V α)
  /-- Waiting for an answer that `left` more polls find pending. -/
  | waiting (steps : Nat) (left : Nat) (answer : M.Carrier (Program ν V α))

/-- What a poll comes to. -/
inductive Polled (ν : Type) (V : Vocabulary) (M : Host) (α : Type) : Type 1 where
  /-- An answer is pending. -/
  | pending (task : Task ν V M α)
  /-- The run is over. -/
  | done (result : M.Carrier α)
  /-- The poll was out of turns before it came to a pending answer or to the end. -/
  | spent (task : Task ν V M α)

namespace Task

variable {ν : Type} {V : Vocabulary} {M : Host} {σ : Type u} {α : Type}

/-- A run of `p` that was not polled yet. -/
def start (p : Program ν V α) : Task ν V M α := .ready 0 p

/-- Takes steps until an answer is pending or the run is over, at most `turns` times; `recorded`
    holds the events so far, the latest first. -/
def advance (driver : Driver) (interpret : DelayedInterpreter ν V M σ α) :
    (turns : Nat) → (recorded : List (Event ν)) → (world : σ) → (steps : Nat) → Program ν V α →
      Traced ν (σ × Polled ν V M α)
  | 0, recorded, world, steps, p => ⟨recorded.reverse, (world, .spent (.ready steps p))⟩
  | turns + 1, recorded, world, steps, p =>
    let r := p.resume
    let recorded := r.log.reverseAux recorded
    match r.value with
    | .inr a =>
      ⟨(Event.finished driver steps :: recorded).reverse, (world, .done (M.pure a))⟩
    | .inl s =>
      let answer := interpret world s
      let recorded := answer.log.reverseAux (Event.interpreting driver (steps + 1) :: recorded)
      match answer.value.2 with
      | ⟨left + 1, value⟩ =>
        ⟨recorded.reverse, (answer.value.1, .pending (.waiting (steps + 1) left value))⟩
      | ⟨0, value⟩ =>
        match M.split value with
        | .inl failure => ⟨recorded.reverse, (answer.value.1, .done failure)⟩
        | .inr q => advance driver interpret turns recorded answer.value.1 (steps + 1) q

/-- Polls a task once. -/
def poll (driver : Driver) (interpret : DelayedInterpreter ν V M σ α) (turns : Nat) (world : σ) :
    Task ν V M α → Traced ν (σ × Polled ν V M α)
  | .ready steps p => advance driver interpret turns [] world steps p
  | .waiting steps (left + 1) answer => .pure (world, .pending (.waiting steps left answer))
  | .waiting steps 0 answer =>
    match M.split answer with
    | .inl failure => .pure (world, .done failure)
    | .inr p => advance driver interpret turns [] world steps p

/-- Polls a task until the run is over, at most `limit` times, and drops it then: the final state
    of the interpreter, the number of polls and the result, if there is one. -/
def pollTimes (driver : Driver) (interpret : DelayedInterpreter ν V M σ α) (turns : Nat) :
    (limit : Nat) → (recorded : List (Event ν)) → (polls : Nat) → (world : σ) → Task ν V M α →
      Traced ν (σ × Nat × Option (M.Carrier α))
  | 0, recorded, polls, world, _ => ⟨recorded.reverse, (world, polls, none)⟩
  | limit + 1, recorded, polls, world, task =>
    let r := poll driver interpret turns world task
    let recorded := r.log.reverseAux recorded
    match r.value.2 with
    | .done result => ⟨recorded.reverse, (r.value.1, polls + 1, some result)⟩
    | .pending task => pollTimes driver interpret turns limit recorded (polls + 1) r.value.1 task
    | .spent _ => ⟨recorded.reverse, (r.value.1, polls + 1, none)⟩

end Task

namespace Program

variable {ν : Type} {V : Vocabulary} {σ : Type u} {α : Type}

/-- Polls a run whose answers cannot fail, at most `limit` times. -/
def runAsync (interpret : DelayedInterpreter ν V .identity σ α) (turns limit : Nat) (world : σ)
    (p : Program ν V α) : Traced ν (σ × Nat × Option α) :=
  Task.pollTimes .async interpret turns limit [] 0 world (Task.start p)

/-- Polls a run whose answers may fail, at most `limit` times; the first error is the result. -/
def tryRunAsync {Error : Type} (interpret : DelayedInterpreter ν V (.result Error) σ α)
    (turns limit : Nat) (world : σ) (p : Program ν V α) :
    Traced ν (σ × Nat × Option (Except Error α)) :=
  Task.pollTimes .tryAsync interpret turns limit [] 0 world (Task.start p)

end Program

end FreeMonad
