import FreeMonad.Program.Queue

set_option autoImplicit false

/-! # Building programs

Building evaluates nothing: `Program.flatMap` adds one continuation at the end of the queue of a
composition, whatever its length, and makes a composition of anything else. The derived
operations (`map`, `andThen`, `map2`, `apply`) are all defined by `flatMap`. Only `lift` and
`ofStep` make a program that shows its step, and only `Program.pure` one that counts as
finished.

Inside a composition no program shows its step: what a head or a continuation returns is *held*,
which puts every step behind a head of its own (`Program.held`). -/

namespace FreeMonad

variable {ν : Type} {V : Vocabulary} {α β γ : Type}

/-! ## Programs inside a composition -/

mutual

/-- The program as a composition holds it: a step stands behind a head of its own, without
    continuations, and so do the steps that its replies reach. -/
def Program.held : {α : Type} → Program ν V α → Program ν V α
  | _, .pure a => .pure a
  | _, .suspend op reply =>
    .compose (fun _ => .quietly (.suspend op fun x => (reply x).held)) .empty
  | _, .compose head queue => .compose head queue
termination_by structural _ p => p

/-- The program reached, held; the events on the way to it stay. -/
def Reached.held : {α : Type} → Reached ν V α → Reached ν V α
  | _, .mk log p => .mk log p.held
termination_by structural _ r => r

end

@[simp] theorem Reached.log_held (r : Reached ν V α) : r.held.log = r.log := by cases r; rfl

@[simp] theorem Reached.program_held (r : Reached ν V α) : r.held.program = r.program.held := by
  cases r; rfl

/-! ## Builders -/

namespace Program

/-- Is the program finished? Only a literal value counts, not a composition that would finish
    without issuing a step. -/
def isPure : {α : Type} → Program ν V α → Bool
  | _, .pure _ => true
  | _, _ => false

theorem exists_eq_pure {p : Program ν V α} (h : p.isPure = true) : ∃ a, p = .pure a := by
  cases p with
  | pure a => exact ⟨a, rfl⟩
  | suspend op reply => cases h
  | compose head queue => cases h

/-- A program of one step whose payload is the program to go on with. -/
def ofStep (s : Step ν V (Program ν V α)) : Program ν V α :=
  .suspend s.op fun x => .ofTraced (s.reply x)

/-- A program of one step whose result is the payload of the step. -/
def lift (s : Step ν V α) : Program ν V α := ofStep (s.map .pure)

/-- A program that is only built when a driver reaches it. -/
def defer (build : Unit → Traced ν (Program ν V α)) : Program ν V α :=
  .compose (fun _ => (Reached.ofTraced (build ())).held) .empty

/-- Attaches a continuation that has its events already split off. -/
def attach : {α β : Type} → Program ν V α → (α → Reached ν V β) → Program ν V β
  | _, _, .compose head queue, k => .compose head (queue.push k)
  | _, _, .pure a, k => .compose (fun _ => .quietly (.pure a)) (Queue.empty.push k)
  | _, _, .suspend op reply, k =>
    .compose (fun _ => .quietly (.suspend op fun x => (reply x).held)) (Queue.empty.push k)

/-- Feeds the result of a program to a continuation. Nothing is evaluated; a composition only
    grows by one continuation. -/
def flatMap (p : Program ν V α) (k : α → Traced ν (Program ν V β)) : Program ν V β :=
  p.attach fun a => (Reached.ofTraced (k a)).held

/-- Applies a function to the result. -/
def map (f : α → Traced ν β) (p : Program ν V α) : Program ν V β :=
  p.flatMap fun a => (f a).map .pure

/-- Runs `q` after `p` and drops the result of `p`. -/
def andThen (p : Program ν V α) (q : Program ν V β) : Program ν V β :=
  p.flatMap fun _ => .pure q

/-- Combines the results of two programs; the steps of the first come first. -/
def map2 (f : α → β → Traced ν γ) (p : Program ν V α) (q : Program ν V β) : Program ν V γ :=
  p.flatMap fun a => .pure (q.map (f a))

/-- Applies the function that `p` produces to the result of `q`; the steps of `p` come first. -/
def apply (p : Program ν V (α → Traced ν β)) (q : Program ν V α) : Program ν V β :=
  p.flatMap fun f => .pure (q.map f)

/-- Programs are sequenced by `flatMap`, with continuations that record nothing. -/
instance : Monad (Program ν V) where
  pure := .pure
  bind p k := p.flatMap fun a => .pure (k a)

end Program

end FreeMonad
