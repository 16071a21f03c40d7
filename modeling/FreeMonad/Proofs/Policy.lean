import FreeMonad.Proofs.Simulation
import FreeMonad.Proofs.Observation

set_option autoImplicit false

/-! # Interpreters that only answer

An interpreter is given a step with its payload, the whole rest of the program. Most look at the
operation alone: they fail, or answer it and go on with the payload, or go on with another
program. Such an interpreter is a `Policy` of reactions to operations, and a `DelayedPolicy` if
its reactions are delivered later.

No driver with such an interpreter tells observationally equal programs apart
(`Program.sameRuns_of_equiv`): the same operations are handed out in the same order, the
interpreter ends in the same state, and the result is the same. Observational equality is a
simulation for such an interpreter (`DelayedPolicy.simulation`), which is a statement about one
turn. -/

namespace FreeMonad

universe u v w

variable {ν : Type} {V : Vocabulary} {M : Host} {σ : Type u} {α : Type}

/-! ## Reactions -/

/-- What becomes of a step of the operation `op` whose payload is not looked at. -/
inductive Reaction (ν : Type) (V : Vocabulary) (α : Type) (op : V.Op) : Type 1 where
  /-- The step is answered, and the run goes on with its payload. -/
  | answer (x : V.Answer op)
  /-- The run goes on with another program. -/
  | instead (p : Program ν V α)

/-- What the run goes on with after a reaction to the step `s`. -/
def Reaction.on (s : Step ν V (Program ν V α)) : Reaction ν V α s.op → Traced ν (Program ν V α)
  | .answer x => s.reply x
  | .instead p => .pure p

/-- Reacts to a step inside a host; a failure stays what it is. -/
def Host.react (M : Host) (s : Step ν V (Program ν V α)) (m : M.Carrier (Reaction ν V α s.op)) :
    Traced ν (M.Carrier (Program ν V α)) :=
  match M.split m with
  | .inl failure => .pure failure
  | .inr r => (r.on s).map M.pure

/-- A stateful interpreter that looks only at operations and at its own state. -/
abbrev Policy (ν : Type) (V : Vocabulary) (M : Host) (σ : Type u) (α : Type) :=
  σ → (op : V.Op) → Traced ν (σ × M.Carrier (Reaction ν V α op))

/-- A policy whose reactions are delivered later. -/
abbrev DelayedPolicy (ν : Type) (V : Vocabulary) (M : Host) (σ : Type u) (α : Type) :=
  σ → (op : V.Op) → Traced ν (σ × Delayed (M.Carrier (Reaction ν V α op)))

/-- The interpreter that follows a policy. -/
def Policy.interpreter (P : Policy ν V M σ α) : Interpreter ν V M σ α := fun world s =>
  (P world s.op).bind fun (world, m) => (M.react s m).map fun answer => (world, answer)

/-- The interpreter that follows a policy and delivers its answers later. -/
def DelayedPolicy.interpreter (D : DelayedPolicy ν V M σ α) : DelayedInterpreter ν V M σ α :=
  fun world s => (D world s.op).bind fun (world, d) =>
    (M.react s d.value).map fun answer => (world, ⟨d.pending, answer⟩)

/-- The policy with its reactions delivered at once. -/
def Policy.prompt (P : Policy ν V M σ α) : DelayedPolicy ν V M σ α := fun world op =>
  (P world op).map fun (world, m) => (world, ⟨0, m⟩)

/-- The policy that also keeps the operations it was given, in order. -/
def Policy.recording (P : Policy ν V M σ α) : Policy ν V M (σ × List V.Op) α :=
  fun (world, ops) op => (P world op).map fun (world, m) => ((world, ops ++ [op]), m)

/-- The policy that also keeps the operations it was given, in order. -/
def DelayedPolicy.recording (D : DelayedPolicy ν V M σ α) :
    DelayedPolicy ν V M (σ × List V.Op) α :=
  fun (world, ops) op => (D world op).map fun (world, d) => ((world, ops ++ [op]), d)

theorem Host.split_react {β : Type v} (M : Host) (s : Step ν V (Program ν V α))
    (m : M.Carrier (Reaction ν V α s.op)) :
    (M.split (M.react s m).value : M.Carrier β ⊕ Program ν V α)
      = (M.split m).map id fun r => (r.on s).value := by
  cases M with
  | identity => rfl
  | option => cases m <;> rfl
  | result Error => cases m <;> rfl

/-! ## One step -/

/-- Reactions to steps with observationally equal payloads go on with observationally equal
    programs. -/
theorem Reaction.on_equiv {op : V.Op} {reply reply' : V.Answer op → Traced ν (Program ν V α)}
    (h : ∀ x, (reply x).value ≈ (reply' x).value) (r : Reaction ν V α op) :
    (r.on ⟨op, reply⟩).value ≈ (r.on ⟨op, reply'⟩).value := by
  cases r with
  | answer x => exact h x
  | instead p => exact Setoid.refl p

/-- In a host, either both reactions are the same failure, or they go on with observationally
    equal programs. -/
theorem Host.react_equiv (M : Host) {β : Type} {op : V.Op}
    {reply reply' : V.Answer op → Traced ν (Program ν V α)}
    (h : ∀ x, (reply x).value ≈ (reply' x).value) (m : M.Carrier (Reaction ν V α op)) :
    M.LiftRel β (fun p q : Program ν V α => p ≈ q) (M.react ⟨op, reply⟩ m).value
      (M.react ⟨op, reply'⟩ m).value := by
  rw [LiftRel, split_react, split_react]
  cases M.split m with
  | inl failure => exact .inl rfl
  | inr r => exact .inr (r.on_equiv h)

/-- Observationally equal programs run in step, for any number of turns, with an interpreter that
    looks at operations alone. -/
theorem DelayedPolicy.simulation (D : DelayedPolicy ν V M σ α) :
    Simulation D.interpreter D.interpreter fun _ p q => p ≈ q where
  turn {n p q} h world := by
    have hroot := Program.sameRoot_of_equiv h
    generalize p.resume.value = o at hroot ⊢
    generalize q.resume.value = o' at hroot ⊢
    cases hroot with
    | value a => exact .value a
    | step op reply reply' payloads =>
      exact .step rfl rfl (M.react_equiv payloads (D world op).value.2.value)
  weaken h := h

theorem Policy.simulation (P : Policy ν V M σ α) :
    Simulation P.interpreter.prompt P.interpreter.prompt fun _ p q => p ≈ q :=
  P.prompt.simulation

/-! ## Whole runs -/

namespace Program

/-- No driver tells the programs apart, with any interpreter that only answers: it is given the
    same operations in the same order, ends in the same state, and the run comes to the same
    result. Runs that are out of turns leave observationally equal programs. -/
structure SameRuns (p q : Program ν V α) : Prop where
  /-- Inside a host; `run` and `tryRun` are two cases of this. -/
  inHost {M : Host} {σ : Type u} (P : Policy ν V M σ α) (turns : Nat) (world : σ) :
    (p.runInHost M P.recording.interpreter turns (world, [])).value.1
      = (q.runInHost M P.recording.interpreter turns (world, [])).value.1 ∧
    Sum.LiftRel (· ≈ ·) Eq
      (p.runInHost M P.recording.interpreter turns (world, [])).value.2
      (q.runInHost M P.recording.interpreter turns (world, [])).value.2
  /-- By polling; `runAsync` and `tryRunAsync` are two cases of this. -/
  polled {M : Host} {σ : Type u} (driver : Driver) (D : DelayedPolicy ν V M σ α)
    (turns limit : Nat) (world : σ) :
    (Task.pollTimes driver D.recording.interpreter turns limit [] 0 (world, [])
        (Task.start p)).value
      = (Task.pollTimes driver D.recording.interpreter turns limit [] 0 (world, [])
        (Task.start q)).value

/-- Observationally equal programs run alike. -/
theorem sameRuns_of_equiv {p q : Program ν V α} (h : p ≈ q) : SameRuns.{u} p q where
  inHost P _ world := P.recording.simulation.runInHost h (world, [])
  polled driver D turns limit world :=
    D.recording.simulation.pollTimes driver turns limit [] [] 0 (world, []) (.ready 0 h)

end Program

end FreeMonad
