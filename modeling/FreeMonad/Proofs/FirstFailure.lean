import FreeMonad.Proofs.Drivers

set_option autoImplicit false

/-! # The first failure

An interpreter that fails at one call does, up to this call, what it would have done otherwise, and
nothing is done after it. A run is therefore the run without the failure up to the step that fails
(`Program.toStep`), followed by this one call, and its result is the failure itself
(`Program.failAt`). A run that has no such step is not changed.

Interpreters that agree on the first `n` calls do the same in `n` turns
(`Program.stepByHand_congr`), and after the failure a run by hand is over; the drivers follow. -/

namespace FreeMonad

universe u v

variable {ν : Type} {V : Vocabulary} {M : Host} {σ : Type u} {α : Type}

/-! ## Failures -/

/-- How a computation of the host can fail. -/
def Host.Failure : Host → Type
  | .identity => Empty
  | .option => Unit
  | .result Error => Error

/-- The failure as a computation, which gives no value and so fits every type. -/
def Host.fail {β : Type v} : (M : Host) → M.Failure → M.Carrier β
  | .option, _ => none
  | .result _, e => .error e

@[simp] theorem Host.split_fail {β : Type v} {γ : Type u} (M : Host) (e : M.Failure) :
    (M.split (M.fail e : M.Carrier β) : M.Carrier γ ⊕ β) = .inl (M.fail e) := by
  cases M with
  | identity => exact e.elim
  | option => rfl
  | result Error => rfl

namespace Interpreter

/-- The interpreter `I` inside the host `M`, but for call number `n`, counted from zero: it does
    what `last` does and fails with `e`. -/
def failingAt (I : Interpreter ν V .identity σ α) (M : Host) (n : Nat) (e : M.Failure)
    (last : σ → Step ν V (Program ν V α) → Traced ν σ) :
    Interpreter ν V M (Recorded ν V σ α) α := fun state s =>
  if state.2.length = n then
    (last state.1 s).map fun world => ((world, state.2 ++ [s]), M.fail e)
  else I.recording.inHost M state s

variable {I : Interpreter ν V .identity σ α} {n : Nat} {e : M.Failure}
  {last : σ → Step ν V (Program ν V α) → Traced ν σ}

theorem failingAt_of_ne {state : Recorded ν V σ α} (h : state.2.length ≠ n)
    (s : Step ν V (Program ν V α)) :
    I.failingAt M n e last state s = I.recording.inHost M state s :=
  if_neg h

theorem failingAt_of_eq {state : Recorded ν V σ α} (h : state.2.length = n)
    (s : Step ν V (Program ν V α)) : I.failingAt M n e last state s
      = (last state.1 s).map fun world => ((world, state.2 ++ [s]), M.fail e) :=
  if_pos h

theorem records_failingAt : (I.failingAt M n e last).Records := by
  intro state s
  by_cases h : state.2.length = n
  · rw [failingAt_of_eq h]
    rfl
  · rw [failingAt_of_ne h]
    rfl

end Interpreter

namespace Program

/-! ## Up to a step -/

/-- Interpreters that agree on the first `n` calls do the same as long as they are not called
    more often. -/
theorem stepByHand_congr {J K : Interpreter ν V M (Recorded ν V σ α) α} (hJ : J.Records) {n : Nat}
    (h : ∀ state s, state.2.length < n → J state s = K state s) (turns : Nat)
    (state : Recorded ν V σ α) (p : Program ν V α) (hle : state.2.length + turns ≤ n) :
    p.stepByHand M J turns state = p.stepByHand M K turns state := by
  induction turns generalizing state p with
  | zero => rfl
  | succ turns ih =>
    have hturn : p.handTurn M J state = p.handTurn M K state := by
      rw [handTurn, handTurn]
      congr 1
      funext o
      cases o with
      | inr a => rfl
      | inl s => simp only [h state s (by omega)]
    obtain ⟨steps, hsteps, hlength, -⟩ := steps_handTurn hJ state p
    rw [stepByHand_succ, stepByHand_succ, ← hturn]
    generalize p.handTurn M J state = run at hsteps ⊢
    obtain ⟨log, state', o⟩ := run
    cases o with
    | inr r => rfl
    | inl q =>
      have hle' : state'.2.length + turns ≤ n := by
        have hsteps : state'.2 = state.2 ++ steps := hsteps
        rw [hsteps, List.length_append]
        omega
      exact congrArg (Traced.after log) (ih state' q hle')

/-- Resumes what is left of a run. -/
def resumeRest {τ : Type v} (state : τ) :
    Program ν V α ⊕ α → Traced ν (τ × (Step ν V (Program ν V α) ⊕ α))
  | .inl q => q.resume.map fun o => (state, o)
  | .inr a => .pure (state, .inr a)

/-- The end of a run that is left with a step which fails, or with a value. -/
def failStep (M : Host) (e : M.Failure) (last : σ → Step ν V (Program ν V α) → Traced ν σ)
    (state : Recorded ν V σ α) :
    Step ν V (Program ν V α) ⊕ α → Traced ν (Recorded ν V σ α × M.Carrier α)
  | .inl s => (last state.1 s).map fun world => ((world, state.2 ++ [s]), M.fail e)
  | .inr a => .pure (state, M.pure a)

/-- The run by hand up to step `n`, counted from zero, which is not answered yet; or the whole run,
    if it has no such step. -/
def toStep (I : Interpreter ν V .identity σ α) (n : Nat) (world : σ) (p : Program ν V α) :
    Traced ν (Recorded ν V σ α × (Step ν V (Program ν V α) ⊕ α)) :=
  (p.stepByHand .identity I.recording n (world, [])).bind fun (state, o) => resumeRest state o

/-- The run up to step `n`, which fails with `e` after what `last` does; or the whole run, if it has
    no such step. -/
def failAt (I : Interpreter ν V .identity σ α) (M : Host) (n : Nat) (e : M.Failure)
    (last : σ → Step ν V (Program ν V α) → Traced ν σ) (world : σ) (p : Program ν V α) :
    Traced ν (Recorded ν V σ α × M.Carrier α) :=
  (p.toStep I n world).bind fun (state, o) => failStep M e last state o

section

variable (I : Interpreter ν V .identity σ α) (n : Nat) (world : σ) (p : Program ν V α)

/-- After `n` turns there are `n` steps if the run goes on, and not more if it is over. -/
theorem steps_stepByHand : (p.stepByHand .identity I.recording n (world, [])).value.1.2.length ≤ n ∧
    ∀ q, (p.stepByHand .identity I.recording n (world, [])).value.2 = .inl q →
      (p.stepByHand .identity I.recording n (world, [])).value.1.2.length = n := by
  obtain ⟨steps, hsteps, hle, hgoes⟩ := steps_handOn I.records_recording n (world, []) (.inl p)
  obtain rfl := hsteps
  exact ⟨hle, hgoes⟩

/-- Before step `n` there are `n` steps, or fewer if there is no such step. -/
theorem steps_toStep : (p.toStep I n world).value.1.2.length ≤ n ∧
    ∀ s, (p.toStep I n world).value.2 = .inl s →
      (p.toStep I n world).value.1.2.length = n := by
  obtain ⟨hle, hgoes⟩ := p.steps_stepByHand I n world
  rw [toStep, Traced.value_bind]
  generalize (p.stepByHand .identity I.recording n (world, [])).value = run at hle hgoes ⊢
  obtain ⟨state, o⟩ := run
  cases o with
  | inr a => exact ⟨hle, nofun⟩
  | inl q => exact ⟨hle, fun _ _ => hgoes q rfl⟩

/-- The run goes on from step `n` once it is answered. -/
theorem stepByHand_toStep (k : Nat) : p.stepByHand .identity I.recording (n + 1 + k) (world, [])
      = (p.toStep I n world).bind fun
        | (state, .inl s) => (I.recording state s).bind fun (state, q) =>
            q.stepByHand .identity I.recording k state
        | (state, .inr a) => .pure (state, .inr a) := by
  rw [Nat.add_right_comm, Nat.add_assoc, stepByHand_add, toStep, Traced.bind_assoc]
  congr 1
  funext ⟨state, o⟩
  cases o with
  | inr a => rfl
  | inl q =>
    dsimp only [handOn, resumeRest]
    rw [stepByHand_succ, handTurn, Traced.bind_assoc, Traced.bind_map]
    congr 1
    funext o
    cases o with
    | inr a => rfl
    | inl s => rfl

variable (e : M.Failure) (last : σ → Step ν V (Program ν V α) → Traced ν σ)

/-- The turn whose step is the one that fails. -/
theorem handOn_failingAt {state : Recorded ν V σ α} {o : Program ν V α ⊕ α}
    (h : ∀ q, o = .inl q → state.2.length = n) :
    handOn M (I.failingAt M n e last) 1 state (o.map id M.pure)
      = ((resumeRest state o).bind fun (state, o) => failStep M e last state o).map
          fun (state, r) => (state, .inr r) := by
  cases o with
  | inr a => rfl
  | inl q =>
    simp only [Sum.map_inl, id_eq, handOn, resumeRest]
    rw [stepByHand_succ, handTurn, Traced.bind_assoc, Traced.bind_map, Traced.map_bind]
    congr 1
    funext o
    cases o with
    | inr a => rfl
    | inl s =>
      rw [Traced.bind_map, Interpreter.failingAt_of_eq (h q rfl), Traced.bind_map]
      simp only [Host.split_fail, Sum.swap_inl, handOn, failStep]
      exact Traced.ext (List.append_nil _) rfl

/-- With an interpreter that fails at call `n`, a run by hand stops there. -/
theorem stepByHand_failingAt (k : Nat) :
    p.stepByHand M (I.failingAt M n e last) (n + 1 + k) (world, [])
      = (p.failAt I M n e last world).map fun (state, r) => (state, .inr r) := by
  have hbefore : p.stepByHand M (I.failingAt M n e last) n (world, [])
      = (p.stepByHand .identity I.recording n (world, [])).map (succeed M) := by
    rw [stepByHand_congr Interpreter.records_failingAt
      (fun state s hlt => Interpreter.failingAt_of_ne (Nat.ne_of_lt hlt) s) n (world, []) p
      (Nat.le_of_eq (Nat.zero_add n)), stepByHand_inHost]
    rfl
  have hlast : p.stepByHand M (I.failingAt M n e last) (n + 1) (world, [])
      = (p.failAt I M n e last world).map fun (state, r) => (state, .inr r) := by
    calc p.stepByHand M (I.failingAt M n e last) (n + 1) (world, [])
      _ = (p.stepByHand .identity I.recording n (world, [])).bind fun (state, o) =>
            handOn M (I.failingAt M n e last) 1 state (o.map id M.pure) := by
          rw [stepByHand_add, hbefore]
          rfl
      _ = (p.stepByHand .identity I.recording n (world, [])).bind fun (state, o) =>
            ((resumeRest state o).bind fun (state, o) => failStep M e last state o).map
              fun (state, r) => (state, .inr r) :=
          Traced.bind_congr (handOn_failingAt I n e last (p.steps_stepByHand I n world).2)
      _ = (p.failAt I M n e last world).map fun (state, r) => (state, .inr r) := by
          rw [failAt, toStep, Traced.bind_assoc, Traced.map_bind]
  rw [stepByHand_of_over _ (Nat.le_add_right (n + 1) k) (congrArg (·.value.2) hlast), hlast]

end

/-! ## Every driver -/

/-- What a run comes to with an interpreter that is `I` but for call `n`, counted from zero, which
    does what `last` does and fails: the run with `I` up to step `n`, this one call, and nothing
    after it. The result is the failure of that call. If the run has no step `n`, it is the run
    with `I`. -/
structure FailsFirst (p : Program ν V α) (I : Interpreter ν V .identity σ α) (n : Nat)
    (last : σ → Step ν V (Program ν V α) → Traced ν σ) (world : σ) : Prop where
  /-- The run with `I` up to step `n` has given all the steps before that one. -/
  steps : (p.toStep I n world).value.1.2.length ≤ n ∧
    ∀ s, (p.toStep I n world).value.2 = .inl s → (p.toStep I n world).value.1.2.length = n
  /-- It is how the run with `I` begins, which answers step `n` and goes on. -/
  goesOn (k : Nat) : (p.run I.recording (n + 1 + k) (world, [])).seen
    = ((p.toStep I n world).bind fun
      | (state, .inl s) => (I.recording state s).bind fun (state, q) =>
          q.stepByHand .identity I.recording k state
      | (state, .inr a) => .pure (state, .inr a)).seen
  /-- Inside a host; `tryRun` is a case of `result`. -/
  hosted (M : Host) (e : M.Failure) (k : Nat) :
    (p.runInHost M (I.failingAt M n e last) (n + 1 + k) (world, [])).seen
      = ((p.failAt I M n e last world).map fun (state, r) => (state, .inr r)).seen
  /-- By polling, whatever the schedule; `tryRunAsync` is a case of `result`. -/
  polled (M : Host) (e : M.Failure) (driver : Driver) (y : Nat → Nat) :
    ∃ enough, ∀ turns limit, enough ≤ turns → enough ≤ limit →
      ((Task.pollTimes driver ((I.failingAt M n e last).delayed y) turns limit [] 0 (world, [])
          (Task.start p)).map fun (state, _, result) => (state, result)).seen
        = ((p.failAt I M n e last world).map fun (state, r) => (state, some r)).seen

/-- **The first failure stops everything and is returned unchanged.** If the run with `I` has a step
    `n`, then with the interpreter that fails there the result is this failure, the steps given are
    the first `n + 1` of that run, the state is the one that the failing call leaves, and no
    function of the user is called after it. Otherwise the failure is never met, and nothing
    changes. -/
theorem first_failure_stops (p : Program ν V α) (I : Interpreter ν V .identity σ α) (n : Nat)
    (last : σ → Step ν V (Program ν V α) → Traced ν σ) (world : σ) :
    p.FailsFirst I n last world := by
  constructor
  case steps => exact p.steps_toStep I n world
  case goesOn =>
    intro k
    rw [← stepByHand_toStep]
    exact seen_runInHost I.recording (n + 1 + k) (world, []) p
  case hosted =>
    intro M e k
    rw [seen_runInHost, stepByHand_failingAt]
  case polled =>
    intro M e driver y
    have hpace := samePace_stepByHand (I := I.failingAt M n e last) Interpreter.records_failingAt
      driver y (world, []) p
    have hend := p.stepByHand_failingAt I n world e last 0
    obtain ⟨enough, henough⟩ := hpace.ends (congrArg (·.value.2) hend)
    refine ⟨enough, fun turns limit hturns hlimit => ?_⟩
    obtain ⟨hsame, hresult⟩ := henough turns limit hturns hlimit
    rw [hend] at hsame
    obtain ⟨hlog, hstate⟩ := Traced.seen_eq_iff.mp hsame
    exact Traced.seen_eq_iff.mpr ⟨hlog, Prod.ext hstate hresult⟩

end Program

end FreeMonad
