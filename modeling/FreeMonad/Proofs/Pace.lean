import FreeMonad.Proofs.Course

set_option autoImplicit false

/-! # The pace of a polled run

How long an answer is pending may depend on all that the interpreter is given. Whatever it is, a
polled run is the run by hand of the interpreter whose answers are taken as they are computed, at
its own pace (`Program.samePace_settled`). Each of the two takes a course, and what is left of it is
the same (`Course.byHand`). That enough polls get as far as any number of turns is shown by
induction on the turns: the turn at hand needs one turn of a poll, and one poll more for each time
that its answer is found pending (`Task.Far`). -/

namespace FreeMonad

universe u

variable {ν : Type} {V : Vocabulary} {M : Host} {σ : Type u} {α : Type}

/-! ## Courses by hand -/

namespace Standing

/-- What is left when the interpreter has answered: the answer, or the failure. -/
theorem rest_answered (answer : M.Carrier (Program ν V α)) :
    (answered answer).rest = (M.split answer : M.Carrier α ⊕ Program ν V α).swap := by
  rcases h : (M.split answer : M.Carrier α ⊕ Program ν V α) with failure | q
  · obtain ⟨hfailure, hanswered⟩ := answered_of_inl h
    rw [hanswered]
    rfl
  · rw [answered_of_inr h]
    rfl

end Standing

/-- Every course of a run that has not finished is taken by hand. -/
theorem Course.byHand {I : Interpreter ν V M σ α} {world world' : σ} {o o' : Standing ν V M α}
    {calls : List (Call ν V σ α)} (h : Course I world o calls world' o')
    (ho : ∀ log a, o ≠ .finished log a) (driver : Driver) (n : Nat) :
    ∃ m, (Program.handOn M I m world o.rest).seen
      = (Traced.mk (I.told driver n calls ++ o'.closing driver (n + calls.length))
          (world', o'.rest)).seen := by
  induction h generalizing n with
  | stay world o =>
    refine ⟨0, ?_⟩
    rw [Program.handOn_zero, Standing.closing_of_ne_finished ho]
    rfl
  | @value world p log a hp =>
    refine ⟨1, ?_⟩
    rw [Standing.rest, Program.handOn, Program.stepByHand_of_value hp]
    refine Traced.seen_eq_iff.mpr ⟨?_, rfl⟩
    simp [Interpreter.told, Standing.closing]
  | @call world world' p log s calls o hp rest ih =>
    obtain ⟨m, hm⟩ := ih (Standing.answered_ne_finished _) (n + 1)
    obtain ⟨hlog, hvalue⟩ := Traced.seen_eq_iff.mp hm
    refine ⟨m + 1, ?_⟩
    rw [Standing.rest_answered] at hlog hvalue
    rw [Standing.rest, Program.handOn, Program.stepByHand_of_step hp]
    refine Traced.seen_eq_iff.mpr ⟨?_, hvalue⟩
    simp [Interpreter.told, Interpreter.toldOnce, hlog, Nat.add_assoc, Nat.add_comm 1]

namespace Task

theorem rest_standing (t : Task ν V M α) : t.standing.rest = t.rest := by
  cases t with
  | ready steps p => rfl
  | waiting steps left answer => exact Standing.rest_answered answer

end Task

theorem Polled.Stands.rest_eq {polled : Polled ν V M α} {n : Nat} {o : Standing ν V M α}
    (h : polled.Stands n o) : o.rest = polled.rest := by
  cases h with
  | pending t => exact t.rest_standing
  | spent t => exact t.rest_standing
  | failed _ failure hfailure => rfl
  | finished _ log a => rfl

/-! ## Polls keep to the run by hand -/

namespace Task

variable {driver : Driver} {D : DelayedInterpreter ν V M σ α}

/-- What follows a poll: the other polls, unless the run is over or the poll was out of turns. -/
def goOn (driver : Driver) (D : DelayedInterpreter ν V M σ α) (turns limit polls : Nat) :
    σ × Polled ν V M α → Traced ν (σ × Nat × Option (M.Carrier α))
  | (world, .done result) => .pure (world, polls + 1, some result)
  | (world, .pending t) => pollTimes driver D turns limit [] (polls + 1) world t
  | (world, .spent _) => .pure (world, polls + 1, none)

/-- A poll that has `first` turns left, and then up to `limit` polls of `turns` turns each. -/
def pollOn (driver : Driver) (D : DelayedInterpreter ν V M σ α) (first turns limit polls : Nat)
    (world : σ) (t : Task ν V M α) : Traced ν (σ × Nat × Option (M.Carrier α)) :=
  (poll driver D first world t).bind (goOn driver D turns limit polls)

theorem pollTimes_succ_eq_pollOn (turns limit polls : Nat) (world : σ) (t : Task ν V M α) :
    pollTimes driver D turns (limit + 1) [] polls world t
      = pollOn driver D turns turns limit polls world t := by
  rw [pollTimes_succ, pollOn]
  congr 1

/-- A poll does what turns by hand do. -/
theorem exists_seen_poll (driver : Driver) (D : DelayedInterpreter ν V M σ α) (turns : Nat)
    (world : σ) (t : Task ν V M α) :
    ∃ m, ((poll driver D turns world t).map fun (world, polled) => (world, polled.rest)).seen
      = (Program.handOn M D.settled m world t.rest).seen := by
  obtain ⟨calls, world', o, polled, hcourse, hstands, hrun⟩ := poll_course driver D turns world t
  obtain ⟨m, hm⟩ := hcourse.byHand t.standing_ne_finished driver t.given
  refine ⟨m, ?_⟩
  rw [← t.rest_standing, hm, hrun, hstands.rest_eq]
  rfl

theorem exists_keeps_pollTimes (driver : Driver) (D : DelayedInterpreter ν V M σ α)
    (turns limit polls : Nat) (world : σ) (t : Task ν V M α) :
    ∃ m, Keeps D.settled world t.rest (pollTimes driver D turns limit [] polls world t) m := by
  obtain ⟨calls, world', o, polls', result, hcourse, hresult, -, hrun⟩ :=
    pollTimes_course driver D turns limit polls world t
  obtain ⟨m, hm⟩ := hcourse.byHand t.standing_ne_finished driver t.given
  obtain ⟨hlog, hvalue⟩ := Traced.seen_eq_iff.mp hm
  rw [t.rest_standing] at hlog hvalue
  refine ⟨m, ?_, ?_⟩
  · rw [hrun]
    exact Traced.seen_eq_iff.mpr ⟨hlog.symm, congrArg Prod.fst hvalue.symm⟩
  · rw [hrun]
    intro r hr
    exact (congrArg Prod.snd hvalue).trans (hresult r hr)

/-- Turns by hand can be put before those that polls keep to. -/
theorem Keeps.after {I : Interpreter ν V M σ α} {world world' : σ}
    {o o' : Program ν V α ⊕ M.Carrier α} {r : Traced ν (σ × Nat × Option (M.Carrier α))}
    {log : List (Event ν)} {m k : Nat} (h : Keeps I world' o' r k)
    (hbefore : (Program.handOn M I m world o).seen = (Traced.mk log (world', o')).seen) :
    Keeps I world o (r.after log) (m + k) := by
  obtain ⟨hlog, hvalue⟩ := Traced.seen_eq_iff.mp hbefore
  have hadd : Program.handOn M I (m + k) world o
      = (Program.handOn M I k world' o').after (Program.handOn M I m world o).log := by
    rw [Program.handOn_add, Traced.bind, hvalue]
    rfl
  obtain ⟨hlog', hvalue'⟩ := Traced.seen_eq_iff.mp h.seen
  constructor
  · rw [hadd]
    refine Traced.seen_eq_iff.mpr ⟨?_, hvalue'⟩
    simp only [Traced.log_map] at hlog'
    simp [hlog, hlog']
  · rw [hadd]
    exact h.result

theorem exists_keeps_goOn (driver : Driver) (D : DelayedInterpreter ν V M σ α)
    (turns limit polls : Nat) (world : σ) (polled : Polled ν V M α) :
    ∃ m, Keeps D.settled world polled.rest (goOn driver D turns limit polls (world, polled)) m := by
  cases polled with
  | pending t => exact exists_keeps_pollTimes driver D turns limit (polls + 1) world t
  | done result => exact ⟨0, rfl, fun _ h => congrArg Sum.inr (Option.some.inj h)⟩
  | spent t =>
    refine ⟨0, ?_, nofun⟩
    rw [Program.handOn_zero]
    rfl

/-- A poll in progress, and the polls after it, do what turns by hand do. -/
theorem exists_keeps_pollOn (driver : Driver) (D : DelayedInterpreter ν V M σ α)
    (first turns limit polls : Nat) (world : σ) (t : Task ν V M α) :
    ∃ m, Keeps D.settled world t.rest (pollOn driver D first turns limit polls world t) m := by
  obtain ⟨m, hm⟩ := exists_seen_poll driver D first world t
  obtain ⟨k, hk⟩ := exists_keeps_goOn driver D turns limit polls
    (poll driver D first world t).value.1 (poll driver D first world t).value.2
  exact ⟨m + k, hk.after hm.symm⟩

/-! ## Enough polls -/

/-- Polls, the first of which may be in progress, come to a result, or they do at least `n` turns
    by hand of a run that is not over after `n` turns: if there are enough of them, and each may
    take enough turns. -/
def Far (driver : Driver) (D : DelayedInterpreter ν V M σ α) (n : Nat) (world : σ)
    (t : Task ν V M α) : Prop :=
  ∃ enough, ∀ first turns limit polls, enough ≤ first → enough ≤ turns → enough ≤ limit →
    (∃ result, (pollOn driver D first turns limit polls world t).value.2.2 = some result) ∨
    ∃ m, n ≤ m ∧ Keeps D.settled world t.rest (pollOn driver D first turns limit polls world t) m ∧
      ∀ result, (Program.handOn M D.settled n world t.rest).value.2 ≠ .inr result

theorem far_zero (driver : Driver) (D : DelayedInterpreter ν V M σ α) (world : σ) (steps : Nat)
    (p : Program ν V α) : Far driver D 0 world (.ready steps p) := by
  refine ⟨0, fun first turns limit polls _ _ _ => .inr ?_⟩
  obtain ⟨m, hm⟩ := exists_keeps_pollOn driver D first turns limit polls world (.ready steps p)
  exact ⟨m, Nat.zero_le m, hm, nofun⟩

/-- A poll of a program that comes to a value is the last one. -/
theorem far_of_value {p : Program ν V α} {log : List (Event ν)} {a : α}
    (hp : p.resume = ⟨log, .inr a⟩) (n : Nat) (world : σ) (steps : Nat) :
    Far driver D n world (.ready steps p) := by
  refine ⟨1, fun first turns limit polls hfirst _ _ => .inl ⟨M.pure a, ?_⟩⟩
  obtain ⟨first, rfl⟩ := Nat.exists_eq_add_of_le' hfirst
  rw [pollOn, poll, advance_succ, hp]
  rfl

/-- A poll of a program that comes to a step goes on with the task that waits for the answer. -/
theorem pollOn_of_step {p : Program ν V α} {log : List (Event ν)} {s : Step ν V (Program ν V α)}
    (hp : p.resume = ⟨log, .inl s⟩) (first turns limit polls : Nat) (world : σ) (steps : Nat) :
    pollOn driver D (first + 1) turns limit polls world (.ready steps p)
      = (pollOn driver D first turns limit polls (D world s).value.1
          (.waiting (steps + 1) (D world s).value.2.pending (D world s).value.2.value)).after
            (log ++ .interpreting driver (steps + 1) :: (D world s).log) := by
  rw [pollOn, poll, advance_succ, hp]
  ext1
  · simp [pollOn]
  · rfl

theorem far_of_step {p : Program ν V α} {log : List (Event ν)} {s : Step ν V (Program ν V α)}
    (hp : p.resume = ⟨log, .inl s⟩) {n : Nat} {world : σ} {steps : Nat}
    (h : Far driver D n (D world s).value.1
      (.waiting (steps + 1) (D world s).value.2.pending (D world s).value.2.value)) :
    Far driver D (n + 1) world (.ready steps p) := by
  obtain ⟨enough, henough⟩ := h
  have hturn : ∀ k, Program.handOn M D.settled (k + 1) world (.inl p)
      = (Program.handOn M D.settled k (D world s).value.1
          (M.split (D world s).value.2.value).swap).after (log ++ (D world s).log) := fun k => by
    rw [Program.handOn, Program.stepByHand_of_step hp]
    ext1
    · simp [DelayedInterpreter.settled]
    · rfl
  refine ⟨enough + 1, fun first turns limit polls hfirst hturns hlimit => ?_⟩
  obtain ⟨first, rfl⟩ := Nat.exists_eq_add_of_le' (Nat.le_of_add_left_le hfirst)
  rw [pollOn_of_step hp]
  rcases henough first turns limit polls (Nat.le_of_succ_le_succ hfirst)
    (Nat.le_of_succ_le hturns) (Nat.le_of_succ_le hlimit) with hresult | ⟨m, hm, hkeeps, hover⟩
  · exact .inl hresult
  · refine .inr ⟨1 + m, by omega, hkeeps.after ?_, ?_⟩
    · rw [rest, hturn, Program.handOn_zero]
      refine Traced.seen_eq_iff.mpr ⟨?_, rfl⟩
      simp
    · rw [rest, hturn]
      exact hover

/-- A task that waits goes on with the program that is its answer, after some polls. -/
theorem far_of_waiting {n : Nat} {world : σ} {steps : Nat} {answer : M.Carrier (Program ν V α)}
    (h : ∀ q, Far driver D n world (.ready steps q)) (left : Nat) :
    Far driver D n world (.waiting steps left answer) := by
  induction left with
  | zero =>
    rcases hsplit : (M.split answer : M.Carrier α ⊕ Program ν V α) with failure | q
    · refine ⟨0, fun first turns limit polls _ _ _ => .inl ⟨failure, ?_⟩⟩
      rw [pollOn, poll, hsplit]
      rfl
    · have hpoll : ∀ first, poll driver D first world (.waiting steps 0 answer)
          = poll driver D first world (.ready steps q) := fun first => by
        simp only [poll, hsplit]
      have h := h q
      simpa only [Far, pollOn, hpoll, rest, hsplit, Sum.swap_inr] using h
  | succ left ih =>
    obtain ⟨enough, henough⟩ := ih
    refine ⟨enough + 1, fun first turns limit polls hfirst hturns hlimit => ?_⟩
    obtain ⟨limit, rfl⟩ := Nat.exists_eq_add_of_le' (Nat.le_of_add_left_le hlimit)
    -- the poll finds the answer pending, and the next one is a poll of the task with less to wait
    have hpending : pollOn driver D first turns (limit + 1) polls world
        (.waiting steps (left + 1) answer)
          = pollOn driver D turns turns limit (polls + 1) world (.waiting steps left answer) := by
      rw [← pollTimes_succ_eq_pollOn, pollOn, poll, Traced.pure_bind, goOn]
    rw [hpending]
    exact henough turns turns limit (polls + 1) (Nat.le_of_succ_le hturns)
      (Nat.le_of_succ_le hturns) (Nat.le_of_succ_le_succ hlimit)

theorem far (driver : Driver) (D : DelayedInterpreter ν V M σ α) (n : Nat) (world : σ)
    (t : Task ν V M α) : Far driver D n world t := by
  have hready : ∀ (world : σ) (steps : Nat) (p : Program ν V α),
      Far driver D n world (.ready steps p) := by
    induction n with
    | zero => exact far_zero driver D
    | succ n ih =>
      intro world steps p
      rcases hp : p.resume with ⟨log, s | a⟩
      · exact far_of_step hp (far_of_waiting (fun q => ih _ _ q) _)
      · exact far_of_value hp _ world steps
  cases t with
  | ready steps p => exact hready world steps p
  | waiting steps left answer => exact far_of_waiting (fun q => hready world steps q) left

/-- Enough polls come to the result of the turns by hand that they do, or they do at least `n` of
    them and the run is not over after `n`. -/
theorem exists_enough (driver : Driver) (D : DelayedInterpreter ν V M σ α) (n : Nat) (world : σ)
    (t : Task ν V M α) :
    ∃ enough, ∀ turns limit polls, enough ≤ turns → enough ≤ limit →
      ∃ m, Keeps D.settled world t.rest (pollTimes driver D turns limit [] polls world t) m ∧
        ((∃ result, (pollTimes driver D turns limit [] polls world t).value.2.2 = some result) ∨
          n ≤ m ∧ ∀ result, (Program.handOn M D.settled n world t.rest).value.2 ≠ .inr result) := by
  obtain ⟨enough, henough⟩ := far driver D n world t
  refine ⟨enough + 1, fun turns limit polls hturns hlimit => ?_⟩
  obtain ⟨limit, rfl⟩ := Nat.exists_eq_add_of_le' (Nat.le_of_add_left_le hlimit)
  rw [pollTimes_succ_eq_pollOn]
  rcases henough turns turns limit polls (Nat.le_of_succ_le hturns) (Nat.le_of_succ_le hturns)
    (Nat.le_of_succ_le_succ hlimit) with hresult | ⟨m, hm, hkeeps, hover⟩
  · obtain ⟨m, hm⟩ := exists_keeps_pollOn driver D turns turns limit polls world t
    exact ⟨m, hm, .inl hresult⟩
  · exact ⟨m, hkeeps, .inr ⟨hm, hover⟩⟩

end Task

namespace Program

/-- **A polled run is the run by hand, at its own pace**, with any interpreter that keeps it waiting
    for as long as it chooses to at each call. -/
theorem samePace_settled (driver : Driver) (D : DelayedInterpreter ν V M σ α) (world : σ)
    (p : Program ν V α) :
    SamePace (fun turns limit => Task.pollTimes driver D turns limit [] 0 world (Task.start p))
      fun n => p.stepByHand M D.settled n world := by
  refine .of_enough ?_ fun n => ?_
  · intro turns limit
    exact Task.exists_keeps_pollTimes driver D turns limit 0 world (Task.start p)
  · obtain ⟨enough, henough⟩ := Task.exists_enough driver D n world (Task.start p)
    exact ⟨enough, fun turns limit hturns hlimit => henough turns limit 0 hturns hlimit⟩

/-! ## Runs that end -/

/-- The run ends with `result` in the state `world'`, having recorded `log`, and it takes no more
    than `n` turns. -/
structure EndsWith (I : Interpreter ν V M σ α) (n : Nat) (world : σ) (p : Program ν V α)
    (log : List (Event ν)) (world' : σ) (result : M.Carrier α) : Prop where
  /-- By hand. -/
  byHand (k : Nat) : p.stepByHand M I (n + k) world = ⟨log, (world', .inr result)⟩
  /-- Inside a host. -/
  inHost (k : Nat) :
    (p.runInHost M I (n + k) world).seen = (Traced.mk log (world', .inr result)).seen
  /-- By polling it often enough, however long the answers are pending. -/
  polled (driver : Driver) (D : DelayedInterpreter ν V M σ α) (hD : D.settled = I) :
    ∃ enough, ∀ turns limit, enough ≤ turns → enough ≤ limit →
      ((Task.pollTimes driver D turns limit [] 0 world (Task.start p)).map Prod.fst).seen
          = (Traced.mk log world').seen ∧
        (Task.pollTimes driver D turns limit [] 0 world (Task.start p)).value.2.2 = some result

/-- A run that is over by hand ends in the same way by every driver. -/
theorem endsWith_of_stepByHand {I : Interpreter ν V M σ α} {n : Nat} {world world' : σ}
    {p : Program ν V α} {log : List (Event ν)} {result : M.Carrier α}
    (h : p.stepByHand M I n world = ⟨log, (world', .inr result)⟩) :
    p.EndsWith I n world log world' result := by
  have hover : (p.stepByHand M I n world).value.2 = .inr result := by rw [h]
  have hbyHand : ∀ k, p.stepByHand M I (n + k) world = ⟨log, (world', .inr result)⟩ := fun k =>
    (stepByHand_of_over I (Nat.le_add_right n k) hover).trans h
  constructor
  case byHand => exact hbyHand
  case inHost =>
    intro k
    rw [seen_runInHost, hbyHand]
  case polled =>
    rintro driver D rfl
    obtain ⟨enough, henough⟩ := (samePace_settled driver D world p).ends hover
    rw [h] at henough
    exact ⟨enough, henough⟩

end Program

end FreeMonad
