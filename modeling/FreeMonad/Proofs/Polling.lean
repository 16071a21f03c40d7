import FreeMonad.Proofs.ByHand
import FreeMonad.Run.Polled
import Mathlib.Algebra.BigOperators.Group.Finset.Basic
import Mathlib.Algebra.Order.BigOperators.Group.Finset

set_option autoImplicit false

/-! # Polling a run to its end

An asynchronous run is polled, and its interpreter may keep the driver waiting: the answer to step
`i`, counted from zero, is found pending by `y i` polls. Whatever the schedule `y`, a poll takes
turns by hand (`Task.poll_byHand`), and so does any number of polls (`Task.pollTimes_byHand`).

Both keep an account: when `now` polls are over and `left` more will find the answer pending, then
`now + left` is the sum of the schedule over the steps that were given. It follows when each step
is given and how many polls a whole run takes (`Punctual`), and that a run that is polled often
enough comes to the end that it has inside a host (`SamePace`). -/

namespace FreeMonad

universe u

open Finset

variable {ν : Type} {V : Vocabulary} {M : Host} {σ : Type u} {α : Type}

/-! ## Schedules -/

/-- The interpreter computes its answer when it is called, and `y i` polls find the answer to step
    `i` pending. -/
def Interpreter.delayed (I : Interpreter ν V M (Recorded ν V σ α) α) (y : Nat → Nat) :
    DelayedInterpreter ν V M (Recorded ν V σ α) α := fun state s =>
  (I state s).map fun (state', answer) => (state', ⟨y state.2.length, answer⟩)

/-- How many polls find an answer pending before step `n` is given. -/
def waits (y : Nat → Nat) (n : Nat) : Nat := ∑ i ∈ range n, y i

theorem waits_succ (y : Nat → Nat) (n : Nat) : waits y (n + 1) = waits y n + y n :=
  sum_range_succ y n

theorem waits_mono (y : Nat → Nat) {m n : Nat} (h : m ≤ n) : waits y m ≤ waits y n :=
  sum_le_sum_of_subset (range_mono h)

/-! ## One poll -/

/-- What is left of the run: a program to go on with, or the result. -/
def Task.rest : Task ν V M α → Program ν V α ⊕ M.Carrier α
  | .ready _ p => .inl p
  | .waiting _ _ answer => (M.split answer).swap

/-- How many polls will find an answer pending before the run goes on. -/
def Task.left : Task ν V M α → Nat
  | .ready _ _ => 0
  | .waiting _ left _ => left

/-- What is left of the run after a poll. -/
def Polled.rest : Polled ν V M α → Program ν V α ⊕ M.Carrier α
  | .pending t => t.rest
  | .done result => .inr result
  | .spent t => t.rest

/-- How many polls find an answer pending before the run goes on, the one that came to this
    included. -/
def Polled.left : Polled ν V M α → Nat
  | .pending t => t.left + 1
  | .done _ => 0
  | .spent _ => 0

/-- Failures are not successes. -/
theorem Host.split_ne_inl_pure {β : Type u} (M : Host) (m : M.Carrier β) (a : α) :
    M.split m ≠ .inl (M.pure a) := by
  cases M with
  | identity => exact nofun
  | option => cases m <;> exact nofun
  | result Error => cases m <;> exact nofun

/-- A task is left with a program or with a failure. -/
theorem Task.rest_ne_pure (t : Task ν V M α) (a : α) : t.rest ≠ .inr (M.pure a) := by
  cases t with
  | ready steps p => exact nofun
  | waiting steps left answer =>
    intro h
    exact M.split_ne_inl_pure answer a (Sum.swap_leftInverse.injective h)

/-- The result of a run that is polled no more. -/
def Polled.result : Polled ν V M α → Option (M.Carrier α)
  | .pending _ => none
  | .done result => some result
  | .spent _ => none

namespace Task

/-- The record of a poll is put in front of what the poll records. -/
theorem advance_eq_after (driver : Driver) (I : DelayedInterpreter ν V M σ α) :
    ∀ (turns : Nat) (recorded : List (Event ν)) (world : σ) (steps : Nat) (p : Program ν V α),
      advance driver I turns recorded world steps p
        = (advance driver I turns [] world steps p).after recorded.reverse
  | 0, recorded, world, steps, p => by simp [advance, Traced.after]
  | turns + 1, recorded, world, steps, p => by
    simp only [advance]
    rcases p.resume with ⟨log, s | a⟩
    · dsimp only
      rcases I world s with ⟨log', world', left | left, m⟩
      · dsimp only
        rcases (M.split m : M.Carrier α ⊕ Program ν V α) with failure | q
        · simp [Traced.after, List.reverseAux_eq]
        · simp only [advance_eq_after driver I turns (log'.reverseAux _)]
          simp [Traced.after, List.reverseAux_eq]
      · simp [Traced.after, List.reverseAux_eq]
    · simp [Traced.after, List.reverseAux_eq]

/-- A poll that is not out of turns resumes the program and has its step answered; then it is a
    poll of the task that waits for this answer. -/
theorem advance_succ (driver : Driver) (I : DelayedInterpreter ν V M σ α) (turns : Nat)
    (world : σ) (steps : Nat) (p : Program ν V α) :
    advance driver I (turns + 1) [] world steps p = p.resume.bind fun
      | .inr a => ⟨[.finished driver steps], (world, .done (M.pure a))⟩
      | .inl s => ((I world s).bind fun (world, d) =>
          poll driver I turns world (.waiting (steps + 1) d.pending d.value)).after
            [.interpreting driver (steps + 1)] := by
  simp only [advance]
  rcases p.resume with ⟨log, s | a⟩
  · simp only [Traced.bind]
    rcases I world s with ⟨log', world', left | left, m⟩
    · simp only [poll]
      rcases (M.split m : M.Carrier α ⊕ Program ν V α) with failure | q
      · simp [Traced.after, List.reverseAux_eq]
      · dsimp only
        rw [advance_eq_after]
        simp [Traced.after, List.reverseAux_eq]
    · simp [Traced.after, List.reverseAux_eq, poll]
  · simp [Traced.bind, List.reverseAux_eq]

/-- The poll `r`, with `now` polls before it, is `n` turns by hand of what is left of the run. -/
structure ByHand (I : Interpreter ν V M (Recorded ν V σ α) α) (y : Nat → Nat) (turns now : Nat)
    (state : Recorded ν V σ α) (o : Program ν V α ⊕ M.Carrier α)
    (r : Traced ν (Recorded ν V σ α × Polled ν V M α)) (n : Nat) : Prop where
  /-- It does the same and leaves the same of the run. -/
  seen : (r.map fun (state, o) => (state, o.rest)).seen = (Program.handOn M I n state o).seen
  /-- The next step is given when all answers were found pending as often as they are to be. -/
  due : now + r.value.2.left = waits y r.value.1.2.length
  /-- No step is given before it is due. -/
  given : ∀ i, state.2.length ≤ i → i < r.value.1.2.length → waits y i ≤ now
  /-- A poll that is out of turns took all of them, and the run is not over. -/
  spent : ∀ t, r.value.2 = .spent t → turns ≤ n ∧ ∃ q, t.rest = .inl q

variable {I : Interpreter ν V M (Recorded ν V σ α) α}

/-- A poll either finds an answer pending, or delivers a failure, or goes on with a program that is
    ready. -/
theorem poll_byHand_of_advance {driver : Driver} {y : Nat → Nat} {turns : Nat}
    (hadvance : ∀ (state : Recorded ν V σ α) (steps : Nat) (p : Program ν V α), ∃ n,
      ByHand I y turns (waits y state.2.length) state (.inl p)
        (advance driver (I.delayed y) turns [] state steps p) n)
    (state : Recorded ν V σ α) (t : Task ν V M α) {now : Nat}
    (h : now + t.left = waits y state.2.length) :
    ∃ n, ByHand I y turns now state t.rest (poll driver (I.delayed y) turns state t) n := by
  have hnone : ∀ i, state.2.length ≤ i → i < state.2.length → waits y i ≤ now :=
    fun i hle hlt => absurd hlt (Nat.not_lt.mpr hle)
  rcases t with ⟨steps, p⟩ | ⟨steps, left | left, answer⟩
  · subst h
    exact hadvance state steps p
  · simp only [poll, rest]
    rcases hsplit : (M.split answer : M.Carrier α ⊕ Program ν V α) with failure | p
    · exact ⟨0, rfl, h, hnone, nofun⟩
    · subst h
      exact hadvance state steps p
  · refine ⟨0, ?_, h, hnone, nofun⟩
    rw [Program.handOn_zero]
    rfl

/-- From a program that is ready, a poll is turns by hand: one turn more than the poll of the task
    that waits for the first answer. -/
theorem advance_byHand (hI : I.Records) (driver : Driver) (y : Nat → Nat) (turns : Nat)
    (state : Recorded ν V σ α) (steps : Nat) (p : Program ν V α) : ∃ n,
    ByHand I y turns (waits y state.2.length) state (.inl p)
      (advance driver (I.delayed y) turns [] state steps p) n := by
  induction turns generalizing state steps p with
  | zero =>
    exact ⟨0, rfl, rfl, fun i hle hlt => absurd hlt (Nat.not_lt.mpr hle),
      fun t ht => by cases ht; exact ⟨Nat.le_refl 0, p, rfl⟩⟩
  | succ turns ih =>
    rw [advance_succ]
    rcases hp : p.resume with ⟨log, s | a⟩
    · have hsteps := hI state s
      have hdue : waits y state.2.length + y state.2.length
          = waits y (I state s).value.1.2.length := by
        rw [hsteps, List.length_append, List.length_singleton, waits_succ]
      obtain ⟨n, hn⟩ := poll_byHand_of_advance ih (I state s).value.1
        (.waiting (steps + 1) (y state.2.length) (I state s).value.2) hdue
      refine ⟨n + 1, ?_, hn.due, ?_, ?_⟩
      · obtain ⟨hlog, hvalue⟩ := Traced.seen_eq_iff.mp hn.seen
        rw [Program.handOn, Program.stepByHand_succ, Program.handTurn, hp]
        refine Traced.seen_eq_iff.mpr ⟨?_, hvalue⟩
        simp only [Traced.log_map, rest] at hlog
        simp [Interpreter.delayed, hlog]
      · intro i hle hlt
        rcases Nat.eq_or_lt_of_le hle with rfl | hlt'
        · exact Nat.le_refl _
        · refine hn.given i ?_ hlt
          rw [hsteps, List.length_append, List.length_singleton]
          exact hlt'
      · intro t ht
        obtain ⟨hle, hq⟩ := hn.spent t ht
        exact ⟨Nat.succ_le_succ hle, hq⟩
    · refine ⟨1, ?_, rfl, fun i hle hlt => absurd hlt (Nat.not_lt.mpr hle), fun t ht => by cases ht⟩
      rw [Program.handOn, Program.stepByHand_succ, Program.handTurn, hp]
      refine Traced.seen_eq_iff.mpr ⟨?_, rfl⟩
      simp [Program.handOn]

/-- One poll is a number of turns by hand. -/
theorem poll_byHand (hI : I.Records) (driver : Driver) (y : Nat → Nat) (turns : Nat)
    (state : Recorded ν V σ α) (t : Task ν V M α) {now : Nat}
    (h : now + t.left = waits y state.2.length) :
    ∃ n, ByHand I y turns now state t.rest (poll driver (I.delayed y) turns state t) n :=
  poll_byHand_of_advance (advance_byHand hI driver y turns) state t h

/-! ## Many polls -/

/-- The record of the polls is put in front of what the others record. -/
theorem pollTimes_eq_after (driver : Driver) (D : DelayedInterpreter ν V M σ α) (turns : Nat) :
    ∀ (limit : Nat) (recorded : List (Event ν)) (polls : Nat) (world : σ) (t : Task ν V M α),
      pollTimes driver D turns limit recorded polls world t
        = (pollTimes driver D turns limit [] polls world t).after recorded.reverse
  | 0, recorded, polls, world, t => by simp [pollTimes, Traced.after]
  | limit + 1, recorded, polls, world, t => by
    simp only [pollTimes]
    rcases poll driver D turns world t with ⟨log, world', t' | result | t'⟩
    · simp only [pollTimes_eq_after driver D turns limit (log.reverseAux _)]
      simp [Traced.after, List.reverseAux_eq]
    · simp [Traced.after, List.reverseAux_eq]
    · simp [Traced.after, List.reverseAux_eq]

/-- The first poll, and then the others unless the run is over or the poll was out of turns. -/
theorem pollTimes_succ (driver : Driver) (D : DelayedInterpreter ν V M σ α) (turns limit : Nat)
    (polls : Nat) (world : σ) (t : Task ν V M α) :
    pollTimes driver D turns (limit + 1) [] polls world t
      = (poll driver D turns world t).bind fun
        | (world, .done result) => .pure (world, polls + 1, some result)
        | (world, .pending t) => pollTimes driver D turns limit [] (polls + 1) world t
        | (world, .spent _) => .pure (world, polls + 1, none) := by
  simp only [pollTimes]
  rcases poll driver D turns world t with ⟨log, world', t' | result | t'⟩
  · dsimp only
    rw [pollTimes_eq_after]
    simp [Traced.after, Traced.bind, List.reverseAux_eq]
  · simp [Traced.bind, List.reverseAux_eq]
  · simp [Traced.bind, List.reverseAux_eq]

/-- The polls `r` do what `m` turns by hand do of what is left of the run, and come to no other
    result. -/
structure Keeps (I : Interpreter ν V M σ α) (world : σ) (o : Program ν V α ⊕ M.Carrier α)
    (r : Traced ν (σ × Nat × Option (M.Carrier α))) (m : Nat) : Prop where
  seen : (r.map Prod.fst).seen = ((Program.handOn M I m world o).map Prod.fst).seen
  result : ∀ result, r.value.2.2 = some result →
    (Program.handOn M I m world o).value.2 = .inr result

/-- The polls `r` are `n` turns by hand of what is left of the run. There are `polls` polls before
    them, and the schedule has `base` more of them, for steps that were given before the first
    poll. -/
structure TimesByHand (I : Interpreter ν V M (Recorded ν V σ α) α) (y : Nat → Nat)
    (turns limit base polls : Nat) (state : Recorded ν V σ α) (o : Program ν V α ⊕ M.Carrier α)
    (r : Traced ν (Recorded ν V σ α × Nat × Option (M.Carrier α))) (n : Nat) : Prop where
  /-- They do the same. -/
  seen : (r.map Prod.fst).seen = ((Program.handOn M I n state o).map Prod.fst).seen
  polls_le : polls ≤ r.value.2.1
  le_limit : r.value.2.1 ≤ polls + limit
  /-- No step is given before it is due. -/
  given : ∀ i, state.2.length ≤ i → i < r.value.1.2.length → 1 + waits y i ≤ base + r.value.2.1
  /-- The result is that of the run by hand, and it is there as soon as the last answer is. -/
  result : ∀ result, r.value.2.2 = some result →
    (Program.handOn M I n state o).value.2 = .inr result ∧
      base + r.value.2.1 = 1 + waits y r.value.1.2.length
  /-- There is no result if the polls do not suffice, and then the value was not reached, or if one
      of them was out of turns. -/
  noResult : r.value.2.2 = none →
    r.value.2.1 = polls + limit ∧ base + r.value.2.1 ≤ waits y r.value.1.2.length ∧
        (∀ a, (Program.handOn M I n state o).value.2 ≠ .inr (M.pure a)) ∨
      turns ≤ n ∧ ∃ q, (Program.handOn M I n state o).value.2 = .inl q

theorem TimesByHand.keeps {y : Nat → Nat} {turns limit base polls n : Nat}
    {state : Recorded ν V σ α} {o : Program ν V α ⊕ M.Carrier α}
    {r : Traced ν (Recorded ν V σ α × Nat × Option (M.Carrier α))}
    (h : TimesByHand I y turns limit base polls state o r n) : Keeps I state o r n :=
  ⟨h.seen, fun result hresult => (h.result result hresult).1⟩

/-- A poll that leaves no answer pending is the last one. -/
theorem ByHand.last {y : Nat → Nat} {turns limit base polls n : Nat}
    {state state' : Recorded ν V σ α} {o : Program ν V α ⊕ M.Carrier α} {log : List (Event ν)}
    {r : Polled ν V M α} (h : ByHand I y turns (base + polls) state o ⟨log, (state', r)⟩ n)
    (hlast : r.left = 0) :
    TimesByHand I y turns (limit + 1) base polls state o
      ⟨log, (state', polls + 1, r.result)⟩ n := by
  obtain ⟨hlog, hvalue⟩ := Traced.seen_eq_iff.mp h.seen
  have hdue := h.due
  have hrest : r.rest = (Program.handOn M I n state o).value.2 := congrArg Prod.snd hvalue
  refine ⟨Traced.seen_eq_iff.mpr ⟨hlog, congrArg Prod.fst hvalue⟩, Nat.le_succ polls,
    Nat.add_le_add_left (Nat.le_add_left 1 limit) polls, fun i hle hlt => ?_,
    fun result hresult => ?_, fun hresult => ?_⟩
  · have hgiven := h.given i hle hlt
    dsimp only
    omega
  · cases r with
    | pending t => exact nomatch hresult
    | spent t => exact nomatch hresult
    | done result' =>
      cases hresult
      refine ⟨hrest.symm, ?_⟩
      dsimp only at hdue ⊢
      omega
  · cases r with
    | pending t => exact nomatch hlast
    | done result => exact nomatch hresult
    | spent t =>
      obtain ⟨hle, q, hq⟩ := h.spent t rfl
      exact .inr ⟨hle, q, hrest.symm.trans hq⟩

/-- After a poll that finds its answer pending, the others go on with what it leaves. -/
theorem ByHand.pending {y : Nat → Nat} {turns limit base polls n m : Nat}
    {state state' : Recorded ν V σ α} {o : Program ν V α ⊕ M.Carrier α} {log : List (Event ν)}
    {t : Task ν V M α}
    {r : Traced ν (Recorded ν V σ α × Nat × Option (M.Carrier α))}
    (h : ByHand I y turns (base + polls) state o ⟨log, (state', .pending t)⟩ n)
    (hr : TimesByHand I y turns limit base (polls + 1) state' t.rest r m) :
    TimesByHand I y turns (limit + 1) base polls state o (r.after log) (n + m) := by
  obtain ⟨hlog, hvalue⟩ := Traced.seen_eq_iff.mp h.seen
  have hadd : Program.handOn M I (n + m) state o
      = (Program.handOn M I m state' t.rest).after (Program.handOn M I n state o).log := by
    rw [Program.handOn_add, Traced.bind, ← hvalue]
    rfl
  have hpolls := hr.polls_le
  refine ⟨?_, Nat.le_of_succ_le hpolls, hr.le_limit.trans (by omega), fun i hle hlt => ?_,
    hadd ▸ hr.result, fun hnone => ?_⟩
  · obtain ⟨hlog', hvalue'⟩ := Traced.seen_eq_iff.mp hr.seen
    rw [hadd]
    refine Traced.seen_eq_iff.mpr ⟨?_, hvalue'⟩
    simp only [Traced.log_map] at hlog hlog'
    simp [hlog, hlog']
  · -- a step of the first poll, or one of the others
    rcases Nat.lt_or_ge i state'.2.length with hi | hi
    · have hdue := h.given i hle hi
      rw [Traced.value_after]
      omega
    · exact hr.given i hi hlt
  · rw [hadd]
    rcases hr.noResult hnone with ⟨hlimit, hle, hvalue⟩ | ⟨hle, hq⟩
    · exact .inl ⟨hlimit.trans (by omega), hle, hvalue⟩
    · exact .inr ⟨hle.trans (Nat.le_add_left m n), hq⟩

/-- Any number of polls is a number of turns by hand. -/
theorem pollTimes_byHand (hI : I.Records) (driver : Driver) (y : Nat → Nat) (turns limit : Nat)
    (base polls : Nat) (state : Recorded ν V σ α) (t : Task ν V M α)
    (h : base + polls + t.left = waits y state.2.length) :
    ∃ n, TimesByHand I y turns limit base polls state t.rest
      (pollTimes driver (I.delayed y) turns limit [] polls state t) n := by
  induction limit generalizing polls state t with
  | zero =>
    refine ⟨0, ?_, Nat.le_refl _, Nat.le_refl _,
      fun i hle hlt => absurd hlt (Nat.not_lt.mpr hle), nofun,
      fun _ => .inl ⟨rfl, Nat.le.intro h, ?_⟩⟩
    · rw [Program.handOn_zero]
      rfl
    · rw [Program.handOn_zero]
      exact t.rest_ne_pure
  | succ limit ih =>
    obtain ⟨n, hn⟩ := poll_byHand hI driver y turns state t h
    rw [pollTimes_succ]
    generalize poll driver (I.delayed y) turns state t = r at hn ⊢
    obtain ⟨log, state', o⟩ := r
    cases o with
    | done result =>
      simp only [Traced.bind, Traced.pure, List.append_nil]
      exact ⟨n, hn.last rfl⟩
    | spent t' =>
      simp only [Traced.bind, Traced.pure, List.append_nil]
      exact ⟨n, hn.last rfl⟩
    | pending t' =>
      have hdue := hn.due
      simp only [Polled.left] at hdue
      obtain ⟨m, hm⟩ := ih (polls + 1) state' t' (by omega)
      exact ⟨n + m, hn.pending hm⟩

/-- Polls that may go on for longer than the first `n` steps keep them waiting come to a result,
    or do at least `n` turns of a run that is not over by then. -/
theorem TimesByHand.far (hI : I.Records) {y : Nat → Nat} {turns limit n m : Nat}
    {state : Recorded ν V σ α} {o : Program ν V α ⊕ M.Carrier α}
    {r : Traced ν (Recorded ν V σ α × Nat × Option (M.Carrier α))}
    (h : TimesByHand I y turns limit (waits y state.2.length) 0 state o r m)
    (hturns : n ≤ turns) (hlimit : waits y (state.2.length + n) < limit) :
    (∃ result, r.value.2.2 = some result) ∨
      n ≤ m ∧ ∀ result, (Program.handOn M I n state o).value.2 ≠ .inr result := by
  have hstate : r.value.1 = (Program.handOn M I m state o).value.1 :=
    (Traced.seen_eq_iff.mp h.seen).2
  rcases hr : r.value.2.2 with _ | result
  · refine .inr ?_
    rcases h.noResult hr with ⟨hpolls, hle, -⟩ | ⟨hle, q, hq⟩
    · -- more steps were given than `n` turns can give
      have hlt : state.2.length + n < r.value.1.2.length := by
        by_contra hge
        have := waits_mono y (Nat.le_of_not_lt hge)
        omega
      have hm := Program.length_handOn_le hI m state o
      have hn := Program.length_handOn_le hI n state o
      rw [← hstate] at hm
      have hnm : n ≤ m := by omega
      refine ⟨hnm, fun result hover => ?_⟩
      rw [← Program.handOn_of_over I hnm hover, ← hstate] at hn
      omega
    · refine ⟨hturns.trans hle, fun result hover => ?_⟩
      rw [← Program.handOn_of_over I (hturns.trans hle) hover, hq] at hover
      exact nomatch hover
  · exact .inl ⟨result, rfl⟩

end Task

/-! ## Whole runs -/

/-- The polled run is the run inside the host, at its own pace: the functions of the user are
    called in the same order, the interpreter is in the same state, and the result is the same. -/
structure SamePace {τ : Type u} (polled : Nat → Nat → Traced ν (τ × Nat × Option (M.Carrier α)))
    (hosted : Nat → Traced ν (τ × (Program ν V α ⊕ M.Carrier α))) : Prop where
  /-- Within any bounds, the polls do what some number of turns does, and come to no other
      result. -/
  follows (turns limit : Nat) : ∃ n,
    ((polled turns limit).map Prod.fst).seen = ((hosted n).map Prod.fst).seen ∧
    ∀ result, (polled turns limit).value.2.2 = some result → (hosted n).value.2 = .inr result
  /-- Enough polls get as far as any number of turns. -/
  reaches (n : Nat) : ∃ enough, ∀ turns limit, enough ≤ turns → enough ≤ limit → ∃ m, n ≤ m ∧
    ((polled turns limit).map Prod.fst).seen = ((hosted m).map Prod.fst).seen
  /-- Enough polls come to the end that the hosted run has. -/
  ends {n : Nat} {result : M.Carrier α} (h : (hosted n).value.2 = .inr result) :
    ∃ enough, ∀ turns limit, enough ≤ turns → enough ≤ limit →
      ((polled turns limit).map Prod.fst).seen = ((hosted n).map Prod.fst).seen ∧
      (polled turns limit).value.2.2 = some result

/-- What the library itself records of the hosted run makes no difference. -/
theorem SamePace.congr {τ : Type u} {polled : Nat → Nat → Traced ν (τ × Nat × Option (M.Carrier α))}
    {hosted hosted' : Nat → Traced ν (τ × (Program ν V α ⊕ M.Carrier α))}
    (h : SamePace polled hosted) (heq : ∀ n, (hosted n).seen = (hosted' n).seen) :
    SamePace polled hosted' := by
  have hfst : ∀ n, ((hosted n).map Prod.fst).seen = ((hosted' n).map Prod.fst).seen := fun n => by
    rw [Traced.seen_map, heq, Traced.seen_map]
  have hsnd : ∀ n, (hosted n).value.2 = (hosted' n).value.2 := fun n =>
    congrArg Prod.snd (Traced.seen_eq_iff.mp (heq n)).2
  constructor
  · intro turns limit
    obtain ⟨n, hsame, hresult⟩ := h.follows turns limit
    exact ⟨n, hsame.trans (hfst n), fun result hr => (hsnd n).symm.trans (hresult result hr)⟩
  · intro n
    obtain ⟨enough, henough⟩ := h.reaches n
    refine ⟨enough, fun turns limit hturns hlimit => ?_⟩
    obtain ⟨m, hm, hsame⟩ := henough turns limit hturns hlimit
    exact ⟨m, hm, hsame.trans (hfst m)⟩
  · intro n result hr
    obtain ⟨enough, henough⟩ := h.ends ((hsnd n).trans hr)
    refine ⟨enough, fun turns limit hturns hlimit => ?_⟩
    obtain ⟨hsame, hresult⟩ := henough turns limit hturns hlimit
    exact ⟨hsame.trans (hfst n), hresult⟩

/-- Both runs can be put after a beginning of the hosted one that takes `n` turns. -/
theorem SamePace.shift {τ : Type u}
    {polled : Nat → Nat → Traced ν (τ × Nat × Option (M.Carrier α))}
    {hosted hosted' : Nat → Traced ν (τ × (Program ν V α ⊕ M.Carrier α))}
    (h : SamePace polled hosted) {log : List (Event ν)} {n : Nat}
    (hadd : ∀ k, hosted' (n + k) = (hosted k).after log)
    (hover : ∀ {m k : Nat} {result : M.Carrier α}, m ≤ k → (hosted' m).value.2 = .inr result →
      hosted' k = hosted' m) :
    SamePace (fun turns limit => (polled turns limit).after log) hosted' := by
  have hafter : ∀ {r : Traced ν (τ × Nat × Option (M.Carrier α))} {k : Nat},
      (r.map Prod.fst).seen = ((hosted k).map Prod.fst).seen →
      ((r.after log).map Prod.fst).seen = ((hosted' (n + k)).map Prod.fst).seen := by
    intro r k hsame
    rw [hadd]
    exact (Traced.seen_after log _).trans ((congrArg _ hsame).trans (Traced.seen_after log _).symm)
  constructor
  · intro turns limit
    obtain ⟨k, hsame, hresult⟩ := h.follows turns limit
    refine ⟨n + k, hafter hsame, fun result hr => ?_⟩
    rw [hadd]
    exact hresult result hr
  · intro m
    obtain ⟨enough, henough⟩ := h.reaches m
    refine ⟨enough, fun turns limit hturns hlimit => ?_⟩
    obtain ⟨k, hk, hsame⟩ := henough turns limit hturns hlimit
    exact ⟨n + k, hk.trans (Nat.le_add_left k n), hafter hsame⟩
  · intro m result hm
    -- the run is over after `m` turns, so the beginning makes no difference
    have hlate := hover (Nat.le_add_left m n) hm
    have hm' : (hosted m).value.2 = .inr result := by
      rw [← hlate, hadd] at hm
      exact hm
    obtain ⟨enough, henough⟩ := h.ends hm'
    refine ⟨enough, fun turns limit hturns hlimit => ?_⟩
    obtain ⟨hsame, hresult⟩ := henough turns limit hturns hlimit
    exact ⟨hlate ▸ hafter hsame, hresult⟩

/-- Polls that keep to the run by hand are the same run at their own pace, if enough of them come to
    a result or do any number of turns of a run that is not over by then. -/
theorem SamePace.of_enough {I : Interpreter ν V M σ α} {world : σ} {p : Program ν V α}
    {polled : Nat → Nat → Traced ν (σ × Nat × Option (M.Carrier α))}
    (hkeeps : ∀ turns limit, ∃ m, Task.Keeps I world (.inl p) (polled turns limit) m)
    (henough : ∀ n, ∃ enough, ∀ turns limit, enough ≤ turns → enough ≤ limit →
      ∃ m, Task.Keeps I world (.inl p) (polled turns limit) m ∧
        ((∃ result, (polled turns limit).value.2.2 = some result) ∨
          n ≤ m ∧ ∀ result, (p.stepByHand M I n world).value.2 ≠ .inr result)) :
    SamePace polled fun n => p.stepByHand M I n world := by
  constructor
  · intro turns limit
    obtain ⟨m, hm⟩ := hkeeps turns limit
    exact ⟨m, hm.seen, hm.result⟩
  · intro n
    obtain ⟨enough, henough⟩ := henough n
    refine ⟨enough, fun turns limit hturns hlimit => ?_⟩
    obtain ⟨m, hm, ⟨result, hresult⟩ | ⟨hnm, -⟩⟩ := henough turns limit hturns hlimit
    · rcases Nat.le_total n m with hnm | hmn
      · exact ⟨m, hnm, hm.seen⟩
      · -- the run is over after `m` turns, and so it is the same after `n`
        refine ⟨n, Nat.le_refl n, hm.seen.trans ?_⟩
        rw [← Program.handOn_of_over I hmn (hm.result result hresult)]
        rfl
    · exact ⟨m, hnm, hm.seen⟩
  · intro n result hn
    obtain ⟨enough, henough⟩ := henough n
    refine ⟨enough, fun turns limit hturns hlimit => ?_⟩
    obtain ⟨m, hm, ⟨result', hresult⟩ | ⟨-, hover⟩⟩ := henough turns limit hturns hlimit
    · have hover := hm.result result' hresult
      have hsame : Program.handOn M I m world (.inl p) = Program.handOn M I n world (.inl p) :=
        Program.handOn_eq_of_over I hover hn
      rw [hsame] at hover
      cases hn.symm.trans hover
      exact ⟨hm.seen.trans (by rw [hsame]; rfl), hresult⟩
    · exact absurd hn (hover result)

/-- The polled run gives step `i`, counted from zero, after the answers to all steps before were
    found pending as often as they are to be, and it takes one poll more than all answers are
    pending for. -/
structure Punctual (y : Nat → Nat)
    (polled : Nat → Nat → Traced ν (Recorded ν V σ α × Nat × Option (M.Carrier α))) : Prop where
  /-- There are no more polls than allowed. -/
  le_limit (turns limit : Nat) : (polled turns limit).value.2.1 ≤ limit
  /-- No step is given before the answer to the step before it is ready. -/
  given (turns limit : Nat) {i : Nat} (h : i < (polled turns limit).value.1.2.length) :
    1 + ∑ j ∈ range i, y j ≤ (polled turns limit).value.2.1
  /-- A whole run takes one poll, and one for each time that an answer is found pending. -/
  whole (turns limit : Nat) {result : M.Carrier α}
    (h : (polled turns limit).value.2.2 = some result) :
    (polled turns limit).value.2.1 = 1 + ∑ j ∈ range (polled turns limit).value.1.2.length, y j

namespace Program

variable {I : Interpreter ν V M (Recorded ν V σ α) α}

/-- A run by polling is a run by hand, whatever the schedule and wherever it starts. -/
theorem samePace_stepByHand (hI : I.Records) (driver : Driver) (y : Nat → Nat)
    (state : Recorded ν V σ α) (p : Program ν V α) :
    SamePace (fun turns limit =>
        Task.pollTimes driver (I.delayed y) turns limit [] 0 state (Task.start p))
      fun n => p.stepByHand M I n state := by
  have hpolls : ∀ turns limit, ∃ m, Task.TimesByHand I y turns limit (waits y state.2.length) 0
      state (.inl p)
      (Task.pollTimes driver (I.delayed y) turns limit [] 0 state (Task.start p)) m :=
    fun turns limit => Task.pollTimes_byHand hI driver y turns limit _ 0 state (Task.start p) rfl
  refine .of_enough ?_ fun n => ⟨n + 1 + waits y (state.2.length + n), ?_⟩
  · intro turns limit
    obtain ⟨m, hm⟩ := hpolls turns limit
    exact ⟨m, hm.keeps⟩
  · intro turns limit hturns hlimit
    obtain ⟨m, hm⟩ := hpolls turns limit
    exact ⟨m, hm.keeps, hm.far hI (by omega) (by omega)⟩

/-- A run by polling that starts with no step given keeps to its schedule. -/
theorem punctual (hI : I.Records) (driver : Driver) (y : Nat → Nat) (world : σ)
    (p : Program ν V α) : Punctual y fun turns limit =>
      Task.pollTimes driver (I.delayed y) turns limit [] 0 (world, []) (Task.start p) := by
  have hpolls : ∀ turns limit, ∃ m, Task.TimesByHand I y turns limit 0 0 (world, []) (.inl p)
      (Task.pollTimes driver (I.delayed y) turns limit [] 0 (world, []) (Task.start p)) m :=
    fun turns limit =>
      Task.pollTimes_byHand hI driver y turns limit 0 0 (world, []) (Task.start p) rfl
  constructor
  · intro turns limit
    obtain ⟨m, hm⟩ := hpolls turns limit
    exact hm.le_limit.trans_eq (Nat.zero_add limit)
  · intro turns limit i hi
    obtain ⟨m, hm⟩ := hpolls turns limit
    exact (hm.given i (Nat.zero_le i) hi).trans_eq (Nat.zero_add _)
  · intro turns limit result hresult
    obtain ⟨m, hm⟩ := hpolls turns limit
    exact (Nat.zero_add _).symm.trans (hm.result result hresult).2

/-- **What a polled run does does not depend on when its answers are delivered.** For every
    schedule, it gives the interpreter the same steps in the same order as the driver inside the
    host, and comes to the same state and the same value or first error. The schedule says only
    when: no step is given before the answer to the step before it is ready, and the number of
    polls is one more than the schedule adds up to over the steps that were given. -/
theorem polling_ignores_schedule (p : Program ν V α) (y : Nat → Nat) (world : σ) :
    (∀ I : Interpreter ν V .identity σ α,
      SamePace (M := .identity)
        (fun turns limit => p.runAsync (I.recording.delayed y) turns limit (world, []))
        (fun turns => p.run I.recording turns (world, [])) ∧
      Punctual (M := .identity) y fun turns limit =>
        p.runAsync (I.recording.delayed y) turns limit (world, [])) ∧
    (∀ {Error : Type} (I : Interpreter ν V (.result Error) σ α),
      SamePace (M := .result Error)
        (fun turns limit => p.tryRunAsync (I.recording.delayed y) turns limit (world, []))
        (fun turns => p.tryRun I.recording turns (world, [])) ∧
      Punctual (M := .result Error) y fun turns limit =>
        p.tryRunAsync (I.recording.delayed y) turns limit (world, [])) := by
  have hpace : ∀ {M : Host} (driver : Driver) (I : Interpreter ν V M σ α),
      SamePace (fun turns limit => Task.pollTimes driver (I.recording.delayed y) turns limit [] 0
          (world, []) (Task.start p))
        (fun turns => p.runInHost M I.recording turns (world, [])) := fun driver I =>
    (samePace_stepByHand I.records_recording driver y (world, []) p).congr fun n =>
      (seen_runInHost I.recording n (world, []) p).symm
  exact ⟨fun I => ⟨hpace .async I, punctual I.records_recording .async y world p⟩,
    fun I => ⟨hpace .tryAsync I, punctual I.records_recording .tryAsync y world p⟩⟩

end Program

end FreeMonad
