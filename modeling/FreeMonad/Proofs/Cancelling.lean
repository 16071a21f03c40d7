import FreeMonad.Proofs.Polling

set_option autoImplicit false

/-! # Cancelling a polled run

A polled run is cancelled by polling it no more. What it has done by then is a beginning of the
run that is polled to its end, and the schedule says which: step `i`, counted from zero, is *due*
by poll `1 + ∑ j < i, y j`, the one that finds the answers to all steps before it ready. A run that
is dropped after `c` polls has given the steps that are due by poll `c` and no others, it has done
nothing behind the interpreter's call for the last of them, and it has its result exactly if the
whole run takes no more than `c` polls (`CutOff`).

Turns by hand are the measure of "up to this call": a turn that does not reach the value ends with
the interpreter's call, so as many turns as there are steps end with the call for the last one
(`Program.stepByHand_length_steps`).

A poll in which every answer is ready at once goes on for ever if the program does. Such a poll is
never over, and no run is cancelled behind it; `Cancellable` says that there is no other
exception. -/

namespace FreeMonad

universe u

open Finset

variable {ν : Type} {V : Vocabulary} {M : Host} {σ : Type u} {α : Type}

/-! ## Steps and turns -/

namespace Program

variable {I : Interpreter ν V M (Recorded ν V σ α) α}

/-- The steps of the first turns are the first steps. -/
theorem steps_stepByHand_take (hI : I.Records) {m n : Nat} (hmn : m ≤ n) (world : σ)
    (p : Program ν V α) : (p.stepByHand M I m (world, [])).value.1.2
      = (p.stepByHand M I n (world, [])).value.1.2.take m := by
  obtain ⟨steps, hsteps, hle, hgoes⟩ := steps_handOn hI m (world, []) (.inl p)
  have hsteps : (p.stepByHand M I m (world, [])).value.1.2 = steps := hsteps
  rcases hm : (p.stepByHand M I m (world, [])).value.2 with q | result
  · -- the run goes on, so there is one step for each turn, and later turns add to them
    obtain ⟨k, rfl⟩ := Nat.exists_eq_add_of_le hmn
    obtain ⟨rest, hrest, -⟩ := steps_handOn hI k (p.stepByHand M I m (world, [])).value.1 (.inl q)
    have hadd : (p.stepByHand M I (m + k) (world, [])).value.1.2 = steps ++ rest := by
      rw [stepByHand_add, Traced.value_bind]
      dsimp only
      rw [hm, hrest, hsteps]
    rw [hadd, hsteps, List.take_left' (hgoes q hm)]
  · rw [stepByHand_of_over I hmn hm, hsteps, List.take_of_length_le hle]

/-- Step `i` of a run by hand is given in its turn `i`, both counted from zero. -/
theorem getElem?_steps_stepByHand (hI : I.Records) {i n : Nat} (h : i < n) (world : σ)
    (p : Program ν V α) : (p.stepByHand M I n (world, [])).value.1.2[i]?
      = (p.stepByHand M I (i + 1) (world, [])).value.1.2[i]? := by
  rw [steps_stepByHand_take hI (Nat.succ_le_of_lt h) world p, List.getElem?_take]
  exact (if_pos (Nat.lt_succ_self i)).symm

/-- No run gives more steps than the one that is over. -/
theorem length_steps_le_of_over (hI : I.Records) {n : Nat} {world : σ} {p : Program ν V α}
    {result : M.Carrier α} (h : (p.stepByHand M I n (world, [])).value.2 = .inr result) (m : Nat) :
    (p.stepByHand M I m (world, [])).value.1.2.length
      ≤ (p.stepByHand M I n (world, [])).value.1.2.length := by
  rcases Nat.le_total m n with hmn | hnm
  · rw [steps_stepByHand_take hI hmn]
    exact List.length_take_le' _ _
  · rw [stepByHand_of_over I hnm h]

/-- A run by hand that has not come to a value ends with the interpreter's call for its last step:
    it takes as many turns as it gives steps. -/
theorem stepByHand_length_steps (hI : I.Records) (n : Nat) (state : Recorded ν V σ α)
    (p : Program ν V α) (h : ∀ a, (p.stepByHand M I n state).value.2 ≠ .inr (M.pure a)) :
    ∃ steps, (p.stepByHand M I n state).value.1.2 = state.2 ++ steps ∧
      p.stepByHand M I steps.length state = p.stepByHand M I n state := by
  induction n generalizing state p with
  | zero => exact ⟨[], (List.append_nil _).symm, rfl⟩
  | succ n ih =>
    rcases hp : p.resume with ⟨log, s | a⟩
    · have hstep := hI state s
      rcases hr : I state s with ⟨log', state', answer⟩
      have hnext : ∀ k, p.stepByHand M I (k + 1) state
          = (handOn M I k state' (M.split answer).swap).after (log ++ log') := fun k => by
        rw [stepByHand_of_step hp, hr]
        ext1 <;> simp
      have hstate : state'.2 = state.2 ++ [s] := by rw [← hstep, hr]
      rw [hnext, Traced.value_after] at h ⊢
      rcases hsplit : (M.split answer : M.Carrier α ⊕ Program ν V α) with failure | q
      · refine ⟨[s], hstate, ?_⟩
        rw [List.length_singleton, hnext, hsplit]
        rfl
      · -- the turns after the first one are a run of their own
        rw [hsplit] at h
        obtain ⟨steps, hsteps, hrun⟩ := ih state' q h
        refine ⟨s :: steps, ?_, ?_⟩
        · rw [Sum.swap_inr, handOn, hsteps, hstate, List.append_assoc]
          rfl
        · rw [List.length_cons, hnext, hsplit]
          exact congrArg (Traced.after _) hrun
    · rw [stepByHand_of_value hp] at h
      exact absurd rfl (h a)

end Program

/-! ## A run that is cut off -/

/-- What is left of the uncancelled run `whole` when it is dropped after `c` polls: `cut` is all
    that has been done by then. -/
structure CutOff (y : Nat → Nat) (c : Nat)
    (whole : Nat → Traced ν (Recorded ν V σ α × (Program ν V α ⊕ M.Carrier α)))
    (cut : Traced ν (Recorded ν V σ α × Nat × Option (M.Carrier α))) : Prop where
  /-- The steps given are those of the uncancelled run that are due by poll `c`, each at its
      place. -/
  steps (i : Nat) : cut.value.1.2[i]?
    = if 1 + ∑ j ∈ range i, y j ≤ c then (whole (i + 1)).value.1.2[i]? else none
  /-- Without a result, nothing is done behind the interpreter's call for the last of these steps:
      the functions of the user that are called, and the state, are those of as many turns. -/
  pending (h : cut.value.2.2 = none) :
    (cut.map Prod.fst).seen = ((whole cut.value.1.2.length).map Prod.fst).seen
  /-- With a result, everything is done that the uncancelled run does to its end. -/
  finished {result : M.Carrier α} (h : cut.value.2.2 = some result) : ∃ n,
    (whole n).value.2 = .inr result ∧ (cut.map Prod.fst).seen = ((whole n).map Prod.fst).seen
  /-- There is a result exactly if the uncancelled run takes no more than `c` polls. -/
  result (result : M.Carrier α) : cut.value.2.2 = some result ↔
    ∃ n, (whole n).value.2 = .inr result ∧
      1 + ∑ j ∈ range (whole n).value.1.2.length, y j ≤ c

/-- What the library itself records of the uncancelled run makes no difference. -/
theorem CutOff.congr {y : Nat → Nat} {c : Nat}
    {whole whole' : Nat → Traced ν (Recorded ν V σ α × (Program ν V α ⊕ M.Carrier α))}
    {cut : Traced ν (Recorded ν V σ α × Nat × Option (M.Carrier α))} (h : CutOff y c whole cut)
    (heq : ∀ n, (whole n).seen = (whole' n).seen) : CutOff y c whole' cut := by
  have hvalue : ∀ n, (whole n).value = (whole' n).value := fun n =>
    (Traced.seen_eq_iff.mp (heq n)).2
  have hfst : ∀ n, ((whole n).map Prod.fst).seen = ((whole' n).map Prod.fst).seen := fun n => by
    rw [Traced.seen_map, heq, Traced.seen_map]
  constructor
  case steps =>
    intro i
    rw [← hvalue]
    exact h.steps i
  case pending =>
    intro hnone
    exact (h.pending hnone).trans (hfst _)
  case finished =>
    intro result hresult
    obtain ⟨n, hover, hsame⟩ := h.finished hresult
    exact ⟨n, hvalue n ▸ hover, hsame.trans (hfst n)⟩
  case result =>
    intro result
    simp only [← hvalue]
    exact h.result result

namespace Task

variable {I : Interpreter ν V M (Recorded ν V σ α) α} {y : Nat → Nat} {turns c m n : Nat}
  {world : σ} {p : Program ν V α} {r : Traced ν (Recorded ν V σ α × Nat × Option (M.Carrier α))}

/-- The polls leave the interpreter in the state that the turns leave it in. -/
theorem TimesByHand.state_eq (h : TimesByHand I y turns c 0 0 (world, []) (.inl p) r m) :
    r.value.1 = (p.stepByHand M I m (world, [])).value.1 :=
  (Traced.seen_eq_iff.mp h.seen).2

/-- Polls come to a result, or they are used up before the next step is due, if the run of `n`
    turns is over or not due yet and one poll may take more turns than that. -/
theorem TimesByHand.settled (hI : I.Records)
    (h : TimesByHand I y turns c 0 0 (world, []) (.inl p) r m) (hturns : n < turns)
    (hends : c ≤ waits y n ∨ ∃ result, (p.stepByHand M I n (world, [])).value.2 = .inr result) :
    (∃ result, r.value.2.2 = some result) ∨
      r.value.2.2 = none ∧ c ≤ waits y r.value.1.2.length ∧
        ∀ a, (p.stepByHand M I m (world, [])).value.2 ≠ .inr (M.pure a) := by
  rcases hr : r.value.2.2 with _ | result
  · rcases h.noResult hr with ⟨hpolls, hle, hvalue⟩ | ⟨hle, q, hq⟩
    · exact .inr ⟨rfl, by omega, hvalue⟩
    · -- the turns were used up, so turn `n` was taken and the run was not over then
      exfalso
      have hnm : n < m := Nat.lt_of_lt_of_le hturns hle
      rcases hends with hdue | ⟨result, hover⟩
      · obtain ⟨steps, hsteps, -, hgoes⟩ := Program.steps_handOn hI m (world, []) (.inl p)
        have hlength : r.value.1.2.length = m := by
          rw [h.state_eq]
          exact (congrArg List.length hsteps).trans (hgoes q hq)
        have hgiven := h.given n (Nat.zero_le n) (hlength ▸ hnm)
        have hlimit := h.le_limit
        omega
      · rw [← Program.stepByHand_of_over I hnm.le hover] at hover
        exact nomatch hq.symm.trans hover
  · exact .inl ⟨result, rfl⟩

/-- Polls that come to an end by themselves are what is left of the run when it is cut off. -/
theorem TimesByHand.cutOff (hI : I.Records)
    (h : TimesByHand I y turns c 0 0 (world, []) (.inl p) r m) (hturns : n < turns)
    (hends : c ≤ waits y n ∨ ∃ result, (p.stepByHand M I n (world, [])).value.2 = .inr result) :
    CutOff y c (fun n => p.stepByHand M I n (world, [])) r := by
  have hsettled := h.settled hI hturns hends
  have hsteps := congrArg Prod.snd h.state_eq
  have hlimit : r.value.2.1 ≤ c := h.le_limit.trans_eq (Nat.zero_add c)
  have hgiven : ∀ i, i < r.value.1.2.length → 1 + waits y i ≤ c := fun i hi => by
    have := h.given i (Nat.zero_le i) hi
    omega
  constructor
  case steps =>
    intro i
    show _ = if 1 + waits y i ≤ c then _ else none
    by_cases hi : i < r.value.1.2.length
    · have him : i < m := by
        have hm := Program.length_handOn_le hI m (world, []) (.inl p)
        rw [hsteps] at hi
        exact hi.trans_le (hm.trans_eq (Nat.zero_add m))
      rw [if_pos (hgiven i hi), hsteps, Program.getElem?_steps_stepByHand hI him]
    · have hi := Nat.le_of_not_lt hi
      rw [List.getElem?_eq_none hi]
      split
      next hdue =>
        rcases hsettled with ⟨result, hresult⟩ | ⟨-, hle, -⟩
        · have hover := (h.result result hresult).1
          refine (List.getElem?_eq_none ?_).symm
          exact (Program.length_steps_le_of_over hI hover (i + 1)).trans (hsteps ▸ hi)
        · have hmono := waits_mono y hi
          have hdue : 1 + waits y i ≤ c := hdue
          omega
      next => rfl
  case pending =>
    intro hnone
    rcases hsettled with ⟨result, hresult⟩ | ⟨-, -, hvalue⟩
    · exact nomatch hnone.symm.trans hresult
    · obtain ⟨steps, hall, hrun⟩ := Program.stepByHand_length_steps hI m (world, []) p hvalue
      have hall : r.value.1.2 = steps := hsteps.trans hall
      rw [hall, hrun]
      exact h.seen
  case finished =>
    intro result hresult
    exact ⟨m, (h.result result hresult).1, h.seen⟩
  case result =>
    intro result
    constructor
    · intro hresult
      obtain ⟨hover, hpolls⟩ := h.result result hresult
      refine ⟨m, hover, ?_⟩
      rw [hsteps] at hpolls
      exact hpolls.symm.trans_le ((Nat.zero_add _).trans_le hlimit)
    · rintro ⟨k, hover, hdue⟩
      rcases hsettled with ⟨result', hresult⟩ | ⟨-, hle, -⟩
      · have hover' := (h.result result' hresult).1
        have hsame := Program.handOn_eq_of_over (o := .inl p) I hover' hover
        rw [hsame] at hover'
        cases hover.symm.trans hover'
        exact hresult
      · have hmono := waits_mono y (Program.length_steps_le_of_over hI hover m)
        have hdue : 1 + waits y _ ≤ c := hdue
        rw [hsteps] at hle
        omega

/-- Fewer polls record a beginning of what more polls record, the library's own events included. -/
theorem pollTimes_isPrefix (driver : Driver) (D : DelayedInterpreter ν V M σ α) (turns : Nat)
    {c c' : Nat} (h : c ≤ c') (polls : Nat) (world : σ) (t : Task ν V M α) :
    (pollTimes driver D turns c [] polls world t).log
      <+: (pollTimes driver D turns c' [] polls world t).log := by
  induction c generalizing c' polls world t with
  | zero => exact List.nil_prefix
  | succ c ih =>
    obtain ⟨k, rfl⟩ := Nat.exists_eq_add_of_le h
    rw [Nat.succ_add, pollTimes_succ, pollTimes_succ, Traced.log_bind, Traced.log_bind]
    refine (List.prefix_append_right_inj _).mpr ?_
    rcases (poll driver D turns world t).value with ⟨world', t' | result | t'⟩
    · exact ih (Nat.le_add_right c k) (polls + 1) world' t'
    · exact List.prefix_rfl
    · exact List.prefix_rfl

end Task

/-! ## Cancelling at any poll -/

/-- The polled run can be dropped after any number of polls, and what it has done by then is a
    beginning of the uncancelled run `whole`. -/
structure Cancellable (y : Nat → Nat)
    (whole : Nat → Traced ν (Recorded ν V σ α × (Program ν V α ⊕ M.Carrier α)))
    (polled : Nat → Nat → Traced ν (Recorded ν V σ α × Nat × Option (M.Carrier α))) : Prop where
  /-- If it is not polled at all, no function of the user is called. -/
  unpolled (turns : Nat) : polled turns 0 = .pure ((whole 0).value.1, 0, none)
  /-- What is recorded by then is recorded first however often it is polled. -/
  isPrefix (turns : Nat) {c c' : Nat} (h : c ≤ c') : (polled turns c).log <+: (polled turns c').log
  /-- If some turn is not due by poll `c` or the run is over, `c` polls do exactly what is due,
      with whatever bound on the turns of one poll that suffices. -/
  cutOff (c : Nat) {n : Nat}
    (h : c ≤ ∑ j ∈ range n, y j ∨ ∃ result, (whole n).value.2 = .inr result) :
    ∀ turns, n < turns → CutOff y c whole (polled turns c)
  /-- Otherwise every turn is due and the run has no end. The polls go on for as many turns as they
      may take, and never come to a result. -/
  endless (c : Nat)
    (h : ∀ n, ∑ j ∈ range n, y j < c ∧ ∀ result, (whole n).value.2 ≠ .inr result) (turns : Nat) :
    (polled turns c).value.2.2 = none ∧ ∃ n, turns ≤ n ∧
      ((polled turns c).map Prod.fst).seen = ((whole n).map Prod.fst).seen

/-- What the library itself records of the uncancelled run makes no difference. -/
theorem Cancellable.congr {y : Nat → Nat}
    {whole whole' : Nat → Traced ν (Recorded ν V σ α × (Program ν V α ⊕ M.Carrier α))}
    {polled : Nat → Nat → Traced ν (Recorded ν V σ α × Nat × Option (M.Carrier α))}
    (h : Cancellable y whole polled) (heq : ∀ n, (whole n).seen = (whole' n).seen) :
    Cancellable y whole' polled := by
  have hvalue : ∀ n, (whole n).value = (whole' n).value := fun n =>
    (Traced.seen_eq_iff.mp (heq n)).2
  constructor
  case unpolled =>
    intro turns
    rw [← hvalue]
    exact h.unpolled turns
  case isPrefix =>
    intro turns c c' hc
    exact h.isPrefix turns hc
  case cutOff =>
    intro c n hends turns hturns
    rw [← hvalue] at hends
    exact (h.cutOff c hends turns hturns).congr heq
  case endless =>
    intro c hends turns
    simp only [← hvalue] at hends
    obtain ⟨hresult, n, hn, hsame⟩ := h.endless c hends turns
    refine ⟨hresult, n, hn, hsame.trans ?_⟩
    rw [Traced.seen_map, heq, Traced.seen_map]

namespace Program

variable {I : Interpreter ν V M (Recorded ν V σ α) α}

/-- A run by polling can be cancelled, and the uncancelled run is the one by hand. -/
theorem cancellable_stepByHand (hI : I.Records) (driver : Driver) (y : Nat → Nat) (world : σ)
    (p : Program ν V α) :
    Cancellable y (fun n => p.stepByHand M I n (world, [])) fun turns limit =>
      Task.pollTimes driver (I.delayed y) turns limit [] 0 (world, []) (Task.start p) := by
  have hpolls : ∀ turns limit, ∃ m, Task.TimesByHand I y turns limit 0 0 (world, []) (.inl p)
      (Task.pollTimes driver (I.delayed y) turns limit [] 0 (world, []) (Task.start p)) m :=
    fun turns limit =>
      Task.pollTimes_byHand hI driver y turns limit 0 0 (world, []) (Task.start p) rfl
  constructor
  case unpolled =>
    intro turns
    rfl
  case isPrefix =>
    intro turns c c' h
    exact Task.pollTimes_isPrefix driver _ turns h 0 _ _
  case cutOff =>
    intro c n hends turns hturns
    obtain ⟨m, hm⟩ := hpolls turns c
    exact hm.cutOff hI hturns hends
  case endless =>
    intro c hends turns
    obtain ⟨m, hm⟩ := hpolls turns c
    rcases hr : (Task.pollTimes driver (I.delayed y) turns c [] 0 (world, [])
      (Task.start p)).value.2.2 with _ | result
    · refine ⟨rfl, m, ?_, hm.seen⟩
      rcases hm.noResult hr with ⟨hpolls, hle, -⟩ | ⟨hle, -⟩
      · have hdue := (hends (Task.pollTimes driver (I.delayed y) turns c [] 0 (world, [])
          (Task.start p)).value.1.2.length).1
        have hdue : waits y _ < c := hdue
        omega
      · exact hle
    · exact absurd (hm.result result hr).1 ((hends m).2 result)

/-- **Cancelling a polled run leaves exactly a prefix of it.** Dropped after `c` polls, the run has
    given the interpreter those steps of the uncancelled run that the schedule makes due by then,
    each once and in order. The state and the functions called are those of the uncancelled run up
    to the interpreter's call for the last of these steps, and there is a result, with all that the
    run does, exactly if the whole run takes no more than `c` polls. -/
theorem cancelling_leaves_prefix (p : Program ν V α) (y : Nat → Nat) (world : σ) :
    (∀ I : Interpreter ν V .identity σ α,
      Cancellable (M := .identity) y (fun turns => p.run I.recording turns (world, []))
        fun turns limit => p.runAsync (I.recording.delayed y) turns limit (world, [])) ∧
    (∀ {Error : Type} (I : Interpreter ν V (.result Error) σ α),
      Cancellable (M := .result Error) y (fun turns => p.tryRun I.recording turns (world, []))
        fun turns limit => p.tryRunAsync (I.recording.delayed y) turns limit (world, [])) := by
  have hhosted : ∀ {M : Host} (driver : Driver) (I : Interpreter ν V M σ α),
      Cancellable y (fun turns => p.runInHost M I.recording turns (world, []))
        fun turns limit => Task.pollTimes driver (I.recording.delayed y) turns limit [] 0
          (world, []) (Task.start p) := fun driver I =>
    (cancellable_stepByHand I.records_recording driver y world p).congr fun n =>
      (seen_runInHost I.recording n (world, []) p).symm
  exact ⟨fun I => hhosted .async I, fun I => hhosted .tryAsync I⟩

end Program

end FreeMonad
