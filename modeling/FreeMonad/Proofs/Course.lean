import FreeMonad.Proofs.Polling

set_option autoImplicit false

/-! # The course of a run

A run is a sequence of calls of its interpreter. From a program, in a state, it resumes the program
and calls the interpreter with the step that this comes to, and it goes on from the answer; at some
point it stands at a program that is left, at a failure, or at the value (`Course`). This says
nothing of drivers. Each driver takes some course and records what the course says, with its own
events between (`Program.runInHost_course`, `Task.pollTimes_course`).

Two interpreters that agree on the calls of all courses of a program therefore run it alike
(`Program.runInHost_congr`, `Task.pollTimes_congr`). -/

namespace FreeMonad

universe u

variable {ν : Type} {V : Vocabulary} {M : Host} {σ : Type u} {α : Type}

/-! ## Courses -/

/-- One call of an interpreter. -/
structure Call (ν : Type) (V : Vocabulary) (σ : Type u) (α : Type) where
  /-- The state it is called in. -/
  world : σ
  /-- What was recorded while the program was resumed. -/
  before : List (Event ν)
  /-- The step that this came to. -/
  step : Step ν V (Program ν V α)

/-- Where a run stands. -/
inductive Standing (ν : Type) (V : Vocabulary) (M : Host) (α : Type) : Type 1 where
  /-- It is to go on with a program. -/
  | left (p : Program ν V α)
  /-- It stopped at a failure of the host, which is no success. -/
  | failed (failure : M.Carrier α) (hfailure : ∀ a, failure ≠ M.pure a)
  /-- It resumed a program to the value, which recorded `log`. -/
  | finished (log : List (Event ν)) (a : α)

theorem Host.pure_injective {a b : α} (M : Host) (h : M.pure a = M.pure b) : a = b := by
  have hsplit : (M.split (M.pure a) : M.Carrier α ⊕ α) = M.split (M.pure b) := congrArg M.split h
  rw [split_pure, split_pure] at hsplit
  exact Sum.inr.inj hsplit

namespace Standing

/-- Where a run stands when the interpreter has answered. -/
def answered (answer : M.Carrier (Program ν V α)) : Standing ν V M α :=
  match h : (M.split answer : M.Carrier α ⊕ Program ν V α) with
  | .inl failure => .failed failure fun a ha => M.split_ne_inl_pure answer a (ha ▸ h)
  | .inr q => .left q

/-- The program that is left, or the result. -/
def rest : Standing ν V M α → Program ν V α ⊕ M.Carrier α
  | .left p => .inl p
  | .failed failure _ => .inr failure
  | .finished _ a => .inr (M.pure a)

/-- What is recorded after the last call: a driver records that it has finished. -/
def closing (driver : Driver) (steps : Nat) : Standing ν V M α → List (Event ν)
  | .left _ => []
  | .failed _ _ => []
  | .finished log _ => log ++ [.finished driver steps]

theorem answered_of_inr {answer : M.Carrier (Program ν V α)} {q : Program ν V α}
    (h : (M.split answer : M.Carrier α ⊕ Program ν V α) = .inr q) : answered answer = .left q := by
  unfold answered
  split
  next failure hf => exact nomatch h.symm.trans hf
  next q' hq => exact congrArg left (Sum.inr.inj (hq.symm.trans h))

/-- A run whose interpreter answers with a program goes on with it. -/
theorem answered_pure (q : Program ν V α) : (answered (M.pure q) : Standing ν V M α) = .left q :=
  answered_of_inr (M.split_pure q)

theorem answered_of_inl {answer : M.Carrier (Program ν V α)} {failure : M.Carrier α}
    (h : M.split answer = .inl failure) : ∃ hf, answered answer = .failed failure hf := by
  unfold answered
  split
  next failure' hf =>
    obtain rfl := Sum.inl.inj (hf.symm.trans h)
    exact ⟨fun a ha => M.split_ne_inl_pure answer a (ha ▸ hf), rfl⟩
  next q hq => exact nomatch h.symm.trans hq

theorem answered_ne_finished (answer : M.Carrier (Program ν V α)) (log : List (Event ν)) (a : α) :
    answered answer ≠ .finished log a := by
  intro hfinished
  rcases h : (M.split answer : M.Carrier α ⊕ Program ν V α) with failure | q
  · obtain ⟨hf, heq⟩ := answered_of_inl h
    cases heq.symm.trans hfinished
  · cases (answered_of_inr h).symm.trans hfinished

theorem closing_of_ne_finished {o : Standing ν V M α} (h : ∀ log a, o ≠ .finished log a)
    (driver : Driver) (n : Nat) : o.closing driver n = [] := by
  cases o with
  | left p => rfl
  | failed failure hfailure => rfl
  | finished log a => exact absurd rfl (h log a)

/-- The result of a run is a success exactly if the run has finished. -/
theorem rest_eq_pure_iff {o : Standing ν V M α} {a : α} :
    o.rest = .inr (M.pure a) ↔ ∃ log, o = .finished log a := by
  constructor
  · intro h
    cases o with
    | left p => cases h
    | failed failure hfailure => exact absurd (Sum.inr.inj h) (hfailure a)
    | finished log b =>
      obtain rfl := M.pure_injective (Sum.inr.inj h)
      exact ⟨log, rfl⟩
  · rintro ⟨log, rfl⟩
    rfl

end Standing

namespace Call

/-- The interpreter answers with the payload of the step. -/
def AnsweredByPayload (I : Interpreter ν V M σ α) (c : Call ν V σ α) : Prop :=
  ∃ x, (I c.world c.step).value.2 = M.pure (c.step.reply x).value

theorem AnsweredByPayload.answered {I : Interpreter ν V M σ α} {c : Call ν V σ α}
    (h : c.AnsweredByPayload I) :
    ∃ x, Standing.answered (I c.world c.step).value.2 = .left (c.step.reply x).value := by
  obtain ⟨x, hx⟩ := h
  refine ⟨x, ?_⟩
  rw [hx, Standing.answered_pure]

end Call

/-- From where it stands, a run makes the calls of the list, in order, and then stands elsewhere. -/
inductive Course (I : Interpreter ν V M σ α) :
    σ → Standing ν V M α → List (Call ν V σ α) → σ → Standing ν V M α → Prop where
  | stay (world : σ) (o : Standing ν V M α) : Course I world o [] world o
  | value (world : σ) {p : Program ν V α} {log : List (Event ν)} {a : α}
      (h : p.resume = ⟨log, .inr a⟩) : Course I world (.left p) [] world (.finished log a)
  | call {world world' : σ} {p : Program ν V α} {log : List (Event ν)}
      {s : Step ν V (Program ν V α)} {calls : List (Call ν V σ α)} {o : Standing ν V M α}
      (h : p.resume = ⟨log, .inl s⟩)
      (rest : Course I (I world s).value.1 (.answered (I world s).value.2) calls world' o) :
      Course I world (.left p) (⟨world, log, s⟩ :: calls) world' o

namespace Course

variable {I : Interpreter ν V M σ α} {world world' world'' : σ} {o o' o'' : Standing ν V M α}
  {calls calls' : List (Call ν V σ α)}

theorem append (h : Course I world o calls world' o') (h' : Course I world' o' calls' world'' o'') :
    Course I world o (calls ++ calls') world'' o'' := by
  induction h with
  | stay => exact h'
  | value world hp =>
    cases h' with
    | stay => exact .value _ hp
  | call hp rest ih => exact .call hp (ih h')

end Course

/-! ## What a driver records -/

namespace Interpreter

/-- What a driver records of a call, which is number `n`: the program is resumed, and its own event
    comes just before what the interpreter does. -/
def toldOnce (I : Interpreter ν V M σ α) (driver : Driver) (n : Nat) (c : Call ν V σ α) :
    List (Event ν) :=
  c.before ++ .interpreting driver n :: (I c.world c.step).log

/-- What a driver records of calls, of which there are `n` before them. -/
def told (I : Interpreter ν V M σ α) (driver : Driver) : Nat → List (Call ν V σ α) → List (Event ν)
  | _, [] => []
  | n, c :: calls => I.toldOnce driver (n + 1) c ++ I.told driver (n + 1) calls

theorem told_append (I : Interpreter ν V M σ α) (driver : Driver) (n : Nat)
    (calls calls' : List (Call ν V σ α)) : I.told driver n (calls ++ calls')
      = I.told driver n calls ++ I.told driver (n + calls.length) calls' := by
  induction calls generalizing n with
  | nil => rfl
  | cons c calls ih =>
    rw [List.cons_append, told, told, ih, List.append_assoc, List.length_cons, Nat.add_assoc,
      Nat.add_comm 1]

end Interpreter

/-! ## The driver inside a host -/

/-- The loop of the driver takes a course, and numbers its calls on from the steps before. -/
theorem Program.tailRec_turn_course (I : Interpreter ν V M σ α) (turns : Nat) (world : σ) (n : Nat)
    (p : Program ν V α) : ∃ calls world' o, Course I world (.left p) calls world' o ∧
      M.tailRec (turn M I) turns (world, n) p
        = ⟨I.told .hosted n calls ++ o.closing .hosted (n + calls.length),
            ((world', n + calls.length), o.rest)⟩ := by
  induction turns generalizing world n p with
  | zero => exact ⟨[], world, .left p, .stay world _, rfl⟩
  | succ turns ih =>
    rw [Host.tailRec_succ]
    rcases hp : p.resume with ⟨log, s | a⟩
    · have hturn : turn M I (world, n) p = ⟨I.toldOnce .hosted (n + 1) ⟨world, log, s⟩,
          (((I world s).value.1, n + 1), M.map .inl (I world s).value.2)⟩ := by
        rw [turn, hp]
        rfl
      rw [hturn]
      simp only [Traced.bind, Host.split_map]
      -- the interpreter is called, and the run stands at its failure or goes on from its answer
      rcases hsplit : (M.split (I world s).value.2 : M.Carrier α ⊕ Program ν V α) with failure | q
      · obtain ⟨hfailure, hanswered⟩ := Standing.answered_of_inl hsplit
        have hcourse : Course I world (.left p) [⟨world, log, s⟩] (I world s).value.1
            (.failed failure hfailure) := .call hp (hanswered ▸ .stay _ _)
        refine ⟨_, _, _, hcourse, ?_⟩
        simp [Interpreter.told, Standing.closing, Standing.rest]
      · obtain ⟨calls, world', o, hcourse, hrun⟩ := ih (I world s).value.1 (n + 1) q
        rw [← Standing.answered_of_inr hsplit] at hcourse
        refine ⟨_, _, _, .call hp hcourse, ?_⟩
        simp [hrun, Interpreter.told, Nat.add_assoc, Nat.add_comm 1]
    · refine ⟨[], world, .finished log a, .value world hp, ?_⟩
      rw [turn, hp]
      ext1
      · simp [Interpreter.told, Standing.closing]
      · simp [Standing.rest]

/-- A run inside a host takes a course, and records what it says. -/
theorem Program.runInHost_course (I : Interpreter ν V M σ α) (turns : Nat) (world : σ)
    (p : Program ν V α) : ∃ calls world' o, Course I world (.left p) calls world' o ∧
      p.runInHost M I turns world
        = ⟨I.told .hosted 0 calls ++ o.closing .hosted calls.length, (world', o.rest)⟩ := by
  obtain ⟨calls, world', o, hcourse, hrun⟩ := tailRec_turn_course I turns world 0 p
  refine ⟨calls, world', o, hcourse, ?_⟩
  rw [runInHost, hrun, Nat.zero_add]
  rfl

/-! ## Polling -/

/-- The interpreter whose answers are taken as they are computed, whenever they are delivered. -/
def DelayedInterpreter.settled (D : DelayedInterpreter ν V M σ α) : Interpreter ν V M σ α :=
  fun world s => (D world s).map fun (world, d) => (world, d.value)

namespace Task

/-- How many steps were given. -/
def given : Task ν V M α → Nat
  | .ready steps _ => steps
  | .waiting steps _ _ => steps

/-- Where the run stands. -/
def standing : Task ν V M α → Standing ν V M α
  | .ready _ p => .left p
  | .waiting _ _ answer => .answered answer

theorem standing_ne_finished (t : Task ν V M α) (log : List (Event ν)) (a : α) :
    t.standing ≠ .finished log a := by
  cases t with
  | ready steps p =>
    intro h
    cases h
  | waiting steps left answer => exact Standing.answered_ne_finished answer log a

theorem closing_standing (driver : Driver) (n : Nat) (t : Task ν V M α) :
    t.standing.closing driver n = [] :=
  Standing.closing_of_ne_finished t.standing_ne_finished driver n

end Task

/-- What a poll comes to when the run stands at `o` and `n` steps were given. -/
inductive Polled.Stands : Polled ν V M α → Nat → Standing ν V M α → Prop where
  | pending (t : Task ν V M α) : Stands (.pending t) t.given t.standing
  | spent (t : Task ν V M α) : Stands (.spent t) t.given t.standing
  | failed (n : Nat) (failure : M.Carrier α) (hfailure : ∀ a, failure ≠ M.pure a) :
    Stands (.done failure) n (.failed failure hfailure)
  | finished (n : Nat) (log : List (Event ν)) (a : α) :
    Stands (.done (M.pure a)) n (.finished log a)

namespace Task

/-- From where it stands with `n` steps given, `r` takes a course, records what it says, and comes
    to a poll at its end. -/
def PollCourse (driver : Driver) (I : Interpreter ν V M σ α) (world : σ) (n : Nat)
    (o : Standing ν V M α) (r : Traced ν (σ × Polled ν V M α)) : Prop :=
  ∃ calls world' o' polled, Course I world o calls world' o' ∧
    polled.Stands (n + calls.length) o' ∧
    r = ⟨I.told driver n calls ++ o'.closing driver (n + calls.length), (world', polled)⟩

variable {driver : Driver} {D : DelayedInterpreter ν V M σ α} {turns : Nat}

/-- A poll goes on with the program that is ready, if there is one. -/
theorem poll_course_of_advance
    (hadvance : ∀ (world : σ) (n : Nat) (p : Program ν V α),
      PollCourse driver D.settled world n (.left p) (advance driver D turns [] world n p))
    (world : σ) (t : Task ν V M α) :
    PollCourse driver D.settled world t.given t.standing (poll driver D turns world t) := by
  rcases t with ⟨steps, p⟩ | ⟨steps, left | left, answer⟩
  · exact hadvance world steps p
  · simp only [poll]
    rcases hsplit : (M.split answer : M.Carrier α ⊕ Program ν V α) with failure | q
    · obtain ⟨hfailure, hanswered⟩ := Standing.answered_of_inl hsplit
      refine ⟨[], world, _, .done failure, .stay world _, ?_, ?_⟩
      · rw [standing, hanswered]
        exact .failed _ failure hfailure
      · rw [closing_standing]
        rfl
    · rw [standing, Standing.answered_of_inr hsplit]
      exact hadvance world steps q
  · refine ⟨[], world, _, _, .stay world _, .pending (.waiting steps left answer), ?_⟩
    rw [closing_standing]
    rfl

/-- From a program that is ready, a poll takes a course. -/
theorem advance_course (driver : Driver) (D : DelayedInterpreter ν V M σ α) (turns : Nat)
    (world : σ) (n : Nat) (p : Program ν V α) :
    PollCourse driver D.settled world n (.left p) (advance driver D turns [] world n p) := by
  induction turns generalizing world n p with
  | zero => exact ⟨[], world, .left p, _, .stay world _, .spent (.ready n p), rfl⟩
  | succ turns ih =>
    rw [advance_succ]
    rcases hp : p.resume with ⟨log, s | a⟩
    · -- the rest of the poll is one of the task that waits for this answer
      obtain ⟨calls, world', o, polled, hcourse, hstands, hrun⟩ :=
        poll_course_of_advance ih (D world s).value.1
          (.waiting (n + 1) (D world s).value.2.pending (D world s).value.2.value)
      have hlength : n + (Call.mk world log s :: calls).length = n + 1 + calls.length := by
        rw [List.length_cons, Nat.add_assoc, Nat.add_comm 1]
      refine ⟨⟨world, log, s⟩ :: calls, world', o, polled, .call hp hcourse, ?_, ?_⟩
      · rw [hlength]
        exact hstands
      · rw [hlength]
        simp only [Traced.bind, hrun, given]
        ext1
        · simp [Interpreter.told, Interpreter.toldOnce, DelayedInterpreter.settled]
        · rfl
    · refine ⟨[], world, .finished log a, .done (M.pure a), .value world hp, .finished n log a, ?_⟩
      ext1
      · simp [Interpreter.told, Standing.closing]
      · rfl

theorem poll_course (driver : Driver) (D : DelayedInterpreter ν V M σ α) (turns : Nat) (world : σ)
    (t : Task ν V M α) :
    PollCourse driver D.settled world t.given t.standing (poll driver D turns world t) :=
  poll_course_of_advance (advance_course driver D turns) world t

/-- Any number of polls takes a course, and records what it says. There is a result if the run has
    stopped at its end, with the one exception of a failure that is not delivered yet. -/
theorem pollTimes_course (driver : Driver) (D : DelayedInterpreter ν V M σ α) (turns limit : Nat)
    (polls : Nat) (world : σ) (t : Task ν V M α) :
    ∃ calls world' o polls' result, Course D.settled world t.standing calls world' o ∧
      (∀ r, result = some r → o.rest = .inr r) ∧ (result = none → ∀ log a, o ≠ .finished log a) ∧
      pollTimes driver D turns limit [] polls world t
        = ⟨D.settled.told driver t.given calls ++ o.closing driver (t.given + calls.length),
            (world', polls', result)⟩ := by
  induction limit generalizing polls world t with
  | zero =>
    refine ⟨[], world, t.standing, polls, none, .stay world _, ?_, ?_, ?_⟩
    · intro r h
      cases h
    · intro _ log a
      exact t.standing_ne_finished log a
    · rw [closing_standing]
      rfl
  | succ limit ih =>
    obtain ⟨calls, world', o, polled, hcourse, hstands, hrun⟩ := poll_course driver D turns world t
    rw [pollTimes_succ, hrun]
    generalize hgiven : t.given + calls.length = n at hstands
    cases hstands with
    | pending t' =>
      -- the other polls go on from the task that is left, and number its calls on
      obtain ⟨calls', world'', o', polls', result, hcourse', hresult, hnone, hrun'⟩ :=
        ih (polls + 1) world' t'
      refine ⟨calls ++ calls', world'', o', polls', result, hcourse.append hcourse', hresult,
        hnone, ?_⟩
      simp only [Traced.bind, hrun']
      rw [Interpreter.told_append, List.length_append, ← Nat.add_assoc, hgiven, closing_standing]
      simp
    | spent t' =>
      refine ⟨calls, world', _, polls + 1, none, hcourse, ?_, ?_, ?_⟩
      · intro r h
        cases h
      · intro _ log a
        exact t'.standing_ne_finished log a
      · simp [Traced.bind, hgiven]
    | failed _ failure hfailure =>
      refine ⟨calls, world', _, polls + 1, some failure, hcourse, ?_, ?_, ?_⟩
      · rintro r ⟨⟩
        rfl
      · intro h
        cases h
      · simp [Traced.bind, hgiven]
    | finished _ log a =>
      refine ⟨calls, world', _, polls + 1, some (M.pure a), hcourse, ?_, ?_, ?_⟩
      · rintro r ⟨⟩
        rfl
      · intro h
        cases h
      · simp [Traced.bind, hgiven]

end Task

/-! ## Interpreters that agree on the calls of a run -/

/-- Every call that a run makes from where it stands is one of which `P` holds. -/
def Course.Always (I : Interpreter ν V M σ α) (world : σ) (o : Standing ν V M α)
    (P : σ → Step ν V (Program ν V α) → Prop) : Prop :=
  ∀ calls world' o', Course I world o calls world' o' → ∀ c ∈ calls, P c.world c.step

namespace Course.Always

variable {I : Interpreter ν V M σ α} {world world' : σ} {o o' : Standing ν V M α}
  {calls : List (Call ν V σ α)} {P : σ → Step ν V (Program ν V α) → Prop}

theorem of_course (h : Always I world o P) (hcourse : Course I world o calls world' o') :
    Always I world' o' P := by
  intro calls' world'' o'' hcourse' c hc
  exact h _ _ _ (hcourse.append hcourse') c (List.mem_append_right calls hc)

theorem of_value {p : Program ν V α} {log : List (Event ν)} {a : α}
    (hp : p.resume = ⟨log, .inr a⟩) : Always I world (.left p) P := by
  intro calls world' o hcourse c hc
  cases hcourse with
  | stay => cases hc
  | value _ _ => cases hc
  | call hp' _ => cases hp.symm.trans hp'

theorem of_step {p : Program ν V α} {log : List (Event ν)} {s : Step ν V (Program ν V α)}
    (hp : p.resume = ⟨log, .inl s⟩) (hs : P world s)
    (hrest : Always I (I world s).value.1 (.answered (I world s).value.2) P) :
    Always I world (.left p) P := by
  intro calls world' o hcourse c hc
  cases hcourse with
  | stay => cases hc
  | value _ hp' => cases hp.symm.trans hp'
  | call hp' rest =>
    cases hp.symm.trans hp'
    rcases List.mem_cons.1 hc with rfl | hc
    · exact hs
    · exact hrest _ _ _ rest c hc

/-- It holds of the first call, and always from then on. -/
theorem call {p : Program ν V α} {log : List (Event ν)} {s : Step ν V (Program ν V α)}
    (h : Always I world (.left p) P) (hp : p.resume = ⟨log, .inl s⟩) :
    P world s ∧ Always I (I world s).value.1 (.answered (I world s).value.2) P := by
  have hcourse : Course I world (.left p) [⟨world, log, s⟩] (I world s).value.1
      (.answered (I world s).value.2) := .call hp (.stay _ _)
  exact ⟨h _ _ _ hcourse _ List.mem_cons_self, h.of_course hcourse⟩

end Course.Always

/-- Interpreters that agree on the calls of a run give the same run. -/
theorem Program.runInHost_congr {I J : Interpreter ν V M σ α} {world : σ} {p : Program ν V α}
    (h : Course.Always I world (.left p) fun world s => I world s = J world s) (turns : Nat) :
    p.runInHost M I turns world = p.runInHost M J turns world := by
  have hloop : ∀ n, M.tailRec (turn M I) turns (world, n) p
      = M.tailRec (turn M J) turns (world, n) p := by
    induction turns generalizing world p with
    | zero => exact fun _ => rfl
    | succ turns ih =>
      intro n
      rw [Host.tailRec_succ, Host.tailRec_succ]
      rcases hp : p.resume with ⟨log, s | a⟩
      · obtain ⟨hcall, hrest⟩ := h.call hp
        have hturn : turn M I (world, n) p = turn M J (world, n) p := by
          rw [turn, turn, hp]
          simp only [Traced.bind, hcall]
        rw [← hturn]
        refine Traced.bind_congr ?_
        rw [turn, hp]
        simp only [Traced.bind, Traced.map, Traced.after, Host.split_map]
        rcases hsplit : (M.split (I world s).value.2 : M.Carrier α ⊕ Program ν V α) with f | q
        · rfl
        · rw [Standing.answered_of_inr hsplit] at hrest
          exact ih hrest (n + 1)
      · rw [turn, turn, hp]
        simp [Traced.bind]
  rw [runInHost, runInHost, hloop]

namespace Task

variable {driver : Driver} {D E : DelayedInterpreter ν V M σ α} {turns : Nat}

theorem poll_congr_of_advance
    (hadvance : ∀ (world : σ) (n : Nat) (p : Program ν V α),
      (Course.Always D.settled world (.left p) fun world s => D world s = E world s) →
        advance driver D turns [] world n p = advance driver E turns [] world n p)
    {world : σ} {t : Task ν V M α}
    (h : Course.Always D.settled world t.standing fun world s => D world s = E world s) :
    poll driver D turns world t = poll driver E turns world t := by
  rcases t with ⟨steps, p⟩ | ⟨steps, left | left, answer⟩
  · exact hadvance world steps p h
  · simp only [poll]
    rcases hsplit : (M.split answer : M.Carrier α ⊕ Program ν V α) with failure | q
    · rfl
    · rw [standing, Standing.answered_of_inr hsplit] at h
      exact hadvance world steps q h
  · rfl

theorem advance_congr (turns : Nat) (world : σ) (n : Nat) (p : Program ν V α)
    (h : Course.Always D.settled world (.left p) fun world s => D world s = E world s) :
    advance driver D turns [] world n p = advance driver E turns [] world n p := by
  induction turns generalizing world n p with
  | zero => rfl
  | succ turns ih =>
    rw [advance_succ, advance_succ]
    rcases hp : p.resume with ⟨log, s | a⟩
    · obtain ⟨hcall, hrest⟩ := h.call hp
      have hpoll : ∀ t : Task ν V M α, t.standing = .answered (D world s).value.2.value →
          poll driver D turns (D world s).value.1 t = poll driver E turns (D world s).value.1 t :=
        fun t ht => poll_congr_of_advance ih (ht ▸ hrest)
      simp only [Traced.bind, ← hcall, hpoll (.waiting _ _ _) rfl]
    · rfl

/-- Interpreters that agree on the calls of a run give the same polls. -/
theorem pollTimes_congr (turns limit polls : Nat) {world : σ} {t : Task ν V M α}
    (h : Course.Always D.settled world t.standing fun world s => D world s = E world s) :
    pollTimes driver D turns limit [] polls world t
      = pollTimes driver E turns limit [] polls world t := by
  induction limit generalizing polls world t with
  | zero => rfl
  | succ limit ih =>
    have hpoll : poll driver D turns world t = poll driver E turns world t :=
      poll_congr_of_advance (fun world n p => advance_congr turns world n p) h
    obtain ⟨calls, world', o, polled, hcourse, hstands, hrun⟩ := poll_course driver D turns world t
    rw [pollTimes_succ, pollTimes_succ, ← hpoll, hrun]
    generalize t.given + calls.length = n at hstands
    cases hstands with
    | pending t' => exact Traced.bind_congr (ih (polls + 1) (h.of_course hcourse))
    | spent t' => rfl
    | failed _ failure hfailure => rfl
    | finished _ log a => rfl

end Task

end FreeMonad
