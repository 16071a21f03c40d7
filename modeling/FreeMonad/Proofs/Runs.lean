import FreeMonad.Proofs.Course
import FreeMonad.Proofs.EvaluationOrder

set_option autoImplicit false

/-! # Every run

Whatever takes a program through its steps, a driver or a caller who steps it by hand, takes a
course and records what the course says. So what holds of all courses holds of every run
(`Program.everyRun_of_course`), also of one that fails, that is dropped while an answer is pending,
or whose interpreter goes on with another program.

For as long as the interpreter answers with the payloads of the steps (`Interpreter.Keeps`), a
course is a run by hand along these answers, so it comes to no step and to no value but those of the
program (`Course.follows_call`, `Course.follows_value`). After any other answer it is a course of
the answer, and after a failure it is over (`Interpreter.Abandons`). -/

namespace FreeMonad

universe u

variable {ν : Type} {V : Vocabulary} {M : Host} {σ : Type u} {α : Type}

/-! ## Courses by hand -/

/-- What is recorded of calls where no driver adds events of its own. -/
def Interpreter.toldByHand (I : Interpreter ν V M σ α) (calls : List (Call ν V σ α)) :
    List (Event ν) :=
  calls.flatMap fun c => c.before ++ (I c.world c.step).log

/-- What is recorded while the program is resumed to its value. -/
def Standing.last : Standing ν V M α → List (Event ν)
  | .left _ => []
  | .failed _ _ => []
  | .finished log _ => log

/-- A run by hand takes a course, and records what it says. -/
theorem Program.stepByHand_course (I : Interpreter ν V M σ α) (turns : Nat) (world : σ)
    (p : Program ν V α) : ∃ calls world' o, Course I world (.left p) calls world' o ∧
      p.stepByHand M I turns world = ⟨I.toldByHand calls ++ o.last, (world', o.rest)⟩ := by
  induction turns generalizing world p with
  | zero => exact ⟨[], world, .left p, .stay world _, rfl⟩
  | succ turns ih =>
    rcases hp : p.resume with ⟨log, s | a⟩
    · rw [stepByHand_of_step hp]
      rcases hsplit : (M.split (I world s).value.2 : M.Carrier α ⊕ Program ν V α) with failure | q
      · obtain ⟨hfailure, hanswered⟩ := Standing.answered_of_inl hsplit
        have hcourse : Course I world (.left p) [⟨world, log, s⟩] (I world s).value.1
            (.failed failure hfailure) := .call hp (hanswered ▸ .stay _ _)
        refine ⟨_, _, _, hcourse, ?_⟩
        simp [Traced.bind, Traced.after, hsplit, handOn, Interpreter.toldByHand, Standing.last,
          Standing.rest]
      · obtain ⟨calls, world', o, hcourse, hrun⟩ := ih (I world s).value.1 q
        rw [← Standing.answered_of_inr hsplit] at hcourse
        refine ⟨_, _, _, .call hp hcourse, ?_⟩
        simp [Traced.bind, Traced.after, hsplit, handOn, hrun, Interpreter.toldByHand]
    · refine ⟨[], world, .finished log a, .value world hp, ?_⟩
      rw [stepByHand_of_value hp]
      rfl

/-! ## Every run -/

/-- Of the calls of every run of the program, and of where it stands then, `P` holds. -/
structure Program.EveryRun (p : Program ν V α)
    (P : ∀ {M : Host} {σ : Type u}, Interpreter ν V M σ α → List (Call ν V σ α) →
      Standing ν V M α → Prop) : Prop where
  /-- Inside a host; `run` and `tryRun` are two cases of this. -/
  inHost {M : Host} {σ : Type u} (I : Interpreter ν V M σ α) (turns : Nat) (world : σ) :
    ∃ calls world' o, Course I world (.left p) calls world' o ∧ P I calls o ∧
      p.runInHost M I turns world
        = ⟨I.told .hosted 0 calls ++ o.closing .hosted calls.length, (world', o.rest)⟩
  /-- By polling; `runAsync` and `tryRunAsync` are two cases of this. The run is dropped after the
      last poll. -/
  polled {M : Host} {σ : Type u} (driver : Driver) (D : DelayedInterpreter ν V M σ α)
    (turns limit : Nat) (world : σ) :
    ∃ calls world' o polls result, Course D.settled world (.left p) calls world' o ∧
      P D.settled calls o ∧ (∀ r, result = some r → o.rest = .inr r) ∧
      Task.pollTimes driver D turns limit [] 0 world (Task.start p)
        = ⟨D.settled.told driver 0 calls ++ o.closing driver calls.length,
            (world', polls, result)⟩
  /-- With no driver. -/
  byHand {M : Host} {σ : Type u} (I : Interpreter ν V M σ α) (turns : Nat) (world : σ) :
    ∃ calls world' o, Course I world (.left p) calls world' o ∧ P I calls o ∧
      p.stepByHand M I turns world = ⟨I.toldByHand calls ++ o.last, (world', o.rest)⟩

/-- What holds of every course of a program holds of every run of it. -/
theorem Program.everyRun_of_course {p : Program ν V α}
    {P : ∀ {M : Host} {σ : Type u}, Interpreter ν V M σ α → List (Call ν V σ α) →
      Standing ν V M α → Prop}
    (h : ∀ {M : Host} {σ : Type u} {I : Interpreter ν V M σ α} {world world' : σ}
      {calls : List (Call ν V σ α)} {o : Standing ν V M α},
      Course I world (.left p) calls world' o → P I calls o) : p.EveryRun P where
  inHost I turns world := by
    obtain ⟨calls, world', o, hcourse, hrun⟩ := runInHost_course I turns world p
    exact ⟨calls, world', o, hcourse, h hcourse, hrun⟩
  polled driver D turns limit world := by
    obtain ⟨calls, world', o, polls, result, hcourse, hresult, -, hrun⟩ :=
      Task.pollTimes_course driver D turns limit 0 world (Task.start p)
    simp only [Task.start, Task.given, Nat.zero_add] at hrun
    exact ⟨calls, world', o, polls, result, hcourse, h hcourse, hresult, hrun⟩
  byHand I turns world := by
    obtain ⟨calls, world', o, hcourse, hrun⟩ := stepByHand_course I turns world p
    exact ⟨calls, world', o, hcourse, h hcourse, hrun⟩

/-! ## Answers with the payload -/

/-- The interpreter answers the calls with the payloads that the answers `xs` make, and the program
    records `log` meanwhile. -/
inductive Interpreter.Keeps (I : Interpreter ν V M σ α) :
    List (Call ν V σ α) → Answers V → List (Event ν) → Prop where
  | nil : Keeps I [] [] []
  | cons {c : Call ν V σ α} {calls : List (Call ν V σ α)} {xs : Answers V} {log : List (Event ν)}
      (x : V.Answer c.step.op) (hx : (I c.world c.step).value.2 = M.pure (c.step.reply x).value)
      (rest : Keeps I calls xs log) :
      Keeps I (c :: calls) (⟨c.step.op, x⟩ :: xs) (c.before ++ ((c.step.reply x).log ++ log))

namespace Course

variable {I : Interpreter ν V M σ α} {world world' : σ} {p : Program ν V α}
  {calls calls' : List (Call ν V σ α)} {c : Call ν V σ α} {o : Standing ν V M α} {xs : Answers V}
  {log : List (Event ν)}

/-- While the answers are payloads, a call is about a step of the program. -/
theorem follows_call (h : Course I world (.left p) (calls ++ c :: calls') world' o)
    (hkeeps : I.Keeps calls xs log) :
    Follows Program.resume p xs (log ++ c.before) (.inl c.step.op) := by
  induction hkeeps generalizing world p with
  | nil =>
    cases h with
    | call hp _ => exact .pending hp
  | cons x hx _ ih =>
    cases h with
    | call hp rest =>
      rw [hx, Standing.answered_pure] at rest
      simp only [List.append_assoc]
      exact .answered hp x (ih rest)

/-- If all answers are payloads, the value is that of the program. -/
theorem follows_value {last : List (Event ν)} {a : α}
    (h : Course I world (.left p) calls world' (.finished last a)) (hkeeps : I.Keeps calls xs log) :
    Follows Program.resume p xs (log ++ last) (.inr a) := by
  induction hkeeps generalizing world p with
  | nil =>
    cases h with
    | value _ hp => exact .value hp
  | cons x hx _ ih =>
    cases h with
    | call hp rest =>
      rw [hx, Standing.answered_pure] at rest
      simp only [List.append_assoc]
      exact .answered hp x (ih rest)

/-! ## Other answers -/

/-- What comes after a call is a course from where its answer leaves the run. -/
theorem answered {o' : Standing ν V M α}
    (h : Course I world o' (calls ++ c :: calls') world' o) :
    Course I (I c.world c.step).value.1 (.answered (I c.world c.step).value.2) calls' world' o := by
  induction calls generalizing world o' with
  | nil =>
    cases h with
    | call _ rest => exact rest
  | cons d calls ih =>
    cases h with
    | call _ rest => exact ih rest

/-- After an answer the run is a run of the answer. -/
theorem goesOn (h : Course I world (.left p) (calls ++ c :: calls') world' o) {r : Program ν V α}
    (hr : (I c.world c.step).value.2 = M.pure r) :
    Course I (I c.world c.step).value.1 (.left r) calls' world' o := by
  have hrest := h.answered
  rw [hr, Standing.answered_pure] at hrest
  exact hrest

/-- After a failure the run is over. -/
theorem stopped (h : Course I world (.left p) (calls ++ c :: calls') world' o)
    {failure : M.Carrier α} (hfailure : M.split (I c.world c.step).value.2 = .inl failure) :
    calls' = [] ∧ o.rest = .inr failure := by
  obtain ⟨hf, hanswered⟩ := Standing.answered_of_inl hfailure
  have hrest := h.answered
  rw [hanswered] at hrest
  cases hrest
  exact ⟨rfl, rfl⟩

end Course

/-- What comes after an answer that is not the payload of its step: nothing after a failure, and
    after an answer with some program a run of that program by itself. -/
structure Interpreter.Abandons (I : Interpreter ν V M σ α) (calls : List (Call ν V σ α))
    (o : Standing ν V M α) : Prop where
  failed {before after : List (Call ν V σ α)} {c : Call ν V σ α} {failure : M.Carrier α}
    (h : calls = before ++ c :: after) (hc : M.split (I c.world c.step).value.2 = .inl failure) :
    after = [] ∧ o.rest = .inr failure
  replaced {before after : List (Call ν V σ α)} {c : Call ν V σ α} {r : Program ν V α}
    (h : calls = before ++ c :: after) (hc : (I c.world c.step).value.2 = M.pure r) :
    ∃ world', Course I (I c.world c.step).value.1 (.left r) after world' o

theorem Course.abandons {I : Interpreter ν V M σ α} {world world' : σ} {p : Program ν V α}
    {calls : List (Call ν V σ α)} {o : Standing ν V M α}
    (h : Course I world (.left p) calls world' o) : I.Abandons calls o where
  failed hcalls hc := by
    subst hcalls
    exact h.stopped hc
  replaced hcalls hc := by
    subst hcalls
    exact ⟨world', h.goesOn hc⟩

end FreeMonad
