import FreeMonad.Proofs.MonadLaws
import FreeMonad.Proofs.Pace
import FreeMonad.Proofs.Transparency

set_option autoImplicit false

/-! # Answers that do not use the payload

The payload of a step is all that is left of its program. The driver keeps no other copy: it goes on
with what the interpreter answers, and with nothing else. From there on, the run is a run of the
answer, in the state in which the interpreter is left (`Program.GoesOnAs`), by hand and by every
driver, and all that is recorded from there on is recorded by that run.

So if the answer is not made from the payload, that is, if it is the same whatever the payload is
(`Interpreter.AnswersBy`), then nothing of the payload is called, and it makes no difference what
was pending. Programs that come to the same operation in the same state run alike from there on. For
interpreters that look at operations alone, it is enough that the trees of the programs are the same
up to this step (`Tree.SameTo`).

A step without a payload can only be answered so. Continuations that are attached to it are dropped
when the program is resumed (`Chain.resume_on_lift`), so they are never called. -/

namespace FreeMonad

universe u v

variable {ν : Type} {V : Vocabulary} {M : Host} {σ : Type u} {α β : Type}

/-! ## The step that is answered -/

/-- In the state `world`, the interpreter answers every step of the operation `op` with `r`,
    whatever the payload is. It records `said` and goes to the state `world'`. -/
def Interpreter.AnswersBy (I : Interpreter ν V M σ α) (world : σ) (op : V.Op)
    (said : List (Event ν)) (world' : σ) (r : Program ν V α) : Prop :=
  ∀ reply, I world ⟨op, reply⟩ = ⟨said, (world', M.pure r)⟩

/-- A step that has no answers has but one payload, so the answer is the same for all of them. -/
theorem Interpreter.answersBy_of_isEmpty (I : Interpreter ν V M σ α) {world world' : σ}
    {s : Step ν V (Program ν V α)} {said : List (Event ν)} {r : Program ν V α}
    (hs : IsEmpty (V.Answer s.op)) (h : I world s = ⟨said, (world', M.pure r)⟩) :
    I.AnswersBy world s.op said world' r := by
  intro reply
  obtain rfl : reply = s.reply := funext fun x => hs.elim x
  exact h

namespace Program

/-- After `n` steps, and having recorded `log`, the run comes to the step `s` in the state
    `world'`. -/
def ComesTo (I : Interpreter ν V M σ α) (n : Nat) (world : σ) (p : Program ν V α)
    (log : List (Event ν)) (world' : σ) (s : Step ν V (Program ν V α)) : Prop :=
  ∃ before q after, p.stepByHand M I n world = ⟨before, (world', .inl q)⟩ ∧
    q.resume = ⟨after, .inl s⟩ ∧ log = before ++ after

/-- After `n` steps, and having recorded `log`, the run of `p` is a run of `r` from the state
    `world'`. -/
structure GoesOnAs (I : Interpreter ν V M σ α) (n : Nat) (world : σ) (p : Program ν V α)
    (log : List (Event ν)) (world' : σ) (r : Program ν V α) : Prop where
  /-- By hand. -/
  byHand (k : Nat) :
    p.stepByHand M I (n + k) world = (r.stepByHand M I k world').after log
  /-- Inside a host, where the driver only counts the steps on. -/
  inHost (k : Nat) :
    (p.runInHost M I (n + k) world).seen = ((r.runInHost M I k world').after log).seen
  /-- By polling, however long the answers are pending: the polled run of `p`, and that of `r` after
      what was recorded before it, come to the same at their own pace. -/
  polled (driver : Driver) (D : DelayedInterpreter ν V M σ α) (hD : D.settled = I) :
    SamePace (fun turns limit => Task.pollTimes driver D turns limit [] 0 world (Task.start p))
        (fun m => p.runInHost M I m world) ∧
      SamePace (fun turns limit =>
          (Task.pollTimes driver D turns limit [] 0 world' (Task.start r)).after log)
        (fun m => p.runInHost M I m world)

variable {I : Interpreter ν V M σ α} {n : Nat} {world world' world'' : σ} {p p' r : Program ν V α}
  {log log' said : List (Event ν)} {s s' : Step ν V (Program ν V α)}

/-- The turn that answers the step is followed by turns of the answer. -/
theorem ComesTo.stepByHand_answered (h : p.ComesTo I n world log world' s)
    (hanswer : I world' s = ⟨said, (world'', M.pure r)⟩) (k : Nat) :
    p.stepByHand M I (n + 1 + k) world = (r.stepByHand M I k world'').after (log ++ said) := by
  obtain ⟨before, q, after, hp, hq, rfl⟩ := h
  rw [Nat.add_assoc, Nat.add_comm 1, stepByHand_add, hp]
  simp only [Traced.bind, handOn]
  rw [stepByHand_of_step hq, hanswer]
  simp only [Traced.bind, Host.split_pure, Sum.swap_inr, handOn]
  ext1
  · simp
  · rfl

theorem ComesTo.goesOnAs (h : p.ComesTo I n world log world' s)
    (hanswer : I world' s = ⟨said, (world'', M.pure r)⟩) :
    p.GoesOnAs I (n + 1) world (log ++ said) world'' r := by
  have hbyHand := h.stepByHand_answered hanswer
  constructor
  case byHand => exact hbyHand
  case inHost =>
    intro k
    rw [seen_runInHost, hbyHand, Traced.seen_after, Traced.seen_after, seen_runInHost]
  case polled =>
    rintro driver D rfl
    have hhosted : ∀ m, (p.stepByHand M D.settled m world).seen
        = (p.runInHost M D.settled m world).seen := fun m =>
      (seen_runInHost D.settled m world p).symm
    refine ⟨(samePace_settled driver D world p).congr hhosted, SamePace.congr ?_ hhosted⟩
    exact (samePace_settled driver D world'' r).shift hbyHand fun hle hover =>
      stepByHand_of_over D.settled hle hover

/-- A run that is answered with a value ends with it, and records nothing more. -/
theorem ComesTo.endsWith {a : α} (h : p.ComesTo I n world log world' s)
    (hanswer : I world' s = ⟨said, (world'', M.pure (.pure a))⟩) :
    p.EndsWith I (n + 1 + 1) world (log ++ said) world'' (M.pure a) := by
  have hvalue : (Program.pure a : Program ν V α).resume = ⟨[], .inr a⟩ := rfl
  refine endsWith_of_stepByHand ?_
  rw [h.stepByHand_answered hanswer, stepByHand_of_value hvalue]
  ext1
  · exact List.append_nil _
  · rfl

/-- What is pending at the step makes no difference. -/
theorem ComesTo.seen_runInHost_eq (h : p.ComesTo I n world log world' s)
    (h' : p'.ComesTo I n world log' world' s') (hop : s'.op = s.op)
    (hlog : userEvents log' = userEvents log)
    (hanswer : I.AnswersBy world' s.op said world'' r) (k : Nat) :
    (p'.runInHost M I (n + 1 + k) world).seen = (p.runInHost M I (n + 1 + k) world).seen := by
  have hanswer' : I.AnswersBy world' s'.op said world'' r := hop ▸ hanswer
  have hafter := (h.goesOnAs (hanswer s.reply)).inHost k
  have hafter' := (h'.goesOnAs (hanswer' s'.reply)).inHost k
  rw [hafter, hafter', Traced.seen_after, Traced.seen_after, userEvents_append, userEvents_append,
    hlog]

end Program

/-! ## Programs that are the same up to a step -/

/-- The trees are the same up to their steps number `n`, counted from zero, and have the same
    operations there. What is behind these steps may differ in any way. -/
inductive Tree.SameTo : Nat → Tree ν V α → Tree ν V α → Prop where
  | ret (n : Nat) (log : List (Event ν)) (a : α) : SameTo n (.ret log a) (.ret log a)
  | last (log : List (Event ν)) (op : V.Op) (said said' : V.Answer op → List (Event ν))
      (next next' : V.Answer op → Tree ν V α) :
      SameTo 0 (.step log op said next) (.step log op said' next')
  | step {n : Nat} (log : List (Event ν)) (op : V.Op) (said : V.Answer op → List (Event ν))
      {next next' : V.Answer op → Tree ν V α} (h : ∀ x, SameTo n (next x) (next' x)) :
      SameTo (n + 1) (.step log op said next) (.step log op said next')

theorem Tree.sameTo_refl (t : Tree ν V α) (n : Nat) : t.SameTo n t := by
  induction t generalizing n with
  | ret log a => exact .ret n log a
  | step log op said next ih =>
    cases n with
    | zero => exact .last log op said said next next
    | succ n => exact .step log op said fun x => ih x n

namespace Program

section

variable {I : Interpreter ν V M σ α} {n : Nat} {world world' : σ} {p : Program ν V α}
  {before log : List (Event ν)} {first s : Step ν V (Program ν V α)}

theorem comesTo_zero_iff :
    p.ComesTo I 0 world log world' s ↔ world' = world ∧ p.resume = ⟨log, .inl s⟩ := by
  constructor
  · rintro ⟨before, q, after, hp, hq, rfl⟩
    cases hp
    exact ⟨rfl, hq⟩
  · rintro ⟨rfl, hp⟩
    exact ⟨[], p, log, rfl, hp, rfl⟩

/-- After its first step, the run comes to what the answer comes to. -/
theorem comesTo_succ_iff (hp : p.resume = ⟨before, .inl first⟩) :
    p.ComesTo I (n + 1) world log world' s ↔ ∃ q rest,
      (M.split (I world first).value.2 : M.Carrier α ⊕ Program ν V α) = .inr q ∧
      q.ComesTo I n (I world first).value.1 rest world' s ∧
      log = before ++ ((I world first).log ++ rest) := by
  have hturn : p.stepByHand M I (n + 1) world
      = (handOn M I n (I world first).value.1 (M.split (I world first).value.2).swap).after
          (before ++ (I world first).log) := by
    rw [stepByHand_of_step hp]
    ext1
    · simp
    · rfl
  rw [ComesTo, hturn]
  rcases (M.split (I world first).value.2 : M.Carrier α ⊕ Program ν V α) with failure | q
  · constructor
    · rintro ⟨_, _, _, hover, -, -⟩
      cases hover
    · rintro ⟨_, _, hover, -, -⟩
      cases hover
  · constructor
    · rintro ⟨_, q', after, hq, hresume, rfl⟩
      obtain ⟨rfl, hvalue⟩ := Traced.mk.inj hq
      refine ⟨q, _, rfl, ⟨_, q', after, Traced.ext rfl hvalue, hresume, rfl⟩, ?_⟩
      simp [handOn]
    · rintro ⟨_, rest, ⟨⟩, ⟨before', q', after, hq, hresume, rfl⟩, rfl⟩
      refine ⟨before ++ (I world first).log ++ before', q', after, ?_, hresume, by simp⟩
      rw [Sum.swap_inr, handOn, hq]
      rfl

end

/-- A program whose tree starts with a step resumes to it, and its payloads have the subtrees. -/
theorem exists_reply_of_tree_eq_step {p : Program ν V α} {log : List (Event ν)} {op : V.Op}
    {said : V.Answer op → List (Event ν)} {next : V.Answer op → Tree ν V α}
    (h : p.tree = .step log op said next) : ∃ reply, p.resume = ⟨log, .inl ⟨op, reply⟩⟩ ∧
      ∀ x, (reply x).log = said x ∧ (reply x).value.tree = next x := by
  obtain ⟨⟨op', reply⟩, hresume, hstep⟩ :=
    (p.resume_eq_step_iff log ⟨op, fun x => ⟨said x, next x⟩⟩).2 h
  obtain ⟨rfl, hreply⟩ := Step.mk.inj hstep
  exact ⟨reply, hresume, fun x => Traced.mk.inj (congrFun (eq_of_heq hreply) x)⟩

end Program

/-- Reactions to steps whose payloads are the same up to step `n` record the same, and go on with
    programs that are the same up to step `n`. -/
theorem Reaction.on_sameTo {n : Nat} {op : V.Op}
    {reply reply' : V.Answer op → Traced ν (Program ν V α)}
    (h : ∀ x, (reply' x).log = (reply x).log ∧
      (reply x).value.tree.SameTo n (reply' x).value.tree) (r : Reaction ν V α op) :
    (r.on ⟨op, reply'⟩).log = (r.on ⟨op, reply⟩).log ∧
      (r.on ⟨op, reply⟩).value.tree.SameTo n (r.on ⟨op, reply'⟩).value.tree := by
  cases r with
  | answer x => exact h x
  | instead p => exact ⟨rfl, p.tree.sameTo_refl n⟩

/-- In a host, if the run goes on after the reaction to the one step, it does so after the reaction
    to the other step, having recorded the same. -/
theorem Host.react_sameTo (M : Host) {n : Nat} {op : V.Op}
    {reply reply' : V.Answer op → Traced ν (Program ν V α)}
    (h : ∀ x, (reply' x).log = (reply x).log ∧
      (reply x).value.tree.SameTo n (reply' x).value.tree) (m : M.Carrier (Reaction ν V α op))
    {q : Program ν V α} (hq : (M.split (M.react ⟨op, reply⟩ m).value : M.Carrier α ⊕ _) = .inr q) :
    (M.react ⟨op, reply'⟩ m).log = (M.react ⟨op, reply⟩ m).log ∧
      ∃ q', (M.split (M.react ⟨op, reply'⟩ m).value : M.Carrier α ⊕ _) = .inr q' ∧
        q.tree.SameTo n q'.tree := by
  have hreaction (r : Reaction ν V α op) (hr : (r.on ⟨op, reply⟩).value = q) :
      (r.on ⟨op, reply'⟩).log = (r.on ⟨op, reply⟩).log ∧
        q.tree.SameTo n (r.on ⟨op, reply'⟩).value.tree := hr ▸ r.on_sameTo h
  cases M with
  | identity =>
    obtain ⟨hlog, htree⟩ := hreaction m (Sum.inr.inj hq)
    exact ⟨hlog, _, rfl, htree⟩
  | option =>
    cases m with
    | none => cases hq
    | some r =>
      obtain ⟨hlog, htree⟩ := hreaction r (Sum.inr.inj hq)
      exact ⟨hlog, _, rfl, htree⟩
  | result Error =>
    cases m with
    | error e => cases hq
    | ok r =>
      obtain ⟨hlog, htree⟩ := hreaction r (Sum.inr.inj hq)
      exact ⟨hlog, _, rfl, htree⟩

namespace Program

/-- With an interpreter that looks at operations alone, programs that are the same up to step `n`
    come to the same operation there, in the same state. -/
theorem ComesTo.of_sameTo {P : Policy ν V M σ α} {n : Nat} {world world' : σ}
    {p p' : Program ν V α} {log : List (Event ν)} {s : Step ν V (Program ν V α)}
    (htree : p.tree.SameTo n p'.tree) (h : p.ComesTo P.interpreter n world log world' s) :
    ∃ s', p'.ComesTo P.interpreter n world log world' s' ∧ s'.op = s.op := by
  induction n generalizing world p p' log with
  | zero =>
    obtain ⟨rfl, hp⟩ := comesTo_zero_iff.1 h
    rw [(p.resume_eq_step_iff log _).1 ⟨s, hp, rfl⟩] at htree
    generalize hp' : p'.tree = t' at htree
    cases htree with
    | last _ _ _ said' _ next' =>
      obtain ⟨reply', hresume, -⟩ := exists_reply_of_tree_eq_step hp'
      exact ⟨⟨s.op, reply'⟩, comesTo_zero_iff.2 ⟨rfl, hresume⟩, rfl⟩
  | succ n ih =>
    rcases hp : p.resume with ⟨before, ⟨op, reply⟩ | a⟩
    · rw [(p.resume_eq_step_iff before _).1 ⟨⟨op, reply⟩, hp, rfl⟩] at htree
      generalize hp' : p'.tree = t' at htree
      cases htree with
      | @step _ _ _ _ _ next' hnext =>
        obtain ⟨reply', hresume, hreply⟩ := exists_reply_of_tree_eq_step hp'
        obtain ⟨q, rest, hq, hrest, rfl⟩ := (comesTo_succ_iff hp).1 h
        -- the policy reacts to the operation, so it treats both steps alike
        have hpayload : ∀ x, (reply' x).log = (reply x).log ∧
            (reply x).value.tree.SameTo n (reply' x).value.tree := fun x =>
          ⟨(hreply x).1, (hreply x).2 ▸ hnext x⟩
        obtain ⟨hlog, q', hq', hsame⟩ := M.react_sameTo hpayload (P world op).value.2 hq
        obtain ⟨s', hs', hop⟩ := ih hsame hrest
        refine ⟨s', (comesTo_succ_iff hresume).2 ⟨q', rest, hq', hs', ?_⟩, hop⟩
        exact congrArg (fun l => before ++ ((P world op).log ++ l ++ rest)) hlog.symm
    · obtain ⟨_, _, _, hover, -, -⟩ := h
      rw [stepByHand_of_value hp] at hover
      cases hover

end Program

/-- A policy that goes on with another program answers so whatever the payload is. -/
theorem Policy.answersBy {P : Policy ν V M σ α} {world world' : σ} {op : V.Op}
    {said : List (Event ν)} {r : Program ν V α}
    (h : P world op = ⟨said, (world', M.pure (.instead r))⟩) :
    P.interpreter.AnswersBy world op said world' r := by
  intro reply
  have hreact : M.react ⟨op, reply⟩ (M.pure (.instead r)) = .pure (M.pure r) := by
    rw [Host.react, Host.split_pure]
    rfl
  rw [interpreter, h]
  simp only [Traced.bind, hreact]
  ext1
  · exact List.append_nil said
  · rfl

/-! ## Steps without a payload -/

/-- The step with a payload of any other type, if it has none. -/
def Step.retype {α : Type u} {β : Type v} (s : Step ν V α) (hs : IsEmpty (V.Answer s.op)) :
    Step ν V β :=
  ⟨s.op, hs.elim⟩

/-- Nothing is grafted onto a tree that starts with a step without a payload. -/
theorem Tree.op_bind_of_isEmpty {t : Step ν V (Tree ν V α)} (ht : IsEmpty (V.Answer t.op))
    (log : List (Event ν)) (k : α → Tree ν V β) :
    (Tree.op log t).bind k = .op log (t.retype ht) :=
  congrArg₂ (Tree.step log t.op) (Subsingleton.elim _ _) (Subsingleton.elim _ _)

/-- A program whose tree starts with a step without a payload resumes to that step. -/
theorem Program.resume_of_isEmpty {p : Program ν V β} {log : List (Event ν)}
    {t : Step ν V (Tree ν V β)} (ht : IsEmpty (V.Answer t.op)) (h : p.tree = .op log t) :
    p.resume = ⟨log, .inl (t.retype ht)⟩ := by
  obtain ⟨s, hresume, rfl⟩ := (p.resume_eq_step_iff log t).2 h
  have hreply : s.reply = fun x => ht.elim x := funext fun x => ht.elim x
  rw [hresume]
  exact congrArg (fun reply => Traced.mk log (Sum.inl (Step.mk s.op reply))) hreply

/-- Continuations that are attached to a step without a payload are dropped. -/
theorem Chain.resume_on_lift (s : Step ν V α) (hs : IsEmpty (V.Answer s.op)) (c : Chain ν V α β) :
    (c.on (.lift s)).resume = (Program.lift (s.retype hs : Step ν V β)).resume := by
  have hchain : (c.on (.lift s)).tree = .op [] (s.retype hs) := by
    rw [c.tree_on, Program.tree_lift, Tree.op_bind_of_isEmpty hs]
    rfl
  have hresume := Program.resume_of_isEmpty (t := s.retype hs) hs hchain
  exact hresume.trans (Program.resume_of_isEmpty hs (Program.tree_lift (s.retype hs))).symm

namespace Program

/-- No driver tells the programs apart, with any interpreter, not even by its own events. A run that
    takes no turn at all would leave either program. -/
structure RunsAlike (p q : Program ν V α) : Prop where
  inHost {M : Host} {σ : Type u} (I : Interpreter ν V M σ α) (turns : Nat) (world : σ) :
    p.runInHost M I (turns + 1) world = q.runInHost M I (turns + 1) world
  polled {M : Host} {σ : Type u} (driver : Driver) (D : DelayedInterpreter ν V M σ α)
    (turns limit : Nat) (world : σ) :
    Task.pollTimes driver D turns limit [] 0 world (Task.start p)
      = Task.pollTimes driver D turns limit [] 0 world (Task.start q)

/-- Drivers do nothing with a program but resume it. -/
theorem runsAlike_of_resume_eq {p q : Program ν V α} (h : p.resume = q.resume) :
    RunsAlike.{u} p q := by
  constructor
  case inHost =>
    intro M σ I turns world
    rw [runInHost, runInHost, Host.tailRec_succ, Host.tailRec_succ, turn, turn, h]
  case polled =>
    intro M σ driver D turns limit world
    cases limit with
    | zero => rfl
    | succ limit =>
      rw [Task.pollTimes_succ, Task.pollTimes_succ, Task.start, Task.start, Task.poll, Task.poll]
      cases turns with
      | zero => rfl
      | succ turns => rw [Task.advance_succ, Task.advance_succ, h]

end Program

/-! ## Discarding the rest -/

/-- What becomes of a run when the interpreter answers a step with some program. -/
structure Interpreter.DiscardsRest (I : Interpreter ν V M σ α) : Prop where
  /-- The run goes on as a run of the answer, in the state in which the interpreter is left. -/
  goesOn {n : Nat} {world world' world'' : σ} {p r : Program ν V α} {log said : List (Event ν)}
    {s : Step ν V (Program ν V α)} : p.ComesTo I n world log world' s →
      I world' s = ⟨said, (world'', M.pure r)⟩ →
        p.GoesOnAs I (n + 1) world (log ++ said) world'' r
  /-- If the answer is a value, the run ends with it, and nothing more is recorded. -/
  value {n : Nat} {world world' world'' : σ} {p : Program ν V α} {log said : List (Event ν)}
    {s : Step ν V (Program ν V α)} {a : α} : p.ComesTo I n world log world' s →
      I world' s = ⟨said, (world'', M.pure (.pure a))⟩ →
        p.EndsWith I (n + 2) world (log ++ said) world'' (M.pure a)
  /-- If the answer is not made from the payload, another program that comes to the same operation
      in the same state runs alike from there on, whatever is pending in it. -/
  pending {n : Nat} {world world' world'' : σ} {p p' r : Program ν V α}
    {log log' said : List (Event ν)} {s s' : Step ν V (Program ν V α)} :
    p.ComesTo I n world log world' s → p'.ComesTo I n world log' world' s' → s'.op = s.op →
      userEvents log' = userEvents log → I.AnswersBy world' s.op said world'' r → ∀ k,
        (p'.runInHost M I (n + 1 + k) world).seen = (p.runInHost M I (n + 1 + k) world).seen
  /-- Whatever a step without a payload is answered with is such an answer. -/
  noPayload {world world' : σ} {r : Program ν V α} {said : List (Event ν)}
    {s : Step ν V (Program ν V α)} : IsEmpty (V.Answer s.op) →
      I world s = ⟨said, (world', M.pure r)⟩ → I.AnswersBy world s.op said world' r

/-- What becomes of programs that are the same up to a step, when the policy goes on with another
    program there: whatever is pending, the run of either goes on as a run of that program. -/
def Policy.DiscardsRest (P : Policy ν V M σ α) : Prop :=
  ∀ {n : Nat} {world world' world'' : σ} {p p' r : Program ν V α} {log said : List (Event ν)}
    {s : Step ν V (Program ν V α)}, p.tree.SameTo n p'.tree →
      p.ComesTo P.interpreter n world log world' s →
      P world' s.op = ⟨said, (world'', M.pure (.instead r))⟩ →
        p.GoesOnAs P.interpreter (n + 1) world (log ++ said) world'' r ∧
        p'.GoesOnAs P.interpreter (n + 1) world (log ++ said) world'' r

/-- **An answer that does not use the payload discards the whole rest.** For every interpreter, the
    run from there on is a run of the answer by itself, in the interpreter's current state, by every
    driver; and if the answer is not made from the payload, it is the same run whatever was pending.
    A step without a payload lets a run go on in no other way: any continuations attached to it are
    dropped. -/
theorem answer_discards_rest (ν : Type) (V : Vocabulary) :
    (∀ {M : Host} {σ : Type u} {α : Type} (I : Interpreter ν V M σ α), I.DiscardsRest) ∧
    (∀ {M : Host} {σ : Type u} {α : Type} (P : Policy ν V M σ α), P.DiscardsRest) ∧
    (∀ {α β : Type} (s : Step ν V α) (hs : IsEmpty (V.Answer s.op)) (c : Chain ν V α β),
      c.on (.lift s) ≈ .lift (s.retype hs) ∧
      Program.RunsAlike.{u} (c.on (.lift s)) (.lift (s.retype hs))) := by
  refine ⟨?_, ?_, ?_⟩
  · intro M σ α I
    constructor
    case goesOn => exact fun h hanswer => h.goesOnAs hanswer
    case value => exact fun h hanswer => h.endsWith hanswer
    case pending => exact fun h h' hop hlog hanswer => h.seen_runInHost_eq h' hop hlog hanswer
    case noPayload => exact fun hs h => I.answersBy_of_isEmpty hs h
  · intro M σ α P n world world' world'' p p' r log said s htree h hreact
    obtain ⟨s', h', hop⟩ := h.of_sameTo htree
    have hanswer : P.interpreter.AnswersBy world' s.op said world'' r := Policy.answersBy hreact
    have hanswer' : P.interpreter.AnswersBy world' s'.op said world'' r := hop ▸ hanswer
    exact ⟨h.goesOnAs (hanswer s.reply), h'.goesOnAs (hanswer' s'.reply)⟩
  · intro α β s hs c
    have hresume := c.resume_on_lift s hs
    refine ⟨?_, Program.runsAlike_of_resume_eq hresume⟩
    rw [Program.equiv_iff, Program.tree_eq_ofRoot, hresume, ← Program.tree_eq_ofRoot]

/-- Asks for a number and carries it on. -/
def unannounced : Program Nat errands Nat := .lift ⟨Errand.ask, fun n => .pure n⟩

/-- The continuation announces the number and carries on its successor. -/
def announced : Program Nat errands Nat :=
  unannounced.flatMap fun n => ⟨[.user n], .pure (n + 1)⟩

/-- Answers nothing, and goes on with the number seven instead. -/
def sevenInstead : Policy Nat errands .identity Unit Nat := fun _ _ =>
  .pure ((), .instead (.pure 7))

/-- Announces every number and carries it on. -/
def announcing : Chain Nat errands Nat Nat :=
  Chain.start.attach (.one fun n => ⟨[.user n], .pure n⟩)

/-- Gives up. -/
def giveUpStep : Step Nat errands Nat := ⟨Errand.giveUp, Empty.elim⟩

/-- Nothing is announced if the question is not answered, and both programs go on as the number
    seven. Nothing is announced behind giving up. -/
theorem announced_discarded :
    announced.EndsWith sevenInstead.interpreter 2 () [] () (7 : Nat) ∧
    (announced.GoesOnAs sevenInstead.interpreter 1 () [] () (.pure 7) ∧
      unannounced.GoesOnAs sevenInstead.interpreter 1 () [] () (.pure 7)) ∧
    (∀ k, (unannounced.runInHost .identity sevenInstead.interpreter (1 + k) ()).seen
      = (announced.runInHost .identity sevenInstead.interpreter (1 + k) ()).seen) ∧
    Program.RunsAlike.{0} (announcing.on (.lift giveUpStep))
      (.lift (giveUpStep.retype (inferInstanceAs (IsEmpty Empty)))) := by
  have htree : announced.tree
      = .step [] Errand.ask (fun _ => []) fun n => .ret [.user n] (Nat.succ n) := rfl
  have htree' : unannounced.tree = .step [] Errand.ask (fun _ => []) fun n => .ret [] n := rfl
  obtain ⟨reply, hresume, -⟩ := Program.exists_reply_of_tree_eq_step htree
  obtain ⟨reply', hresume', -⟩ := Program.exists_reply_of_tree_eq_step htree'
  have hcomes : announced.ComesTo sevenInstead.interpreter 0 () [] () ⟨Errand.ask, reply⟩ :=
    Program.comesTo_zero_iff.2 ⟨rfl, hresume⟩
  have hcomes' : unannounced.ComesTo sevenInstead.interpreter 0 () [] () ⟨Errand.ask, reply'⟩ :=
    Program.comesTo_zero_iff.2 ⟨rfl, hresume'⟩
  have hsame : announced.tree.SameTo 0 unannounced.tree := by
    rw [htree, htree']
    exact .last _ _ _ _ _ _
  have hanswers : sevenInstead.interpreter.AnswersBy () Errand.ask [] () (.pure 7) := fun _ => rfl
  obtain ⟨hinterpreters, hpolicies, hempty⟩ := answer_discards_rest Nat errands
  have h := hinterpreters sevenInstead.interpreter
  exact ⟨h.value hcomes rfl, hpolicies sevenInstead hsame hcomes rfl,
    h.pending hcomes hcomes' rfl rfl hanswers, (hempty giveUpStep _ announcing).2⟩

end FreeMonad
