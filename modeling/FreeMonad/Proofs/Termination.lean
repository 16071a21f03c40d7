import FreeMonad.Program.Tree
import FreeMonad.Proofs.Pace
import FreeMonad.Proofs.Translation
import FreeMonad.Proofs.Unfolding

set_option autoImplicit false

/-! # Normalization and runs end

Resuming a program is a loop, and the state of the loop is a configuration (`Loop`): what is
evaluated now and the queue that waits for it. One turn of the loop may make all of it larger. It
splices in a queue of any length, or calls a continuation that returns a program of any size. Still
each turn goes down in the order of configurations (`Loop.below_of_turn`), which follows the way in
which programs are made and has no endless descent. So after finitely many turns the loop stops
(`Program.resume_ends`).

A driver resumes the program again and again, each time with the payload of the step before. The
trees of the programs that it comes to are subtrees, and every way down a tree ends. So if each call
is answered with a payload of its step or with a failure, every driver comes to the end of the run
(`Program.runs_end`). -/

namespace FreeMonad

universe u

variable {ν : Type} {V : Vocabulary} {M : Host} {σ : Type u} {α β : Type}

/-! ## The loop of resuming, turn by turn -/

/-- The state of the loop: the events so far, the latest first, the program under evaluation, and
    the queue that waits for its result. -/
structure Loop (ν : Type) (V : Vocabulary) (α : Type) : Type 1 where
  /-- The type of the result that the queue waits for. -/
  {Awaited : Type}
  recorded : List (Event ν)
  current : Program ν V Awaited
  queue : Queue ν V Awaited α

namespace Loop

/-- The configuration of the loop. -/
def configuration (l : Loop ν V α) : Configuration ν V := ⟨l.current, l.queue.contents⟩

/-- What the rest of the loop comes to. -/
def normalize (l : Loop ν V α) : Traced ν (Outcome ν V α) :=
  Program.normalize l.recorded l.current l.queue

/-- A value meets the front of the queue: it is the result, or the first continuation is called. -/
def feed (recorded : List (Event ν)) (a : β) :
    Queue.View ν V β α → Loop ν V α ⊕ Traced ν (Outcome ν V α)
  | .empty => .inr ⟨recorded.reverse, .inr a⟩
  | .first k rest => .inl ⟨(k a).log.reverseAux recorded, (k a).program, rest⟩

/-- One turn of the loop: the next state, or the outcome. -/
def turn : Loop ν V α → Loop ν V α ⊕ Traced ν (Outcome ν V α)
  | ⟨recorded, .pure a, queue⟩ => feed recorded a queue.pop.1
  | ⟨recorded, .suspend op reply, queue⟩ =>
    .inr ⟨recorded.reverse, .inl ⟨op, fun x => Program.resumed queue (reply x)⟩⟩
  | ⟨recorded, .compose head inner, queue⟩ =>
    .inl ⟨(head ()).log.reverseAux recorded, (head ()).program, inner.prepend queue⟩

/-- At most `n` turns of the loop. -/
def turns : Nat → Loop ν V α → Loop ν V α ⊕ Traced ν (Outcome ν V α)
  | 0, l => .inl l
  | n + 1, l =>
    match l.turn with
    | .inl l => l.turns n
    | .inr o => .inr o

/-- The loop goes on from its next state, or stops with its outcome. -/
theorem normalize_eq (l : Loop ν V α) :
    l.normalize = match l.turn with
      | .inl l => l.normalize
      | .inr o => o := by
  obtain ⟨recorded, current, queue⟩ := l
  cases current with
  | pure a =>
    rw [normalize, Program.normalize, turn]
    generalize queue.pop = popped
    obtain ⟨view, same⟩ := popped
    cases view with
    | empty => rfl
    | first k rest => rfl
  | suspend op reply =>
    rw [normalize, Program.normalize]
    rfl
  | compose head inner =>
    rw [normalize, Program.normalize]
    rfl

/-- A turn goes down in the order of configurations. -/
theorem below_of_turn {l l' : Loop ν V α} (h : l.turn = .inl l') :
    Configuration.Below l'.configuration l.configuration := by
  obtain ⟨recorded, current, queue⟩ := l
  cases current with
  | pure a =>
    rw [turn] at h
    generalize queue.pop = popped at h
    obtain ⟨view, same⟩ := popped
    cases view with
    | empty => cases h
    | first k rest =>
      cases h
      rw [configuration, configuration, ← same]
      exact .value a k rest.contents
  | suspend op reply => cases h
  | compose head inner =>
    cases h
    rw [configuration, configuration, Queue.contents_prepend]
    exact .head head inner queue.contents

/-- After finitely many turns the loop stops, with what normalizing comes to. -/
theorem exists_turns (l : Loop ν V α) : ∃ n, ∀ k, l.turns (n + k) = .inr l.normalize := by
  induction hc : l.configuration using Configuration.below_wellFounded.induction generalizing l with
  | _ c ih =>
    subst hc
    rw [l.normalize_eq]
    rcases hturn : l.turn with l' | o
    · obtain ⟨n, hn⟩ := ih _ (below_of_turn hturn) l' rfl
      refine ⟨n + 1, fun k => ?_⟩
      rw [Nat.succ_add, turns, hturn]
      exact hn k
    · refine ⟨1, fun k => ?_⟩
      rw [Nat.add_comm, turns, hturn]

end Loop

namespace Program

/-- Where resuming a program starts: a composition enters the loop with its head. -/
def enter : Program ν V α → Loop ν V α ⊕ Traced ν (Outcome ν V α)
  | .pure a => .inr (.pure (.inr a))
  | .suspend op reply => .inr (.pure (.inl ⟨op, fun x => (reply x).toTraced⟩))
  | .compose head queue => .inl ⟨(head ()).log.reverse, (head ()).program, queue⟩

/-- Resumes a program with at most `turns` turns of the loop: the state of the loop then, or the
    outcome. -/
def resumeWithin (turns : Nat) (p : Program ν V α) : Loop ν V α ⊕ Traced ν (Outcome ν V α) :=
  match p.enter with
  | .inl l => l.turns turns
  | .inr o => .inr o

/-- After finitely many turns the loop stops, with the outcome that the program resumes to. -/
theorem resume_ends (p : Program ν V α) : ∃ n, ∀ k, p.resumeWithin (n + k) = .inr p.resume := by
  cases p with
  | pure a => exact ⟨0, fun _ => rfl⟩
  | suspend op reply => exact ⟨0, fun _ => rfl⟩
  | compose head queue => exact Loop.exists_turns ⟨(head ()).log.reverse, (head ()).program, queue⟩

end Program

/-! ## Runs whose calls are answered with payloads -/

/-- The interpreter answers the step with a payload of it, or it fails. -/
def Interpreter.AnswersOrFails (I : Interpreter ν V M σ α) (world : σ)
    (s : Step ν V (Program ν V α)) : Prop :=
  (∃ x, (I world s).value.2 = M.pure (s.reply x).value) ∨
    ∃ failure : M.Carrier α, M.split (I world s).value.2 = .inl failure

namespace Program

/-- The run is over after finitely many turns, by induction on the tree of the program: an answer
    leads to a subtree. -/
theorem exists_stepByHand_over {I : Interpreter ν V M σ α} {world : σ} {p : Program ν V α}
    (h : Course.Always I world (.left p) I.AnswersOrFails) :
    ∃ n log world' result, p.stepByHand M I n world = ⟨log, (world', .inr result)⟩ := by
  induction hp : p.tree using Tree.child_wellFounded.induction generalizing world p with
  | _ _ ih =>
    subst hp
    rcases hresume : p.resume with ⟨before, s | a⟩
    · obtain ⟨hanswer, hrest⟩ := h.call hresume
      rcases hanswer with ⟨x, hx⟩ | ⟨failure, hfailure⟩
      · rw [hx, Standing.answered_pure] at hrest
        have hchild := child_of_resume (congrArg Traced.value hresume) x
        obtain ⟨n, log, world', result, hn⟩ := ih _ hchild hrest rfl
        refine ⟨n + 1, before ++ ((I world s).log ++ log), world', result, ?_⟩
        rw [stepByHand_of_step hresume]
        simp only [Traced.bind, hx, Host.split_pure, Sum.swap_inr, handOn, hn, Traced.after]
      · refine ⟨1, before ++ (I world s).log, (I world s).value.1, failure, ?_⟩
        rw [stepByHand_of_step hresume]
        simp only [Traced.bind, hfailure, Sum.swap_inl, handOn, Traced.after, Traced.pure,
          List.append_nil]
    · exact ⟨1, before, world, M.pure a, stepByHand_of_value hresume 0⟩

/-- The program can be normalized and run to its end. -/
structure Ends (p : Program ν V α) : Prop where
  /-- The loop of resuming stops after finitely many turns. -/
  resume : ∃ n, ∀ k, p.resumeWithin (n + k) = .inr p.resume
  /-- The payloads of the step that it comes to are well-founded again. -/
  payloads {s : Step ν V (Program ν V α)} : p.resume.value = .inl s →
    ∀ x, (unfolding ν V).WellFounded (s.reply x).value
  /-- Every driver comes to the end of the run, if each call of the interpreter is answered with a
      payload of its step or with a failure, and each answer becomes ready after some polls. -/
  runs {M : Host} {σ : Type u} (I : Interpreter ν V M σ α) (world : σ) :
    Course.Always I world (.left p) I.AnswersOrFails →
      ∃ n log world' result, p.EndsWith I n world log world' result

/-- **Normalization and runs of well-founded programs end.** The codes that unfold to a tree without
    an endless branch are those that programs describe, so every program is well-founded. And every
    program can be normalized and run to its end, inside every host and by polling; `run`, `tryRun`,
    `runAsync` and `tryRunAsync` are cases. -/
theorem runs_end (ν : Type) (V : Vocabulary) :
    (∀ (U : Unfolding ν V) {α : Type} (c : U.Code α), U.WellFounded c ↔ ∃ p, U.Describes c p) ∧
    (∀ {α : Type} (p : Program ν V α), (unfolding ν V).WellFounded p) ∧
    (∀ {α : Type} (p : Program ν V α), Ends.{u} p) := by
  refine ⟨fun U _ c => U.wellFounded_iff c, fun p => p.wellFounded, ?_⟩
  intro α p
  constructor
  case resume => exact p.resume_ends
  case payloads => exact fun {s} _ x => (s.reply x).value.wellFounded
  case runs =>
    intro M σ I world h
    obtain ⟨n, log, world', result, hn⟩ := exists_stepByHand_over h
    exact ⟨n, log, world', result, endsWith_of_stepByHand hn⟩

end Program

/-- Every toss comes up heads. -/
def heads : Interpreter Empty coin .identity Unit Bool := fun _ s =>
  .pure ((), (s.reply true).value)

theorem toss_ends : ∃ n log result, toss.EndsWith heads n () log () result := by
  have hanswers : Course.Always heads () (.left toss) heads.AnswersOrFails :=
    fun _ _ _ _ _ _ => .inl ⟨true, rfl⟩
  obtain ⟨n, log, ⟨⟩, result, h⟩ := ((Program.runs_end Empty coin).2.2 toss).runs heads () hanswers
  exact ⟨n, log, result, h⟩

end FreeMonad
