import FreeMonad.Program.Build

set_option autoImplicit false

/-! # Normalizing a program

`Program.resume` evaluates a program up to its value or its next step. It is one loop over a
*configuration*: the program to evaluate now and the queue that waits for its result. A value is
fed to the first continuation of the queue; a composition puts its own queue in front and goes on
with its head; a step ends the loop, with the queue attached to whatever its reply reaches.

No part of a program gets smaller in the loop, for a continuation may return a program of any
size. The loop ends all the same, because programs are well-founded data: `Configuration.Below`
relates a configuration to those it can lead to, by a turn of the loop or by an answer to a step,
and `Configuration.below_wellFounded` shows that it has no infinite descent. -/

namespace FreeMonad

variable {ν : Type} {V : Vocabulary} {α : Type}

/-! ## Configurations -/

/-- A program under evaluation and the continuations that wait for its result. -/
structure Configuration (ν : Type) (V : Vocabulary) where
  /-- The type of the result that the continuations wait for. -/
  {Awaited : Type}
  /-- The type of the final result. -/
  {Final : Type}
  /-- The program under evaluation. -/
  current : Program ν V Awaited
  /-- The continuations, in order. -/
  pending : Front ν V Awaited Final

namespace Configuration

/-- What a configuration can lead to in one turn: the first continuation called on a value, the
    head of a composition, or the program that an answer to a step reaches. -/
inductive Below : Configuration ν V → Configuration ν V → Prop where
  | value {α β γ : Type} (a : α) (k : α → Reached ν V γ) (rest : Front ν V γ β) :
      Below ⟨(k a).program, rest⟩ ⟨.pure a, .cons k rest⟩
  | head {α β γ : Type} (head : Unit → Reached ν V α) (queue : Queue ν V α γ)
      (rest : Front ν V γ β) :
      Below ⟨(head ()).program, queue.contents.append rest⟩ ⟨.compose head queue, rest⟩
  | answer {α β : Type} (op : V.Op) (reply : V.Answer op → Reached ν V α) (x : V.Answer op)
      (rest : Front ν V α β) :
      Below ⟨(reply x).program, rest⟩ ⟨.suspend op reply, rest⟩

/-- Whatever value arrives, evaluation with these continuations comes to an end. -/
def Ready {α β : Type} (rest : Front ν V α β) : Prop :=
  ∀ a, Acc Below (⟨.pure a, rest⟩ : Configuration ν V)

theorem ready_nil {β : Type} : Ready (.nil : Front ν V β β) := fun _ => ⟨_, nofun⟩

private theorem acc_suspend {α β : Type} (op : V.Op) (reply : V.Answer op → Reached ν V α)
    (rest : Front ν V α β)
    (h : ∀ x, Acc Below (⟨(reply x).program, rest⟩ : Configuration ν V)) :
    Acc Below (⟨.suspend op reply, rest⟩ : Configuration ν V) :=
  ⟨_, fun _ below => by cases below with | answer _ _ x _ => exact h x⟩

private theorem acc_compose {α β γ : Type} (head : Unit → Reached ν V α) (queue : Queue ν V α β)
    (rest : Front ν V β γ)
    (h : Acc Below (⟨(head ()).program, queue.contents.append rest⟩ : Configuration ν V)) :
    Acc Below (⟨.compose head queue, rest⟩ : Configuration ν V) :=
  ⟨_, fun _ below => by cases below with | head _ _ _ => exact h⟩

private theorem ready_cons {α β γ : Type} (k : α → Reached ν V β) (rest : Front ν V β γ)
    (h : ∀ a, Acc Below (⟨(k a).program, rest⟩ : Configuration ν V)) :
    Ready (.cons k rest) :=
  fun a => ⟨_, fun _ below => by cases below with | value _ _ _ => exact h a⟩

mutual

private theorem acc_program : {α : Type} → (p : Program ν V α) → {β : Type} →
    (rest : Front ν V α β) → Ready rest → Acc Below (⟨p, rest⟩ : Configuration ν V)
  | _, .pure a, _, _, ready => ready a
  | _, .suspend op reply, _, rest, ready =>
    acc_suspend op reply rest fun x => acc_reached (reply x) rest ready
  | _, .compose head queue, _, rest, ready =>
    acc_compose head queue rest (acc_reached (head ()) _ (ready_queue queue rest ready))
termination_by structural _ p => p

private theorem acc_reached : {α : Type} → (r : Reached ν V α) → {β : Type} →
    (rest : Front ν V α β) → Ready rest → Acc Below (⟨r.program, rest⟩ : Configuration ν V)
  | _, .mk _ p, _, rest, ready => acc_program p rest ready
termination_by structural _ r => r

private theorem ready_queue : {α β : Type} → (q : Queue ν V α β) → {γ : Type} →
    (rest : Front ν V β γ) → Ready rest → Ready (q.contents.append rest)
  | _, _, .mk _ front back, _, rest, ready =>
    Front.append_assoc front _ rest ▸ ready_front front _
      (Back.onto_append back .nil rest ▸ ready_back back _ ready)
termination_by structural _ _ q => q

private theorem ready_front : {α β : Type} → (f : Front ν V α β) → {γ : Type} →
    (rest : Front ν V β γ) → Ready rest → Ready (f.append rest)
  | _, _, .nil, _, _, ready => ready
  | _, _, .cons k f, _, rest, ready =>
    ready_cons k (f.append rest) fun a => acc_reached (k a) _ (ready_front f rest ready)
termination_by structural _ _ f => f

private theorem ready_back : {α β : Type} → (b : Back ν V α β) → {γ : Type} →
    (rest : Front ν V β γ) → Ready rest → Ready (b.onto rest)
  | _, _, .nil, _, _, ready => ready
  | _, _, .snoc b k, _, rest, ready =>
    ready_back b (.cons k rest) (ready_cons k rest fun a => acc_reached (k a) rest ready)
termination_by structural _ _ b => b

end

private theorem ready_all {α β : Type} (f : Front ν V α β) : Ready f :=
  Front.append_nil f ▸ ready_front f .nil ready_nil

/-- Evaluation has no infinite descent, whatever answers its steps are given. -/
theorem below_wellFounded :
    WellFounded (Below : Configuration ν V → Configuration ν V → Prop) :=
  ⟨fun c => acc_program c.current c.pending (ready_all c.pending)⟩

instance : WellFoundedRelation (Configuration ν V) := ⟨Below, below_wellFounded⟩

end Configuration

/-! ## The loop -/

/-- What a program comes to: the pending step, whose payload is the rest of the program, on the
    left, or the value on the right. -/
abbrev Outcome (ν : Type) (V : Vocabulary) (α : Type) : Type 1 := Step ν V (Program ν V α) ⊕ α

namespace Program

/-- A program whose head is already reached and whose queue is given. -/
def resumed {β : Type} (queue : Queue ν V β α) (r : Reached ν V β) : Traced ν (Program ν V α) :=
  ⟨r.log, .compose (fun _ => .quietly r.program) queue⟩

/-- Evaluates `current` and feeds its result to `queue`; `recorded` holds the events so far, the
    latest first. -/
def normalize {β α : Type} (recorded : List (Event ν)) (current : Program ν V β)
    (queue : Queue ν V β α) : Traced ν (Outcome ν V α) :=
  match current with
  | .pure a =>
    let ⟨view, same⟩ := queue.pop
    match queue, view, same with
    | _, .empty, _ => ⟨recorded.reverse, .inr a⟩
    | _, .first k rest, same =>
      let r := k a
      normalize (r.log.reverseAux recorded) r.program rest
  | .suspend op reply =>
    -- the step ends the loop; whatever its reply reaches goes on with the queue
    ⟨recorded.reverse, .inl ⟨op, fun x => resumed queue (reply x)⟩⟩
  | .compose head inner =>
    let r := head ()
    normalize (r.log.reverseAux recorded) r.program (inner.prepend queue)
termination_by (⟨current, queue.contents⟩ : Configuration ν V)
decreasing_by
  · rw [← same]
    exact .value a k _
  · rw [Queue.contents_prepend]
    exact .head head inner _

/-- Evaluates a program up to its value or its next step. The payload of the step is the rest of
    the program. -/
def resume : Program ν V α → Traced ν (Outcome ν V α)
  | .pure a => .pure (.inr a)
  | .suspend op reply => .pure (.inl ⟨op, fun x => (reply x).toTraced⟩)
  | .compose head queue =>
    let r := head ()
    normalize r.log.reverse r.program queue

end Program

end FreeMonad
