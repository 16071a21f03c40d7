import Mathlib.Logic.Relation
import FreeMonad.Proofs.EvaluationOrder
import FreeMonad.Proofs.Termination

set_option autoImplicit false

/-! # Splicing queues

When a composition comes up inside another one, its queue is put in front of the queue that waits
for its result, and a value that comes up is fed to the first continuation. Both can be done to a
program without resuming it, and undone: continuations can be cut off the end of a queue and be left
to a composition around it, and a call that is due can be made part of the head
(`Program.Splice`). No such change can be told from outside. Programs that differ by any number of
splices resume alike, with the same functions called in the same order, and come to payloads that
differ by splices again (`Program.Respliced.resume`).

The loop of resuming is in the same state for both, but for the way in which the queue is laid out.
That is kept by each turn (`Loop.Alike.turn`) and so by the whole loop (`Loop.Alike.normalize`),
whatever queues are put in front in the course of it. -/

namespace FreeMonad

universe u

variable {ν : Type} {V : Vocabulary} {α β γ : Type}

/-! ## Outcomes that are alike -/

namespace SameRoot

variable {P : Type u} {R R' : Traced ν P → Traced ν P → Prop} {o o' o'' : Step ν V P ⊕ α}

theorem imp (h : ∀ t t', R t t' → R' t t') (hroot : SameRoot R o o') : SameRoot R' o o' := by
  cases hroot with
  | value a => exact .value a
  | step op reply reply' payloads => exact .step op reply reply' fun x => h _ _ (payloads x)

theorem refl (hR : ∀ t, R t t) (o : Step ν V P ⊕ α) : SameRoot R o o := by
  rcases o with ⟨op, reply⟩ | a
  · exact .step op reply reply fun x => hR (reply x)
  · exact .value a

theorem symm (hR : ∀ t t', R t t' → R t' t) (hroot : SameRoot R o o') : SameRoot R o' o := by
  cases hroot with
  | value a => exact .value a
  | step op reply reply' payloads => exact .step op reply' reply fun x => hR _ _ (payloads x)

theorem trans (hR : ∀ t t' t'', R t t' → R t' t'' → R t t'') (hroot : SameRoot R o o')
    (hroot' : SameRoot R o' o'') : SameRoot R o o'' := by
  cases hroot with
  | value a => exact hroot'
  | step op reply reply' payloads =>
    cases hroot' with
    | step _ _ reply'' payloads' =>
      exact .step op reply reply'' fun x => hR _ _ _ (payloads x) (payloads' x)

end SameRoot

/-- The same events are recorded, and the same value or the same step is shown; whatever the step is
    answered with records the same and reaches payloads that `R` relates. -/
structure Outcome.Alike (R : Program ν V α → Program ν V α → Prop)
    (m n : Traced ν (Outcome ν V α)) : Prop where
  log : m.log = n.log
  root : SameRoot (fun t u => t.log = u.log ∧ R t.value u.value) m.value n.value

theorem Outcome.Alike.imp {R R' : Program ν V α → Program ν V α → Prop}
    (h : ∀ p q, R p q → R' p q) {m n : Traced ν (Outcome ν V α)} (halike : Alike R m n) :
    Alike R' m n :=
  ⟨halike.log, halike.root.imp fun _ _ hpayload => ⟨hpayload.1, h _ _ hpayload.2⟩⟩

/-! ## Queues that are laid out in different ways -/

namespace Program

/-- Two compositions of the same head and the same continuations, whose queues may be laid out in
    different ways. -/
inductive Relaid : Program ν V γ → Program ν V γ → Prop where
  | mk {α : Type} (head : Unit → Reached ν V α) {queue queue' : Queue ν V α γ}
      (h : queue.contents = queue'.contents) :
      Relaid (.compose head queue) (.compose head queue')

end Program

namespace Loop

/-- Two states of the loop that differ at most in the way in which the queue is laid out. -/
inductive Alike : Loop ν V α → Loop ν V α → Prop where
  | mk {β : Type} (recorded : List (Event ν)) (current : Program ν V β)
      {queue queue' : Queue ν V β α} (h : queue.contents = queue'.contents) :
      Alike ⟨recorded, current, queue⟩ ⟨recorded, current, queue'⟩

/-- A value meets the same continuation in both queues, or none in both. -/
theorem Alike.feed {view view' : Queue.View ν V β α} (h : view.contents = view'.contents)
    (recorded : List (Event ν)) (a : β) :
    Sum.LiftRel Alike (Outcome.Alike Program.Relaid) (feed recorded a view)
      (feed recorded a view') := by
  cases view with
  | empty =>
    cases view' with
    | empty => exact .inr ⟨rfl, .value a⟩
    | first k rest => cases h
  | first k rest =>
    cases view' with
    | empty => cases h
    | first k' rest' =>
      rw [Queue.View.contents, Queue.View.contents] at h
      injection h with _ hmiddle _ hk hrest
      subst hmiddle
      obtain rfl := eq_of_heq hk
      exact .inl (.mk _ _ (eq_of_heq hrest))

/-- One turn of the loop does the same in both states. -/
theorem Alike.turn {l l' : Loop ν V α} (h : l.Alike l') :
    Sum.LiftRel Alike (Outcome.Alike Program.Relaid) l.turn l'.turn := by
  obtain @⟨_, recorded, current, queue, queue', h⟩ := h
  cases current with
  | pure a =>
    have hviews := queue.pop.2.trans (h.trans queue'.pop.2.symm)
    exact Alike.feed hviews recorded a
  | suspend op reply => exact .inr ⟨rfl, .step op _ _ fun x => ⟨rfl, .mk _ h⟩⟩
  | compose head inner =>
    refine .inl (.mk _ _ ?_)
    rw [Queue.contents_prepend, Queue.contents_prepend, h]

theorem normalize_of_turn {l l' : Loop ν V α} (h : l.turn = .inl l') :
    l.normalize = l'.normalize := by
  rw [normalize_eq, h]

/-- The whole loop comes to the same: by induction on what is left to evaluate. -/
theorem Alike.normalize {l l' : Loop ν V α} (h : l.Alike l') :
    Outcome.Alike Program.Relaid l.normalize l'.normalize := by
  induction hc : l.configuration using Configuration.below_wellFounded.induction
    generalizing l l' with
  | _ c ih =>
    subst hc
    have hturn := h.turn
    rw [l.normalize_eq, l'.normalize_eq]
    rcases hl : l.turn with m | o
    · rw [hl] at hturn
      generalize l'.turn = next at hturn ⊢
      cases hturn with
      | inl hnext => exact ih _ (below_of_turn hl) hnext rfl
    · rw [hl] at hturn
      generalize l'.turn = next at hturn ⊢
      cases hturn with
      | inr halike => exact halike

end Loop

/-! ## Splices -/

namespace Program

/-- The second program is the first one with one thing done to it that resuming would do or undo. -/
inductive Splice : Program ν V γ → Program ν V γ → Prop where
  /-- The last continuations of the queue, of which `outer` consists, are left to a composition
      around the head and the other ones. -/
  | nested {α β : Type} (head : Unit → Reached ν V α) {flat : Queue ν V α γ}
      (inner : Queue ν V α β) (outer : Queue ν V β γ)
      (h : flat.contents = inner.contents.append outer.contents) :
      Splice (.compose head flat) (.compose (fun _ => .quietly (.compose head inner)) outer)
  /-- The head, which comes to a value, also calls the first continuation on it. -/
  | fed {α β : Type} (head : Unit → Reached ν V α) {a : α} {queue : Queue ν V α γ}
      (k : α → Reached ν V β) (rest : Queue ν V β γ) (hhead : (head ()).program = .pure a)
      (h : queue.contents = .cons k rest.contents) :
      Splice (.compose head queue)
        (.compose (fun _ => .mk ((head ()).log ++ (k a).log) (k a).program) rest)

/-- The programs differ by any number of splices, each of them done or undone. -/
abbrev Respliced : Program ν V γ → Program ν V γ → Prop := Relation.EqvGen Splice

/-- A program in which all continuations stand around the bare head can be had from both. -/
theorem Relaid.respliced {p q : Program ν V γ} (h : Relaid p q) : Respliced p q := by
  cases h with
  | @mk _ head queue queue' h =>
    have hqueue := Splice.nested head .empty queue' h
    have hqueue' := Splice.nested head .empty queue' rfl
    exact .trans _ _ _ (.rel _ _ hqueue) (.symm _ _ (.rel _ _ hqueue'))

/-- The loop is in the same state for both, up to the layout of the queue: after one turn for a
    nested composition, and after the turn that calls the first continuation on a value. -/
theorem Splice.resume {p q : Program ν V γ} (h : Splice p q) :
    Outcome.Alike Relaid p.resume q.resume := by
  cases h with
  | nested head inner outer h =>
    show Outcome.Alike Relaid (Loop.normalize ⟨(head ()).log.reverse, (head ()).program, _⟩)
      (Loop.normalize ⟨[], .compose head inner, outer⟩)
    rw [Loop.normalize_of_turn (l := ⟨[], .compose head inner, outer⟩) rfl]
    exact (Loop.Alike.mk _ _ (h.trans (Queue.contents_prepend inner outer).symm)).normalize
  | @fed _ _ head a queue k rest hhead h =>
    have hview : queue.pop.1.contents = (Queue.View.first k rest).contents := queue.pop.2.trans h
    have hfeed := Loop.Alike.feed hview (head ()).log.reverse a
    show Outcome.Alike Relaid (Loop.normalize ⟨(head ()).log.reverse, (head ()).program, queue⟩)
      (Loop.normalize ⟨((head ()).log ++ (k a).log).reverse, (k a).program, rest⟩)
    rw [hhead, Loop.normalize_eq, Loop.turn, List.reverse_append, ← List.reverseAux_eq]
    generalize Loop.feed (head ()).log.reverse a queue.pop.1 = next at hfeed ⊢
    cases hfeed with
    | inl halike => exact halike.normalize

/-- Programs that differ by splices resume alike, and come to payloads that differ by splices. -/
theorem Respliced.resume {p q : Program ν V γ} (h : Respliced p q) :
    Outcome.Alike Respliced p.resume q.resume := by
  induction h with
  | rel p q h => exact h.resume.imp fun _ _ => Relaid.respliced
  | refl p => exact ⟨rfl, .refl (fun t => ⟨rfl, .refl _⟩) _⟩
  | symm p q _ ih =>
    refine ⟨ih.log.symm, ih.root.symm fun t u htu => ?_⟩
    exact ⟨htu.1.symm, .symm _ _ htu.2⟩
  | trans p q r _ _ ih ih' =>
    refine ⟨ih.log.trans ih'.log, ih.root.trans (fun t u v htu huv => ?_) ih'.root⟩
    exact ⟨htu.1.trans huv.1, .trans _ _ _ htu.2 huv.2⟩

/-- What one of the programs resumes to, the other one resumes to with payloads that differ by
    splices. -/
theorem Respliced.exists_resume {p q : Program ν V γ} (h : Respliced p q) {log : List (Event ν)}
    {o : Outcome ν V γ} (hp : p.resume = ⟨log, o⟩) : ∃ o', q.resume = ⟨log, o'⟩ ∧
      SameRoot (fun t u => t.log = u.log ∧ Respliced t.value u.value) o o' := by
  have halike := h.resume
  rw [hp] at halike
  exact ⟨q.resume.value, Traced.ext halike.log.symm rfl, halike.root⟩

/-- Runs by hand of programs that differ by splices go along with one another. -/
theorem Respliced.follows {p q : Program ν V γ} (h : Respliced p q) {xs : Answers V}
    {log : List (Event ν)} {o : V.Op ⊕ γ} (hp : Follows Program.resume p xs log o) :
    Follows Program.resume q xs log o := by
  induction hp generalizing q with
  | value hp =>
    obtain ⟨o', hq, hroot⟩ := h.exists_resume hp
    cases hroot
    exact .value hq
  | pending hp =>
    obtain ⟨o', hq, hroot⟩ := h.exists_resume hp
    cases hroot
    have hpending := Follows.pending hq
    exact hpending
  | answered hp x rest ih =>
    obtain ⟨o', hq, hroot⟩ := h.exists_resume hp
    cases hroot with
    | step op reply reply' payloads =>
      obtain ⟨hsaid, hpayload⟩ := payloads x
      have hrest := Follows.answered hq x (ih hpayload)
      rw [← hsaid] at hrest
      exact hrest

/-- **Splicing cannot be seen.** A composition whose head is a composition resumes like the one that
    has all their continuations in one queue, in whichever way that queue is laid out, and a
    composition whose head comes to a value resumes like the one whose head goes on to call the
    first continuation. The same functions are called in the same order, the value or the step is
    the same, and the payloads are related in this way again, for every answer. So programs that
    differ by any number of splices have the same runs by hand, of any length. -/
theorem splicing_invisible (ν : Type) (V : Vocabulary) :
    (∀ {γ : Type} {p q : Program ν V γ}, Respliced p q →
      Outcome.Alike Respliced p.resume q.resume) ∧
    (∀ {γ : Type} {p q : Program ν V γ}, Respliced p q →
      ∀ (xs : Answers V) (log : List (Event ν)) (o : V.Op ⊕ γ),
        Follows Program.resume p xs log o ↔ Follows Program.resume q xs log o) := by
  constructor
  · intro γ p q h
    exact h.resume
  · intro γ p q h xs log o
    have hsymm : Respliced q p := .symm _ _ h
    exact ⟨h.follows, hsymm.follows⟩

/-- Tosses again after tails. -/
def tossAgain : Bool → Reached Empty coin Bool := fun x =>
  .quietly (if x then .pure true else toss)

/-- Tosses up to three times, where all continuations wait in one queue. -/
def threeTosses : Program Empty coin Bool :=
  .compose (fun _ => .quietly toss) ((Queue.empty.push tossAgain).push tossAgain)

/-- Tosses up to three times, where one continuation waits outside. -/
def twoTossesAndOne : Program Empty coin Bool :=
  .compose (fun _ => .quietly (.compose (fun _ => .quietly toss) (Queue.empty.push tossAgain)))
    (Queue.empty.push tossAgain)

theorem threeTosses_spliced :
    Splice threeTosses twoTossesAndOne ∧
    Follows Program.resume twoTossesAndOne [⟨(), false⟩, ⟨(), false⟩, ⟨(), true⟩] []
      (.inr true) := by
  have hsplice : Splice threeTosses twoTossesAndOne := .nested _ _ _ rfl
  have hpath : threeTosses.tree.Path [⟨(), false⟩, ⟨(), false⟩, ⟨(), true⟩] [] (.inr true) :=
    Tree.path_step_iff.2 <| .inr ⟨false, _, [], rfl, rfl,
      Tree.path_step_iff.2 <| .inr ⟨false, _, [], rfl, rfl,
        Tree.path_step_iff.2 <| .inr ⟨true, _, [], rfl, rfl, .value [] true⟩⟩⟩
  obtain ⟨-, hruns⟩ := splicing_invisible Empty coin
  refine ⟨hsplice, (hruns (.rel _ _ hsplice) _ _ _).1 ?_⟩
  exact (follows_iff_path tree_eq_ofRoot).2 hpath

end Program

end FreeMonad
