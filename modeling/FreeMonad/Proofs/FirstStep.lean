import FreeMonad.Proofs.Discarding
import FreeMonad.Proofs.Underway

set_option autoImplicit false

/-! # When a step is translated

A translation is on demand if every resume of the translated program does what the next step takes,
and answering a step does nothing that the translator has not put there (`Translator.OnDemand`).
That is how a translated program goes on from its second step. It is not how it starts: the first
step is translated, and all functions on the way to it are called, while the translated program is
built, and when a driver asks for that step there is nothing left to do. So a translation is lazy as
a whole only if there is nothing to translate and nothing to call (`Translator.lazy_iff`). -/

namespace FreeMonad

variable {ν : Type} {F G : Vocabulary} {α : Type}

namespace Translator

/-- What it takes to translate the next step of a program: resuming it, and one call of `t` if that
    comes to a step. -/
def stage (t : Translator ν F G α) (p : Program ν F α) : List (Event ν) :=
  match p.resume.value with
  | .inl s => p.resume.log ++ .translating :: (t s).log
  | .inr _ => p.resume.log

/-- Resuming `q`, and resuming any payload of its steps from there on, does what the next step of
    the translation of `p` takes, and shows it. -/
def OnDemand (t : Translator ν F G α) (p : Program ν F α) (q : Program ν G α) : Prop :=
  ∃ R, (∀ p q, R p q → t.Shows R [] p.resume q.resume) ∧ R p q

/-- Building `b` calls nothing, and the translation of `p` is on demand from its first step on. -/
structure Lazy (t : Translator ν F G α) (p : Program ν F α) (b : Traced ν (Program ν G α)) :
    Prop where
  built : b.log = []
  onDemand : t.OnDemand p b.value

variable {t : Translator ν F G α} {p : Program ν F α}

theorem stage_of_value {log : List (Event ν)} {a : α} (h : p.resume = ⟨log, .inr a⟩) :
    t.stage p = log := by
  rw [stage, h]

theorem stage_of_step {s : Traced ν (Step ν F (Program ν F α))} (h : p.resume = s.map .inl) :
    t.stage p = s.log ++ .translating :: (t s.value).log := by
  rw [stage, h]
  rfl

theorem stage_eq_nil_iff : t.stage p = [] ↔ ∃ a, p.resume = .pure (.inr a) := by
  rcases hp : p.resume with ⟨log, s | a⟩
  · have hstage : t.stage p = log ++ .translating :: (t s).log := stage_of_step (s := ⟨log, s⟩) hp
    simp [hstage, Traced.pure]
  · simp [stage_of_value hp, Traced.pure]

/-- What is recorded before the outcome is shown. -/
theorem Shows.stage_eq {R : Program ν F α → Program ν G α → Prop} {l : List (Event ν)}
    {q : Program ν G α} (h : t.Shows R l p.resume q.resume) : l ++ q.resume.log = t.stage p := by
  rcases hp : p.resume with ⟨log, o⟩
  rcases hq : q.resume with ⟨before, o'⟩
  rw [hp, hq] at h
  cases h with
  | value log_eq a => rw [stage_of_value hp, log_eq]
  | @step _ _ s _ log_eq renders =>
    rw [log_eq]
    exact (stage_of_step (s := ⟨log, s⟩) hp).symm

theorem OnDemand.shows {q : Program ν G α} (h : t.OnDemand p q) :
    t.Shows t.OnDemand [] p.resume q.resume := by
  obtain ⟨R, hR, hpq⟩ := h
  exact (hR p q hpq).imp fun p q hpq => ⟨R, hR, hpq⟩

theorem Underway.onDemand {q : Program ν G α} (h : t.Underway [] p q) : t.OnDemand p q :=
  ⟨t.Underway [], fun _ _ h => h.shows, h⟩

theorem log_translate (ends : Acc t.Leads p) : (p.translate t ends).log = t.stage p := by
  have hstage := (t.underway_translate p ends).shows.stage_eq
  rw [(t.buildsTo_translate 0 p ends).resumed, List.append_nil] at hstage
  exact hstage

/-- A translation is lazy exactly if the program shows its value at once. -/
theorem lazy_iff (ends : Acc t.Leads p) :
    t.Lazy p (p.translate t ends) ↔ ∃ a, p.resume = .pure (.inr a) := by
  rw [← stage_eq_nil_iff, ← log_translate ends]
  constructor
  · intro h
    exact h.built
  · intro h
    refine ⟨h, Underway.onDemand ?_⟩
    have hunderway := t.underway_translate p ends
    rw [h] at hunderway
    exact hunderway

/-- What building a translation calls, and what is left to its drivers. -/
structure StartsEarly (t : Translator ν F G α) (p : Program ν F α) (b : Traced ν (Program ν G α)) :
    Prop where
  /-- Building does what the first step takes. -/
  built : b.log = t.stage p
  /-- Asking for that step does nothing more. -/
  asked : b.value.resume.log = []
  /-- After it, the translation is on demand. -/
  shows : t.Shows t.OnDemand b.log p.resume b.value.resume
  /-- So it is lazy only if there is nothing to do. -/
  lazy_iff : t.Lazy p b ↔ ∃ a, p.resume = .pure (.inr a)

theorem startsEarly (ends : Acc t.Leads p) : t.StartsEarly p (p.translate t ends) where
  built := log_translate ends
  asked := (t.buildsTo_translate 0 p ends).resumed
  shows := (t.underway_translate p ends).shows.imp fun _ _ => Underway.onDemand
  lazy_iff := t.lazy_iff ends

end Translator

/-- **The first step of a translation is not translated on demand.** Building a translated program
    resumes the program and calls the translator on its first step, so it is lazy only for programs
    that show a value at once. When a driver asks for the first step, nothing is left to call; each
    later step is translated when it is asked for. Widening and lowering are cases. -/
theorem first_step_translated_early :
    (∀ (t : Translator ν F G α) (p : Program ν F α) (ends : Acc t.Leads p),
      t.StartsEarly p (p.translate t ends)) ∧
    (∀ (place : Branch F G) (p : Program ν F α), place.translator.StartsEarly p (p.widen place)) ∧
    (∀ {Tag : Type} [DecidableEq Tag] {Answer : Tag → Type}
      (p : Program ν (Requests.steps ν G Answer).vocabulary α),
      (Coyoneda.translator G Answer).StartsEarly p p.lower) := by
  refine ⟨fun t p ends => t.startsEarly ends, ?_, ?_⟩
  · intro place p
    exact place.translator.startsEarly _
  · intro Tag _ Answer p
    exact (Coyoneda.translator G Answer).startsEarly _

/-- Announces itself and asks for a number, when it is reached. -/
def deferredQuestion : Program Nat errands Nat := .defer fun _ => ⟨[.user 7], unannounced⟩

/-- The announcement is made, and the question translated, by whoever widens the program. -/
theorem deferredQuestion_translated_early :
    (deferredQuestion.widen (.itself : Branch errands errands)).log = [.user 7, .translating] ∧
    ¬ (Branch.itself : Branch errands errands).translator.Lazy deferredQuestion
      (deferredQuestion.widen .itself) := by
  have htree : deferredQuestion.tree
      = .step [.user 7] Errand.ask (fun _ => []) fun n => .ret [] n := rfl
  obtain ⟨reply, hresume, -⟩ := Program.exists_reply_of_tree_eq_step htree
  let ask : Step Nat errands (Program Nat errands Nat) := ⟨Errand.ask, reply⟩
  have hstage : (Branch.itself : Branch errands errands).translator.stage deferredQuestion
      = [.user 7, .translating] :=
    Translator.stage_of_step (s := ⟨[.user 7], ask⟩) hresume
  have hlog : (deferredQuestion.widen (.itself : Branch errands errands)).log
      = [.user 7, .translating] :=
    (Translator.log_translate _).trans hstage
  refine ⟨hlog, fun h => ?_⟩
  have hnone := h.built
  rw [hlog] at hnone
  cases hnone

end FreeMonad
