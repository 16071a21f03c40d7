import FreeMonad.Proofs.Naturality
import FreeMonad.Proofs.Policy
import FreeMonad.Proofs.Translation

set_option autoImplicit false

/-! # Observational equality is a congruence

Programs that behave alike can look very different inside: a finished program and a composition that
comes to the same value, a pending step and a composition that comes to the same step. Some builders
treat these differently, a continuation being added to the queue of a composition and put into a new
queue otherwise. None of this can be observed. What is built from observationally equal parts is
observationally equal, and no driver tells such programs apart (`Program.observation_congruent`).

For the builders this follows from the trees that they build: forgetting events passes through
grafting. Translating is different, since a translator sees the replies of a step. It has to commute
with functions that record events as well (`NaturalTranslator.IgnoresEvents`), as every translator
does that cannot look into payloads; widening and lowering do. Then translating a tree and
forgetting the events in it can be done in any order (`Tree.quiet_translate_quiet`). -/

namespace FreeMonad

universe u v

variable {ν : Type} {V W : Vocabulary} {α β γ : Type}

/-! ## Steps of one operation -/

namespace Step

variable {P : Type u} {Q : Type v}

/-- Steps of one operation whose payloads `R` relates for every answer. -/
inductive Like (R : P → Q → Prop) : Step ν V P → Step ν V Q → Prop where
  | mk (op : V.Op) {reply : V.Answer op → Traced ν P} {reply' : V.Answer op → Traced ν Q}
      (payloads : ∀ x, R (reply x).value (reply' x).value) : Like R ⟨op, reply⟩ ⟨op, reply'⟩

theorem like_refl (s : Step ν V P) : Like Eq s s := .mk s.op fun _ => rfl

/-- Gives the payload to `f`, which may record events, whenever the step is answered. -/
def andThen (f : P → Traced ν Q) (s : Step ν V P) : Step ν V Q :=
  ⟨s.op, fun x => (s.reply x).bind f⟩

/-- Events that are recorded behind the payload do not change it. -/
theorem Like.of_andThen {f : P → Traced ν P} (hf : ∀ a, (f a).value = a) {s t : Step ν V P}
    (h : Like Eq s (t.andThen f)) : Like Eq s t := by
  obtain ⟨op, reply⟩ := t
  cases h with
  | mk _ payloads => exact .mk op fun x => (payloads x).trans (hf _)

end Step

/-! ## Translators that cannot tell what an answer records -/

namespace NaturalTranslator

/-- Mapping a function over the payload before translating is mapping it afterwards, up to what is
    recorded, also if the function records events. -/
def IgnoresEvents (t : NaturalTranslator ν V W) : Prop :=
  ∀ {P Q : Type 1} (h : P → Traced ν Q) (s : Step ν V P),
    Step.Like Eq (t.onStep (s.andThen h)).value ((t.onStep s).value.andThen h)

/-- The shape of such a translator does not depend on what the answers record. -/
theorem IgnoresEvents.shape {t : NaturalTranslator ν V W} (ht : t.IgnoresEvents) (op : V.Op)
    (said : V.Answer op → List (Event ν)) :
    Step.Like Eq (t.shape op said) (t.shape op fun _ => []) := by
  have h : Step.Like Eq (t.shape op said)
      ((t.shape op fun _ => []).andThen fun y => ⟨said y.down, y⟩) :=
    ht (fun y : ULift.{1} (V.Answer op) => ⟨said y.down, y⟩) ⟨op, fun y => .pure ⟨y⟩⟩
  exact h.of_andThen fun _ => rfl

end NaturalTranslator

theorem Branch.inject_andThen {F : Vocabulary} (place : Branch F W) {P Q : Type u}
    (h : P → Traced ν Q) (s : Step ν F P) :
    place.inject (s.andThen h) = (place.inject s).andThen h := by
  induction place with
  | itself => rfl
  | here => rfl
  | there place ih => exact congrArg Step.right ih

theorem Branch.naturalTranslator_ignoresEvents {F : Vocabulary} (place : Branch F W) :
    (place.naturalTranslator : NaturalTranslator ν F W).IgnoresEvents := by
  intro P Q h s
  show Step.Like Eq (place.inject (s.andThen h)) ((place.inject s).andThen h)
  rw [place.inject_andThen]
  exact Step.like_refl _

theorem Coyoneda.naturalTranslator_ignoresEvents {Tag : Type} [DecidableEq Tag]
    (Answer : Tag → Type) : (Coyoneda.naturalTranslator ν V Answer).IgnoresEvents := by
  intro P Q h c
  show Step.Like Eq (c.op.2.mapTraced fun y => (c.reply y).bind h).value
    ((c.op.2.mapTraced c.reply).value.andThen h)
  unfold Step.mapTraced
  -- a payload that is there already is mapped at once, any other when the answer is given
  cases V.known c.op.2.op with
  | none => exact .mk _ fun _ => rfl
  | some x => exact .mk _ fun _ => rfl

namespace Tree

/-- Steps that are alike stand over trees that are the same up to events. -/
theorem quiet_op_map_of_like {P : Type u} {s s' : Step ν V P} (h : Step.Like Eq s s')
    {f g : P → Tree ν V α} (hfg : ∀ a, (f a).quiet = (g a).quiet) (log log' : List (Event ν)) :
    (Tree.op log (s.map f)).quiet = (Tree.op log' (s'.map g)).quiet := by
  cases h with
  | @mk op reply reply' payloads =>
    refine congrArg (Tree.step [] op fun _ => []) (funext fun x => ?_)
    show (f (reply x).value).quiet = (g (reply' x).value).quiet
    rw [payloads x, hfg]

/-- Up to events, translating looks at no events. -/
theorem quiet_translate_quiet {t : NaturalTranslator ν V W} (ht : t.IgnoresEvents)
    (u : Tree ν V α) : (u.quiet.translate t).quiet = (u.translate t).quiet := by
  induction u with
  | ret log a => rfl
  | step log op said next ih =>
    rw [quiet, translate, translate]
    exact (quiet_op_map_of_like (ht.shape op said) (fun y => (ih y.down).symm) [] []).symm

end Tree

/-! ## Builders of observationally equal parts -/

namespace Program

theorem ofStep_equiv {s s' : Step ν V (Program ν V α)} (h : Step.Like (· ≈ ·) s s') :
    ofStep s ≈ ofStep s' := by
  cases h with
  | @mk op reply reply' payloads =>
    have hnext : (fun x => (reply x).value.tree.quiet) = fun x => (reply' x).value.tree.quiet :=
      funext fun x => equiv_iff.1 (payloads x)
    rw [equiv_iff, tree_ofStep, tree_ofStep]
    exact congrArg (Tree.step [] op fun _ => []) hnext

/-- Whatever a program looks like inside, it is the value that it resumes to. -/
theorem equiv_pure_of_resume {p : Program ν V α} {a : α} (h : p.resume.value = .inr a) :
    p ≈ .pure a := by
  rw [equiv_iff, quiet_tree, h]
  rfl

/-- Whatever a program looks like inside, it is the step that it resumes to. -/
theorem equiv_ofStep_of_resume {p : Program ν V α} {s : Step ν V (Program ν V α)}
    (h : p.resume.value = .inl s) : p ≈ ofStep s := by
  rw [equiv_iff, quiet_tree, h, tree_ofStep]
  rfl

theorem defer_congr {build build' : Unit → Traced ν (Program ν V α)}
    (h : (build ()).value ≈ (build' ()).value) : defer build ≈ defer build' :=
  Setoid.trans (defer_equiv build) (Setoid.trans h (Setoid.symm (defer_equiv build')))

theorem map_equiv {p p' : Program ν V α} (h : p ≈ p') (f : α → Traced ν β) :
    p.map f ≈ p'.map f :=
  flatMap_equiv h fun _ => Setoid.refl _

theorem andThen_equiv {p p' : Program ν V α} {q q' : Program ν V β} (hp : p ≈ p') (hq : q ≈ q') :
    p.andThen q ≈ p'.andThen q' :=
  flatMap_equiv hp fun _ => hq

theorem map2_equiv (f : α → β → Traced ν γ) {p p' : Program ν V α} {q q' : Program ν V β}
    (hp : p ≈ p') (hq : q ≈ q') : map2 f p q ≈ map2 f p' q' :=
  flatMap_equiv hp fun a => map_equiv hq (f a)

/-- The functions that a program produces, without what they record when they are called. -/
def functions (p : Program ν V (α → Traced ν β)) : Program ν V (α → β) :=
  p.map fun f => .pure fun a => (f a).value

/-- Up to events, applying what a program produces depends on the values of the functions alone. -/
theorem quiet_tree_apply (p : Program ν V (α → Traced ν β)) (q : Program ν V α) :
    (p.apply q).tree.quiet
      = p.functions.tree.quiet.bind fun f => q.tree.quiet.bind fun a => .ret [] (f a) := by
  rw [tree_apply, functions, tree_map, Tree.quiet_bind, Tree.quiet_bind, Tree.bind_assoc]
  refine congrArg _ (funext fun f => ?_)
  rw [Tree.quiet_bind]
  exact (Tree.ret_bind _ _).symm

theorem apply_equiv {p p' : Program ν V (α → Traced ν β)} {q q' : Program ν V α}
    (hp : p.functions ≈ p'.functions) (hq : q ≈ q') : p.apply q ≈ p'.apply q' := by
  rw [equiv_iff, quiet_tree_apply, quiet_tree_apply, equiv_iff.1 hp, equiv_iff.1 hq]

theorem functions_equiv {p p' : Program ν V (α → Traced ν β)} (h : p ≈ p') :
    p.functions ≈ p'.functions :=
  map_equiv h _

end Program

theorem NaturalTranslator.transform_equiv {t : NaturalTranslator ν V W} (ht : t.IgnoresEvents)
    {p p' : Program ν V α} (h : p ≈ p') : (t.transform p).value ≈ (t.transform p').value := by
  have hquiet : ∀ q : Program ν V α,
      (t.transform q).value.tree.quiet = (q.tree.quiet.translate t).quiet := fun q => by
    rw [← Tree.quiet_calm, t.calm_tree_transform, Tree.quiet_translate_quiet ht]
  rw [Program.equiv_iff, hquiet, hquiet, Program.equiv_iff.1 h]

/-! ## The congruence -/

namespace Program

/-- Observational equality of programs over `V` is kept by every way of building and of translating,
    and no driver breaks it. -/
structure Congruent (ν : Type) (V : Vocabulary) : Prop where
  /-- A program that comes to a value is that value, whatever it looks like inside. -/
  value {α : Type} {p : Program ν V α} {a : α} (h : p.resume.value = .inr a) : p ≈ .pure a
  /-- A program that comes to a step is that step, whatever it looks like inside. -/
  step {α : Type} {p : Program ν V α} {s : Step ν V (Program ν V α)}
    (h : p.resume.value = .inl s) : p ≈ ofStep s
  ofStep {α : Type} {s s' : Step ν V (Program ν V α)} (h : Step.Like (· ≈ ·) s s') :
    ofStep s ≈ ofStep s'
  defer {α : Type} {build build' : Unit → Traced ν (Program ν V α)}
    (h : (build ()).value ≈ (build' ()).value) : defer build ≈ defer build'
  flatMap {α β : Type} {p p' : Program ν V α} {k k' : α → Traced ν (Program ν V β)} (hp : p ≈ p')
    (hk : ∀ a, (k a).value ≈ (k' a).value) : p.flatMap k ≈ p'.flatMap k'
  map {α β : Type} {p p' : Program ν V α} (hp : p ≈ p') (f : α → Traced ν β) : p.map f ≈ p'.map f
  andThen {α β : Type} {p p' : Program ν V α} {q q' : Program ν V β} (hp : p ≈ p') (hq : q ≈ q') :
    p.andThen q ≈ p'.andThen q'
  map2 {α β γ : Type} (f : α → β → Traced ν γ) {p p' : Program ν V α} {q q' : Program ν V β}
    (hp : p ≈ p') (hq : q ≈ q') : map2 f p q ≈ map2 f p' q'
  apply {α β : Type} {p p' : Program ν V (α → Traced ν β)} {q q' : Program ν V α} (hp : p ≈ p')
    (hq : q ≈ q') : p.apply q ≈ p'.apply q'
  /-- The functions need only have the same values; what they record may differ. -/
  apply_functions {α β : Type} {p p' : Program ν V (α → Traced ν β)} {q q' : Program ν V α}
    (hp : p.functions ≈ p'.functions) (hq : q ≈ q') : p.apply q ≈ p'.apply q'
  transform {W : Vocabulary} {t : NaturalTranslator ν V W} (ht : t.IgnoresEvents) {α : Type}
    {p p' : Program ν V α} (hp : p ≈ p') : (t.transform p).value ≈ (t.transform p').value
  widen {W : Vocabulary} (place : Branch V W) {α : Type} {p p' : Program ν V α} (hp : p ≈ p') :
    (p.widen place).value ≈ (p'.widen place).value
  /-- Programs over requests that are steps of `V`. -/
  lower {Tag : Type} [DecidableEq Tag] {Answer : Tag → Type} {α : Type}
    {p p' : Program ν (Requests.steps ν V Answer).vocabulary α} (hp : p ≈ p') :
    p.lower.value ≈ p'.lower.value
  /-- Every driver, with every interpreter that only answers, does the same with both. -/
  runs {α : Type} {p p' : Program ν V α} (hp : p ≈ p') : SameRuns.{u} p p'

/-- **Observational equality is a congruence that no driver breaks.** What is built from
    observationally equal parts in any of the ways of building, or by translating along a natural
    translator, is observationally equal, and every driver gives the same steps, the same last state
    and the same result on observationally equal programs. So it makes no difference whether a
    program is a value, a step or a composition that comes to it. -/
theorem observation_congruent : Congruent.{u} ν V where
  value h := equiv_pure_of_resume h
  step h := equiv_ofStep_of_resume h
  ofStep h := ofStep_equiv h
  defer h := defer_congr h
  flatMap hp hk := flatMap_equiv hp hk
  map hp f := map_equiv hp f
  andThen hp hq := andThen_equiv hp hq
  map2 f _ _ _ _ hp hq := map2_equiv f hp hq
  apply hp hq := apply_equiv (functions_equiv hp) hq
  apply_functions hp hq := apply_equiv hp hq
  transform ht _ _ _ hp := NaturalTranslator.transform_equiv ht hp
  widen place _ _ _ hp :=
    NaturalTranslator.transform_equiv place.naturalTranslator_ignoresEvents hp
  lower hp := NaturalTranslator.transform_equiv (Coyoneda.naturalTranslator_ignoresEvents _) hp
  runs hp := sameRuns_of_equiv hp

end Program

end FreeMonad
