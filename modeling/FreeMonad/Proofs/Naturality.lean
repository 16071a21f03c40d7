import FreeMonad.Program.Widen
import FreeMonad.Proofs.Observation

set_option autoImplicit false

/-! # Natural translators

A translator that is defined for payloads of every type and commutes with mapping over them cannot
look into a payload. All that it can do is to choose another operation and to say which answer of
the step it was given each answer of the new one stands for (`NaturalTranslator.shape`). Widening
and lowering are of this kind.

Such a translator acts on trees, node by node (`Tree.translate`), and translating a program is
translating its tree (`NaturalTranslator.calm_tree_transform`): the deferred walks over the rest of
the program leave no trace but in what is recorded on the way to a step. So the laws of
translation are equations between trees. Up to observational equality, translating along a natural
translator takes finished programs, lifted steps and sequencing to themselves, and translating
twice is translating once (`NaturalTranslator.transform_morphism`). -/

namespace FreeMonad

universe u

variable {ν : Type} {F G H : Vocabulary} {α β γ : Type}

/-! ## Translators of steps with any payload -/

/-- A function from steps of `F` to steps of `G` for payloads of every type, which commutes with
    mapping over the payload. -/
structure NaturalTranslator (ν : Type) (F G : Vocabulary) where
  /-- Translates a step. -/
  onStep : {P : Type 1} → Step ν F P → Traced ν (Step ν G P)
  /-- Mapping over the payload before translating is mapping over it afterwards. -/
  onStep_map : ∀ {P Q : Type 1} (h : P → Q) (s : Step ν F P),
    (onStep (s.map h)).value = (onStep s).value.map h

namespace NaturalTranslator

/-- The translator of steps whose payloads are programs. -/
def translator (t : NaturalTranslator ν F G) : Translator ν F G α := fun s => t.onStep s

/-- Translates a step that carries a value. -/
def onValue (t : NaturalTranslator ν F G) (s : Step ν F α) : Traced ν (Step ν G α) :=
  (t.onStep (s.map ULift.up)).map (Step.map ULift.down)

/-- The translator that leaves every step as it is. -/
def identity (ν : Type) (F : Vocabulary) : NaturalTranslator ν F F where
  onStep s := .pure s
  onStep_map _ _ := rfl

/-- Translates by `t`, then by `u`. -/
def andThen (t : NaturalTranslator ν F G) (u : NaturalTranslator ν G H) :
    NaturalTranslator ν F H where
  onStep s := (t.onStep s).bind u.onStep
  onStep_map h s := by
    rw [Traced.value_bind, Traced.value_bind, t.onStep_map, u.onStep_map]

/-- What the translator makes of the operation `op`, whose answer `y` records `said y`: an operation
    of `G`, whose payload says which answer to `op` each of its own answers stands for. -/
def shape (t : NaturalTranslator ν F G) (op : F.Op) (said : F.Answer op → List (Event ν)) :
    Step ν G (ULift.{1} (F.Answer op)) :=
  (t.onStep ⟨op, fun y => ⟨said y, ⟨y⟩⟩⟩).value

/-- The shape says what the translator makes of a step with any payload. -/
theorem value_onStep (t : NaturalTranslator ν F G) {P : Type 1} (s : Step ν F P) :
    (t.onStep s).value
      = (t.shape s.op fun y => (s.reply y).log).map fun y => (s.reply y.down).value :=
  t.onStep_map (fun y : ULift.{1} (F.Answer s.op) => (s.reply y.down).value)
    ⟨s.op, fun y => ⟨(s.reply y).log, ⟨y⟩⟩⟩

/-- Every payload of a translated step is a payload of the step. -/
theorem exists_reply_onStep (t : NaturalTranslator ν F G) {P : Type 1} (s : Step ν F P)
    (x : G.Answer (t.onStep s).value.op) :
    ∃ y, ((t.onStep s).value.reply x).value = (s.reply y).value := by
  revert x
  rw [t.value_onStep s]
  exact fun x => ⟨_, rfl⟩

theorem translator_handsOn (t : NaturalTranslator ν F G) :
    (t.translator : Translator ν F G α).HandsOn :=
  fun s x => .inl (t.exists_reply_onStep s x)

/-- The program with every step translated. -/
def transform (t : NaturalTranslator ν F G) (p : Program ν F α) : Traced ν (Program ν G α) :=
  p.translate t.translator (t.translator_handsOn.acc p)

end NaturalTranslator

/-- Injecting at a place is natural. -/
def Branch.naturalTranslator {W : Vocabulary} (place : Branch F W) : NaturalTranslator ν F W where
  onStep s := .pure (place.inject s)
  onStep_map h s := by
    induction place with
    | itself => rfl
    | here => rfl
    | there place ih => exact congrArg Step.right ih

/-- Lowering requests is natural. -/
def Coyoneda.naturalTranslator (ν : Type) (V : Vocabulary) {Tag : Type} [DecidableEq Tag]
    (Answer : Tag → Type) : NaturalTranslator ν (Requests.steps ν V Answer).vocabulary V where
  onStep c := Coyoneda.lower c
  onStep_map h c := by
    show (c.op.2.mapTraced fun x => (c.reply x).map h).value
      = (c.op.2.mapTraced c.reply).value.map h
    unfold Step.mapTraced
    cases V.known c.op.2.op <;> rfl

/-! ## Translating trees -/

namespace Tree

/-- The tree without the events on the way to its steps and values. Those of its answers stay. -/
def calm : Tree ν F α → Tree ν F α
  | ret _ a => ret [] a
  | step _ op said next => step [] op said fun x => (next x).calm

/-- Translates every step of a tree. -/
def translate (t : NaturalTranslator ν F G) : Tree ν F α → Tree ν G α
  | ret _ a => ret [] a
  | step _ op said next => .op [] ((t.shape op said).map fun y => (next y.down).translate t)

@[simp] theorem calm_after (l : List (Event ν)) (t : Tree ν F α) : (t.after l).calm = t.calm := by
  cases t <;> rfl

@[simp] theorem calm_reached (m : Traced ν (Tree ν F α)) : (reached m).calm = m.value.calm :=
  calm_after m.log m.value

@[simp] theorem quiet_calm (t : Tree ν F α) : t.calm.quiet = t.quiet := by
  induction t with
  | ret log a => rfl
  | step log op said next ih =>
    rw [calm, quiet, quiet]
    exact congrArg _ (funext ih)

theorem calm_bind (t : Tree ν F α) (k : α → Tree ν F β) :
    (t.bind k).calm = t.calm.bind fun a => (k a).calm := by
  induction t with
  | ret log a => rw [bind, calm_after, calm, ret_bind]
  | step log op said next ih =>
    rw [bind, calm, calm, bind]
    exact congrArg _ (funext ih)

section

variable (t : NaturalTranslator ν F G)

@[simp] theorem translate_after (l : List (Event ν)) (u : Tree ν F α) :
    (u.after l).translate t = u.translate t := by
  cases u <;> rfl

@[simp] theorem translate_reached (m : Traced ν (Tree ν F α)) :
    (reached m).translate t = m.value.translate t :=
  translate_after t m.log m.value

theorem translate_op (log : List (Event ν)) (s : Step ν F (Tree ν F α)) :
    (Tree.op log s).translate t = .op [] ((t.shape s.op fun y => (s.reply y).log).map fun y =>
      (s.reply y.down).value.translate t) := rfl

/-- Translating looks at nothing on the way to a step. -/
@[simp] theorem translate_calm (u : Tree ν F α) : u.calm.translate t = u.translate t := by
  induction u with
  | ret log a => rfl
  | step log op said next ih =>
    rw [calm, translate, translate, funext fun y => ih (ULift.down y)]

/-- Translating takes grafting to grafting. -/
theorem translate_bind (u : Tree ν F α) (k : α → Tree ν F β) :
    (u.bind k).translate t = (u.translate t).bind fun a => (k a).translate t := by
  induction u with
  | ret log a => rw [bind, translate_after, translate, ret_bind]
  | step log op said next ih =>
    rw [bind, translate, translate, funext fun y => ih (ULift.down y)]
    rfl

end

theorem translate_identity (u : Tree ν F α) :
    u.translate (.identity ν F) = u.calm := by
  induction u with
  | ret log a => rfl
  | step log op said next ih =>
    rw [translate, calm, funext fun y => ih (ULift.down y)]
    rfl

/-- Translating by one translator and then by another is translating by both. -/
theorem translate_andThen (t : NaturalTranslator ν F G) (u : NaturalTranslator ν G H)
    (v : Tree ν F α) : v.translate (t.andThen u) = (v.translate t).translate u := by
  induction v with
  | ret log a => rfl
  | step log op said next ih =>
    have hshape : (t.andThen u).shape op said
        = (u.shape (t.shape op said).op fun x => ((t.shape op said).reply x).log).map fun x =>
            ((t.shape op said).reply x.down).value :=
      u.value_onStep (t.shape op said)
    rw [translate, translate, translate_op, hshape, Step.map_map, funext fun y => ih (ULift.down y)]
    rfl

end Tree

/-! ## The tree of a translated program -/

namespace Program

/-- Programs with the same tree up to the events on the way to steps are observationally equal. -/
theorem equiv_of_calm {p q : Program ν F α} (h : p.tree.calm = q.tree.calm) : p ≈ q := by
  rw [equiv_iff, ← Tree.quiet_calm, h, Tree.quiet_calm]

end Program

namespace NaturalTranslator

variable (t : NaturalTranslator ν F G)

/-- Translating a program translates its tree. The walks over the payloads are deferred, which
    shows in the events on the way to a step only. -/
theorem calm_tree_translate (p : Program ν F α) (ends : Acc (t.translator (α := α)).Leads p) :
    (p.translate t.translator ends).value.tree.calm = p.tree.translate t := by
  induction ends with
  | intro p ends ih =>
    rw [p.tree_eq_ofRoot]
    rcases hp : p.resume with ⟨log, s | a⟩
    · obtain ⟨hnext, htranslate⟩ := Program.translate_of_step t.translator (.intro p ends) hp
      have hvalue : p.resume.value = .inl s := congrArg Traced.value hp
      have hwalk : ∀ x, (Program.defer fun _ => ((t.onStep s).value.reply x).value.translate
          t.translator (hnext x)).tree.calm
            = ((t.onStep s).value.reply x).value.tree.translate t := fun x => by
        rw [Program.tree_defer, Tree.calm_reached]
        exact ih _ ⟨s, hvalue, x, rfl⟩
      rw [htranslate]
      calc Tree.step [] (t.onStep s).value.op (fun x => ((t.onStep s).value.reply x).log) (fun x =>
              (Program.defer fun _ => ((t.onStep s).value.reply x).value.translate
                t.translator (hnext x)).tree.calm)
        _ = .op [] ((t.onStep s).value.map fun q => q.tree.translate t) := by
            rw [funext hwalk]
            rfl
        _ = (Tree.ofRoot Program.tree ⟨log, .inl s⟩).translate t := by
            rw [t.value_onStep]
            rfl
    · rw [Program.translate_of_value t.translator _ hp]
      rfl

theorem calm_tree_transform (p : Program ν F α) :
    (t.transform p).value.tree.calm = p.tree.translate t :=
  t.calm_tree_translate p _

/-! ## The laws of translation -/

theorem transform_pure (a : α) : (t.transform (.pure a)).value ≈ .pure a := by
  refine Program.equiv_of_calm ?_
  rw [calm_tree_transform]
  rfl

theorem transform_lift (s : Step ν F α) :
    (t.transform (.lift s)).value ≈ .lift (t.onValue s).value := by
  have hstep := t.value_onStep (s.map ULift.up)
  refine Program.equiv_of_calm ?_
  rw [calm_tree_transform, Program.tree_lift, Program.tree_lift, Tree.translate_op, onValue,
    Traced.value_map, hstep]
  rfl

theorem transform_flatMap (p : Program ν F α) (k : α → Traced ν (Program ν F β)) :
    (t.transform (p.flatMap k)).value
      ≈ (t.transform p).value.flatMap fun a => (k a).bind t.transform := by
  refine Program.equiv_of_calm ?_
  rw [calm_tree_transform, Program.tree_flatMap, Program.tree_flatMap, Tree.translate_bind,
    Tree.calm_bind, calm_tree_transform]
  refine congrArg _ (funext fun a => ?_)
  rw [Tree.translate_reached, Tree.calm_reached]
  exact (t.calm_tree_transform (k a).value).symm

theorem transform_identity (p : Program ν F α) : ((identity ν F).transform p).value ≈ p := by
  refine Program.equiv_of_calm ?_
  rw [calm_tree_transform, Tree.translate_identity]

theorem transform_transform (u : NaturalTranslator ν G H) (p : Program ν F α) :
    ((t.transform p).bind u.transform).value ≈ ((t.andThen u).transform p).value := by
  refine Program.equiv_of_calm ?_
  calc (u.transform (t.transform p).value).value.tree.calm
    _ = (t.transform p).value.tree.translate u := u.calm_tree_transform _
    _ = (t.transform p).value.tree.calm.translate u := (Tree.translate_calm u _).symm
    _ = (p.tree.translate t).translate u := by rw [calm_tree_transform]
    _ = ((t.andThen u).transform p).value.tree.calm := by
        rw [calm_tree_transform, Tree.translate_andThen]

end NaturalTranslator

/-- Up to observational equality, `T` takes a program made by sequencing to what the same operation
    makes of the programs that `T` gives. -/
structure Program.Distributes
    (T : {α : Type} → Program ν F α → Traced ν (Program ν G α)) : Prop where
  flatMap {α β : Type} (p : Program ν F α) (k : α → Traced ν (Program ν F β)) :
    (T (p.flatMap k)).value ≈ (T p).value.flatMap fun a => (k a).bind T
  map {α β : Type} (f : α → Traced ν β) (p : Program ν F α) :
    (T (p.map f)).value ≈ (T p).value.map f
  andThen {α β : Type} (p : Program ν F α) (q : Program ν F β) :
    (T (p.andThen q)).value ≈ (T p).value.andThen (T q).value
  map2 {α β γ : Type} (f : α → β → Traced ν γ) (p : Program ν F α) (q : Program ν F β) :
    (T (.map2 f p q)).value ≈ .map2 f (T p).value (T q).value
  apply {α β : Type} (p : Program ν F (α → Traced ν β)) (q : Program ν F α) :
    (T (p.apply q)).value ≈ (T p).value.apply (T q).value

/-- What distributes over continuations and keeps finished programs distributes over the derived
    operations. -/
theorem Program.Distributes.of_flatMap {T : {α : Type} → Program ν F α → Traced ν (Program ν G α)}
    (hpure : ∀ {α : Type} (a : α), (T (.pure a)).value ≈ .pure a)
    (hflatMap : ∀ {α β : Type} (p : Program ν F α) (k : α → Traced ν (Program ν F β)),
      (T (p.flatMap k)).value ≈ (T p).value.flatMap fun a => (k a).bind T) :
    Program.Distributes T := by
  have hmap {α β : Type} (f : α → Traced ν β) (p : Program ν F α) :
      (T (p.map f)).value ≈ (T p).value.map f :=
    Setoid.trans (hflatMap p _) (flatMap_equiv (Setoid.refl _) fun a => hpure (f a).value)
  constructor
  case flatMap => exact hflatMap
  case map => exact hmap
  case andThen =>
    intro α β p q
    exact Setoid.trans (hflatMap p _) (flatMap_equiv (Setoid.refl _) fun _ => Setoid.refl _)
  case map2 =>
    intro α β γ f p q
    exact Setoid.trans (hflatMap p _) (flatMap_equiv (Setoid.refl _) fun a => hmap (f a) q)
  case apply =>
    intro α β p q
    exact Setoid.trans (hflatMap p _) (flatMap_equiv (Setoid.refl _) fun f => hmap f q)

namespace NaturalTranslator

theorem distributes (t : NaturalTranslator ν F G) :
    Program.Distributes (F := F) (G := G) fun p => t.transform p :=
  .of_flatMap t.transform_pure t.transform_flatMap

/-- **Translating along a natural translator is a morphism of monads, and translations fuse.** Up to
    observational equality, it takes finished programs and lifted steps to finished programs and
    lifted steps, and sequencing of any kind to sequencing. Translating by the identity changes
    nothing, and translating twice is translating once by both translators. Widening to a place in a
    sum and lowering requests are cases. -/
theorem transform_morphism (t : NaturalTranslator ν F G) (u : NaturalTranslator ν G H) :
    (∀ {α : Type} (a : α), (t.transform (.pure a)).value ≈ .pure a) ∧
    (∀ {α : Type} (s : Step ν F α), (t.transform (.lift s)).value ≈ .lift (t.onValue s).value) ∧
    Program.Distributes (F := F) (G := G) (fun p => t.transform p) ∧
    (∀ {α : Type} (p : Program ν F α), ((identity ν F).transform p).value ≈ p) ∧
    (∀ {α : Type} (p : Program ν F α),
      ((t.transform p).bind u.transform).value ≈ ((t.andThen u).transform p).value) ∧
    (∀ {V W : Vocabulary} (place : Branch V W),
      Program.Distributes (ν := ν) (F := V) (G := W) fun p => p.widen place) ∧
    (∀ {V : Vocabulary} {Tag : Type} [DecidableEq Tag] {Answer : Tag → Type},
      Program.Distributes (ν := ν) (F := (Requests.steps ν V Answer).vocabulary) (G := V)
        fun p => p.lower) := by
  refine ⟨t.transform_pure, t.transform_lift, t.distributes, transform_identity,
    t.transform_transform u, ?_, ?_⟩
  · intro V W place
    exact place.naturalTranslator.distributes
  · intro V Tag _ Answer
    exact (Coyoneda.naturalTranslator ν V Answer).distributes

end NaturalTranslator

end FreeMonad
