import FreeMonad.Proofs.Naturality
import FreeMonad.Proofs.Policy
import FreeMonad.Proofs.Prism

set_option autoImplicit false

/-! # Widening in stages

A sum can itself stand in a larger one. What stands at a place of the inner sum then stands in the
outer sum too, if the inner sum is the whole of the outer one or what is left of it on the right
(`Spine`): places go down to the right only, so no place leads into a left side. The two places
compose to one (`Spine.andThen`).

Injecting and projecting at the composed place are injecting and projecting at the one place after
the other, by induction on the outer place. For programs, the two translations fuse to one, however
the program is built, and so widening in stages is widening at once
(`Program.widen_in_stages`). -/

namespace FreeMonad

universe u v

variable {ν : Type} {F G W : Vocabulary} {α : Type u}

/-! ## Places compose -/

/-- A place that leads to the right only: the whole sum, or what is left of it on the right. -/
inductive Spine (G : Vocabulary) : Vocabulary → Type 1 where
  | itself : Spine G G
  | there {H K : Vocabulary} (j : Spine G K) : Spine G (H.sum K)

namespace Spine

/-- The place in the outer sum. -/
def place {W : Vocabulary} : Spine G W → Branch G W
  | itself => .itself
  | there j => .there j.place

/-- The place in the outer sum of what stands at a place of the inner sum. -/
def andThen {W : Vocabulary} : Spine G W → Branch F G → Branch F W
  | itself, i => i
  | there j, i => .there (j.andThen i)

/-- Injecting at the composed place is injecting at the inner place and then at the outer one. -/
theorem inject_andThen (j : Spine G W) (i : Branch F G) (s : Step ν F α) :
    (j.andThen i).inject s = j.place.inject (i.inject s) := by
  induction j with
  | itself => rfl
  | there j ih => exact congrArg Step.right ih

/-- Projecting at the composed place is projecting at the outer place and then at the inner one. A
    step of the outer sum that either of the two does not recover is given back as it is. -/
theorem project_andThen (j : Spine G W) (i : Branch F G) (w : Step ν W α) :
    (j.andThen i).project w
      = (j.place.project w).bind fun g => (i.project g).mapError fun _ => w := by
  induction j with
  | itself =>
    show i.project w = (i.project w).mapError fun _ => w
    cases h : i.project w with
    | ok s => rfl
    | error w' => rw [i.eq_of_project_eq_error h]; rfl
  | @there H K j ih =>
    rcases w.eq_left_or_eq_right with ⟨t, rfl⟩ | ⟨t, rfl⟩
    · rfl
    · show ((j.andThen i).project t).mapError Step.right
        = ((j.place.project t).mapError Step.right).bind fun g =>
          (i.project g).mapError fun _ => t.right
      rw [ih t]
      cases j.place.project t with
      | error w => rfl
      | ok g =>
        show ((i.project g).mapError fun _ => t).mapError Step.right
          = (i.project g).mapError fun _ => t.right
        cases i.project g <;> rfl

end Spine

/-! ## Widening twice -/

/-- Translators that do the same with every step are the same. -/
theorem NaturalTranslator.ext_onStep {t u : NaturalTranslator ν F G}
    (h : ∀ {P : Type 1} (s : Step ν F P), t.onStep s = u.onStep s) : t = u := by
  obtain ⟨onStep, _⟩ := t
  obtain ⟨onStep', _⟩ := u
  obtain rfl : @onStep = @onStep' := funext fun P => funext fun s => h s
  rfl

namespace Spine

/-- Translating steps to the inner sum and then to the outer one is translating them at the composed
    place. -/
theorem naturalTranslator_andThen (ν : Type) (j : Spine G W) (i : Branch F G) :
    (i.naturalTranslator : NaturalTranslator ν F G).andThen j.place.naturalTranslator
      = (j.andThen i).naturalTranslator :=
  NaturalTranslator.ext_onStep fun s => congrArg Traced.pure (j.inject_andThen i s).symm

end Spine

namespace Program

/-- Widening in stages and widening at once are observationally equal. -/
theorem widen_andThen {α : Type} (j : Spine G W) (i : Branch F G) (p : Program ν F α) :
    ((p.widen i).bind fun q => q.widen j.place).value ≈ (p.widen (j.andThen i)).value := by
  have hfuse := i.naturalTranslator.transform_transform j.place.naturalTranslator p
  rw [j.naturalTranslator_andThen] at hfuse
  exact hfuse

/-- Widening to the vocabulary itself changes nothing that can be observed. -/
theorem widen_itself {α : Type} (p : Program ν F α) : (p.widen .itself).value ≈ p :=
  NaturalTranslator.transform_identity p

end Program

/-- What it takes for the place of `F` in the outer sum to be its place in the inner sum, followed
    by the place of the inner sum. -/
structure Spine.Coherent (ν : Type) (j : Spine G W) (i : Branch F G) : Prop where
  /-- Injecting at the one and then at the other is injecting at the composed place. -/
  inject {α : Type u} (s : Step ν F α) : j.place.inject (i.inject s) = (j.andThen i).inject s
  /-- Projecting at the composed place is projecting at the other and then at the one, and gives
      back the step of the outer sum if one of them fails. -/
  project {α : Type u} (w : Step ν W α) : (j.andThen i).project w
    = (j.place.project w).bind fun g => (i.project g).mapError fun _ => w
  /-- Widening in stages gives a program with the same steps in the same order, and the same values
      for every answer. -/
  widen {α : Type} (p : Program ν F α) :
    ((p.widen i).bind fun q => q.widen j.place).value ≈ (p.widen (j.andThen i)).value
  /-- No driver tells the two programs apart. -/
  runs {α : Type} (p : Program ν F α) : Program.SameRuns.{v}
    ((p.widen i).bind fun q => q.widen j.place).value (p.widen (j.andThen i)).value

/-- **Widening in stages is widening at once**, for every place of a vocabulary in a sum and every
    place of that sum in a larger one, and for programs of any length. Widening to the vocabulary
    itself changes nothing that can be observed. -/
theorem Program.widen_in_stages (ν : Type) (j : Spine G W) (i : Branch F G) :
    j.Coherent.{u, v} ν i ∧
    ∀ {V : Vocabulary} {α : Type} (p : Program ν V α), (p.widen .itself).value ≈ p := by
  refine ⟨?_, fun p => p.widen_itself⟩
  constructor
  case inject => exact fun s => (j.inject_andThen i s).symm
  case project => exact j.project_andThen i
  case widen => exact fun p => p.widen_andThen j i
  case runs => exact fun p => Program.sameRuns_of_equiv (p.widen_andThen j i)

end FreeMonad
