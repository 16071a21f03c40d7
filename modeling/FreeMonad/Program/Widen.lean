import FreeMonad.Program.Translate
import FreeMonad.Vocabulary.Sum
import FreeMonad.Vocabulary.Request

set_option autoImplicit false

/-! # Widening and lowering

Two translations need nothing but a change of tag: a program over one vocabulary of a sum is
*widened* to the whole sum, and a program over requests that are steps is *lowered* to the steps
themselves. Both translators hand on the payloads they are given, so their walks end. -/

namespace FreeMonad

variable {ν : Type} {α : Type}

/-- The translator that injects every step at a place. -/
def Branch.translator {F W : Vocabulary} (place : Branch F W) : Translator ν F W α :=
  fun s => .pure (place.inject s)

theorem Branch.translator_handsOn {F W : Vocabulary} (place : Branch F W) :
    (place.translator : Translator ν F W α).HandsOn := fun s x =>
  match place.exists_reply_of_inject s x with
  | ⟨y, h⟩ => .inl ⟨y, congrArg Traced.value h⟩

/-- The translator that lowers every request. -/
def Coyoneda.translator (V : Vocabulary) {Tag : Type} [DecidableEq Tag] (Answer : Tag → Type) :
    Translator ν (Requests.steps ν V Answer).vocabulary V α :=
  fun c => Coyoneda.lower c

theorem Coyoneda.translator_handsOn {V : Vocabulary} {Tag : Type} [DecidableEq Tag]
    {Answer : Tag → Type} : (translator V Answer : Translator ν _ V α).HandsOn :=
  fun c x => .inl (exists_reply_of_lower c x)

namespace Program

/-- The program with every step injected into the sum at a place. -/
def widen {F W : Vocabulary} (place : Branch F W) (p : Program ν F α) :
    Traced ν (Program ν W α) :=
  p.translate place.translator (place.translator_handsOn.acc p)

/-- The program with every request lowered to the step it is. -/
def lower {V : Vocabulary} {Tag : Type} [DecidableEq Tag] {Answer : Tag → Type}
    (p : Program ν (Requests.steps ν V Answer).vocabulary α) : Traced ν (Program ν V α) :=
  p.translate (Coyoneda.translator V Answer) (Coyoneda.translator_handsOn.acc p)

end Program

end FreeMonad
