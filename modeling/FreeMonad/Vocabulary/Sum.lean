import FreeMonad.Vocabulary.Basic

set_option autoImplicit false

/-! # Sums of vocabularies

The sum of two vocabularies has the operations of both, each answered as before. Sums of sums
make larger vocabularies, and a `Branch` is a place in one: the vocabulary itself, the left
side, or a place in the right side. The same vocabulary can stand at several places.

`Branch.inject` turns a step of the vocabulary at a place into a step of the sum, and
`Branch.project` recovers it, giving back unchanged every step from another place. -/

namespace FreeMonad

universe u

namespace Vocabulary

/-- The operations of `F` and those of `G`. -/
def sum (F G : Vocabulary) : Vocabulary where
  Op := F.Op ⊕ G.Op
  Answer
    | .inl op => F.Answer op
    | .inr op => G.Answer op
  known
    | .inl op => F.known op
    | .inr op => G.known op

end Vocabulary

/-- A place at which the vocabulary `F` stands in the vocabulary `W`. -/
inductive Branch (F : Vocabulary) : Vocabulary → Type 1 where
  /-- The whole vocabulary. -/
  | itself : Branch F F
  /-- The left side of a sum. -/
  | here {G : Vocabulary} : Branch F (F.sum G)
  /-- A place in the right side of a sum. -/
  | there {H G : Vocabulary} (place : Branch F G) : Branch F (H.sum G)

namespace Step

variable {ν : Type} {F G : Vocabulary} {α : Type u}

/-- A step of the left side of a sum. -/
def left (s : Step ν F α) : Step ν (F.sum G) α := ⟨.inl s.op, s.reply⟩

/-- A step of the right side of a sum. -/
def right (s : Step ν G α) : Step ν (F.sum G) α := ⟨.inr s.op, s.reply⟩

/-- The side that a step of a sum comes from. -/
def side : Step ν (F.sum G) α → Step ν F α ⊕ Step ν G α
  | ⟨.inl op, reply⟩ => .inl ⟨op, reply⟩
  | ⟨.inr op, reply⟩ => .inr ⟨op, reply⟩

end Step

namespace Branch

variable {ν : Type} {F : Vocabulary} {α : Type u}

/-- The step of the sum that stands for a step of the vocabulary at this place. -/
def inject {W : Vocabulary} : Branch F W → Step ν F α → Step ν W α
  | .itself, s => s
  | .here, s => s.left
  | .there place, s => (place.inject s).right

/-- The step of the vocabulary at this place, or the given step itself if it is from another
    place. -/
def project {W : Vocabulary} : Branch F W → Step ν W α → Except (Step ν W α) (Step ν F α)
  | .itself, s => .ok s
  | .here, s =>
    match s.side with
    | .inl t => .ok t
    | .inr _ => .error s
  | .there place, s =>
    match s.side with
    | .inl _ => .error s
    | .inr t => (place.project t).mapError .right

/-- The payloads of an injected step are those of the step. -/
theorem exists_reply_of_inject {W : Vocabulary} (place : Branch F W) (s : Step ν F α)
    (x : W.Answer (place.inject s).op) :
    ∃ y, (place.inject s).reply x = s.reply y := by
  induction place with
  | itself => exact ⟨x, rfl⟩
  | here => exact ⟨x, rfl⟩
  | there place ih => exact ih x

end Branch

end FreeMonad
