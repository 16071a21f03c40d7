import FreeMonad.Traced

set_option autoImplicit false

/-! # Vocabularies of effect steps

A vocabulary lists the operations a program may ask for and, for each, the answers it can be
given. A step of the vocabulary carrying an `α` is an operation together with its *reply*: the
`α` it becomes once an answer is known. Three kinds of operation occur, and the type of answers
tells them apart:

* the answer is *known* beforehand: the payload is already there (writing a line);
* there are several answers: the payload is there once one of them is given (reading a number);
* there is no answer at all: the step ends what it stands in (giving up).

Mapping over the payload composes with the reply, so every vocabulary is a functor, and its
laws hold by definition (`Step.map_id`, `Step.map_map`). A function that records events is
called at once when the answer is known, and otherwise when the answer is given
(`Step.mapTraced`). -/

namespace FreeMonad

universe u v w

/-- The operations of an effect vocabulary and the answers each of them can be given. -/
structure Vocabulary where
  /-- The operations, without their payload. -/
  Op : Type
  /-- The answers an operation can be given; an empty type for one that has no payload. -/
  Answer : Op → Type
  /-- The answer of an operation that carries its payload already. -/
  known : (op : Op) → Option (Answer op)

/-- One step of the vocabulary `V` whose payload is an `α`. -/
@[ext]
structure Step (ν : Type) (V : Vocabulary) (α : Type u) where
  /-- The operation asked for. -/
  op : V.Op
  /-- The payload, once the operation is answered. -/
  reply : V.Answer op → Traced ν α

namespace Step

variable {ν : Type} {V : Vocabulary} {α : Type u} {β : Type v} {γ : Type w}

/-- A step that turns its answer into its payload by `f`. -/
def asking (op : V.Op) (f : V.Answer op → α) : Step ν V α := ⟨op, fun x => .pure (f x)⟩

/-- Maps a function that records nothing over the payload. -/
def map (f : α → β) (s : Step ν V α) : Step ν V β := ⟨s.op, fun x => (s.reply x).map f⟩

/-- Maps a function that may record events over the payload: called at once if the payload is
    already there, and otherwise each time an answer is given. -/
def mapTraced (f : α → Traced ν β) (s : Step ν V α) : Traced ν (Step ν V β) :=
  match V.known s.op with
  | some x => ((s.reply x).bind f).map fun b => ⟨s.op, fun _ => .pure b⟩
  | none => .pure ⟨s.op, fun x => (s.reply x).bind f⟩

@[simp] theorem op_map (f : α → β) (s : Step ν V α) : (s.map f).op = s.op := rfl

theorem map_id (s : Step ν V α) : s.map id = s := rfl

theorem map_map (f : α → β) (g : β → γ) (s : Step ν V α) : (s.map f).map g = s.map (g ∘ f) := rfl

/-- Mapping never changes the operation. -/
theorem op_mapTraced (f : α → Traced ν β) (s : Step ν V α) :
    (s.mapTraced f).value.op = s.op := by
  unfold mapTraced
  cases V.known s.op <;> rfl

end Step

end FreeMonad
