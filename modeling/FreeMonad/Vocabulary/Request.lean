import FreeMonad.Vocabulary.Basic

set_option autoImplicit false

/-! # Requests that cannot be mapped over

Many requests name the type of their answer and hold nothing that could be mapped: "the text
stored under this key". A `Coyoneda` pairs such a request with a conversion of its answer and
hides the answer's type. Mapping composes the conversion and never touches the request, so
requests of any kind become a vocabulary: an operation is a request of some hidden answer type,
and its answers are those of that type.

The hidden types are named by tags that can be compared. `Coyoneda.handle` answers a request of
one given type and gives back, untouched, a request of any other. Requests that are themselves
steps of a vocabulary can be lowered: the conversion is mapped over the step. -/

namespace FreeMonad

universe u v

/-- Requests, sorted by the type of their answers. -/
structure Requests where
  /-- Names of the answer types. -/
  Tag : Type
  /-- The answer type that a tag names. -/
  Answer : Tag → Type
  /-- The requests for an answer of the type that a tag names. -/
  Request : Tag → Type
  [decEq : DecidableEq Tag]

namespace Requests

instance (R : Requests) : DecidableEq R.Tag := R.decEq

/-- The vocabulary of requests: any request, answered by a value of its answer type. -/
def vocabulary (R : Requests) : Vocabulary where
  Op := (tag : R.Tag) × R.Request tag
  Answer op := R.Answer op.1
  known _ := none

/-- Steps of `V` as requests for their payload. -/
def steps (ν : Type) (V : Vocabulary) {Tag : Type} [DecidableEq Tag] (Answer : Tag → Type) :
    Requests where
  Tag := Tag
  Answer := Answer
  Request tag := Step ν V (Answer tag)

end Requests

/-- A request of hidden answer type with a conversion of its answer to an `α`. -/
abbrev Coyoneda (ν : Type) (R : Requests) (α : Type u) := Step ν R.vocabulary α

namespace Coyoneda

variable {ν : Type} {R : Requests} {α : Type u} {β : Type v}

/-- A request whose answer is left as it is. -/
def lift (tag : R.Tag) (request : R.Request tag) : Coyoneda ν R (R.Answer tag) :=
  ⟨⟨tag, request⟩, .pure⟩

/-- Composes `f` after the conversion. -/
def andThen (f : α → Traced ν β) (c : Coyoneda ν R α) : Coyoneda ν R β :=
  ⟨c.op, fun x => (c.reply x).bind f⟩

/-- The name of the hidden answer type. -/
def tag (c : Coyoneda ν R α) : R.Tag := c.op.1

/-- Does the request ask for an answer of the type `tag`? -/
def isRequest (tag : R.Tag) (c : Coyoneda ν R α) : Bool := decide (c.tag = tag)

/-- Answers a request for the type `tag` by `respond` and converts the answer. A request for
    another type is given back unchanged on the left. Besides the answer, `respond` may return
    something to its caller, such as the next state of a handler. -/
def handle (tag : R.Tag) (respond : R.Request tag → Traced ν (β × R.Answer tag)) :
    Coyoneda ν R α → Coyoneda ν R α ⊕ Traced ν (β × α)
  | ⟨⟨tag', request⟩, reply⟩ =>
    if h : tag' = tag then
      .inr <| (respond (h ▸ request)).bind fun (b, x) => (reply (h.symm ▸ x)).map fun a => (b, a)
    else
      .inl ⟨⟨tag', request⟩, reply⟩

/-- Maps the conversion over a request that is a step. -/
def lower {V : Vocabulary} {Tag : Type} [DecidableEq Tag] {Answer : Tag → Type}
    (c : Coyoneda ν (.steps ν V Answer) α) : Traced ν (Step ν V α) :=
  c.op.2.mapTraced c.reply

/-- A request for the type in question is answered, and the answer converted. -/
theorem handle_mk (tag : R.Tag) (request : R.Request tag) (reply : R.Answer tag → Traced ν α)
    (respond : R.Request tag → Traced ν (β × R.Answer tag)) :
    handle tag respond (⟨⟨tag, request⟩, reply⟩ : Coyoneda ν R α)
      = .inr ((respond request).bind fun r => (reply r.2).map fun a => (r.1, a)) :=
  dif_pos rfl

/-- A request for another type is given back as it is. -/
theorem handle_of_ne {tag : R.Tag} {c : Coyoneda ν R α} (h : c.tag ≠ tag)
    (respond : R.Request tag → Traced ν (β × R.Answer tag)) : c.handle tag respond = .inl c := by
  obtain ⟨⟨tag', request⟩, reply⟩ := c
  exact dif_neg h

/-- What handling gives is the conversion of some answer. -/
theorem exists_reply_of_handle {tag : R.Tag}
    {respond : R.Request tag → Traced ν (β × R.Answer tag)} {c : Coyoneda ν R α}
    {m : Traced ν (β × α)} (h : c.handle tag respond = .inr m) :
    ∃ x, (c.reply x).value = m.value.2 := by
  obtain ⟨⟨tag', request⟩, reply⟩ := c
  unfold handle at h
  simp only at h
  split at h
  · cases h
    exact ⟨_, rfl⟩
  · exact nomatch h

/-- A request that was not handled is given back as it was. -/
theorem eq_of_handle_eq_inl {tag : R.Tag}
    {respond : R.Request tag → Traced ν (β × R.Answer tag)} {c d : Coyoneda ν R α}
    (h : c.handle tag respond = .inl d) : d = c := by
  obtain ⟨⟨tag', request⟩, reply⟩ := c
  unfold handle at h
  simp only at h
  split at h
  · exact nomatch h
  · exact (Sum.inl.inj h).symm

/-- The payloads of a lowered request are conversions of answers. -/
theorem exists_reply_of_lower {V : Vocabulary} {Tag : Type} [DecidableEq Tag] {Answer : Tag → Type}
    (c : Coyoneda ν (.steps ν V Answer) α) (x : V.Answer c.lower.value.op) :
    ∃ y, (c.lower.value.reply x).value = (c.reply y).value := by
  revert x
  unfold lower Step.mapTraced
  cases V.known c.op.2.op with
  | none => exact fun x => ⟨(c.op.2.reply x).value, rfl⟩
  | some x => exact fun _ => ⟨(c.op.2.reply x).value, rfl⟩

end Coyoneda

end FreeMonad
