import FreeMonad.Program.Basic

set_option autoImplicit false

/-! # The queue of continuations

A composition keeps its continuations in a list of two parts, the second one written from its
end, so that adding at the end and taking from the front take the same time for every length.
`Queue.contents` reads a queue as one list, and each operation has one equation through it:
`contents_push`, `contents_pop`, `contents_prepend`. The number of continuations is kept so that
joining two queues moves only the shorter one. -/

namespace FreeMonad

variable {ν : Type} {V : Vocabulary} {α : Type}

/-! ## Lists of continuations -/

namespace Front

/-- All continuations of the first list, then all of the second. -/
def append : {α β γ : Type} → Front ν V α β → Front ν V β γ → Front ν V α γ
  | _, _, _, .nil, g => g
  | _, _, _, .cons k rest, g => .cons k (rest.append g)

/-- Writes the continuations from the end, before those of `back`. -/
def reverseOnto : {α β γ : Type} → Back ν V α β → Front ν V β γ → Back ν V α γ
  | _, _, _, back, .nil => back
  | _, _, _, back, .cons k rest => reverseOnto (.snoc back k) rest

@[simp] theorem append_nil : {α β : Type} → (f : Front ν V α β) → f.append .nil = f
  | _, _, .nil => rfl
  | _, _, .cons k rest => congrArg (Front.cons k) (append_nil rest)

theorem append_assoc : {α β γ δ : Type} → (f : Front ν V α β) → (g : Front ν V β γ) →
    (h : Front ν V γ δ) → (f.append g).append h = f.append (g.append h)
  | _, _, _, _, .nil, _, _ => rfl
  | _, _, _, _, .cons k rest, g, h => congrArg (Front.cons k) (append_assoc rest g h)

end Front

namespace Back

/-- Writes the continuations from the front, before those of `front`. -/
def onto : {α β γ : Type} → Back ν V α β → Front ν V β γ → Front ν V α γ
  | _, _, _, .nil, front => front
  | _, _, _, .snoc rest k, front => rest.onto (.cons k front)

theorem onto_append : {α β γ δ : Type} → (b : Back ν V α β) → (f : Front ν V β γ) →
    (g : Front ν V γ δ) → (b.onto f).append g = b.onto (f.append g)
  | _, _, _, _, .nil, _, _ => rfl
  | _, _, _, _, .snoc rest k, f, g => onto_append rest (.cons k f) g

/-- Reading a list from its end and back again loses nothing. -/
theorem onto_reverseOnto : {α β γ δ : Type} → (b : Back ν V α β) → (f : Front ν V β γ) →
    (g : Front ν V γ δ) → (Front.reverseOnto b f).onto g = b.onto (f.append g)
  | _, _, _, _, _, .nil, _ => rfl
  | _, _, _, _, b, .cons k rest, g => onto_reverseOnto (.snoc b k) rest g

end Back

/-! ## Queues and their contents -/

namespace Queue

/-- The continuations in the order in which they run. -/
def contents : {α β : Type} → Queue ν V α β → Front ν V α β
  | _, _, .mk _ front back => front.append (back.onto .nil)

/-- The number of continuations. -/
def size : {α β : Type} → Queue ν V α β → Nat
  | _, _, .mk size _ _ => size

/-- The queue without continuations. -/
def empty : Queue ν V α α := .mk 0 .nil .nil

/-- Adds a continuation that runs after every other one. -/
def push : {α β γ : Type} → Queue ν V α β → (β → Reached ν V γ) → Queue ν V α γ
  | _, _, _, .mk size front back, k => .mk (size + 1) front (.snoc back k)

/-- Adds a continuation that runs before every other one. -/
def pushFront : {α β γ : Type} → (α → Reached ν V β) → Queue ν V β γ → Queue ν V α γ
  | _, _, _, k, .mk size front back => .mk (size + 1) (.cons k front) back

/-- What the front of a queue shows. -/
inductive View (ν : Type) (V : Vocabulary) : Type → Type → Type 1 where
  /-- There is no continuation: the result is the argument. -/
  | empty {α : Type} : View ν V α α
  /-- The first continuation, and the queue of those after it. -/
  | first {α β γ : Type} (k : α → Reached ν V β) (rest : Queue ν V β γ) : View ν V α γ

/-- The continuations of a view, in order. -/
def View.contents : {α β : Type} → View ν V α β → Front ν V α β
  | _, _, .empty => .nil
  | _, _, .first k rest => .cons k rest.contents

/-- The view of a queue of `size` continuations that are all written from the first one on. -/
def View.ofFront (size : Nat) :
    {α β : Type} → (f : Front ν V α β) → { v : View ν V α β // v.contents = f }
  | _, _, .nil => ⟨.empty, rfl⟩
  | _, _, .cons k rest => ⟨.first k (.mk (size - 1) rest .nil), by
      rw [contents, Queue.contents, Back.onto, Front.append_nil]⟩

/-- Takes the first continuation; all the others, in order, are left. -/
def pop : {α β : Type} → (q : Queue ν V α β) → { v : View ν V α β // v.contents = q.contents }
  | _, _, .mk size (.cons k front) back => ⟨.first k (.mk (size - 1) front back), rfl⟩
  | _, _, .mk size .nil back => View.ofFront size (back.onto .nil)

/-- Adds every continuation of `front`, in order, at the end of a queue. -/
def pushAll : {α β γ : Type} → Queue ν V α β → Front ν V β γ → Queue ν V α γ
  | _, _, _, q, .nil => q
  | _, _, _, q, .cons k rest => (q.push k).pushAll rest

/-- Moves continuations one by one, the last one first, to the front of a queue. -/
def pushAllFront : {α β γ : Type} → Back ν V α β → Queue ν V β γ → Queue ν V α γ
  | _, _, _, .nil, q => q
  | _, _, _, .snoc rest k, q => pushAllFront rest (q.pushFront k)

/-- The continuations of `inner`, then those of `outer`. Only the shorter of the two queues is
    moved: `outer` to the end of `inner` if that is at least as long, and otherwise `inner`, its
    last continuation first, to the front of `outer`. -/
def prepend : {α β γ : Type} → Queue ν V α β → Queue ν V β γ → Queue ν V α γ
  | _, _, _, .mk n front back, .mk m front' back' =>
    if n ≥ m then
      (pushAll (.mk n front back) front').pushAll (back'.onto .nil)
    else
      pushAllFront (Front.reverseOnto .nil front) (pushAllFront back (.mk m front' back'))

@[simp] theorem contents_empty : (empty : Queue ν V α α).contents = .nil := rfl

theorem contents_push : {α β γ : Type} → (q : Queue ν V α β) → (k : β → Reached ν V γ) →
    (q.push k).contents = q.contents.append (.cons k .nil)
  | _, _, _, .mk _ front back, k => by
    simp only [push, contents, Back.onto, Front.append_assoc, Back.onto_append, Front.append]

theorem contents_pushFront : {α β γ : Type} → (k : α → Reached ν V β) → (q : Queue ν V β γ) →
    (pushFront k q).contents = .cons k q.contents
  | _, _, _, _, .mk _ _ _ => rfl

theorem contents_pushAll : {α β γ : Type} → (q : Queue ν V α β) → (f : Front ν V β γ) →
    (q.pushAll f).contents = q.contents.append f
  | _, _, _, q, .nil => (Front.append_nil _).symm
  | _, _, _, q, .cons k rest => by
    rw [pushAll, contents_pushAll (q.push k) rest, contents_push, Front.append_assoc]
    rfl

theorem contents_pushAllFront : {α β γ : Type} → (b : Back ν V α β) → (q : Queue ν V β γ) →
    (pushAllFront b q).contents = b.onto q.contents
  | _, _, _, .nil, _ => rfl
  | _, _, _, .snoc rest k, q => by
    rw [pushAllFront, contents_pushAllFront rest (q.pushFront k), contents_pushFront]
    rfl

/-- Whichever queue is moved, all of `inner` comes before all of `outer`. -/
theorem contents_prepend : {α β γ : Type} → (inner : Queue ν V α β) → (outer : Queue ν V β γ) →
    (inner.prepend outer).contents = inner.contents.append outer.contents
  | _, _, _, .mk n front back, .mk m front' back' => by
    simp only [prepend]
    split
    · rw [contents_pushAll, contents_pushAll, Front.append_assoc]
      rfl
    · rw [contents_pushAllFront, contents_pushAllFront, Back.onto_reverseOnto]
      simp only [contents, Back.onto, Front.append_assoc, Back.onto_append, Front.append]

end Queue

end FreeMonad
