import FreeMonad.Vocabulary.Basic

set_option autoImplicit false

/-! # Programs over a vocabulary

A program either is finished, or is one step whose reply is the rest of the program, or is a
composition that has not been evaluated: a *head* to compute first and a queue of continuations
to feed its result through. The types of the intermediate results are hidden inside the queue,
each continuation taking exactly what the one before it produces.

The five types are defined together because they hold one another: a continuation returns a
program that was *reached*, with the events recorded on the way to it, and a queue holds
continuations. -/

namespace FreeMonad

mutual

/-- A program that issues steps of `V` and produces an `α`. -/
inductive Program (ν : Type) (V : Vocabulary) : Type → Type 1 where
  /-- A finished program. -/
  | pure {α : Type} (value : α) : Program ν V α
  /-- One pending step; answering it reaches the rest of the program. -/
  | suspend {α : Type} (op : V.Op) (reply : V.Answer op → Reached ν V α) : Program ν V α
  /-- An unevaluated composition: `head` first, then every continuation of `queue` in order. -/
  | compose {α β : Type} (head : Unit → Reached ν V α) (queue : Queue ν V α β) : Program ν V β

/-- A program and the events recorded on the way to it, oldest first. -/
inductive Reached (ν : Type) (V : Vocabulary) : Type → Type 1 where
  | mk {α : Type} (log : List (Event ν)) (program : Program ν V α) : Reached ν V α

/-- Continuations from an `α` to a program of a `β`, with their number. -/
inductive Queue (ν : Type) (V : Vocabulary) : Type → Type → Type 1 where
  | mk {α β γ : Type} (size : Nat) (front : Front ν V α β) (back : Back ν V β γ) : Queue ν V α γ

/-- Continuations written from the first one on. -/
inductive Front (ν : Type) (V : Vocabulary) : Type → Type → Type 1 where
  | nil {α : Type} : Front ν V α α
  | cons {α β γ : Type} (first : α → Reached ν V β) (rest : Front ν V β γ) : Front ν V α γ

/-- Continuations written from the last one on. -/
inductive Back (ν : Type) (V : Vocabulary) : Type → Type → Type 1 where
  | nil {α : Type} : Back ν V α α
  | snoc {α β γ : Type} (rest : Back ν V α β) (last : β → Reached ν V γ) : Back ν V α γ

end

variable {ν : Type} {V : Vocabulary} {α : Type}

/-! ## Programs that were reached -/

namespace Reached

/-- The events recorded on the way. -/
def log : {α : Type} → Reached ν V α → List (Event ν)
  | _, .mk log _ => log

/-- The program reached. -/
def program : {α : Type} → Reached ν V α → Program ν V α
  | _, .mk _ program => program

/-- A program reached without any event. -/
def quietly (p : Program ν V α) : Reached ν V α := .mk [] p

/-- The value of a traced computation of a program. -/
def ofTraced (m : Traced ν (Program ν V α)) : Reached ν V α := .mk m.log m.value

/-- A reached program as a traced value. -/
def toTraced (r : Reached ν V α) : Traced ν (Program ν V α) := ⟨r.log, r.program⟩

@[simp] theorem log_mk (l : List (Event ν)) (p : Program ν V α) : (mk l p).log = l := rfl
@[simp] theorem program_mk (l : List (Event ν)) (p : Program ν V α) : (mk l p).program = p := rfl
@[simp] theorem log_ofTraced (m : Traced ν (Program ν V α)) : (ofTraced m).log = m.log := rfl
@[simp] theorem program_ofTraced (m : Traced ν (Program ν V α)) :
    (ofTraced m).program = m.value := rfl
@[simp] theorem log_toTraced (r : Reached ν V α) : r.toTraced.log = r.log := rfl
@[simp] theorem value_toTraced (r : Reached ν V α) : r.toTraced.value = r.program := rfl
@[simp] theorem ofTraced_toTraced (r : Reached ν V α) : ofTraced r.toTraced = r := by cases r; rfl
@[simp] theorem toTraced_ofTraced (m : Traced ν (Program ν V α)) : (ofTraced m).toTraced = m := rfl

end Reached

end FreeMonad
