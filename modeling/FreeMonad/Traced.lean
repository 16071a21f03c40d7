set_option autoImplicit false

/-! # Values with a record of what happened

Programs, their continuations and their interpreters are pure functions here, yet the order in
which they are called is part of what a library for deferred programs promises. Every call
therefore returns a `Traced` value: the value together with the events recorded while it was
computed, oldest first. `Traced.bind` puts the events of the first computation before those of
the second, so a law between `Traced` values is a law about evaluation order as well.

`Traced` is a structure in every universe: programs hide the types of their intermediate
results and so live one universe above the values they return. -/

namespace FreeMonad

universe u v w

/-- The loops that drive a program to its end, as their events name them. -/
inductive Driver where
  /-- The loop inside a host: nothing, possible absence or possible failure. -/
  | hosted
  /-- The polled loop whose answers cannot fail. -/
  | async
  /-- The polled loop that stops at the first failed answer. -/
  | tryAsync
  deriving DecidableEq, Repr

/-- What can be recorded: an event of the program's author, or one of the library's own. -/
inductive Event (ν : Type) where
  /-- An event of a user's function or interpreter. -/
  | user (event : ν)
  /-- Step number `step` is about to be handed to the interpreter. -/
  | interpreting (driver : Driver) (step : Nat)
  /-- A driver reached the value of its program after `steps` steps. -/
  | finished (driver : Driver) (steps : Nat)
  /-- One step is about to be translated into another vocabulary. -/
  | translating
  deriving DecidableEq, Repr

/-- A value and the events recorded while it was computed, oldest first. -/
@[ext]
structure Traced (ν : Type) (α : Type u) where
  /-- The events, oldest first. -/
  log : List (Event ν)
  /-- The value computed. -/
  value : α

namespace Traced

variable {ν : Type} {α : Type u} {β : Type v} {γ : Type w}

/-- A value computed without any event. -/
def pure (a : α) : Traced ν α := ⟨[], a⟩

/-- Records one event. -/
def emit (e : Event ν) : Traced ν Unit := ⟨[e], ()⟩

/-- Puts `events` before everything `m` recorded. -/
def after (events : List (Event ν)) (m : Traced ν α) : Traced ν α := ⟨events ++ m.log, m.value⟩

/-- Changes the value and records nothing. -/
def map (f : α → β) (m : Traced ν α) : Traced ν β := ⟨m.log, f m.value⟩

/-- Computes `m`, then `f` on its value; the events of `m` come first. -/
def bind (m : Traced ν α) (f : α → Traced ν β) : Traced ν β :=
  let r := f m.value
  ⟨m.log ++ r.log, r.value⟩

/-! ## What the operations record -/

@[simp] theorem log_pure (a : α) : (pure a : Traced ν α).log = [] := rfl
@[simp] theorem value_pure (a : α) : (pure a : Traced ν α).value = a := rfl
@[simp] theorem log_emit (e : Event ν) : (emit e).log = [e] := rfl
@[simp] theorem log_after (l : List (Event ν)) (m : Traced ν α) :
    (after l m).log = l ++ m.log := rfl
@[simp] theorem value_after (l : List (Event ν)) (m : Traced ν α) :
    (after l m).value = m.value := rfl
@[simp] theorem log_map (f : α → β) (m : Traced ν α) : (m.map f).log = m.log := rfl
@[simp] theorem value_map (f : α → β) (m : Traced ν α) : (m.map f).value = f m.value := rfl
@[simp] theorem log_bind (m : Traced ν α) (f : α → Traced ν β) :
    (m.bind f).log = m.log ++ (f m.value).log := rfl
@[simp] theorem value_bind (m : Traced ν α) (f : α → Traced ν β) :
    (m.bind f).value = (f m.value).value := rfl

/-! ## The laws of sequencing -/

@[simp] theorem pure_bind (a : α) (f : α → Traced ν β) : (pure a : Traced ν α).bind f = f a := by
  ext1 <;> simp

@[simp] theorem bind_pure (m : Traced ν α) : m.bind pure = m := by
  ext1 <;> simp

theorem bind_assoc (m : Traced ν α) (f : α → Traced ν β) (g : β → Traced ν γ) :
    (m.bind f).bind g = m.bind fun a => (f a).bind g := by
  ext1 <;> simp

theorem map_bind (m : Traced ν α) (f : α → Traced ν β) (g : β → γ) :
    (m.bind f).map g = m.bind fun a => (f a).map g := rfl

theorem bind_map (m : Traced ν α) (f : α → β) (g : β → Traced ν γ) :
    (m.map f).bind g = m.bind fun a => g (f a) := rfl

/-- What comes after a computation matters at its value only. -/
theorem bind_congr {m : Traced ν α} {f g : α → Traced ν β} (h : f m.value = g m.value) :
    m.bind f = m.bind g := by
  rw [bind, bind, h]

/-- Within one universe, tracing is a monad. -/
instance : Monad (Traced.{u} ν) where
  pure := Traced.pure
  bind := Traced.bind

end Traced

end FreeMonad
