import FreeMonad.Traced

set_option autoImplicit false

/-! # Hosts

A host is a kind of computation in which a program can be run: one that just gives a value, one
that may give nothing, and one that may fail with an error. `Host.split` tells the failures of a
host, which carry no value and so fit every type, from its successes.

`Host.tailRec` iterates a step function inside a host. It stops at the first failure, which
becomes its own result, and otherwise when the step gives a final result. The iteration is a
loop with an explicit bound on its turns; if the bound is reached first, the state to go on with
is returned. -/

namespace FreeMonad

universe u v w

/-- The kinds of computation in which a program can run. -/
inductive Host : Type 1 where
  /-- A value and nothing else. -/
  | identity
  /-- A value or nothing. -/
  | option
  /-- A value or an error. -/
  | result (Error : Type)

namespace Host

/-- The computations of the host that give an `α`. -/
def Carrier : Host → Type u → Type u
  | .identity, α => α
  | .option, α => Option α
  | .result Error, α => Except Error α

/-- The computation that gives `a`. -/
def pure {α : Type u} : (M : Host) → α → M.Carrier α
  | .identity, a => a
  | .option, a => some a
  | .result _, a => .ok a

/-- Applies a function to the value, if there is one. -/
def map {α : Type u} {β : Type v} (f : α → β) : (M : Host) → M.Carrier α → M.Carrier β
  | .identity, a => f a
  | .option, none => none
  | .option, some a => some (f a)
  | .result _, .error e => .error e
  | .result _, .ok a => .ok (f a)

/-- A computation is a failure, which fits every type, or gives a value. -/
def split {α : Type u} {β : Type v} : (M : Host) → M.Carrier α → M.Carrier β ⊕ α
  | .identity, a => .inr a
  | .option, none => .inl none
  | .option, some a => .inr a
  | .result _, .error e => .inl (.error e)
  | .result _, .ok a => .inr a

@[simp] theorem split_pure {α : Type u} {β : Type v} (M : Host) (a : α) :
    (M.split (M.pure a) : M.Carrier β ⊕ α) = .inr a := by
  cases M <;> rfl

theorem split_map {α : Type u} {β : Type v} {γ : Type w} (M : Host) (f : α → β)
    (m : M.Carrier α) : (M.split (M.map f m) : M.Carrier γ ⊕ β) = (M.split m).map id f := by
  cases M with
  | identity => rfl
  | option => cases m <;> rfl
  | result Error => cases m <;> rfl

section Iteration

variable {ν : Type} {σ : Type u} {S : Type v} {β : Type w}

/-- The loop of `tailRec`; `recorded` holds the events so far, the latest first. -/
def iterate (M : Host) (step : σ → S → Traced ν (σ × M.Carrier (S ⊕ β))) :
    (turns : Nat) → (recorded : List (Event ν)) → σ → S → Traced ν (σ × (S ⊕ M.Carrier β))
  | 0, recorded, state, s => ⟨recorded.reverse, (state, .inl s)⟩
  | turns + 1, recorded, state, s =>
    let r := step state s
    let recorded := r.log.reverseAux recorded
    match M.split r.value.2 with
    | .inl failure => ⟨recorded.reverse, (r.value.1, .inr failure)⟩
    | .inr (.inr b) => ⟨recorded.reverse, (r.value.1, .inr (M.pure b))⟩
    | .inr (.inl s) => iterate M step turns recorded r.value.1 s

/-- Calls `step` on `s`, then on each state it gives (on the left), until it gives a result (on
    the right) or fails, at most `turns` times. The step may keep a state of its own. If the
    turns do not suffice, the state to go on with is returned on the left. -/
def tailRec (M : Host) (step : σ → S → Traced ν (σ × M.Carrier (S ⊕ β))) (turns : Nat)
    (state : σ) (s : S) : Traced ν (σ × (S ⊕ M.Carrier β)) :=
  M.iterate step turns [] state s

/-- A run that came to its result comes to the same one with more turns. -/
theorem iterate_add {M : Host} {step : σ → S → Traced ν (σ × M.Carrier (S ⊕ β))} {turns : Nat}
    (extra : Nat) {recorded log : List (Event ν)} {state state' : σ} {s : S} {r : M.Carrier β}
    (h : M.iterate step turns recorded state s = ⟨log, (state', .inr r)⟩) :
    M.iterate step (turns + extra) recorded state s = ⟨log, (state', .inr r)⟩ := by
  induction turns generalizing recorded state s with
  | zero => exact nomatch h
  | succ turns ih =>
    rw [Nat.succ_add]
    rw [iterate] at h ⊢
    rcases hr : (M.split (step state s).value.2 : M.Carrier β ⊕ _) with failure | s' | b
    · rw [hr] at h
      exact h
    · rw [hr] at h
      exact ih h
    · rw [hr] at h
      exact h

end Iteration

end Host

end FreeMonad
