import Mathlib.Tactic.Choose
import FreeMonad.Proofs.ByHand

set_option autoImplicit false

/-! # Iterating a step inside a host

The loop of a host (`Host.tailRec`) is stopped after a number of turns, since a step need not ever
come to a result. If it does, the number of turns is of no account: the loop comes to one and the
same outcome with any number that suffices (`Host.LoopsTo`). That outcome obeys the law of
recursion: one call of the step, and then the loop from the state that the call gives, unless the
call gives the result or fails.

The iteration without its loop is `Host.Iterates`: the states that the step is called on, in order,
and what is made of the last call. The loop comes to an outcome exactly if the iteration does
(`Host.loopsTo_iff_iterates`), and takes one turn for each call. What holds of the loop is then
proved by induction on the calls.

A loop can be moved to another host, step by step (`Host.Moves`): it takes the same turns, and its
outcome is moved as well (`Host.tailRec_moved`). -/

namespace FreeMonad

universe u v w

namespace Host

variable {ν : Type} {M N : Host} {σ : Type u} {S : Type v} {β : Type w}

/-! ## The loop and the iteration -/

/-- With enough turns, and with any larger number of them, the loop comes to `out`: the last state
    of the step and the result, and the events of all calls. -/
def LoopsTo (M : Host) (step : σ → S → Traced ν (σ × M.Carrier (S ⊕ β))) (state : σ) (s : S)
    (out : Traced ν (σ × M.Carrier β)) : Prop :=
  ∃ enough, ∀ turns, enough ≤ turns →
    M.tailRec step turns state s = out.map fun r => (r.1, .inr r.2)

/-- What the call of `step` on `s` makes of the iteration: a failure and a result are what it comes
    to, and a next state is where `rest` goes on, with the step's own state as the call left it. -/
def Unfolds (M : Host) (step : σ → S → Traced ν (σ × M.Carrier (S ⊕ β)))
    (rest : σ → S → Traced ν (σ × M.Carrier β) → Prop) (state : σ) (s : S)
    (out : Traced ν (σ × M.Carrier β)) : Prop :=
  match (M.split (step state s).value.2 : M.Carrier β ⊕ (S ⊕ β)) with
  | .inl failure => out = (step state s).map fun r => (r.1, failure)
  | .inr (.inr b) => out = (step state s).map fun r => (r.1, M.pure b)
  | .inr (.inl s') => ∃ out', rest (step state s).value.1 s' out' ∧
      out = out'.after (step state s).log

/-- Calling `step` on `s`, and then on each state that it gives, comes to `out`. The list holds the
    states that it is called on, in order. -/
inductive Iterates (M : Host) (step : σ → S → Traced ν (σ × M.Carrier (S ⊕ β))) :
    σ → S → List S → Traced ν (σ × M.Carrier β) → Prop where
  | fails {state : σ} {s : S} {failure : M.Carrier β}
      (h : (M.split (step state s).value.2 : M.Carrier β ⊕ (S ⊕ β)) = .inl failure) :
      Iterates M step state s [s] ((step state s).map fun r => (r.1, failure))
  | ends {state : σ} {s : S} {b : β}
      (h : (M.split (step state s).value.2 : M.Carrier β ⊕ (S ⊕ β)) = .inr (.inr b)) :
      Iterates M step state s [s] ((step state s).map fun r => (r.1, M.pure b))
  | goesOn {state : σ} {s s' : S} {calls : List S} {out : Traced ν (σ × M.Carrier β)}
      (h : (M.split (step state s).value.2 : M.Carrier β ⊕ (S ⊕ β)) = .inr (.inl s'))
      (rest : Iterates M step (step state s).value.1 s' calls out) :
      Iterates M step state s (s :: calls) (out.after (step state s).log)

variable {step : σ → S → Traced ν (σ × M.Carrier (S ⊕ β))} {state : σ} {s : S} {calls : List S}
  {out : Traced ν (σ × M.Carrier β)}

theorem tailRec_of_fails {failure : M.Carrier β}
    (h : (M.split (step state s).value.2 : M.Carrier β ⊕ (S ⊕ β)) = .inl failure) (turns : Nat) :
    M.tailRec step (turns + 1) state s = (step state s).map fun r => (r.1, .inr failure) := by
  rw [tailRec_succ]
  ext1
  · simp [h]
  · simp [h]

theorem tailRec_of_ends {b : β}
    (h : (M.split (step state s).value.2 : M.Carrier β ⊕ (S ⊕ β)) = .inr (.inr b)) (turns : Nat) :
    M.tailRec step (turns + 1) state s = (step state s).map fun r => (r.1, .inr (M.pure b)) := by
  rw [tailRec_succ]
  ext1
  · simp [h]
  · simp [h]

theorem tailRec_of_goesOn {s' : S}
    (h : (M.split (step state s).value.2 : M.Carrier β ⊕ (S ⊕ β)) = .inr (.inl s')) (turns : Nat) :
    M.tailRec step (turns + 1) state s
      = (M.tailRec step turns (step state s).value.1 s').after (step state s).log := by
  rw [tailRec_succ]
  ext1
  · simp [h]
  · simp [h]

namespace Iterates

/-- The loop takes one turn for each call, and with these turns and any more it comes to what the
    iteration comes to. -/
theorem tailRec_of_le (h : Iterates M step state s calls out) {turns : Nat}
    (hle : calls.length ≤ turns) :
    M.tailRec step turns state s = out.map fun r => (r.1, .inr r.2) := by
  induction h generalizing turns with
  | fails h =>
    obtain ⟨turns, rfl⟩ := Nat.exists_eq_add_of_le' hle
    exact tailRec_of_fails h turns
  | ends h =>
    obtain ⟨turns, rfl⟩ := Nat.exists_eq_add_of_le' hle
    exact tailRec_of_ends h turns
  | goesOn h rest ih =>
    obtain ⟨turns, rfl⟩ := Nat.exists_eq_succ_of_ne_zero (Nat.ne_zero_of_lt hle)
    rw [tailRec_of_goesOn h, ih (Nat.le_of_succ_le_succ hle)]
    rfl

/-- With fewer turns than there are calls, the loop stops before the call that is next. -/
theorem tailRec_of_lt (h : Iterates M step state s calls out) {turns : Nat}
    (hlt : turns < calls.length) :
    (M.tailRec step turns state s).value.2 = .inl calls[turns] := by
  induction h generalizing turns with
  | fails h =>
    obtain rfl : turns = 0 := Nat.lt_one_iff.1 hlt
    rfl
  | ends h =>
    obtain rfl : turns = 0 := Nat.lt_one_iff.1 hlt
    rfl
  | goesOn h rest ih =>
    cases turns with
    | zero => rfl
    | succ turns =>
      rw [tailRec_of_goesOn h]
      exact ih (Nat.lt_of_succ_lt_succ hlt)

theorem loopsTo (h : Iterates M step state s calls out) : M.LoopsTo step state s out :=
  ⟨calls.length, fun _ => h.tailRec_of_le⟩

end Iterates

/-- A loop that comes to a result within some turns is an iteration. -/
theorem exists_iterates {turns : Nat} {log : List (Event ν)} {state' : σ} {r : M.Carrier β}
    (h : M.tailRec step turns state s = ⟨log, (state', .inr r)⟩) :
    ∃ calls, Iterates M step state s calls ⟨log, (state', r)⟩ := by
  induction turns generalizing state s log with
  | zero => cases h
  | succ turns ih =>
    rcases hsplit : (M.split (step state s).value.2 : M.Carrier β ⊕ (S ⊕ β)) with failure | s' | b
    · rw [tailRec_of_fails hsplit] at h
      cases h
      exact ⟨[s], .fails hsplit⟩
    · rw [tailRec_of_goesOn hsplit] at h
      rcases hrest : M.tailRec step turns (step state s).value.1 s' with ⟨log', state'', o⟩
      rw [hrest] at h
      cases h
      obtain ⟨calls, hcalls⟩ := ih hrest
      exact ⟨s :: calls, .goesOn hsplit hcalls⟩
    · rw [tailRec_of_ends hsplit] at h
      cases h
      exact ⟨[s], .ends hsplit⟩

theorem loopsTo_iff_iterates :
    M.LoopsTo step state s out ↔ ∃ calls, Iterates M step state s calls out := by
  constructor
  · rintro ⟨enough, h⟩
    exact exists_iterates (h enough (Nat.le_refl enough))
  · rintro ⟨calls, h⟩
    exact h.loopsTo

/-- The loop has one outcome. -/
theorem LoopsTo.unique {out' : Traced ν (σ × M.Carrier β)} (h : M.LoopsTo step state s out)
    (h' : M.LoopsTo step state s out') : out = out' := by
  obtain ⟨n, hn⟩ := h
  obtain ⟨m, hm⟩ := h'
  have hboth := (hn (max n m) (Nat.le_max_left n m)).symm.trans (hm _ (Nat.le_max_right n m))
  obtain ⟨log, state', r⟩ := out
  obtain ⟨log', state'', r'⟩ := out'
  cases hboth
  rfl

/-- The law of recursion: the loop is one call of the step and then what the call makes of it. -/
theorem loopsTo_iff_unfolds :
    M.LoopsTo step state s out ↔ M.Unfolds step (M.LoopsTo step) state s out := by
  rw [Unfolds]
  rcases hsplit : (M.split (step state s).value.2 : M.Carrier β ⊕ (S ⊕ β)) with failure | s' | b
  · have hfails := (Iterates.fails hsplit).loopsTo
    exact ⟨fun h => h.unique hfails, fun h => h ▸ hfails⟩
  · constructor
    · intro hloops
      obtain ⟨calls, hcalls⟩ := loopsTo_iff_iterates.1 hloops
      cases hcalls with
      | fails h => cases hsplit.symm.trans h
      | ends h => cases hsplit.symm.trans h
      | goesOn h rest =>
        cases hsplit.symm.trans h
        exact ⟨_, rest.loopsTo, rfl⟩
    · rintro ⟨out', h, rfl⟩
      obtain ⟨calls, hcalls⟩ := loopsTo_iff_iterates.1 h
      exact (Iterates.goesOn hsplit hcalls).loopsTo
  · have hends := (Iterates.ends hsplit).loopsTo
    exact ⟨fun h => h.unique hends, fun h => h ▸ hends⟩

/-! ## The calls of the step -/

/-- The step that also keeps, in its own state, what it was called on. -/
def recording (step : σ → S → Traced ν (σ × M.Carrier (S ⊕ β))) :
    σ × List S → S → Traced ν ((σ × List S) × M.Carrier (S ⊕ β)) := fun state s =>
  (step state.1 s).map fun r => ((r.1, state.2 ++ [s]), r.2)

/-- The calls of an iteration are the calls of its step. -/
theorem Iterates.recording (h : Iterates M step state s calls out) (seen : List S) :
    Iterates M (Host.recording step) (state, seen) s calls
      (out.map fun r => ((r.1, seen ++ calls), r.2)) := by
  induction h generalizing seen with
  | fails h => exact .fails h
  | ends h => exact .ends h
  | @goesOn state s s' calls out h rest ih =>
    have hrest := ih (seen ++ [s])
    rw [List.append_assoc] at hrest
    show Iterates M (Host.recording step) (state, seen) s (s :: calls)
      ((out.map fun r => ((r.1, seen ++ s :: calls), r.2)).after (step state s).log)
    exact .goesOn h hrest

/-! ## Moving to another host -/

/-- Steps are moved from `M` to `N` by `move`, and results by `moveResult`: the two agree on
    failures, and move successes to successes. -/
structure Moves (M N : Host) (move : M.Carrier (S ⊕ β) → N.Carrier (S ⊕ β))
    (moveResult : M.Carrier β → N.Carrier β) : Prop where
  split (m : M.Carrier (S ⊕ β)) : (N.split (move m) : N.Carrier β ⊕ (S ⊕ β))
    = (M.split m : M.Carrier β ⊕ (S ⊕ β)).map moveResult id
  pure (b : β) : moveResult (M.pure b) = N.pure b

/-- The step with what it gives moved to another host. -/
def moved (move : M.Carrier (S ⊕ β) → N.Carrier (S ⊕ β))
    (step : σ → S → Traced ν (σ × M.Carrier (S ⊕ β))) :
    σ → S → Traced ν (σ × N.Carrier (S ⊕ β)) := fun state s =>
  (step state s).map fun r => (r.1, move r.2)

/-- The loop of a moved step is the moved loop, turn by turn. -/
theorem tailRec_moved {move : M.Carrier (S ⊕ β) → N.Carrier (S ⊕ β)}
    {moveResult : M.Carrier β → N.Carrier β} (h : Moves M N move moveResult)
    (step : σ → S → Traced ν (σ × M.Carrier (S ⊕ β))) (turns : Nat) (state : σ) (s : S) :
    N.tailRec (moved move step) turns state s
      = (M.tailRec step turns state s).map fun r => (r.1, r.2.map id moveResult) := by
  induction turns generalizing state s with
  | zero => rfl
  | succ turns ih =>
    -- what the moved step gives is split as what the step gives
    have hmoved := h.split (step state s).value.2
    rcases hsplit : (M.split (step state s).value.2 : M.Carrier β ⊕ (S ⊕ β)) with failure | s' | b
    · rw [hsplit] at hmoved
      rw [tailRec_of_fails hsplit]
      exact tailRec_of_fails hmoved turns
    · rw [hsplit] at hmoved
      rw [tailRec_of_goesOn hsplit]
      refine (tailRec_of_goesOn hmoved turns).trans ?_
      exact congrArg (Traced.after (step state s).log) (ih _ s')
    · rw [hsplit] at hmoved
      rw [tailRec_of_ends hsplit]
      refine (tailRec_of_ends hmoved turns).trans ?_
      exact Traced.ext rfl (Prod.ext rfl (congrArg Sum.inr (h.pure b).symm))

theorem moves_pure (M : Host) : Moves (S := S) (β := β) .identity M M.pure M.pure where
  split next := split_pure M next
  pure _ := rfl

theorem moves_toOption (Error : Type) :
    Moves (S := S) (β := β) (.result Error) .option Except.toOption Except.toOption where
  split m := by cases m <;> rfl
  pure _ := rfl

/-- Every call of the step is a success. -/
def NeverFails (M : Host) (step : σ → S → Traced ν (σ × M.Carrier (S ⊕ β))) : Prop :=
  ∀ state s, ∃ next, (step state s).value.2 = M.pure next

/-- A step that never fails is a plain step, moved to the host. -/
theorem NeverFails.exists_moved (h : M.NeverFails step) :
    ∃ plain : σ → S → Traced ν (σ × (S ⊕ β)), step = moved (M := .identity) M.pure plain := by
  choose next hnext using h
  refine ⟨fun state s => (step state s).map fun r => (r.1, next state s), ?_⟩
  funext state s
  refine Traced.ext rfl (Prod.ext rfl ?_)
  exact hnext state s

/-! ## The laws of iterating -/

/-- Looping is iterating the step. -/
structure IteratesStep (M : Host) (step : σ → S → Traced ν (σ × M.Carrier (S ⊕ β))) : Prop where
  /-- The law of recursion. -/
  unfolds {state : σ} {s : S} {out : Traced ν (σ × M.Carrier β)} :
    M.LoopsTo step state s out ↔ M.Unfolds step (M.LoopsTo step) state s out
  /-- The loop comes to an outcome exactly if the calls of the step, one after the other, do. -/
  iterates {state : σ} {s : S} {out : Traced ν (σ × M.Carrier β)} :
    M.LoopsTo step state s out ↔ ∃ calls, M.Iterates step state s calls out
  /-- The step is called on these states, once each and in this order, and on no other. -/
  calls {state : σ} {s : S} {calls : List S} {out : Traced ν (σ × M.Carrier β)}
    (h : M.Iterates step state s calls out) :
    M.LoopsTo (recording step) (state, []) s (out.map fun r => ((r.1, calls), r.2))
  /-- Each call takes one turn of the loop. -/
  turns {state : σ} {s : S} {calls : List S} {out : Traced ν (σ × M.Carrier β)}
    (h : M.Iterates step state s calls out) {turns : Nat} (hlt : turns < calls.length) :
    (M.tailRec step turns state s).value.2 = .inl calls[turns]

/-- **The loop of a host is the iteration of its step.** It is one call of the step followed by the
    loop from the next state, or by nothing if that call gives the result or fails; so the step is
    called once on each state up to the first such call, and not again. A step that never fails
    comes, in every host, to the success of what it comes to without a host, and a loop whose errors
    are forgotten comes to what the loop of a step does that is merely absent where there is an
    error. -/
theorem tailRec_iterates :
    (∀ (M : Host) (step : σ → S → Traced ν (σ × M.Carrier (S ⊕ β))), M.IteratesStep step) ∧
    (∀ (M : Host) (step : σ → S → Traced ν (σ × M.Carrier (S ⊕ β))), M.NeverFails step →
      ∃ plain : σ → S → Traced ν (σ × (S ⊕ β)), step = moved (M := .identity) M.pure plain ∧
        ∀ turns state s, M.tailRec step turns state s
          = (Host.identity.tailRec plain turns state s).map fun r => (r.1, r.2.map id M.pure)) ∧
    (∀ (Error : Type) (step : σ → S → Traced ν (σ × Except Error (S ⊕ β))) (turns : Nat) (state : σ)
      (s : S), Host.option.tailRec (moved (M := .result Error) Except.toOption step) turns state s
        = ((Host.result Error).tailRec step turns state s).map fun r =>
          (r.1, r.2.map id Except.toOption)) := by
  refine ⟨fun M step => ?_, fun M step hstep => ?_, fun Error step => ?_⟩
  · constructor
    case unfolds => exact loopsTo_iff_unfolds
    case iterates => exact loopsTo_iff_iterates
    case calls => exact fun h => (h.recording []).loopsTo
    case turns => exact fun h _ => h.tailRec_of_lt
  · obtain ⟨plain, rfl⟩ := hstep.exists_moved
    exact ⟨plain, rfl, tailRec_moved M.moves_pure plain⟩
  · exact tailRec_moved (moves_toOption Error) step

/-- Counts its calls and goes up, but not beyond three. -/
def upToThree (count n : Nat) : Traced Empty (Nat × Option (Nat ⊕ Bool)) :=
  .pure (count + 1, if n = 3 then none else some (.inl (n + 1)))

/-- Counts down to nothing, in a host that could fail. -/
def countDown (count n : Nat) : Traced Empty (Nat × Except String (Nat ⊕ Bool)) :=
  .pure (count + 1, .ok (if n = 0 then .inr true else .inl (n - 1)))

/-- Going up takes four calls, of which the last one fails; counting down from two takes three, and
    comes to the same with the host and without it. -/
theorem upToThree_iterates :
    Host.option.Iterates upToThree 0 0 [0, 1, 2, 3] (.pure (4, none)) ∧
    Host.option.LoopsTo (recording (M := .option) upToThree) (0, []) 0
      (.pure ((4, [0, 1, 2, 3]), none)) ∧
    (Host.result String).NeverFails countDown ∧
    ∃ plain, countDown = moved (M := .identity) (Host.result String).pure plain ∧
      (Host.identity.tailRec plain 3 0 2).map (fun r => (r.1, r.2.map id (Host.result String).pure))
        = .pure (3, .inr (.ok true)) := by
  obtain ⟨hiterates, hnever, -⟩ := tailRec_iterates (ν := Empty) (σ := Nat) (S := Nat) (β := Bool)
  have hcalls : Host.option.Iterates upToThree 0 0 [0, 1, 2, 3] (.pure (4, none)) :=
    .goesOn rfl (.goesOn rfl (.goesOn rfl (.fails rfl)))
  have hcountDown : (Host.result String).NeverFails countDown := fun _ _ => ⟨_, rfl⟩
  obtain ⟨plain, hplain, hmoved⟩ := hnever (.result String) countDown hcountDown
  refine ⟨hcalls, (hiterates .option upToThree).calls hcalls, hcountDown, plain, hplain, ?_⟩
  exact (hmoved 3 0 2).symm

end Host

end FreeMonad
