import FreeMonad.Program.Widen
import FreeMonad.Script.Command

set_option autoImplicit false

/-! # Answering the steps of scripts

Whoever interprets a program describes a step, *consults* someone about it and gives the step
the answer. `Vocab.respond` does this for every vocabulary. A step of a plain vocabulary is given
the answer as it is. A request that stands for a step is either lowered first, or handled: then
the consultation happens inside the handler, and the conversion is applied to what the handler
returns, which is null if the step inside gave no payload. A request to the store is offered to
a handler for each type in turn.

The payload that results, if any, is one the step holds (`Vocab.exists_reply_of_respond`), so
the translators built from answering hand on nothing else, and their walks end. -/

namespace FreeMonad

universe u v

/-- How a request that stands for a step is answered. -/
inductive Via where
  | lower
  | handle
  deriving DecidableEq, Repr

variable {σ : Type u} {α : Type v}

/-- Gives a step of a plain vocabulary the answer of a consultation, if there is one and the
    step has answers. -/
def Plain.respond (p : Plain) (consult : Traced Note (σ × Option Value))
    (s : Step Note p.vocabulary α) : Traced Note (σ × Option α) :=
  consult.bind fun (state, answer) =>
    match answer.bind (p.answer s.op) with
    | some x => (s.reply x).map fun a => (state, some a)
    | none => .pure (state, none)

/-- Offers a request to the store to a handler for each of the types, in turn. -/
def respondStore (consult : Traced Note (σ × Option Value)) :
    List AnswerType → Coyoneda Note storeRequests α → Traced Note (σ × Option α)
  | [], _ => consult.map fun (state, _) => (state, none)
  | t :: rest, c =>
    match Coyoneda.handle t (fun _ => consult.map fun (state, answer) =>
        ((state, answer.isSome), t.ofValue (answer.getD .null))) c with
    | .inr m => m.map fun ((state, answered), a) => (state, if answered then some a else none)
    | .inl c => respondStore consult rest c

/-- Answers a step after a consultation: the state that the consultation leaves, and the payload
    of the step, if there is one. -/
def Vocab.respond (via : Via) (consult : Traced Note (σ × Option Value)) :
    (v : Vocab) → Step Note v.vocabulary α → Traced Note (σ × Option α)
  | .plain p, s => p.respond consult s
  | .coyo p, s =>
    match via with
    | .lower => (Coyoneda.lower s).bind fun t => p.respond consult t
    | .handle =>
      match Coyoneda.handle AnswerType.value (fun t =>
          (p.respond consult t).map fun (state, payload) =>
            ((state, payload.isSome), payload.getD .null)) s with
      | .inr m => m.map fun ((state, answered), a) => (state, if answered then some a else none)
      | .inl _ => consult.map fun (state, _) => (state, none)
  | .store, s => respondStore consult [.int, .str, .bool, .unit, .list] s

/-! ## Payloads come from the step -/

theorem Plain.exists_reply_of_respond {p : Plain} {consult : Traced Note (σ × Option Value)}
    {s : Step Note p.vocabulary α} {a : α} (h : (p.respond consult s).value.2 = some a) :
    ∃ x, (s.reply x).value = a := by
  unfold respond at h
  simp only [Traced.value_bind] at h
  split at h
  · exact ⟨_, Option.some.inj h⟩
  · exact nomatch h

theorem exists_reply_of_respondStore {consult : Traced Note (σ × Option Value)}
    {types : List AnswerType} {c : Coyoneda Note storeRequests α} {a : α}
    (h : (respondStore consult types c).value.2 = some a) : ∃ x, (c.reply x).value = a := by
  induction types generalizing c with
  | nil => exact nomatch h
  | cons t rest ih =>
    unfold respondStore at h
    split at h
    · next m hm =>
      obtain ⟨x, hx⟩ := Coyoneda.exists_reply_of_handle hm
      refine ⟨x, hx.trans ?_⟩
      simp only [Traced.value_map] at h
      split at h
      · exact Option.some.inj h
      · exact nomatch h
    · next d hd => exact Coyoneda.eq_of_handle_eq_inl hd ▸ ih h

/-- The payload that answering a step gives is one that the step holds. -/
theorem Vocab.exists_reply_of_respond {via : Via} {consult : Traced Note (σ × Option Value)}
    {v : Vocab} {s : Step Note v.vocabulary α} {a : α}
    (h : (v.respond via consult s).value.2 = some a) : ∃ x, (s.reply x).value = a := by
  cases v with
  | plain p => exact Plain.exists_reply_of_respond h
  | store => exact exists_reply_of_respondStore h
  | coyo p =>
    cases via with
    | lower =>
      obtain ⟨x, hx⟩ := Plain.exists_reply_of_respond (s := (Coyoneda.lower s).value) h
      obtain ⟨y, hy⟩ := Coyoneda.exists_reply_of_lower s x
      exact ⟨y, hy ▸ hx⟩
    | handle =>
      unfold respond at h
      simp only at h
      split at h
      · next m hm =>
        obtain ⟨x, hx⟩ := Coyoneda.exists_reply_of_handle hm
        refine ⟨x, hx.trans ?_⟩
        simp only [Traced.value_map] at h
        split at h
        · exact Option.some.inj h
        · exact nomatch h
      · exact nomatch h

end FreeMonad
