import FreeMonad.Run.Host
import FreeMonad.Script.Expr
import FreeMonad.Script.Form
import FreeMonad.Script.World

set_option autoImplicit false

/-! # Trying out hosts

The hosts that scripts can name have values as errors. A computation in a host is tried out by
mapping functions over it, and the iteration of a host by a function that says after each turn
whether to go on, to finish or to fail. -/

namespace FreeMonad

/-- The hosts of scripts; their errors are values. -/
inductive ValueHost where
  | identity
  | option
  | result
  deriving DecidableEq, Repr

namespace ValueHost

/-- The host of the library. -/
def host : ValueHost → Host
  | .identity => .identity
  | .option => .option
  | .result => .result Value

/-- A computation that failed with a value. The host that cannot fail gives the value, as the
    result that `result` makes of it. -/
def failed {α : Type} (result : Value → α) : (M : ValueHost) → Value → M.host.Carrier α
  | .identity, v => result v
  | .option, _ => none
  | .result, v => .error v

/-- What a computation shows. -/
def shown : (M : ValueHost) → M.host.Carrier Value → Form
  | .identity, v => .one "ok" (.ofValue v)
  | .option, some v => .one "ok" (.ofValue v)
  | .option, none => .nothing
  | .result, .ok v => .one "ok" (.ofValue v)
  | .result, .error v => .one "err" (.ofValue v)

/-- Maps functions over a computation, one after the other; a failure calls none of them. -/
def mapEach (M : ValueHost) : List Fn1 → M.host.Carrier Value → Traced Note (M.host.Carrier Value)
  | [], m => .pure m
  | f :: rest, m =>
    match (M.host.split m : M.host.Carrier Value ⊕ Value) with
    | .inl failure => mapEach M rest failure
    | .inr v => (f.call [] v).bind fun v => mapEach M rest (M.host.pure v)

/-- One turn of an iteration: the function says what comes next, by a list of the word for it
    and a value. The states it is called with are kept, the first ones, with their number. -/
def turn (M : ValueHost) (step : Fn1) (seen : Nat × Array Value) (v : Value) :
    Traced Note ((Nat × Array Value) × M.host.Carrier (Value ⊕ Value)) :=
  (step.call [] v).map fun said =>
    ((seen.1 + 1, keep seen.2 v),
      match said.element 0 with
      | .text "next" => M.host.pure (.inl (said.element 1))
      | .text "fail" => M.failed .inr (said.element 1)
      | _ => M.host.pure (.inr (said.element 1)))

end ValueHost

end FreeMonad
