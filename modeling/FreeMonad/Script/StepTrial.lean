import FreeMonad.Script.Form
import FreeMonad.Script.Respond

set_option autoImplicit false

/-! # Trying out steps

The step of a command is tried out without a program: functions are mapped over it, or it is
projected and injected at the branches of a sum, and then it is answered to show its payload. -/

namespace FreeMonad

/-- A description with the payload that answering the step gave. -/
def shownPayload (description : Value) (payload : Option Value) : Form :=
  .list [.ofValue description,
    match payload with
    | some v => .one "ok" (.ofValue v)
    | none => .text "no payload"]

/-- Answers a step and shows its description and its payload. -/
def answered (via : Via) (answer : Value) (v : Vocab) (s : Step Note v.vocabulary Value) :
    Traced Note Form :=
  (v.respond via (.pure ((), some answer)) s).map fun (_, payload) =>
    shownPayload (v.describe s.op) payload

/-- Maps functions over a step, one after the other. -/
def mapEach {V : Vocabulary} : List Fn1 → Step Note V Value → Traced Note (Step Note V Value)
  | [], s => .pure s
  | f :: rest, s => (s.mapTraced (f.call [])).bind (mapEach rest)

/-- Makes a step anew for each number of functions, from none to all, maps as many over it, and
    answers it. -/
def mappings (via : Via) (v : Vocab) (make : Traced Note (Step Note v.vocabulary Value))
    (fns : List Fn1) (answer : Value) : Traced Note (List Form) :=
  go (fns.length + 1) 0
where
  /-- The results for `n`, `n + 1`, … functions. -/
  go : Nat → Nat → Traced Note (List Form)
  | 0, _ => .pure []
  | left + 1, n =>
    make.bind fun s => (mapEach (fns.take n) s).bind fun s =>
      (answered via answer v s).bind fun shown => (go left (n + 1)).map fun more => shown :: more

/-- Projects a step at a place and injects it there again: whether it was found, and the step. -/
def Place.roundTrip {p q : Plain} (place : Place p q) (s : Step Note q.vocabulary Value) :
    Bool × Step Note q.vocabulary Value :=
  match place.branch.project s with
  | .ok t => (true, place.branch.inject t)
  | .error t => (false, t)

/-- Puts a step through places in turn: whether each found it, and the step in the end. -/
def roundTrips {q : Plain} : List ((p : Plain) × Place p q) → Step Note q.vocabulary Value →
    List Bool × Step Note q.vocabulary Value
  | [], s => ([], s)
  | ⟨_, place⟩ :: rest, s =>
    let (found, s) := place.roundTrip s
    let (more, s) := roundTrips rest s
    (found :: more, s)

end FreeMonad
