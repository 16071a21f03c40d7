import FreeMonad.Script.Conversion
import FreeMonad.Script.Run
import FreeMonad.Script.Side
import FreeMonad.Script.StepTrial
import FreeMonad.Script.ValueHost

set_option autoImplicit false

/-! # Operations

An operation runs a script or tries out one part of the library. Carrying it out gives the
fields of its answer, and its events are the log of that computation. -/

namespace FreeMonad

/-- Something to do, with everything it needs. -/
inductive Operation where
  /-- Runs a script. -/
  | run (run : Run)
  /-- Maps functions over a step, made anew each time, and answers it. -/
  | mapStep (via : Via) (v : Vocab) (make : Traced Note (Step Note v.vocabulary Value))
      (fns : List Fn1) (answer : Value)
  /-- Projects and injects a step at places, and answers it. -/
  | project (q : Plain) (make : Traced Note (Step Note q.vocabulary Value))
      (places : List ((p : Plain) × Place p q)) (answer : Value)
  /-- Tries out a conversion of a step of a container, as a request for its payload. -/
  | convertStep (kind : RequestKind) (p : Plain) (t : AnswerType)
      (s : Step Note p.vocabulary t.El) (trials : List Trial)
  /-- Tries out a conversion of a request to the store. -/
  | convertStore (t : AnswerType) (command : Value) (trials : List Trial)
  /-- Tries out a value on either side. -/
  | side (e : Value ⊕ Value) (trials : List SideTrial)
  /-- Iterates a function in a host. -/
  | iterate (M : ValueHost) (start : Expr) (step : Fn1)
  /-- Maps functions over a computation: of a value, or one that failed with a value. -/
  | mapHost (M : ValueHost) (start : Expr ⊕ Value) (fns : List Fn1)
  /-- Shows a wrapped value and compares it with another. -/
  | wrap (v other : Value)

namespace Operation

/-- What a run comes to. -/
def shownResult : RunResult → Form
  | .ok v => .one "ok" (.ofValue v)
  | .none => .nothing
  | .err message => .one "err" (.text message)
  | .cancelled => .one "cancelled" (.bool true)
  | .pending => .one "pending" (.bool true)

/-- A field that is left out if there is nothing to show. -/
def optional (name : String) : Option Form → List (String × Form)
  | some f => [(name, f)]
  | none => []

/-- What a program shows. -/
def shownView (view : View) : Form :=
  .record <| [("is_pure", .bool view.isPure), ("debug", .text view.debug)]
    ++ optional "pretty" (view.pretty.map .text)
    ++ optional "resume" (view.resumesToValue.map fun b => .text (if b then "right" else "left"))

/-- The fields of a report. -/
def shownReport (r : Report) : List (String × Form) :=
  [("result", shownResult r.result), ("count", .nat r.world.count),
    ("steps", .list (r.world.steps.toList.map .ofValue)),
    ("lines", .list (r.world.lines.toList.map .text)), ("state", .int r.world.state)]
    ++ optional "views" (r.views.map fun views => .list (views.toList.map shownView))
    ++ optional "polls" (r.polls.map .nat)

/-- The result of an iteration, which is pending if it is out of turns. -/
def shownIteration (M : ValueHost) : Value ⊕ M.host.Carrier Value → Form
  | .inl _ => shownResult .pending
  | .inr m => M.shown m

/-- Carries out an operation: the fields of its answer. -/
def perform : Operation → Traced Note (List (String × Form))
  | .run r => r.perform.map shownReport
  | .mapStep via v make fns answer =>
    (mappings via v make fns answer).map fun shown => [("results", .list shown)]
  | .project q make places answer =>
    make.bind fun s =>
      let (found, s) := roundTrips places s
      (answered .lower answer (.plain q) s).map fun shown =>
        [("tries", .list (found.map fun b => .text (if b then "ok" else "err"))),
          ("step", shown)]
  | .convertStep kind p t s trials =>
    ((Requestable.steps kind p).conversions t s trials).map fun shown => [("results", .list shown)]
  | .convertStore t command trials =>
    (Requestable.store.conversions t command trials).map fun shown => [("results", .list shown)]
  | .side e trials => (SideTrial.performAll trials e).map fun shown => [("results", .list shown)]
  | .iterate M start step =>
    (start.eval []).bind fun v =>
      (M.host.tailRec (M.turn step) Run.turns (0, #[]) v).map fun ((calls, states), result) =>
        [("result", shownIteration M result), ("calls", .nat calls),
          ("states", .list (states.toList.map .ofValue))]
  | .mapHost M start fns =>
    (match start with
      | .inl e => (e.eval []).map M.host.pure
      | .inr v => .pure (M.failed id v)).bind fun m =>
      (M.mapEach fns m).map fun m => [("result", M.shown m)]
  | .wrap v other =>
    .pure [("debug", .text (Layout.oneLine.constructor "Identity" v.compact)),
      ("pretty", .text (Layout.pretty.constructor "Identity" v.compact)),
      ("eq", .bool (v.same other)), ("default", .int 0), ("inner", .ofValue v)]

end Operation

/-! ## Events -/

/-- The name of a driver in its events. -/
def Driver.name : Driver → String
  | .hosted => "run_in_host"
  | .async => "run_async"
  | .tryAsync => "try_run_async"

/-- An event of a script or of the library as a form. -/
def shownEvent : Event Note → Form
  | .user (.note label v) => .list [.text "note", label, .ofValue v]
  | .user (.step n description) => .list [.text "step", .nat n, .ofValue description]
  | .user (.translate description) => .list [.text "translate", .ofValue description]
  | .user .built => .list [.text "built"]
  | .user .handover => .list [.text "handover"]
  | .interpreting driver n =>
    .list [.text "trace", .text "TRACE", .text "interpreting effect step", .text driver.name,
      .text "step", .nat n]
  | .finished driver n =>
    .list [.text "trace", .text "TRACE", .text "computation finished", .text driver.name,
      .text "steps", .nat n]
  | .translating => .list [.text "trace", .text "TRACE", .text "translating effect step"]

/-- Carries out an operation and writes its answer; if asked for, with the number of its events
    and the first of them. -/
def Operation.answer (events : Bool) (operation : Operation) : Form :=
  let r := operation.perform
  .record <| r.value ++
    if events then
      [("event_count", .nat r.log.length), ("events", .list ((r.log.take 120).map shownEvent))]
    else
      []

end FreeMonad
