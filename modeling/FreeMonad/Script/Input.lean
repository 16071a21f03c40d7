import FreeMonad.Script.Reader

set_option autoImplicit false

/-! # Reading whole inputs

An input is a record that names an operation and holds what the operation needs. `answerInput`
reads an input, carries the operation out and writes its answer. -/

namespace FreeMonad

/-- Reads a list of forms one by one. -/
def Form.listOf {α : Type} (read : Form → Read α) (f : Form) : Read (List α) := do
  (← f.toForms).mapM read

/-- A field of a record, read, or a default if there is none. -/
def Form.fieldOr {α : Type} (f : Form) (name : String) (read : Form → Read α) (default : α) :
    Read α :=
  (f.fieldWith? name read).map fun a => a.getD default

/-- Reads something that may not be what is expected. -/
def Read.require {α : Type} (what : String) : Option α → Read α
  | some a => .ok a
  | none => .error (.expected what)

/-- Reads a function of one value. -/
def Fn1.ofForm (f : Form) : Read Fn1 := .require "a function of one value" (Fn1.ofForm? f)

/-- Reads a command over a vocabulary, as the step that it makes without variables. -/
def stepOfCommand (v : Vocab) (f : Form) : Read (Traced Note (Step Note v.vocabulary Value)) :=
  .require "a command of the vocabulary" <| (Command.ofForm? f).bind (Command.step [] v)

/-- The answer type of a word. -/
def AnswerType.ofForm (f : Form) : Read AnswerType := do
  let word ← f.toText
  .require "a type" <| AnswerType.all.find? fun t => t.word == word

/-- The plain vocabulary of a name. -/
def Plain.ofForm (f : Form) : Read Plain := do
  .require "a vocabulary" <| Plain.named.lookup (← f.toText)

/-- The vocabulary of a name. -/
def Vocab.ofForm (f : Form) : Read Vocab := do
  .require "a vocabulary" <| Vocab.named.lookup (← f.toText)

/-! ## Runs -/

/-- The names of the drivers. -/
def RunDriver.named : List (String × RunDriver) :=
  [("run", .run), ("identity", .identity), ("option", .option), ("result", .result),
    ("try_run", .tryRun), ("run_async", .runAsync), ("try_run_async", .tryRunAsync),
    ("resume", .resume)]

/-- Reads a driver, and how often the run is handed over before it comes to that driver: each
    time is written as a run by hand in front of the driver. -/
def driverOfForm (f : Form) : Read (Nat × RunDriver) := do
  let names := (← f.toText).splitOn "+"
  let byHand := names.dropLast
  let driver := names.getLast?.bind fun name => RunDriver.named.lookup name
  .require "a driver" <|
    if byHand.all (· == "resume") then driver.map fun d => (byHand.length, d) else none

/-- Reads how requests are answered. -/
def Via.ofForm : Form → Read Via
  | .text "handle" => .ok .handle
  | _ => .ok .lower

/-- Reads a bound that does not hold if it is negative. -/
def boundOfForm (f : Form) : Read (Option Nat) :=
  f.toInt.map fun n => if n < 0 then none else some n.toNatClampNeg

/-- Reads the values of variables. -/
def varsOfForm (f : Form) : Read (List (String × Value)) := do
  (← f.toFields).mapM fun (name, g) => g.toValue.map fun v => (name, v)

/-- Reads the replacements of steps. -/
def replacementsOfForm (f : Form) : Read (List (String × Script)) := do
  return (← f.toFields).map fun (name, g) => (name, Script.ofForm g)

/-- Reads a run. -/
def Run.ofForm (f : Form) : Read Run := do
  let (handovers, driver) ← driverOfForm (← f.field "driver")
  return {
    vocab := ← Vocab.ofForm (← f.field "vocab")
    handovers, driver
    script := Script.ofForm (← f.field "program")
    conditions := {
      failAt := ← f.fieldWith? "fail_at" Form.toInt
      limit := ← f.fieldWith? "limit" Form.toInt
      replace := ← f.fieldOr "replace" replacementsOfForm []
      via := ← f.fieldOr "via" Via.ofForm .lower
      defs := ← f.fieldOr "defs" (fun g => .ok (Definitions.ofForm g)) [] }
    world := .initial (← f.fieldOr "state" Form.toInt 0) (← f.fieldOr "vars" varsOfForm [])
    fallback := ← f.fieldOr "fallback" Form.toValue .null
    yields := ← f.fieldOr "yields" (Form.listOf Form.toInt) []
    cancelAfter := ← f.fieldWith? "cancel_after" Form.toInt
    max := ← f.fieldOr "max" boundOfForm none
    pretty := ← f.fieldOr "pretty" Form.toBool false }

/-! ## Conversions -/

/-- Reads a trial of a conversion. -/
def Trial.ofForm : Form → Read Trial
  | .list (.text "map" :: f :: _) => (Fn1.ofForm f).map .map
  | .list (.text "fmap" :: f :: _) => (Fn1.ofForm f).map .map
  | .list (.text "is_request" :: t :: _) => (AnswerType.ofForm t).map .isRequest
  | .list (.text "type_name" :: _) => .ok .typeName
  | .list (.text "debug" :: _) => .ok (.display .oneLine)
  | .list (.text "pretty" :: _) => .ok (.display .pretty)
  | .list (.text "handle" :: t :: f :: _) => do
    return .handle (← AnswerType.ofForm t) (← Fn1.ofForm f)
  | .list (.text "lower" :: _) => .ok .lower
  | _ => .error (.expected "a trial of a conversion")

/-- Reads the step of a container that holds a typed payload, if any. -/
def stepOfForm (p : Plain) (t : AnswerType) (command : Form) : Read (Step Note p.vocabulary t.El) :=
  match p, command with
  | .option, .list (.text "some" :: f :: _) => do
    let v ← f.toValue
    return .asking (V := Plain.option.vocabulary) .some fun _ => t.ofValue v
  | .option, .list (.text "none" :: _) =>
    .ok (.asking (V := Plain.option.vocabulary) .none Empty.elim)
  | .result, .list (.text "ok" :: f :: _) => do
    let v ← f.toValue
    return .asking (V := Plain.result.vocabulary) .ok fun _ => t.ofValue v
  | .result, .list (.text "err" :: f :: _) => do
    let v ← f.toValue
    return .asking (V := Plain.result.vocabulary) (.err v.toText) Empty.elim
  | .box, .list (.text "box" :: f :: _) => do
    let v ← f.toValue
    return .asking (V := Plain.box.vocabulary) () fun _ => t.ofValue v
  | .identity, .list (.text "id" :: f :: _) => do
    let v ← f.toValue
    return .asking (V := Plain.identity.vocabulary) () fun _ => t.ofValue v
  | _, _ => .error (.expected "a container")

/-- Reads the trials of a conversion of a request. -/
def conversionOfForm (f : Form) : Read Operation := do
  let t ← AnswerType.ofForm (← f.field "type")
  let trials ← Form.listOf Trial.ofForm (← f.field "ops")
  let command ← f.field "cmd"
  let steps (kind : RequestKind) (p : Plain) : Read Operation := do
    return .convertStep kind p t (← stepOfForm p t command) trials
  match ← (← f.field "vocab").toText with
  | "option" => steps .option .option
  | "result" => steps .result .result
  | "box" => steps .box .box
  | "identity" => steps .identity .identity
  | "store" => return .convertStore t (← command.toValue) trials
  | _ => .error (.expected "a kind of requests")

/-! ## The two sides of an outcome -/

/-- Reads a value on either side. -/
def sideOfForm : Form → Read (Value ⊕ Value)
  | .record [("left", f)] => f.toValue.map .inl
  | .record [("right", f)] => f.toValue.map .inr
  | _ => .error (.expected "a value on the left or on the right")

/-- Reads a trial of a value on either side. -/
def SideTrial.ofForm : Form → Read SideTrial
  | .list (.text "is_left" :: _) => .ok .isLeft
  | .list (.text "is_right" :: _) => .ok .isRight
  | .list (.text "left" :: _) => .ok .left
  | .list (.text "right" :: _) => .ok .right
  | .list (.text "fold" :: f :: g :: _) => do return .fold (← Fn1.ofForm f) (← Fn1.ofForm g)
  | .list (.text "result" :: _) => .ok .result
  | .list (.text "debug" :: _) => .ok (.display .oneLine)
  | .list (.text "pretty" :: _) => .ok (.display .pretty)
  | .list (.text "eq" :: f :: _) => (sideOfForm f).map .equal
  | .list (.text "map_left" :: f :: _) => (Fn1.ofForm f).map .mapLeft
  | .list (.text "map_right" :: f :: _) => (Fn1.ofForm f).map .mapRight
  | _ => .error (.expected "a trial of a side")

/-! ## Hosts -/

/-- Reads a host. -/
def ValueHost.ofForm (f : Form) : Read ValueHost := do
  match ← f.toText with
  | "identity" => .ok .identity
  | "option" => .ok .option
  | "result" => .ok .result
  | _ => .error (.expected "a host")

/-! ## All operations -/

/-- Reads an operation. -/
def Operation.ofForm (f : Form) : Read Operation := do
  match ← (← f.field "op").toText with
  | "run" => return .run (← Run.ofForm f)
  | "fmap" =>
    let v ← Vocab.ofForm (← f.field "vocab")
    return .mapStep (← f.fieldOr "via" Via.ofForm .lower) v
      (← stepOfCommand v (← f.field "cmd")) (← Form.listOf Fn1.ofForm (← f.field "fns"))
      (← f.fieldOr "answer" Form.toValue .null)
  | "project" =>
    let q ← Plain.ofForm (← f.field "vocab")
    return .project q (← stepOfCommand (.plain q) (← f.field "cmd"))
      (← Form.listOf (fun g => do .require "a branch" (Place.find? q (← g.toText)))
        (← f.field "try"))
      (← f.fieldOr "answer" Form.toValue .null)
  | "coyoneda" => conversionOfForm f
  | "either" =>
    return .side (← sideOfForm (← f.field "value"))
      (← Form.listOf SideTrial.ofForm (← f.field "ops"))
  | "tail_rec" =>
    return .iterate (← ValueHost.ofForm (← f.field "host")) (Expr.ofForm (← f.field "init"))
      (← Fn1.ofForm (← f.field "step"))
  | "host" =>
    let M ← ValueHost.ofForm (← f.field "host")
    let fns ← Form.listOf Fn1.ofForm (← f.field "fns")
    match f.field? "fail" with
    | some g => return .mapHost M (.inr (← g.toValue)) fns
    | none => return .mapHost M (.inl (Expr.ofForm (← f.field "value"))) fns
  | "identity" =>
    return .wrap (← f.fieldOr "value" Form.toValue .null) (← f.fieldOr "other" Form.toValue .null)
  | _ => .error (.expected "an operation")

/-- The answer to an input. -/
def answerInput (f : Form) : Read Form := do
  return (← Operation.ofForm f).answer (← f.fieldOr "events" Form.toBool false)

end FreeMonad
