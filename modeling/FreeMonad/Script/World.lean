import FreeMonad.Script.Build

set_option autoImplicit false

/-! # The world that runs scripts

The world holds a number, named values and the lines written so far, and counts the steps it is
given. What it does with a step depends only on the description of the step and on the conditions
of the run: it may fail at a given step, put a program in the place of a step, or refuse numbers
above a limit. -/

namespace FreeMonad

/-! ## The state of the world -/

/-- Appends an element to a record of at most sixty. -/
def keep {α : Type} (xs : Array α) (x : α) : Array α := if xs.size < 60 then xs.push x else xs

/-- The state of the world. -/
structure World where
  /-- The number that is set, added to and read. -/
  state : Int64
  /-- The variables. -/
  vars : List (String × Value)
  /-- The first lines written. -/
  lines : Array String
  /-- The descriptions of the first steps. -/
  steps : Array Value
  /-- The number of steps so far. -/
  count : Nat

/-- A world in which nothing has happened. -/
def World.initial (state : Int64) (vars : List (String × Value)) : World :=
  { state, vars, lines := #[], steps := #[], count := 0 }

/-- Does what a step asks for: the new state, and the answer or a message of failure. -/
def World.perform (limit : Option Int64) (w : World) : Act → World × Except String Value
  | .write line => ({ w with lines := keep w.lines line }, .ok .null)
  | .set n =>
    match limit with
    | some m =>
      if n > m then (w, .error ("counter overflowed at " ++ n.toInt.repr))
      else ({ w with state := n }, .ok .null)
    | none => ({ w with state := n }, .ok .null)
  | .add n => ({ w with state := w.state + n }, .ok .null)
  | .get => (w, .ok (.int w.state))
  | .lookup key => (w, .ok ((w.vars.lookup key).getD .null))
  | .read key => (w, .ok (.text (((w.vars.lookup key).map Value.toText).getD "")))
  | .has key => (w, .ok (.bool (w.vars.lookup key).isSome))
  | .size => (w, .ok (.int (.ofNat w.vars.length)))
  | .keys => (w, .ok (.list ((w.vars.map Prod.fst).mergeSort.map .text)))
  | .erase key => ({ w with vars := w.vars.filter fun entry => entry.1 != key }, .ok .null)
  | .fail message => (w, .error message)
  | .nothing => (w, .ok .null)

/-! ## Interpreting steps -/

/-- The conditions of a run. -/
structure Conditions where
  /-- The step that fails, whatever it is. -/
  failAt : Option Int64
  /-- The greatest number that can be set. -/
  limit : Option Int64
  /-- The programs that take the place of steps, by the number of the step in decimal. -/
  replace : List (String × Script)
  /-- How requests that stand for steps are answered. -/
  via : Via
  /-- The definitions that scripts can call. -/
  defs : Definitions

/-- What calls of definitions build, entered within one another less often than any script
    could. -/
def Conditions.calls (c : Conditions) : Script.Calls :=
  c.defs.call 4611686018427387904

/-- What the world decides about a step. -/
inductive Verdict where
  /-- The step is answered. -/
  | answer (a : Value)
  /-- The step is dropped and the run goes on with the program of a script. -/
  | replaced (script : Script)
  /-- The run fails. -/
  | failed (message : String)

/-- The answer in a verdict, if there is one. -/
def Verdict.answer? : Verdict → Option Value
  | .answer a => some a
  | .replaced _ => none
  | .failed _ => none

/-- Gives the world a step: the step is counted and recorded, and then fails, is replaced or is
    performed, in this order of precedence. -/
def World.meet (c : Conditions) (w : World) (description : Value) (act : Act) :
    Traced Note (World × Verdict) :=
  let count := w.count + 1
  let w := { w with count, steps := keep w.steps description }
  ⟨[.user (.step count description)],
    if c.failAt = some (.ofNat count) then
      (w, .failed ("step " ++ count.repr ++ " failed"))
    else
      match c.replace.lookup count.repr with
      | some script => (w, .replaced script)
      | none =>
        match w.perform c.limit act with
        | (w, .ok a) => (w, .answer a)
        | (w, .error message) => (w, .failed message)⟩

/-- Interprets a step in the world: the program to go on with, or a message of failure. A
    replacement is built once the step is done with, so after a conversion that a handler
    applied, and with the number of the world in scope as `state`. -/
def World.interpret {v : Vocab} (c : Conditions) (w : World)
    (s : Step Note v.vocabulary (Built v)) : Traced Note (World × Except String (Built v)) :=
  let consult := (w.meet c (v.describe s.op) (v.act s.op)).map fun (w, verdict) =>
    ((w, verdict), verdict.answer?)
  (v.respond c.via consult s).bind fun ((w, verdict), payload) =>
    match verdict, payload with
    | .answer _, some p => .pure (w, .ok p)
    | .answer _, none => .pure (w, .error "no payload")
    | .replaced script, _ =>
      (script.build c.calls [("state", .int w.state)] v).map fun p => (w, .ok p)
    | .failed message, _ => .pure (w, .error message)

end FreeMonad
