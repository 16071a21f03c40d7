import FreeMonad.Script.Display
import FreeMonad.Script.Expr
import FreeMonad.Script.Form

set_option autoImplicit false

/-! # Trying out the two sides of an outcome

What a program resumes to is on the left if it is a step that is still pending and on the right
if it is a value. The trials ask for either side, fold both into one value, and map one side
while leaving the other alone. -/

namespace FreeMonad

/-- What can be asked of a value on either side. -/
inductive SideTrial where
  | isLeft
  | isRight
  | left
  | right
  /-- One value from either side. -/
  | fold (f g : Fn1)
  /-- The right side as success and the left side as error. -/
  | result
  | display (layout : Layout)
  | equal (other : Value ⊕ Value)
  | mapLeft (f : Fn1)
  | mapRight (f : Fn1)

/-- A value on either side as text. -/
def displaySide (layout : Layout) : Value ⊕ Value → String
  | .inl v => layout.constructor "Left" v.compact
  | .inr v => layout.constructor "Right" v.compact

/-- A value that may not be there. -/
def shownOption : Option Value → Form
  | some v => .one "some" (.ofValue v)
  | none => .nothing

/-- What a trial shows and the value it leaves. -/
def SideTrial.perform (e : Value ⊕ Value) : SideTrial → Traced Note (Form × (Value ⊕ Value))
  | .isLeft => .pure (.bool e.isLeft, e)
  | .isRight => .pure (.bool e.isRight, e)
  | .left => .pure (shownOption e.getLeft?, e)
  | .right => .pure (shownOption e.getRight?, e)
  | .fold f g => (e.elim (f.call []) (g.call [])).map fun v => (.ofValue v, e)
  | .result =>
    .pure (e.elim (fun v => .one "err" (.ofValue v)) (fun v => .one "ok" (.ofValue v)), e)
  | .display layout => .pure (.text (displaySide layout e), e)
  | .equal other => .pure (.bool (e = other), e)
  | .mapLeft f =>
    (e.elim (fun v => (f.call [] v).map .inl) (fun v => .pure (.inr v))).map fun e =>
      (.text (displaySide .oneLine e), e)
  | .mapRight f =>
    (e.elim (fun v => .pure (.inl v)) (fun v => (f.call [] v).map .inr)).map fun e =>
      (.text (displaySide .oneLine e), e)

/-- What trials show, each on the value that the one before it leaves. -/
def SideTrial.performAll : List SideTrial → Value ⊕ Value → Traced Note (List Form)
  | [], _ => .pure []
  | trial :: rest, e =>
    (trial.perform e).bind fun (shown, e) => (performAll rest e).map fun more => shown :: more

end FreeMonad
