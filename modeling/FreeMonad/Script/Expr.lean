import FreeMonad.Traced
import FreeMonad.Script.Form

set_option autoImplicit false

/-! # Expressions

Expressions compute values from the variables in scope. Every expression has a value: a variable
that is not bound is null, and operands are read as the kind that the operation needs. Integers
wrap at 64 bits. The one effect is `note`, which records an event, so evaluation is traced;
arguments are evaluated from left to right, and of a choice only the branch chosen. -/

namespace FreeMonad

/-- The events that a script and the world it runs in record. -/
inductive Note where
  /-- An expression noted a value under a label. -/
  | note (label : Form) (value : Value)
  /-- The world was given its `number`-th step. -/
  | step (number : Nat) (description : Value)
  /-- A step is being observed on its way to another vocabulary. -/
  | translate (description : Value)
  /-- The program is built and its driver is about to start. -/
  | built
  /-- The rest of a program goes to another driver. -/
  | handover

/-- Operations on two integers. -/
inductive IntOp where
  | add
  | sub
  | mul
  deriving DecidableEq, Repr

/-- The operation, wrapping at 64 bits. -/
def IntOp.apply : IntOp → Int64 → Int64 → Int64
  | .add, a, b => a + b
  | .sub, a, b => a - b
  | .mul, a, b => a * b

/-- An expression of a script. -/
inductive Expr where
  /-- A value that stands for itself. -/
  | literal (v : Value)
  /-- The value of a variable. -/
  | var (name : String)
  /-- A list of values. -/
  | list (elements : List Expr)
  /-- Arithmetic on two integers. -/
  | arith (op : IntOp) (a b : Expr)
  /-- Is the first integer less than the second? -/
  | less (a b : Expr)
  /-- Are two values equal? -/
  | equal (a b : Expr)
  /-- The opposite truth value. -/
  | negate (a : Expr)
  /-- The second expression if the first is true, and otherwise the third. -/
  | choose (condition a b : Expr)
  /-- All values as texts, joined. -/
  | join (parts : List Expr)
  /-- The integer of a value. -/
  | length (a : Expr)
  /-- The element of a list at an index. -/
  | element (a index : Expr)
  /-- A list with one more element at its end. -/
  | push (a v : Expr)
  /-- The value of the expression, noted under a label, which is kept as it is written. -/
  | note (label : Form) (a : Expr)

/-- The variables in scope, innermost first. -/
abbrev Env := List (String × Value)

/-- The value of a variable; null if it is not bound. -/
def Env.get (env : Env) (name : String) : Value := (env.lookup name).getD .null

namespace Expr

mutual

/-- The value of an expression in a scope. -/
def eval (env : Env) : Expr → Traced Note Value
  | .literal v => .pure v
  | .var name => .pure (env.get name)
  | .list elements => (evalAll env elements).map .list
  | .arith op a b =>
    (eval env a).bind fun a => (eval env b).map fun b => .int (op.apply a.toInt b.toInt)
  | .less a b => (eval env a).bind fun a => (eval env b).map fun b => .bool (a.toInt < b.toInt)
  | .equal a b => (eval env a).bind fun a => (eval env b).map fun b => .bool (a == b)
  | .negate a => (eval env a).map fun a => .bool !a.isTrue
  | .choose condition a b =>
    (eval env condition).bind fun c => if c.isTrue then eval env a else eval env b
  | .join parts => (evalAll env parts).map fun vs => .text (String.join (vs.map Value.toText))
  | .length a => (eval env a).map fun a => .int a.toInt
  | .element a index => (eval env a).bind fun a => (eval env index).map fun i => a.element i.toInt
  | .push a v => (eval env a).bind fun a => (eval env v).map fun v => .list (a.toList ++ [v])
  | .note label a => (eval env a).bind fun a => ⟨[.user (.note label a)], a⟩

/-- The values of expressions, evaluated from left to right. -/
def evalAll (env : Env) : List Expr → Traced Note (List Value)
  | [] => .pure []
  | e :: rest => (eval env e).bind fun v => (evalAll env rest).map fun vs => v :: vs

end

end Expr

/-- A function of one value. -/
structure Fn1 where
  param : String
  body : Expr

/-- A function of two values. -/
structure Fn2 where
  first : String
  second : String
  body : Expr

/-- Calls a function in the scope where it stands. -/
def Fn1.call (f : Fn1) (env : Env) (x : Value) : Traced Note Value :=
  f.body.eval ((f.param, x) :: env)

/-- Calls a function in the scope where it stands; its second parameter is the inner one. -/
def Fn2.call (f : Fn2) (env : Env) (x y : Value) : Traced Note Value :=
  f.body.eval ((f.second, y) :: (f.first, x) :: env)

end FreeMonad
