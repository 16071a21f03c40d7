import FreeMonad.Program.Basic
import FreeMonad.Script.Value

set_option autoImplicit false

/-! # Showing values of one field

Programs, wrapped values and requests are shown as the name of a constructor and one field in
parentheses, either on one line or with the field, indented, on a line of its own. A program
shows its value if it is finished, and otherwise only whether it is a step or a composition. -/

namespace FreeMonad

/-- How a constructor and its field are laid out. -/
inductive Layout where
  | oneLine
  | pretty
  deriving DecidableEq, Repr

/-- A constructor with one field, itself on one line. -/
def Layout.constructor (layout : Layout) (name field : String) : String :=
  match layout with
  | .oneLine => name ++ "(" ++ field ++ ")"
  | .pretty => name ++ "(\n    " ++ field ++ ",\n)"

/-- A program as text: what it is, and its value if it is finished. -/
def Program.display {ν : Type} {V : Vocabulary} (layout : Layout) :
    {α : Type} → (α → String) → Program ν V α → String
  | _, write, .pure a => layout.constructor "Pure" (write a)
  | _, _, .suspend _ _ => layout.constructor "Suspend" (Quoted.write "<step>")
  | _, _, .compose _ _ => layout.constructor "Bind" (Quoted.write "<continuation>")

end FreeMonad
