import FreeMonad.Script.Value

set_option autoImplicit false

/-! # Written forms

Scripts are read from, and answers are written to, plain nested data: the values of scripts
together with records, whose fields are named. A form without records is a value. -/

namespace FreeMonad

/-- Nested data with named fields. -/
inductive Form where
  | null
  | bool (b : Bool)
  | int (n : Int64)
  | text (s : String)
  | list (elements : List Form)
  | record (fields : List (String × Form))
  deriving Inhabited

/-- Why a form could not be read. -/
inductive ReadError where
  /-- Something else was expected. -/
  | expected (what : String)
  /-- A record lacks a field. -/
  | missing (field : String)

/-- The error in words. -/
def ReadError.message : ReadError → String
  | .expected what => "expected " ++ what
  | .missing field => "missing field " ++ field

/-- The result of reading a form. -/
abbrev Read (α : Type) := Except ReadError α

namespace Form

mutual

/-- The form of a value. -/
def ofValue : Value → Form
  | .null => .null
  | .bool b => .bool b
  | .int n => .int n
  | .text s => .text s
  | .list elements => .list (ofValues elements)

/-- The forms of values. -/
def ofValues : List Value → List Form
  | [] => []
  | v :: rest => ofValue v :: ofValues rest

end

mutual

/-- The value of a form without records. -/
def toValue : Form → Read Value
  | .null => .ok .null
  | .bool b => .ok (.bool b)
  | .int n => .ok (.int n)
  | .text s => .ok (.text s)
  | .list elements => (toValues elements).map .list
  | .record _ => .error (.expected "a value")

/-- The values of forms without records. -/
def toValues : List Form → Read (List Value)
  | [] => .ok []
  | f :: rest => do
    let v ← toValue f
    let vs ← toValues rest
    return v :: vs

end

/-- A record of one field. -/
def one (name : String) (f : Form) : Form := .record [(name, f)]

/-- What shows that nothing is there. -/
def nothing : Form := .one "none" (.bool true)

/-- A number as a form. -/
def nat (n : Nat) : Form := .int (.ofNat n)

/-- The text in a form. -/
def toText : Form → Read String
  | .text s => .ok s
  | _ => .error (.expected "a text")

/-- The integer in a form. -/
def toInt : Form → Read Int64
  | .int n => .ok n
  | _ => .error (.expected "an integer")

/-- The truth value in a form. -/
def toBool : Form → Read Bool
  | .bool b => .ok b
  | _ => .error (.expected "a truth value")

/-- The elements of a list. -/
def toForms : Form → Read (List Form)
  | .list elements => .ok elements
  | _ => .error (.expected "a list")

/-- The fields of a record. -/
def toFields : Form → Read (List (String × Form))
  | .record fields => .ok fields
  | _ => .error (.expected "a record")

/-- A field of a record, if it has one of that name. -/
def field? (f : Form) (name : String) : Option Form :=
  match f with
  | .record fields => fields.lookup name
  | _ => none

/-- A field of a record. -/
def field (f : Form) (name : String) : Read Form :=
  match f.field? name with
  | some g => .ok g
  | none => .error (.missing name)

/-- A field of a record, read if it is there; null counts as nothing. -/
def fieldWith? {α : Type} (f : Form) (name : String) (read : Form → Read α) : Read (Option α) :=
  match f.field? name with
  | some .null => .ok none
  | some g => (read g).map some
  | none => .ok none

end Form

end FreeMonad
