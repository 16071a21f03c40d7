set_option autoImplicit false

/-! # The values of scripts

A value is null, a truth value, a 64-bit integer, a text or a list of values. Every value can be
read as any of these, so that scripts never get stuck on a value of the wrong kind: the integer
of a text is its number of characters and that of a list its length, and only a list has
elements. `Value.compact` writes a value as text without spaces. -/

namespace FreeMonad

/-- What the expressions of a script compute. -/
inductive Value where
  | null
  | bool (b : Bool)
  | int (n : Int64)
  | text (s : String)
  | list (elements : List Value)
  deriving Inhabited

/-! ## Text between quotes -/

namespace Quoted

/-- The hexadecimal digit of a number below sixteen. -/
def hexDigit (n : Nat) : Char := Nat.digitChar n

/-- A character between quotes. The quote and the backslash follow a backslash; a control below
    the space has a short name or is written by its code in four hexadecimal digits; everything
    else stands as itself. -/
def escape (c : Char) : String :=
  match c with
  | '"' => "\\\""
  | '\\' => "\\\\"
  | '\x08' => "\\b"
  | '\t' => "\\t"
  | '\n' => "\\n"
  | '\x0c' => "\\f"
  | '\r' => "\\r"
  | c =>
    if c < ' ' then
      "\\u00" ++ String.ofList [hexDigit (c.toNat / 16), hexDigit (c.toNat % 16)]
    else
      c.toString

/-- A text between quotes. -/
def write (s : String) : String := s.foldl (fun acc c => acc ++ escape c) "\"" ++ "\""

end Quoted

namespace Value

/-! ## Writing -/

mutual

/-- The value as text, without spaces. -/
def compact : Value → String
  | .null => "null"
  | .bool true => "true"
  | .bool false => "false"
  | .int n => n.toInt.repr
  | .text s => Quoted.write s
  | .list elements => "[" ++ compactAll "" elements ++ "]"

/-- The values as text, with `separator` before the first and a comma before each other one. -/
def compactAll (separator : String) : List Value → String
  | [] => ""
  | v :: rest => separator ++ compact v ++ compactAll "," rest

end

/-! ## Comparing -/

mutual

/-- Are two values of the same kind and equal? -/
def same : Value → Value → Bool
  | .null, .null => true
  | .bool a, .bool b => a == b
  | .int a, .int b => a == b
  | .text a, .text b => a == b
  | .list a, .list b => sameAll a b
  | _, _ => false

/-- Are two lists of values equal, element by element? -/
def sameAll : List Value → List Value → Bool
  | [], [] => true
  | a :: as, b :: bs => same a b && sameAll as bs
  | _, _ => false

end

mutual

theorem eq_of_same : {a b : Value} → same a b = true → a = b
  | .null, .null, _ => rfl
  | .bool _, .bool _, h => congrArg bool (eq_of_beq h)
  | .int _, .int _, h => congrArg int (eq_of_beq h)
  | .text _, .text _, h => congrArg text (eq_of_beq h)
  | .list _, .list _, h => congrArg list (eq_of_sameAll h)

theorem eq_of_sameAll : {as bs : List Value} → sameAll as bs = true → as = bs
  | [], [], _ => rfl
  | _ :: _, _ :: _, h =>
    have h := (Bool.and_eq_true_iff.1 h)
    eq_of_same h.1 ▸ eq_of_sameAll h.2 ▸ rfl

end

mutual

theorem same_self : (a : Value) → same a a = true
  | .null => rfl
  | .bool b => beq_self_eq_true b
  | .int n => beq_self_eq_true n
  | .text s => beq_self_eq_true s
  | .list elements => sameAll_self elements

theorem sameAll_self : (as : List Value) → sameAll as as = true
  | [] => rfl
  | a :: as => Bool.and_eq_true_iff.2 ⟨same_self a, sameAll_self as⟩

end

/-- Values are compared by their structure. -/
theorem same_iff {a b : Value} : a.same b = true ↔ a = b :=
  ⟨eq_of_same, fun h => h ▸ same_self a⟩

instance : DecidableEq Value := fun _ _ => decidable_of_iff _ same_iff

/-! ## Reading a value as another kind -/

/-- The integer of a value: null and false are 0, true is 1, a text is its number of characters
    and a list its number of elements. -/
def toInt : Value → Int64
  | .null => 0
  | .bool false => 0
  | .bool true => 1
  | .int n => n
  | .text s => .ofNat s.length
  | .list elements => .ofNat elements.length

/-- A truth value is itself; any other value is true unless its integer is 0. -/
def isTrue : Value → Bool
  | .bool b => b
  | v => v.toInt != 0

/-- A text is itself; any other value is written out. -/
def toText : Value → String
  | .text s => s
  | v => v.compact

/-- A list is itself; any other value has no elements. -/
def toList : Value → List Value
  | .list elements => elements
  | _ => []

/-- The element of a list at an index; null beyond the ends of the list and for anything that is
    not a list. -/
def element (v : Value) (index : Int64) : Value :=
  if index < 0 then .null else v.toList.getD index.toNatClampNeg .null

end Value

/-! ## The types of typed answers -/

/-- Names of the types that the answer to a request can have. -/
inductive AnswerType where
  | int
  | str
  | bool
  | unit
  | list
  | value
  deriving DecidableEq, Repr

namespace AnswerType

/-- The type that a name stands for. -/
def El : AnswerType → Type
  | .int => Int64
  | .str => String
  | .bool => Bool
  | .unit => Unit
  | .list => List Value
  | .value => Value

/-- Any value, read as an answer of the given type. -/
def ofValue : (t : AnswerType) → Value → t.El
  | .int, v => v.toInt
  | .str, v => v.toText
  | .bool, v => v.isTrue
  | .unit, _ => ()
  | .list, v => v.toList
  | .value, v => v

/-- A typed answer as a value. -/
def toValue : (t : AnswerType) → t.El → Value
  | .int, n => .int n
  | .str, s => .text s
  | .bool, b => .bool b
  | .unit, _ => .null
  | .list, elements => .list elements
  | .value, v => v

/-- The word for the type in a script. -/
def word : AnswerType → String
  | .int => "int"
  | .str => "str"
  | .bool => "bool"
  | .unit => "unit"
  | .list => "list"
  | .value => "value"

/-- All types, in the order in which handlers are tried. -/
def all : List AnswerType := [.int, .str, .bool, .unit, .list, .value]

end AnswerType

end FreeMonad
