import FreeMonad.Script.Operation

set_option autoImplicit false

/-! # Reading scripts

Expressions, commands and scripts are read from their written forms: a list whose first element
is a word is an operation of that name, and an expression that is not a list stands for itself.

Reading a script never fails. A part that is no script is read as such, and an expression that
is none is null; neither is of any account unless it is reached. Operands that an operation does
not need are dropped. -/

namespace FreeMonad

/-! ## Expressions -/

/-- The expression of a name with operands that were read. An operand that is missing is null. -/
def Expr.ofOperands (name : String) (operands : List Expr) : Expr :=
  let a := operands.getD 0 (.literal .null)
  let b := operands.getD 1 (.literal .null)
  let c := operands.getD 2 (.literal .null)
  match name with
  | "$" =>
    match a with
    | .literal (.text x) => .var x
    | _ => .literal .null
  | "list" => .list operands
  | "add" => .arith .add a b
  | "sub" => .arith .sub a b
  | "mul" => .arith .mul a b
  | "lt" => .less a b
  | "eq" => .equal a b
  | "not" => .negate a
  | "if" => .choose a b c
  | "cat" => .join operands
  | "len" => .length a
  | "at" => .element a b
  | "push" => .push a b
  | _ => .literal .null

mutual

/-- Reads an expression. The label of a note is no expression: it stands for itself, even if it
    is a list. -/
def Expr.ofForm : Form → Expr
  | .null => .literal .null
  | .bool b => .literal (.bool b)
  | .int n => .literal (.int n)
  | .text s => .literal (.text s)
  | .list (.text "note" :: label :: e :: _) => .note label (Expr.ofForm e)
  | .list (.text name :: operands) => Expr.ofOperands name (Expr.ofForms operands)
  | .list _ => .literal .null
  | .record _ => .literal .null

/-- Reads expressions. -/
def Expr.ofForms : List Form → List Expr
  | [] => []
  | f :: rest => Expr.ofForm f :: Expr.ofForms rest

end

/-- Reads a function of one value. -/
def Fn1.ofForm? : Form → Option Fn1
  | .list (.text x :: body :: _) => some ⟨x, Expr.ofForm body⟩
  | _ => none

/-- Reads a function of two values. -/
def Fn2.ofForm? : Form → Option Fn2
  | .list (.text x :: .text y :: body :: _) => some ⟨x, y, Expr.ofForm body⟩
  | _ => none

/-! ## Vocabularies -/

/-- The plain vocabularies with a name. -/
def Plain.named : List (String × Plain) :=
  let last : Plain := .sum .option .result
  let tail : Plain := .sum .tally last
  [("eff", .eff), ("say", .say), ("tally", .tally), ("option", .option), ("result", .result),
    ("box", .box), ("identity", .identity), ("last", last), ("tail", tail),
    ("app", .sum .say tail), ("dup", .sum .say (.sum .say .say)), ("pair", .sum .say .tally),
    ("nest", .sum (.sum .say .tally) .option)]

/-- The vocabularies with a name. -/
def Vocab.named : List (String × Vocab) :=
  Plain.named.map (fun (name, p) => (name, .plain p))
    ++ Plain.named.map (fun (name, p) => ("coyo " ++ name, .coyo p)) ++ [("store", .store)]

/-! ## Commands -/

/-- The command of a name with the detail that it may need. -/
def Command.ofDetail? (name : String) (detail : Option Expr) : Option Command :=
  match name with
  | "tell" => detail.map .tell
  | "put" => detail.map .put
  | "get" => .some .get
  | "ask" => detail.map .ask
  | "halt" => detail.map .halt
  | "say" => detail.map .say
  | "add" => detail.map .add
  | "total" => .some .total
  | "some" => detail.map .some
  | "none" => .some .none
  | "ok" => detail.map .ok
  | "err" => detail.map .err
  | "box" => detail.map .box
  | "id" => detail.map .identity
  | "size" => .some .size
  | "read" => detail.map .read
  | "has" => detail.map .has
  | "erase" => detail.map .erase
  | "keys" => .some .keys
  | _ => .none

/-- Reads a command. -/
def Command.ofForm? : Form → Option Command
  | .list (.text "left" :: c :: _) => (Command.ofForm? c).map .left
  | .list (.text "right" :: c :: _) => (Command.ofForm? c).map .right
  | .list (.text "in" :: .text place :: c :: _) => (Command.ofForm? c).map (.within place)
  | .list (.text name :: details) => Command.ofDetail? name (details.head?.map Expr.ofForm)
  | _ => .none

/-! ## Scripts -/

/-- Reads the rules of a rewriting. -/
def Rules.ofForm (f : Form) : Rules where
  tell := (f.field? "tell").bind Fn1.ofForm?
  put := (f.field? "put").bind Fn1.ofForm?
  get := (f.field? "get").bind Fn1.ofForm?
  ask := (f.field? "ask").bind Fn1.ofForm?

/-- Reads a script. -/
def Script.ofForm (f : Form) : Script :=
  match f with
  | .list (.text name :: args) =>
    match name with
    | "pure" =>
      match args with
      | e :: _ => .pure (Expr.ofForm e)
      | _ => .unknown
    | "lift" =>
      match args with
      | c :: _ => ((Command.ofForm? c).map .lift).getD .unknown
      | _ => .unknown
    | "suspend" =>
      match args with
      | c :: .list (.text x :: body :: _) :: _ =>
        match Command.ofForm? c with
        | some c => .suspend c x (Script.ofForm body)
        | none => .unknown
      | _ => .unknown
    | "defer" =>
      match args with
      | p :: _ => .defer (Script.ofForm p)
      | _ => .unknown
    | "bind" | "and_then" =>
      match args with
      | p :: .list (.text x :: body :: _) :: _ => .bind (Script.ofForm p) x (Script.ofForm body)
      | _ => .unknown
    | "map" =>
      match args with
      | p :: f :: _ => ((Fn1.ofForm? f).map (.map (Script.ofForm p))).getD .unknown
      | _ => .unknown
    | "then" =>
      match args with
      | p :: q :: _ => .andThen (Script.ofForm p) (Script.ofForm q)
      | _ => .unknown
    | "map2" =>
      match args with
      | p :: q :: f :: _ =>
        ((Fn2.ofForm? f).map (.map2 (Script.ofForm p) (Script.ofForm q))).getD .unknown
      | _ => .unknown
    | "apply" =>
      match args with
      | p :: q :: f :: _ =>
        ((Fn2.ofForm? f).map (.apply (Script.ofForm p) (Script.ofForm q))).getD .unknown
      | _ => .unknown
    | "binds" =>
      match args with
      | count :: p :: .list (.text x :: .text i :: body :: _) :: _ =>
        .binds (Expr.ofForm count) (Script.ofForm p) x i (Script.ofForm body)
      | _ => .unknown
    | "maps" =>
      match args with
      | count :: p :: f :: _ =>
        ((Fn2.ofForm? f).map (.maps (Expr.ofForm count) (Script.ofForm p))).getD .unknown
      | _ => .unknown
    | "thens" =>
      match args with
      | count :: p :: .list (.text i :: body :: _) :: _ =>
        .thens (Expr.ofForm count) (Script.ofForm p) i (Script.ofForm body)
      | _ => .unknown
    | "if" =>
      match args with
      | condition :: p :: q :: _ =>
        .choose (Expr.ofForm condition) (Script.ofForm p) (Script.ofForm q)
      | _ => .unknown
    | "let" =>
      match args with
      | .text x :: e :: p :: _ => .bindVar x (Expr.ofForm e) (Script.ofForm p)
      | _ => .unknown
    | "call" =>
      match args with
      | .text name :: es => .call name (Expr.ofForms es)
      | _ => .unknown
    | "widen" =>
      match args with
      | .text place :: p :: _ =>
        if place = "itself" then .widenItself (Script.ofForm p)
        else .widen place (Script.ofForm p)
      | _ => .unknown
    | "lower" =>
      match args with
      | p :: _ => .lower (Script.ofForm p)
      | _ => .unknown
    | "observe" =>
      match args with
      | .text source :: p :: answer :: _ =>
        match Vocab.named.lookup source with
        | some v => .observe v (Script.ofForm p) (Expr.ofForm answer)
        | none => .unknown
      | _ => .unknown
    | "rewrite" =>
      match args with
      | rules :: p :: _ => .rewrite (Rules.ofForm rules) (Script.ofForm p)
      | _ => .unknown
    | _ => .unknown
  | _ => .unknown
termination_by sizeOf f
decreasing_by all_goals
  simp only [Form.list.sizeOf_spec, List.cons.sizeOf_spec]; omega

/-- Reads a definition: its parameters, followed by its body. -/
def Definition.ofForms : List Form → Definition
  | [] => ⟨[], .unknown⟩
  | [body] => ⟨[], Script.ofForm body⟩
  | .text x :: rest =>
    let d := ofForms rest
    ⟨x :: d.params, d.body⟩
  | _ :: _ => ⟨[], .unknown⟩

/-- Reads definitions. -/
def Definitions.ofForm : Form → Definitions
  | .record fields => fields.map fun
    | (name, .list forms) => (name, Definition.ofForms forms)
    | (name, _) => (name, ⟨[], .unknown⟩)
  | _ => []

end FreeMonad
