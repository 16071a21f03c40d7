import FreeMonad.Script.Place

set_option autoImplicit false

/-! # Commands

A command is the written form of one step: an operation whose details are expressions. A command
is not bound to a vocabulary: whether it is a step of one is only asked where it is used, so a
script may hold commands of several vocabularies in branches of which one is taken.

Making the step evaluates the expression, and the step carries a value: the one that the command
gives, or the answer that the step will get. -/

namespace FreeMonad

/-- The written form of a step. -/
inductive Command where
  | tell (line : Expr)
  | put (n : Expr)
  | get
  | ask (key : Expr)
  | halt (reason : Expr)
  | say (line : Expr)
  | add (n : Expr)
  | total
  | some (payload : Expr)
  | none
  | ok (payload : Expr)
  | err (message : Expr)
  | box (payload : Expr)
  | identity (payload : Expr)
  | size
  | read (key : Expr)
  | has (key : Expr)
  | erase (key : Expr)
  | keys
  /-- A step of the left side of a sum. -/
  | left (c : Command)
  /-- A step of the right side of a sum. -/
  | right (c : Command)
  /-- A step of the vocabulary at a named place of a sum. -/
  | within (place : String) (c : Command)

/-- A step of a plain vocabulary that turns its answer into a value. -/
def Plain.step (p : Plain) (op : p.vocabulary.Op) (payload : p.vocabulary.Answer op → Value) :
    Step Note p.vocabulary Value :=
  .asking op payload

/-- Something made from the value of an expression. -/
def Expr.making {α : Type} (env : Env) (e : Expr) (make : Value → α) : Option (Traced Note α) :=
  some ((e.eval env).map make)

/-- Makes the step of a command of a plain vocabulary. -/
def Command.plainStep (env : Env) :
    (p : Plain) → Command → Option (Traced Note (Step Note p.vocabulary Value))
  | .eff, .tell e => e.making env fun v => Plain.step .eff (.tell v.toText) fun _ => .null
  | .eff, .put e => e.making env fun v => Plain.step .eff (.put v.toInt) fun _ => .null
  | .eff, .get => .some (.pure (Plain.step .eff .get .int))
  | .eff, .ask e => e.making env fun v => Plain.step .eff (.ask v.toText) id
  | .eff, .halt e => e.making env fun v => Plain.step .eff (.halt v.toText) Empty.elim
  | .say, .say e => e.making env fun v => Plain.step .say v.toText fun _ => .null
  | .tally, .add e => e.making env fun v => Plain.step .tally (.add v.toInt) fun _ => .null
  | .tally, .total => .some (.pure (Plain.step .tally .total .int))
  | .option, .some e => e.making env fun v => Plain.step .option .some fun _ => v
  | .option, .none => .some (.pure (Plain.step .option .none Empty.elim))
  | .result, .ok e => e.making env fun v => Plain.step .result .ok fun _ => v
  | .result, .err e => e.making env fun v => Plain.step .result (.err v.toText) Empty.elim
  | .box, .box e => e.making env fun v => Plain.step .box () fun _ => v
  | .identity, .identity e => e.making env fun v => Plain.step .identity () fun _ => v
  | .sum l _, .left c => (c.plainStep env l).map fun m => m.map Step.left
  | .sum _ r, .right c => (c.plainStep env r).map fun m => m.map Step.right
  | p, .within name c =>
    (Place.find? p name).bind fun ⟨q, place⟩ =>
      (c.plainStep env q).map fun m => m.map place.branch.inject
  | _, _ => .none

/-- Makes the request of a command to the store, with the type of its answer. -/
def Command.request (env : Env) : Command → Option (Traced Note (AnswerType × StoreRequest))
  | .size => .some (.pure (.int, .size))
  | .read e => e.making env fun v => (.str, .read v.toText)
  | .has e => e.making env fun v => (.bool, .has v.toText)
  | .erase e => e.making env fun v => (.unit, .erase v.toText)
  | .keys => .some (.pure (.list, .keys))
  | _ => .none

/-- Makes the step of a command, if it is one of the vocabulary. A request to the store has its
    typed answer turned into a value. -/
def Command.step (env : Env) :
    (v : Vocab) → Command → Option (Traced Note (Step Note v.vocabulary Value))
  | .plain p, c => c.plainStep env p
  | .coyo p, c => (c.plainStep env p).map fun m => m.map fun s =>
      Coyoneda.lift (R := .steps Note p.vocabulary AnswerType.El) .value s
  | .store, c => (c.request env).map fun m => m.map fun (t, request) =>
      (Coyoneda.lift (R := storeRequests) t request).andThen fun x => .pure (t.toValue x)

end FreeMonad
