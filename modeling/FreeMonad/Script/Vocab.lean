import FreeMonad.Vocabulary.Sum
import FreeMonad.Vocabulary.Request
import FreeMonad.Script.Expr

set_option autoImplicit false

/-! # The vocabularies of scripts

Scripts are written over a fixed family of vocabularies, named by codes. The *plain* ones carry
their payload themselves: writing, a number that is set and read, a tally, the four simple
containers, and sums of these. A plain vocabulary can also be used through requests, its steps
being requests for a value, and the *store* has requests of several answer types and no payload
of its own.

For every operation this module says how it is described, what it asks of the world (`Act`), and
how a value is read as one of its answers. -/

namespace FreeMonad

/-! ## Operations -/

/-- Writing, a number, look-ups, and giving up. -/
inductive EffOp where
  | tell (line : String)
  | put (n : Int64)
  | get
  | ask (key : String)
  | halt (reason : String)

/-- Adding to a number and reading it. -/
inductive TallyOp where
  | add (n : Int64)
  | total

/-- A payload or nothing. -/
inductive OptionOp where
  | some
  | none

/-- A payload or an error message. -/
inductive ResultOp where
  | ok
  | err (message : String)

/-- Requests to a store of texts. -/
inductive StoreRequest where
  | size
  | read (key : String)
  | has (key : String)
  | erase (key : String)
  | keys

/-- The codes of the plain vocabularies. -/
inductive Plain where
  | eff
  | say
  | tally
  | option
  | result
  | box
  | identity
  | sum (l r : Plain)
  deriving DecidableEq, Repr

/-- The codes of all vocabularies of scripts. -/
inductive Vocab where
  /-- A plain vocabulary. -/
  | plain (p : Plain)
  /-- The steps of a plain vocabulary as requests for a value. -/
  | coyo (p : Plain)
  /-- Requests to a store. -/
  | store
  deriving DecidableEq, Repr

namespace Plain

/-- The vocabulary that a code stands for. Operations without a reply carry their payload
    already, and those that give up have no answer. -/
def vocabulary : Plain → Vocabulary
  | .eff =>
    { Op := EffOp
      Answer
        | .tell _ | .put _ => Unit
        | .get => Int64
        | .ask _ => Value
        | .halt _ => Empty
      known
        | .tell _ | .put _ => some ()
        | .get | .ask _ | .halt _ => none }
  | .say => { Op := String, Answer _ := Unit, known _ := some () }
  | .tally =>
    { Op := TallyOp
      Answer
        | .add _ => Unit
        | .total => Int64
      known
        | .add _ => some ()
        | .total => none }
  | .option =>
    { Op := OptionOp
      Answer
        | .some => Unit
        | .none => Empty
      known
        | .some => some ()
        | .none => none }
  | .result =>
    { Op := ResultOp
      Answer
        | .ok => Unit
        | .err _ => Empty
      known
        | .ok => some ()
        | .err _ => none }
  | .box => { Op := Unit, Answer _ := Unit, known _ := some () }
  | .identity => { Op := Unit, Answer _ := Unit, known _ := some () }
  | .sum l r => l.vocabulary.sum r.vocabulary

end Plain

/-- The requests to a store. The type of the answer is not part of the request. -/
def storeRequests : Requests where
  Tag := AnswerType
  Answer := AnswerType.El
  Request _ := StoreRequest

/-- The vocabulary that a code stands for. -/
def Vocab.vocabulary : Vocab → Vocabulary
  | .plain p => p.vocabulary
  | .coyo p => (Requests.steps Note p.vocabulary AnswerType.El).vocabulary
  | .store => storeRequests.vocabulary

/-! ## Descriptions -/

/-- A named description with its details. -/
def Value.tagged (name : String) (details : List Value) : Value := .list (.text name :: details)

/-- The description of a request to the store. -/
def StoreRequest.describe : StoreRequest → Value
  | .size => .tagged "size" []
  | .read key => .tagged "read" [.text key]
  | .has key => .tagged "has" [.text key]
  | .erase key => .tagged "erase" [.text key]
  | .keys => .tagged "keys" []

/-- The description of an operation: its name and what it holds besides its payload. -/
def Plain.describe : (p : Plain) → p.vocabulary.Op → Value
  | .eff, .tell line => .tagged "tell" [.text line]
  | .eff, .put n => .tagged "put" [.int n]
  | .eff, .get => .tagged "get" []
  | .eff, .ask key => .tagged "ask" [.text key]
  | .eff, .halt reason => .tagged "halt" [.text reason]
  | .say, line => .tagged "say" [.text line]
  | .tally, .add n => .tagged "add" [.int n]
  | .tally, .total => .tagged "total" []
  | .option, .some => .tagged "some" []
  | .option, .none => .tagged "none" []
  | .result, .ok => .tagged "ok" []
  | .result, .err message => .tagged "err" [.text message]
  | .box, _ => .tagged "box" []
  | .identity, _ => .tagged "id" []
  | .sum l _, .inl op => .tagged "left" [l.describe op]
  | .sum _ r, .inr op => .tagged "right" [r.describe op]

/-- The description of an operation; requests are marked as such. -/
def Vocab.describe : (v : Vocab) → v.vocabulary.Op → Value
  | .plain p, op => p.describe op
  | .coyo p, ⟨_, s⟩ => .tagged "coyo" [p.describe s.op]
  | .store, ⟨t, request⟩ => .tagged "coyo" [.text t.word, request.describe]

/-! ## What an operation asks of the world -/

/-- What an operation asks of the world, whatever vocabulary it comes from. -/
inductive Act where
  /-- Writes a line. -/
  | write (line : String)
  /-- Sets the number. -/
  | set (n : Int64)
  /-- Adds to the number. -/
  | add (n : Int64)
  /-- Reads the number. -/
  | get
  /-- Looks up a variable. -/
  | lookup (key : String)
  /-- Reads a variable as a text. -/
  | read (key : String)
  /-- Is there such a variable? -/
  | has (key : String)
  /-- How many variables are there? -/
  | size
  /-- The names of all variables. -/
  | keys
  /-- Removes a variable. -/
  | erase (key : String)
  /-- Fails with a message. -/
  | fail (message : String)
  /-- Asks for nothing. -/
  | nothing

/-- What a request to the store asks of the world. -/
def StoreRequest.act : StoreRequest → Act
  | .size => .size
  | .read key => .read key
  | .has key => .has key
  | .erase key => .erase key
  | .keys => .keys

/-- What an operation asks of the world; those of a sum ask the same as on their own side. -/
def Plain.act : (p : Plain) → p.vocabulary.Op → Act
  | .eff, .tell line => .write line
  | .eff, .put n => .set n
  | .eff, .get => .get
  | .eff, .ask key => .lookup key
  | .eff, .halt reason => .fail ("halt: " ++ reason)
  | .say, line => .write line
  | .tally, .add n => .add n
  | .tally, .total => .get
  | .option, .some => .nothing
  | .option, .none => .fail "none"
  | .result, .ok => .nothing
  | .result, .err message => .fail message
  | .box, _ => .nothing
  | .identity, _ => .nothing
  | .sum l _, .inl op => l.act op
  | .sum _ r, .inr op => r.act op

/-- What an operation asks of the world; a request asks what it would ask as a step. -/
def Vocab.act : (v : Vocab) → v.vocabulary.Op → Act
  | .plain p, op => p.act op
  | .coyo p, ⟨_, s⟩ => p.act s.op
  | .store, ⟨_, request⟩ => request.act

/-! ## Reading a value as an answer -/

/-- A value as an answer to an operation, if the operation has answers at all. -/
def Plain.answer : (p : Plain) → (op : p.vocabulary.Op) → Value → Option (p.vocabulary.Answer op)
  | .eff, .tell _, _ => some ()
  | .eff, .put _, _ => some ()
  | .eff, .get, v => some v.toInt
  | .eff, .ask _, v => some v
  | .eff, .halt _, _ => none
  | .say, _, _ => some ()
  | .tally, .add _, _ => some ()
  | .tally, .total, v => some v.toInt
  | .option, .some, _ => some ()
  | .option, .none, _ => none
  | .result, .ok, _ => some ()
  | .result, .err _, _ => none
  | .box, _, _ => some ()
  | .identity, _, _ => some ()
  | .sum l _, .inl op, v => l.answer op v
  | .sum _ r, .inr op, v => r.answer op v

end FreeMonad
