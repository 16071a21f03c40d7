import FreeMonad.Script.Display
import FreeMonad.Script.Form
import FreeMonad.Script.Command

set_option autoImplicit false

/-! # Trying out conversions of requests

A request of one answer type is lifted, converted to a value, and then put through a list of
trials: mapping, asking for its type, offering it to handlers and lowering it. A trial that
answers the request consumes it. -/

namespace FreeMonad

/-! ## Names of types -/

/-- The name of an answer type in descriptions of requests. -/
def AnswerType.typeName : AnswerType → String
  | .int => "i64"
  | .str => "alloc::string::String"
  | .bool => "bool"
  | .unit => "()"
  | .list => "alloc::vec::Vec<oracle_driver::lang::J>"
  | .value => "oracle_driver::lang::J"

/-- The kinds of requests whose conversions can be tried out. -/
inductive RequestKind where
  | option
  | result
  | box
  | identity
  | store
  deriving DecidableEq, Repr

/-- The name of the type of requests of a kind for answers of a type. -/
def RequestKind.typeName (kind : RequestKind) (t : AnswerType) : String :=
  match kind with
  | .option => "core::option::Option<" ++ t.typeName ++ ">"
  | .result => "core::result::Result<" ++ t.typeName ++ ", alloc::string::String>"
  | .box => "alloc::boxed::Box<" ++ t.typeName ++ ">"
  | .identity => "freestep::typeclass::identity::Identity<" ++ t.typeName ++ ">"
  | .store => "oracle_driver::vocab::Store<" ++ t.typeName ++ ">"

/-! ## Requests -/

/-- Requests of one kind, for answers of any of the types. -/
def typedRequests (Request : AnswerType → Type) : Requests where
  Tag := AnswerType
  Answer := AnswerType.El
  Request := Request

/-- What trials need to know of the requests of a kind. -/
structure Requestable (Request : AnswerType → Type) where
  /-- The name of the type of requests for an answer of the given type. -/
  typeName : AnswerType → String
  /-- The request as a value. -/
  shown : (t : AnswerType) → Request t → Value
  /-- The request with the conversion mapped over it, as a value, where that makes sense. -/
  lowered : Coyoneda Note (typedRequests Request) Value → Option (Traced Note Value)

/-- A step of a container as a value: its description, with the payload if it holds one. -/
def Plain.shown (p : Plain) {α : Type} (write : α → Value) (s : Step Note p.vocabulary α) : Value :=
  match p.vocabulary.known s.op with
  | some x => .list ((p.describe s.op).toList ++ [write (s.reply x).value])
  | none => p.describe s.op

/-- Steps of a container, as requests for their payload. -/
def Requestable.steps (kind : RequestKind) (p : Plain) :
    Requestable fun t => Step Note p.vocabulary t.El where
  typeName := kind.typeName
  shown t s := p.shown t.toValue s
  lowered c :=
    let c : Coyoneda Note (.steps Note p.vocabulary AnswerType.El) Value := c
    some (c.lower.map (p.shown id))

/-- Requests to the store, kept as they are written. They have no payload to map over. -/
def Requestable.store : Requestable fun _ => Value where
  typeName := RequestKind.typeName .store
  shown _ command := command
  lowered _ := none

/-! ## Trials -/

/-- One trial of a request with its conversion. -/
inductive Trial where
  /-- Maps a function over the conversion. -/
  | map (f : Fn1)
  /-- Does the request ask for an answer of the type? -/
  | isRequest (t : AnswerType)
  /-- The name of the type of the request. -/
  | typeName
  /-- The request as text. -/
  | display (layout : Layout)
  /-- Offers the request to a handler for the type. -/
  | handle (t : AnswerType) (f : Fn1)
  /-- Lowers the request. -/
  | lower

namespace Requestable

variable {Request : AnswerType → Type}

/-- What a trial shows, and the request if it is not consumed. -/
def attempt (q : Requestable Request) (c : Coyoneda Note (typedRequests Request) Value) :
    Trial → Traced Note (Form × Option (Coyoneda Note (typedRequests Request) Value))
  | .map f => .pure (.null, some (c.andThen (f.call [])))
  | .isRequest t => .pure (.bool (Coyoneda.isRequest (R := typedRequests Request) t c), some c)
  | .typeName => .pure (.text (q.typeName c.op.1), some c)
  | .display layout =>
    .pure (.text (layout.constructor "Coyoneda" (Quoted.write (q.typeName c.op.1))), some c)
  | .handle t f =>
    match Coyoneda.handle (R := typedRequests Request) t (fun request =>
        (f.call [] (q.shown t request)).map fun v => ((), t.ofValue v)) c with
    | .inr m => m.map fun (_, v) => (.one "ok" (.ofValue v), none)
    | .inl c => .pure (.text "mismatch", some c)
  | .lower =>
    match q.lowered c with
    | some m => m.map fun v => (.ofValue v, none)
    | none => .pure (.text "mismatch", some c)

/-- What a list of trials shows; after the request is consumed, nothing but that. -/
def attemptAll (q : Requestable Request) :
    List Trial → Option (Coyoneda Note (typedRequests Request) Value) → Traced Note (List Form)
  | [], _ => .pure []
  | _ :: rest, none => (attemptAll q rest none).map fun shown => .text "consumed" :: shown
  | trial :: rest, some c =>
    (q.attempt c trial).bind fun (shown, c) => (attemptAll q rest c).map fun more => shown :: more

/-- Lifts a request, converts its answer to a value and puts it through trials. -/
def conversions (q : Requestable Request) (t : AnswerType) (request : Request t)
    (trials : List Trial) : Traced Note (List Form) :=
  q.attemptAll trials <| some <|
    (Coyoneda.lift (R := typedRequests Request) t request).andThen fun x => .pure (t.toValue x)

end Requestable

end FreeMonad
