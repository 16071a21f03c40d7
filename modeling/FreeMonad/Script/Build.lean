import FreeMonad.Script.Respond
import FreeMonad.Script.Script

set_option autoImplicit false

/-! # Building programs from scripts

Building is eager and goes in the order in which a script is written: the expressions and
programs that are not inside a function or deferred are evaluated and built at once, and a
function is evaluated each time it is called, in the scope where it stands.

Every script builds a program over every vocabulary. A part that does not fit the vocabulary over
which it is built stands as a finished program with null; a part that is never reached, such as
the branch of a choice that is not taken, is never asked whether it fits.

A script can call definitions, and these can call one another without end. Building therefore
takes a meaning for calls, and `Definitions.call` gives one by a bound on the depth of calls; a
call that is too deep, or of a name without a definition, does not fit either. -/

namespace FreeMonad

/-- Programs over the vocabularies of scripts, with values as results. -/
abbrev Built (v : Vocab) : Type 1 := Program Note v.vocabulary Value

/-- What is built from something that does not fit the vocabulary. -/
def misfit {v : Vocab} : Traced Note (Built v) := .pure (.pure .null)

/-! ## Observing and rewriting -/

/-- The vocabularies that an observed program can be translated to. -/
inductive StandIn : Plain → Type where
  | eff : StandIn .eff
  | say : StandIn .say
  | option : StandIn .option
  | result : StandIn .result
  | box : StandIn .box
  | identity : StandIn .identity

namespace StandIn

/-- The vocabulary of a code, if observed programs can be translated to it. -/
def find? : (p : Plain) → Option (StandIn p)
  | .eff => some .eff
  | .say => some .say
  | .option => some .option
  | .result => some .result
  | .box => some .box
  | .identity => some .identity
  | _ => none

/-- The step that stands for a described step with the payload `next`. A description of absence
    or failure stands as such where the vocabulary has it. -/
def step {α : Type 1} : {p : Plain} → StandIn p → Value → α → Step Note p.vocabulary α
  | _, .eff, d, next => .asking (V := Plain.eff.vocabulary) (.tell d.compact) fun _ => next
  | _, .say, d, next => .asking (V := Plain.say.vocabulary) d.compact fun _ => next
  | _, .box, _, next => .asking (V := Plain.box.vocabulary) () fun _ => next
  | _, .identity, _, next => .asking (V := Plain.identity.vocabulary) () fun _ => next
  | _, .option, d, next =>
    if d.element 0 = .text "none" then
      .asking (V := Plain.option.vocabulary) .none Empty.elim
    else
      .asking (V := Plain.option.vocabulary) .some fun _ => next
  | _, .result, d, next =>
    if d.element 0 = .text "halt" ∨ d.element 0 = .text "err" then
      .asking (V := Plain.result.vocabulary) (.err (d.element 1).toText) Empty.elim
    else
      .asking (V := Plain.result.vocabulary) .ok fun _ => next

theorem value_reply_step {α : Type 1} {p : Plain} (t : StandIn p) (d : Value) (next : α)
    (x : p.vocabulary.Answer (t.step d next).op) : ((t.step d next).reply x).value = next := by
  revert x
  cases t with
  | eff | say | box | identity => exact fun _ => rfl
  | option =>
    by_cases h : d.element 0 = .text "none"
    · rw [step, if_pos h]
      exact fun x => nomatch x
    · rw [step, if_neg h]
      exact fun _ => rfl
  | result =>
    by_cases h : d.element 0 = .text "halt" ∨ d.element 0 = .text "err"
    · rw [step, if_pos h]
      exact fun x => nomatch x
    · rw [step, if_neg h]
      exact fun _ => rfl

/-- What an observed step without payload goes on with. -/
def stop (v : Vocab) : Built v := .pure (.list [.text "stop"])

/-- Translates a step by describing it, answering it and letting another step stand for it. -/
def translator {p : Plain} (t : StandIn p) (v : Vocab) (answer : Value) :
    Translator Note v.vocabulary p.vocabulary Value := fun s =>
  let d := v.describe s.op
  ((v.respond .lower (.pure ((), some answer)) s).map fun (_, payload) =>
    t.step d (payload.getD (stop v))).after [.user (.translate d)]

theorem translator_handsOn {p : Plain} (t : StandIn p) (v : Vocab) (answer : Value) :
    (t.translator v answer).HandsOn := fun s x => by
  cases h : (v.respond .lower (.pure ((), some answer)) s).value.2 with
  | none =>
    refine .inr ?_
    have : ((t.translator v answer s).value.reply x).value = stop v :=
      (t.value_reply_step _ _ x).trans (by rw [h]; rfl)
    rw [this]
    rfl
  | some next =>
    obtain ⟨y, hy⟩ := Vocab.exists_reply_of_respond h
    exact .inl ⟨y, (t.value_reply_step _ _ x).trans (by rw [h]; exact hy.symm)⟩

end StandIn

namespace Rules

/-- Applies a rule to a value; without a rule, the value is kept. -/
def apply (env : Env) : Option Fn1 → Value → Traced Note Value
  | some f, v => f.call env v
  | none, v => .pure v

/-- Translates a step by rewriting its details. The number that is read is rewritten when it is
    known. -/
def translator (rules : Rules) (env : Env) :
    Translator Note Plain.eff.vocabulary Plain.eff.vocabulary Value
  | ⟨.tell line, reply⟩ =>
    (apply env rules.tell (.text line)).map fun v => ⟨EffOp.tell v.toText, reply⟩
  | ⟨.put n, reply⟩ => (apply env rules.put (.int n)).map fun v => ⟨EffOp.put v.toInt, reply⟩
  | ⟨.get, reply⟩ =>
    .pure ⟨EffOp.get, fun n => (apply env rules.get (.int n)).bind fun v => reply v.toInt⟩
  | ⟨.ask key, reply⟩ =>
    (apply env rules.ask (.text key)).map fun v => ⟨EffOp.ask v.toText, reply⟩
  | ⟨.halt reason, reply⟩ => .pure ⟨EffOp.halt reason, reply⟩

theorem translator_handsOn (rules : Rules) (env : Env) : (rules.translator env).HandsOn
  | ⟨.tell _, _⟩, x => .inl ⟨x, rfl⟩
  | ⟨.put _, _⟩, x => .inl ⟨x, rfl⟩
  | ⟨.get, _⟩, n => .inl ⟨(apply env rules.get (.int n)).value.toInt, rfl⟩
  | ⟨.ask _, _⟩, x => .inl ⟨x, rfl⟩
  | ⟨.halt _, _⟩, x => .inl ⟨x, rfl⟩

end Rules

/-! ## Scripts -/

/-- The program of one command. The typed answer of a request to the store becomes a value in
    the program itself, not in the request. -/
def Command.lift (env : Env) : (v : Vocab) → Command → Option (Traced Note (Built v))
  | .store, c => (c.request env).map fun m => m.map fun (t, request) =>
      (Program.lift (Coyoneda.lift (R := storeRequests) t request)).map fun x =>
        .pure (t.toValue x)
  | v, c => (c.step env v).map fun m => m.map .lift

/-- A count of attachments; none if the integer is not positive. -/
def Expr.count (env : Env) (e : Expr) : Traced Note Nat :=
  (e.eval env).map fun v => v.toInt.toNatClampNeg

/-- Puts the programs that `build` gives for `i`, `i + 1`, … after `p`, `n` of them; `recorded`
    holds the events so far, the latest first. -/
def thenAll {v : Vocab} (build : Value → Traced Note (Built v)) :
    (n : Nat) → (recorded : List (Event Note)) → (i : Nat) → Built v → Traced Note (Built v)
  | 0, recorded, _, p => ⟨recorded.reverse, p⟩
  | n + 1, recorded, i, p =>
    let q := build (.int (.ofNat i))
    thenAll build n (q.log.reverseAux recorded) (i + 1) (p.andThen q.value)

namespace Script

/-- What a call of a name with arguments builds, over each vocabulary. -/
abbrev Calls := (v : Vocab) → String → List Value → Traced Note (Built v)

/-- Builds the program of a script over a vocabulary, in a scope. In a numbered continuation the
    result is the inner variable and the number the outer one. -/
def build (calls : Calls) (env : Env) : (v : Vocab) → Script → Traced Note (Built v)
  | _, .pure e => (e.eval env).map .pure
  | v, .lift c => (c.lift env v).getD misfit
  | v, .suspend c x body =>
    match c.step env v with
    | some step =>
      step.bind fun s => (s.mapTraced fun a => body.build calls ((x, a) :: env) v).map .ofStep
    | none => misfit
  | v, .defer p => .pure (.defer fun _ => p.build calls env v)
  | v, .bind p x body =>
    (p.build calls env v).map fun p => p.flatMap fun a => body.build calls ((x, a) :: env) v
  | v, .map p f => (p.build calls env v).map fun p => p.map fun a => f.call env a
  | v, .andThen p q =>
    (p.build calls env v).bind fun p => (q.build calls env v).map fun q => p.andThen q
  | v, .map2 p q f =>
    (p.build calls env v).bind fun p => (q.build calls env v).map fun q =>
      Program.map2 (fun a b => f.call env a b) p q
  | v, .apply p q f =>
    (p.build calls env v).bind fun p => (q.build calls env v).map fun q =>
      (p.map fun a => .pure fun b => f.call env a b).apply q
  | v, .binds count p x i body =>
    (count.count env).bind fun n => (p.build calls env v).map fun p =>
      n.fold (fun k _ p =>
        p.flatMap fun a => body.build calls ((x, a) :: (i, .int (.ofNat k)) :: env) v) p
  | v, .maps count p f =>
    (count.count env).bind fun n => (p.build calls env v).map fun p =>
      n.fold (fun k _ p => p.map fun a => f.call env a (.int (.ofNat k))) p
  | v, .thens count p i body =>
    (count.count env).bind fun n => (p.build calls env v).bind fun p =>
      thenAll (fun k => body.build calls ((i, k) :: env) v) n [] 0 p
  | v, .choose condition p q =>
    (condition.eval env).bind fun c =>
      if c.isTrue then p.build calls env v else q.build calls env v
  | v, .bindVar x e p => (e.eval env).bind fun a => p.build calls ((x, a) :: env) v
  | v, .call name args => (Expr.evalAll env args).bind fun as => calls v name as
  | v, .widenItself p => (p.build calls env v).bind fun p => p.widen .itself
  | .plain q, .widen name s =>
    match Place.find? q name with
    | some ⟨p, place⟩ => (s.build calls env (.plain p)).bind fun p => p.widen place.branch
    | none => misfit
  | .plain p, .lower s => (s.build calls env (.coyo p)).bind fun p => p.lower
  | .plain p, .observe v s answer =>
    match StandIn.find? p with
    | some target =>
      (answer.eval env).bind fun a => (s.build calls env v).bind fun p =>
        p.translate (target.translator v a) ((target.translator_handsOn v a).acc p)
    | none => misfit
  | .plain .eff, .rewrite rules s =>
    (s.build calls env (.plain .eff)).bind fun p =>
      p.translate (rules.translator env) ((rules.translator_handsOn env).acc p)
  | _, _ => misfit

end Script

/-- The scope of a definition's body: its parameters, the last one innermost, with null where an
    argument is missing. -/
def Env.ofArgs (params : List String) (args : List Value) : Env :=
  (params.zipIdx.map fun (x, i) => (x, args.getD i .null)).reverse

/-- What calls build when definitions may be entered `depth` times within one another. -/
def Definitions.call (defs : Definitions) : (depth : Nat) → Script.Calls
  | 0, _, _, _ => misfit
  | depth + 1, v, name, args =>
    match defs.lookup name with
    | some d => d.body.build (defs.call depth) (.ofArgs d.params args) v
    | none => misfit

end FreeMonad
