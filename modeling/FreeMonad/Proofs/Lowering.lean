import FreeMonad.Proofs.Course
import FreeMonad.Proofs.Transparency
import FreeMonad.Proofs.Widening

set_option autoImplicit false

/-! # Lowering a request or handling it

A request that is itself a step can be answered in two ways. It can be lowered, which maps its
conversion over the step, and the step answered then. Or it can be handled by a responder that
answers the step inside, and the conversion applied to the value that this gives. With the first way
the conversion is in the step before the answer is known, and if the payload is there already it has
been applied by then. With the second way the answer comes first.

Over a vocabulary that keeps the laws of mapping, the two ways come to the same, for every
interpreter that looks at operations alone and answers them (`Answerer.lowering_eq_handling`). A
conversion contains all the rest of the program, so this says of one call what a whole run needs:
the run meets the same steps, and by every driver it comes to the same state and value, with the
conversions applied in the same order (`Program.lowering_or_handling`). -/

namespace FreeMonad

universe u v w

variable {ν : Type} {V : Vocabulary} {M : Host} {σ : Type u} {α : Type}

/-! ## Answering steps -/

/-- A stateful interpreter that looks at operations alone, and gives some of them an answer.
    Whatever else it does is kept in its state, apart from what the functions of a program
    record. -/
abbrev Answerer (V : Vocabulary) (σ : Type u) := σ → (op : V.Op) → Option (σ × V.Answer op)

namespace Answerer

/-- The interpreter that also keeps the operations it answers, in order. -/
def recording (A : Answerer V σ) : Answerer V (σ × List V.Op) := fun (world, ops) op =>
  (A world op).map fun (world, x) => ((world, ops ++ [op]), x)

/-- The payload of a step that is answered, as `wrap` makes it. A step that is not answered is left
    to `otherwise`. -/
def on {P : Type v} {Q : Type w} (A : Answerer V σ) (wrap : P → Q)
    (otherwise : σ → Step ν V P → Traced ν (σ × Q)) : σ → Step ν V P → Traced ν (σ × Q) :=
  fun world s =>
    match A world s.op with
    | some (world, x) => (s.reply x).map fun p => (world, wrap p)
    | none => otherwise world s

theorem on_of_eq_some {P : Type v} {Q : Type w} {A : Answerer V σ} {wrap : P → Q}
    {otherwise : σ → Step ν V P → Traced ν (σ × Q)} {world world' : σ} {s : Step ν V P}
    {x : V.Answer s.op} (h : A world s.op = some (world', x)) :
    A.on wrap otherwise world s = (s.reply x).map fun p => (world', wrap p) := by
  rw [on, h]

/-- Mapping a conversion over a step and then answering it comes to the same as answering it and
    then converting the payload. -/
theorem mapTraced_bind_on (hV : V.Lawful) {A : Answerer V σ} {β : Type} {P : Type v} {Q : Type w}
    (wrap : P → Q) (otherwise : σ → Step ν V P → Traced ν (σ × Q)) (convert : β → Traced ν P)
    {world world' : σ} {s : Step ν V β} {x : V.Answer s.op} (h : A world s.op = some (world', x)) :
    ((s.mapTraced convert).bind fun t => A.on wrap otherwise world t)
      = ((s.reply x).bind convert).map fun p => (world', wrap p) := by
  rcases hknown : V.known s.op with _ | x'
  · -- the conversion waits in the step until the answer is given
    rw [Step.mapTraced_of_unknown _ hknown, Traced.pure_bind]
    exact on_of_eq_some h
  · -- the conversion is applied at once, to the payload that the only answer gives
    obtain rfl := Vocabulary.lawful_iff.1 hV s.op x' hknown x
    rw [Step.mapTraced_of_known _ hknown, Traced.bind_map]
    have hon : ∀ p, A.on wrap otherwise world ⟨s.op, fun _ => .pure p⟩
        = .pure (world', wrap p) := fun p => on_of_eq_some h
    simp only [hon]
    ext1
    · simp
    · rfl

end Answerer

/-! ## Two ways to answer a request -/

section

variable {Tag : Type} [DecidableEq Tag] {Answer : Tag → Type}

/-- Programs that ask for the payloads of steps of `V`. -/
abbrev Asking (ν : Type) (V : Vocabulary) {Tag : Type} [DecidableEq Tag] (Answer : Tag → Type)
    (α : Type) : Type 1 := Program ν (Requests.steps ν V Answer).vocabulary α

namespace Answerer

/-- Lowers each request and answers the step that this gives. -/
def lowering (A : Answerer V σ) (M : Host)
    (otherwise : σ → Step ν V (Asking ν V Answer α) →
      Traced ν (σ × M.Carrier (Asking ν V Answer α))) :
    Interpreter ν (Requests.steps ν V Answer).vocabulary M σ α := fun world c =>
  (Coyoneda.lower c).bind fun s => A.on M.pure otherwise world s

/-- Handles each request for a value of the type `tag`, by answering the step that the request is.
    Other requests are left to `stray`. -/
def handling (A : Answerer V σ) (M : Host) (tag : Tag)
    (otherwise : σ → Step ν V (Answer tag) → Traced ν (σ × Answer tag))
    (stray : Interpreter ν (Requests.steps ν V Answer).vocabulary M σ α) :
    Interpreter ν (Requests.steps ν V Answer).vocabulary M σ α := fun world c =>
  (Coyoneda.handle (R := .steps ν V Answer) tag (A.on id otherwise world) c).elim (stray world)
    fun handled => handled.map fun r => (r.1, M.pure r.2)

section

variable {A : Answerer V σ} {tag : Tag} {world world' : σ}
  {otherwise : σ → Step ν V (Asking ν V Answer α) → Traced ν (σ × M.Carrier (Asking ν V Answer α))}
  {otherwise' : σ → Step ν V (Answer tag) → Traced ν (σ × Answer tag)}
  {stray : Interpreter ν (Requests.steps ν V Answer).vocabulary M σ α}

theorem lowering_of_eq_some (hV : V.Lawful)
    {c : Coyoneda ν (.steps ν V Answer) (Asking ν V Answer α)} {x : V.Answer c.op.2.op}
    (h : A world c.op.2.op = some (world', x)) :
    A.lowering M otherwise world c
      = ((c.op.2.reply x).bind c.reply).map fun p => (world', M.pure p) :=
  mapTraced_bind_on hV M.pure otherwise c.reply h

theorem handling_of_eq_some {s : Step ν V (Answer tag)}
    {convert : Answer tag → Traced ν (Asking ν V Answer α)} {x : V.Answer s.op}
    (h : A world s.op = some (world', x)) :
    A.handling M tag otherwise' stray world ⟨⟨tag, s⟩, convert⟩
      = ((s.reply x).bind convert).map fun p => (world', M.pure p) := by
  have hon : A.on id otherwise' world s = (s.reply x).map fun a => (world', a) := on_of_eq_some h
  have hhandle : Coyoneda.handle (R := .steps ν V Answer) tag (A.on id otherwise' world)
      ⟨⟨tag, s⟩, convert⟩ = .inr (((s.reply x).map fun a => (world', a)).bind fun r =>
        (convert r.2).map fun p => (r.1, p)) :=
    (Coyoneda.handle_mk (R := .steps ν V Answer) tag s convert _).trans
      (congrArg (fun m => Sum.inr (m.bind fun r => (convert r.2).map fun p => (r.1, p))) hon)
  exact congrArg (Sum.elim (stray world) fun handled => handled.map fun r => (r.1, M.pure r.2))
    hhandle

/-- A request whose step is answered is answered alike in both ways: the same events are recorded,
    the state is the same, and the run goes on with the same program. -/
theorem lowering_eq_handling (hV : V.Lawful)
    {c : Coyoneda ν (.steps ν V Answer) (Asking ν V Answer α)} (htag : Coyoneda.tag c = tag)
    (hanswered : (A world c.op.2.op).isSome) :
    A.lowering M otherwise world c = A.handling M tag otherwise' stray world c := by
  obtain ⟨⟨tag', s⟩, convert⟩ := c
  obtain rfl : tag' = tag := htag
  obtain ⟨⟨world', x⟩, hx⟩ := Option.isSome_iff_exists.1 hanswered
  exact (lowering_of_eq_some hV hx).trans (handling_of_eq_some hx).symm

end

end Answerer

/-! ## Whole runs -/

/-- The interpreter with its answers delivered later, after as many polls as the state and the step
    say. -/
def Interpreter.deliveredAfter {W : Vocabulary} (I : Interpreter ν W M σ α)
    (delay : σ → Step ν W (Program ν W α) → Nat) : DelayedInterpreter ν W M σ α := fun world s =>
  (I world s).map fun r => (r.1, ⟨delay world s, r.2⟩)

namespace Program

/-- If each step that a run meets is lowered and answered, they are steps that the program can come
    to. -/
theorem issues_of_lowering (hV : V.Lawful) {A : Answerer V σ}
    {otherwise : σ → Step ν V (Asking ν V Answer α) →
      Traced ν (σ × M.Carrier (Asking ν V Answer α))}
    {world : σ} {p : Asking ν V Answer α}
    (hmet : Course.Always (A.lowering M otherwise) world (.left p)
      fun world c => (A world c.op.2.op).isSome) :
    Course.Always (A.lowering M otherwise) world (.left p) fun _ c => p.Issues c := by
  intro calls world' o hcourse
  generalize hstart : Standing.left p = start at hcourse
  induction hcourse generalizing p with
  | stay world o =>
    intro c hc
    cases hc
  | value world hp =>
    intro c hc
    cases hc
  | @call world world' p' log s calls o hp rest ih =>
    obtain rfl := Standing.left.inj hstart
    obtain ⟨hs, hrest⟩ := hmet.call hp
    -- the answer is the payload for some answer to the request
    have hpayload : Call.AnsweredByPayload (A.lowering M otherwise) ⟨world, log, s⟩ := by
      obtain ⟨⟨world', x⟩, hx⟩ := Option.isSome_iff_exists.1 hs
      refine ⟨(s.op.2.reply x).value, ?_⟩
      rw [Answerer.lowering_of_eq_some hV hx]
      rfl
    obtain ⟨y, hanswered⟩ := hpayload.answered
    have hissues := ih (hanswered ▸ hrest) hanswered.symm
    intro c hc
    rcases List.mem_cons.1 hc with rfl | hc
    · exact .first (congrArg Traced.value hp)
    · exact .later (congrArg Traced.value hp) y (hissues c hc)

/-- **Lowering a request or handling it is the same.** Let the vocabulary keep the laws of mapping,
    let all steps that the program can come to be requests for values of one type, and let the
    interpreter look at operations alone and answer every step that it meets in the run. Then
    lowering each request and answering the step, or handling it by answering the step that it is,
    gives the same run by every driver: the same operations are answered in the same order, the
    functions called on the way record the same events in the same order, and the last state and
    the result are the same. -/
theorem lowering_or_handling (hV : V.Lawful) (A : Answerer V σ) (p : Asking ν V Answer α)
    (tag : Tag)
    (otherwise : σ × List V.Op → Step ν V (Asking ν V Answer α) →
      Traced ν ((σ × List V.Op) × M.Carrier (Asking ν V Answer α)))
    (otherwise' : σ × List V.Op → Step ν V (Answer tag) →
      Traced ν ((σ × List V.Op) × Answer tag))
    (stray : Interpreter ν (Requests.steps ν V Answer).vocabulary M (σ × List V.Op) α)
    (world : σ)
    (hsteps : ∀ c, p.Issues c → Coyoneda.tag c = tag)
    (hmet : Course.Always (A.recording.lowering M otherwise) (world, []) (.left p)
      fun state c => (A state.1 c.op.2.op).isSome) :
    (∀ turns, p.runInHost M (A.recording.lowering M otherwise) turns (world, [])
      = p.runInHost M (A.recording.handling M tag otherwise' stray) turns (world, [])) ∧
    ∀ driver delay turns limit,
      Task.pollTimes driver ((A.recording.lowering M otherwise).deliveredAfter delay) turns limit []
        0 (world, []) (Task.start p)
      = Task.pollTimes driver ((A.recording.handling M tag otherwise' stray).deliveredAfter delay)
        turns limit [] 0 (world, []) (Task.start p) := by
  have hanswered : Course.Always (A.recording.lowering M otherwise) (world, []) (.left p)
      fun state c => (A.recording state c.op.2.op).isSome := by
    intro calls world' o hcourse c hc
    rw [Answerer.recording, Option.isSome_map]
    exact hmet calls world' o hcourse c hc
  have hagree : Course.Always (A.recording.lowering M otherwise) (world, []) (.left p)
      fun state c => A.recording.lowering M otherwise state c
        = A.recording.handling M tag otherwise' stray state c := by
    intro calls world' o hcourse c hc
    have hissues := issues_of_lowering hV hanswered calls world' o hcourse c hc
    exact Answerer.lowering_eq_handling hV (hsteps c.step hissues)
      (hanswered calls world' o hcourse c hc)
  constructor
  · intro turns
    exact runInHost_congr hagree turns
  · intro driver delay turns limit
    refine Task.pollTimes_congr turns limit 0 fun calls world' o hcourse c hc => ?_
    have hcall := hagree calls world' o hcourse c hc
    exact congrArg (Traced.map fun r => (r.1, Delayed.mk (delay c.world c.step) r.2)) hcall

end Program

end

/-! ## Asking and writing, in both ways -/

/-- Counts the operations, and answers every question by 40 and the count. -/
def replying : Answerer errands Nat := fun count op =>
  match op with
  | .write _ => some (count + 1, ())
  | .ask => some (count + 1, 40 + count)
  | .giveUp => none

/-- The interpreter that lowers the requests of such programs. A step without an answer would end
    the run. -/
def replyLowered : Interpreter Empty (Requests.steps Empty errands fun _ : Unit => Nat).vocabulary
    .identity (Nat × List Errand) Nat :=
  replying.recording.lowering .identity fun state _ => .pure (state, Program.pure 0)

/-- The interpreter that handles them. A step without an answer would be answered by 0. -/
def replyHandled : Interpreter Empty (Requests.steps Empty errands fun _ : Unit => Nat).vocabulary
    .identity (Nat × List Errand) Nat :=
  replying.recording.handling .identity () (fun state _ => .pure (state, 0)) fun state _ =>
    .pure (state, Program.pure 0)

theorem writeDownAsked_lowering_or_handling :
    let p := (writeDownAsked.build Program.builders).value
    errands.Lawful ∧ (∀ c, p.Issues c → Coyoneda.tag c = ()) ∧
    Course.Always replyLowered (0, []) (.left p)
      (fun state c => (replying state.1 c.op.2.op).isSome) ∧
    p.runInHost .identity replyLowered 4 (0, []) = p.runInHost .identity replyHandled 4 (0, []) ∧
    (p.runInHost .identity replyHandled 4 (0, [])).value
      = ((3, [.ask, .write 40, .ask]), .inr (42 : Nat)) := by
  intro p
  have hsteps : ∀ c, p.Issues c → Coyoneda.tag c = () := fun _ _ => rfl
  have hmet : Course.Always replyLowered (0, []) (.left p)
      fun state c => (replying state.1 c.op.2.op).isSome :=
    .of_step rfl rfl <| .of_step rfl rfl <| .of_step rfl rfl <| .of_value rfl
  obtain ⟨hhosted, -⟩ := Program.lowering_or_handling errands_lawful replying p () _ _ _ 0 hsteps
    hmet
  exact ⟨errands_lawful, hsteps, hmet, hhosted 4, rfl⟩

end FreeMonad
