import FreeMonad.Proofs.Cancelling
import FreeMonad.Proofs.Transparency
import FreeMonad.Proofs.Widening

set_option autoImplicit false

/-! # Handlers that are tried in turn

Requests of several answer types can be mixed in one program. A `Handler` answers those of the types
in a finite set, and whoever runs the program tries one type after the other: a request for another
type is given back, and the next type is tried with it (`Handler.tryEach`). The order of the trials
is no part of the meaning. Trying comes to the one call of the handler that fits
(`Handler.tryEach_of_mem`).

What such a program means can be said without any program: its requests are read as calls of the
handler, and its builders as those of a computation on the handler's state (`Recipe.evaluate`). A
run does just that, for every host and driver (`Recipe.handled_directly`). In between stands the
tree of the program, in which every request already carries the conversions that the program has
composed onto it: `Tree.Reads` says which computation a tree is, a recipe's tree is the computation
that the recipe evaluates to (`Recipe.reads`), and a run follows the tree
(`Program.stepByHand_of_reads`). -/

namespace FreeMonad

universe u v w

variable {ν : Type} {R : Requests} {T : Finset R.Tag} {M : Host} {σ : Type u} {α β γ : Type}

/-! ## Computations on a state -/

/-- A computation that reads and changes a state and may record events. -/
abbrev Stateful (ν : Type) (σ : Type u) (A : Type v) := σ → Traced ν (σ × A)

namespace Stateful

variable {A : Type v} {B : Type w} {C : Type v}

/-- Gives a value and leaves the state as it is. -/
def pure (a : A) : Stateful ν σ A := fun world => .pure (world, a)

/-- One computation and then another one, from the state that the first one leaves. -/
def bind (m : Stateful ν σ A) (k : A → Stateful ν σ B) : Stateful ν σ B := fun world =>
  (m world).bind fun (world, a) => k a world

/-- Puts `events` before everything that is recorded. -/
def after (events : List (Event ν)) (m : Stateful ν σ A) : Stateful ν σ A := fun world =>
  (m world).after events

/-- The result of a function, with the state left as it is. -/
def result (m : Traced ν A) : Stateful ν σ A := fun world => m.map fun a => (world, a)

theorem result_eq (m : Traced ν A) : (result m : Stateful ν σ A) = after m.log (pure m.value) := by
  funext world
  ext1
  · exact (List.append_nil _).symm
  · rfl

@[simp] theorem after_nil (m : Stateful ν σ A) : after [] m = m := rfl

@[simp] theorem after_after (l l' : List (Event ν)) (m : Stateful ν σ A) :
    after l (after l' m) = after (l ++ l') m := by
  funext world
  ext1
  · exact (List.append_assoc _ _ _).symm
  · rfl

@[simp] theorem pure_bind (a : A) (k : A → Stateful ν σ B) : bind (pure a) k = k a := rfl

@[simp] theorem after_bind (l : List (Event ν)) (m : Stateful ν σ A) (k : A → Stateful ν σ B) :
    bind (after l m) k = after l (bind m k) := by
  funext world
  ext1
  · exact List.append_assoc _ _ _
  · rfl

@[simp] theorem bind_assoc (m : Stateful ν σ A) (k : A → Stateful ν σ B)
    (l : B → Stateful ν σ C) : bind (bind m k) l = bind m fun a => bind (k a) l := by
  funext world
  exact Traced.bind_assoc _ _ _

/-- The first computation does what the second one does, and keeps something more in its state. -/
def Extends {κ : Type} (m : Stateful ν (σ × κ) A) (m' : Stateful ν σ A) : Prop :=
  ∀ world kept, (m (world, kept)).map (fun r => (r.1.1, r.2)) = m' world

theorem Extends.pure {κ : Type} (a : A) :
    Extends (κ := κ) (Stateful.pure a : Stateful ν _ A) (.pure a : Stateful ν σ A) :=
  fun _ _ => rfl

theorem Extends.result {κ : Type} (m : Traced ν A) :
    Extends (κ := κ) (Stateful.result m : Stateful ν _ A) (.result m : Stateful ν σ A) :=
  fun _ _ => rfl

theorem Extends.after {κ : Type} (l : List (Event ν)) {m : Stateful ν (σ × κ) A}
    {m' : Stateful ν σ A} (h : m.Extends m') : (m.after l).Extends (m'.after l) :=
  fun world kept => congrArg (Traced.after l) (h world kept)

theorem Extends.bind {κ : Type} {m : Stateful ν (σ × κ) A} {m' : Stateful ν σ A}
    {k : A → Stateful ν (σ × κ) B} {k' : A → Stateful ν σ B} (h : m.Extends m')
    (hk : ∀ a, (k a).Extends (k' a)) : (m.bind k).Extends (m'.bind k') := by
  intro world kept
  show ((m (world, kept)).bind fun r => k r.2 r.1).map _ = (m' world).bind fun r => k' r.2 r.1
  rw [← h world kept, Traced.map_bind, Traced.bind_map]
  exact Traced.bind_congr (hk _ _ _)

end Stateful

/-! ## Handlers -/

/-- Answers the requests for answers of the types in `T`, and keeps a state. -/
abbrev Handler (ν : Type) (R : Requests) (T : Finset R.Tag) (σ : Type u) :=
  σ → (tag : T) → R.Request tag.1 → Traced ν (σ × R.Answer tag.1)

/-- An order in which the types in `T` are tried. -/
structure TrialOrder {Tag : Type} (T : Finset Tag) where
  /-- The types, in order. -/
  tags : List T
  /-- None is tried twice. -/
  nodup : tags.Nodup
  /-- Each one is tried. -/
  complete : ∀ tag, tag ∈ tags

namespace Handler

variable {A : Type v}

/-- The handler that also keeps the requests it is called with, in order. -/
def recording (h : Handler ν R T σ) : Handler ν R T (σ × List R.vocabulary.Op) :=
  fun (world, requests) tag request => (h world tag request).map fun (world, x) =>
    ((world, requests ++ [⟨tag.1, request⟩]), x)

/-- Every call adds its request to those that the state keeps. -/
def Records (h : Handler ν R T (σ × List R.vocabulary.Op)) : Prop :=
  ∀ state tag request, (h state tag request).value.1.2 = state.2 ++ [⟨tag.1, request⟩]

/-- A request is read as one call of the handler, with the answer converted. -/
def ask (h : Handler ν R T σ) (c : Coyoneda ν R A) (hc : c.tag ∈ T) : Stateful ν σ A :=
  Stateful.bind (fun world => h world ⟨c.tag, hc⟩ c.op.2) fun x => .result (c.reply x)

/-- Tries one type after the other, each with the request that the trial before gave back. -/
def tryEach (h : Handler ν R T σ) (world : σ) :
    List T → Coyoneda ν R A → Coyoneda ν R A ⊕ Traced ν (σ × A)
  | [], c => .inl c
  | tag :: tags, c =>
    match c.handle tag.1 (h world tag) with
    | .inr answered => .inr answered
    | .inl c => h.tryEach world tags c

/-- The interpreter that tries the types in order and goes on with the payload, inside the host `M`.
    A request of none of the types is left to `stray`. -/
def interpreter (M : Host) (h : Handler ν R T σ) (order : TrialOrder T)
    (stray : Interpreter ν R.vocabulary M σ α) : Interpreter ν R.vocabulary M σ α := fun world c =>
  match h.tryEach world order.tags c with
  | .inr answered => answered.map fun (world, p) => (world, M.pure p)
  | .inl c => stray world c

end Handler

namespace Handler

variable {A : Type v} (h : Handler ν R T σ)

theorem records_recording : h.recording.Records := fun _ _ _ => rfl

/-- At its own type, a request is answered by one call of the handler. -/
theorem handle_tag {c : Coyoneda ν R A} (hc : c.tag ∈ T) (world : σ) :
    c.handle c.tag (h world ⟨c.tag, hc⟩) = .inr (h.ask c hc world) := by
  obtain ⟨⟨tag, request⟩, reply⟩ := c
  exact Coyoneda.handle_mk tag request reply _

/-- Trials at other types come before the one that fits, and change nothing. -/
theorem tryEach_of_mem {c : Coyoneda ν R A} (hc : c.tag ∈ T) (world : σ) {tags : List T}
    (hmem : ⟨c.tag, hc⟩ ∈ tags) : h.tryEach world tags c = .inr (h.ask c hc world) := by
  induction tags with
  | nil => exact absurd hmem List.not_mem_nil
  | cons tag tags ih =>
    rw [tryEach]
    by_cases htag : tag = ⟨c.tag, hc⟩
    · subst htag
      rw [h.handle_tag hc]
    · have hne : c.tag ≠ tag.1 := fun heq => htag (Subtype.ext heq.symm)
      rw [c.handle_of_ne hne]
      exact ih (List.mem_of_ne_of_mem (Ne.symm htag) hmem)

/-- A request of none of the types comes back from all trials as it was. -/
theorem tryEach_of_not_mem {c : Coyoneda ν R A} (hc : c.tag ∉ T) (world : σ) (tags : List T) :
    h.tryEach world tags c = .inl c := by
  induction tags with
  | nil => rfl
  | cons tag tags ih =>
    have hne : c.tag ≠ tag.1 := fun heq => hc (heq ▸ tag.2)
    rw [tryEach, c.handle_of_ne hne]
    exact ih

theorem interpreter_of_mem (order : TrialOrder T) (stray : Interpreter ν R.vocabulary M σ α)
    {c : Coyoneda ν R (Program ν R.vocabulary α)} (hc : Coyoneda.tag c ∈ T) (world : σ) :
    h.interpreter M order stray world c
      = (h.ask c hc world).map fun (world, p) => (world, M.pure p) := by
  rw [interpreter, h.tryEach_of_mem hc world (order.complete _)]

/-- The order of the trials makes no difference. -/
theorem interpreter_congr (order order' : TrialOrder T)
    (stray : Interpreter ν R.vocabulary M σ α) :
    h.interpreter M order stray = h.interpreter M order' stray := by
  funext world c
  by_cases hc : Coyoneda.tag c ∈ T
  · rw [h.interpreter_of_mem order stray hc, h.interpreter_of_mem order' stray hc]
  · rw [interpreter, interpreter, h.tryEach_of_not_mem hc, h.tryEach_of_not_mem hc]

end Handler

/-- Exactly one trial of an order fits a request of one of the types. -/
theorem TrialOrder.filter_isRequest {A : Type v} (order : TrialOrder T) {c : Coyoneda ν R A}
    (hc : c.tag ∈ T) : (order.tags.filter fun tag => c.isRequest tag.1) = [⟨c.tag, hc⟩] := by
  have hfits : ∀ tag : T, c.isRequest tag.1 = decide (tag = ⟨c.tag, hc⟩) := fun tag => by
    rw [Coyoneda.isRequest, decide_eq_decide, Subtype.ext_iff]
    exact eq_comm
  simp only [hfits]
  rw [List.filter_eq, order.nodup.count, if_pos (order.complete _)]
  rfl

/-! ## Evaluating a recipe -/

namespace Recipe

/-- All requests of the recipe, whatever its continuations are called with, are for answers of the
    types in `T`. -/
def AsksFor (T : Finset R.Tag) : {α : Type} → Recipe ν R.vocabulary α → Prop
  | _, .pure _ => True
  | _, .suspend c _ next => Coyoneda.tag c ∈ T ∧ ∀ a, (next a).AsksFor T
  | _, .lift c => Coyoneda.tag c ∈ T
  | _, .defer _ body => body.AsksFor T
  | _, .flatMap p _ next => p.AsksFor T ∧ ∀ a, (next a).AsksFor T
  | _, .map _ p => p.AsksFor T
  | _, .andThen p q => p.AsksFor T ∧ q.AsksFor T
  | _, .map2 _ p q => p.AsksFor T ∧ q.AsksFor T
  | _, .apply p q => p.AsksFor T ∧ q.AsksFor T

/-- The recipe read as a computation on the state of a handler: each request is a call of the
    handler. -/
def evaluate (h : Handler ν R T σ) :
    {α : Type} → (r : Recipe ν R.vocabulary α) → r.AsksFor T → Stateful ν σ α
  | _, .pure a, _ => .pure a
  | _, .suspend c said next, hr => (h.ask c hr.1).bind fun a =>
    ((next a).evaluate h (hr.2 a)).after (said a)
  | _, .lift c, hr => h.ask c hr
  | _, .defer said body, hr => (body.evaluate h hr).after said
  | _, .flatMap p said next, hr => (p.evaluate h hr.1).bind fun a =>
    ((next a).evaluate h (hr.2 a)).after (said a)
  | _, .map f p, hr => (p.evaluate h hr).bind fun a => .result (f a)
  | _, .andThen p q, hr => (p.evaluate h hr.1).bind fun _ => q.evaluate h hr.2
  | _, .map2 f p q, hr => (p.evaluate h hr.1).bind fun a => (q.evaluate h hr.2).bind fun b =>
    .result (f a b)
  | _, .apply p q, hr => (p.evaluate h hr.1).bind fun f => (q.evaluate h hr.2).bind fun a =>
    .result (f a)

/-- Keeping the requests changes nothing else. -/
theorem evaluate_recording (h : Handler ν R T σ) (r : Recipe ν R.vocabulary α)
    (hr : r.AsksFor T) : (r.evaluate h.recording hr).Extends (r.evaluate h hr) := by
  have hask : ∀ {β : Type} (c : Coyoneda ν R β) (hc : c.tag ∈ T),
      (h.recording.ask c hc).Extends (h.ask c hc) := fun c hc =>
    .bind (fun _ _ => rfl) fun x => .result _
  induction r with
  | pure a => exact .pure a
  | suspend c said next ih => exact (hask c hr.1).bind fun a => (ih a (hr.2 a)).after _
  | lift c => exact hask c hr
  | defer said body ih => exact (ih hr).after said
  | flatMap p said next ihp ihnext =>
    exact (ihp hr.1).bind fun a => (ihnext a (hr.2 a)).after _
  | map f p ih => exact (ih hr).bind fun a => .result _
  | andThen p q ihp ihq => exact (ihp hr.1).bind fun _ => ihq hr.2
  | map2 f p q ihp ihq =>
    exact (ihp hr.1).bind fun a => (ihq hr.2).bind fun b => .result _
  | apply p q ihp ihq =>
    exact (ihp hr.1).bind fun f => (ihq hr.2).bind fun a => .result _

/-- No request has its answer beforehand, so nothing is called while a recipe is built. -/
theorem mapped_of_requests (r : Recipe ν R.vocabulary α) : r.mapped = [] := by
  induction r with
  | pure a => rfl
  | suspend c said next ih => rfl
  | lift c => rfl
  | defer said body ih => rfl
  | flatMap p said next ihp ihnext => exact ihp
  | map f p ih => exact ih
  | andThen p q ihp ihq => rw [mapped, ihp, ihq]; rfl
  | map2 f p q ihp ihq => rw [mapped, ihp, ihq]; rfl
  | apply p q ihp ihq => rw [mapped, ihp, ihq]; rfl

end Recipe

/-! ## Trees read as computations -/

namespace Tree

/-- The tree read as a computation on the state of a handler: its requests are called one after the
    other, from the root down along the answers. -/
inductive Reads (h : Handler ν R T σ) : Tree ν R.vocabulary α → Stateful ν σ α → Prop where
  | ret (log : List (Event ν)) (a : α) : Reads h (.ret log a) (.after log (.pure a))
  | step (log : List (Event ν)) (c : Coyoneda ν R (Tree ν R.vocabulary α)) (hc : c.tag ∈ T)
      {next : R.Answer c.tag → Stateful ν σ α} (hnext : ∀ x, Reads h (c.reply x).value (next x)) :
      Reads h (.op log c) (.after log <|
        .bind (fun world => h world ⟨c.tag, hc⟩ c.op.2) fun x => (next x).after (c.reply x).log)

variable {h : Handler ν R T σ}

theorem Reads.after {t : Tree ν R.vocabulary α} {m : Stateful ν σ α} (ht : t.Reads h m)
    (l : List (Event ν)) : (t.after l).Reads h (m.after l) := by
  cases ht with
  | ret log a =>
    rw [Stateful.after_after]
    exact .ret (l ++ log) a
  | step log c hc hnext =>
    rw [Stateful.after_after]
    exact .step (l ++ log) c hc hnext

/-- Grafting is read as sequencing. -/
theorem Reads.bind {t : Tree ν R.vocabulary α} {m : Stateful ν σ α}
    {k : α → Tree ν R.vocabulary β} {m' : α → Stateful ν σ β} (ht : t.Reads h m)
    (hk : ∀ a, (k a).Reads h (m' a)) : (t.bind k).Reads h (m.bind m') := by
  induction ht with
  | ret log a =>
    rw [Stateful.after_bind, Stateful.pure_bind]
    exact (hk a).after log
  | step log c hc hnext ih =>
    rw [Stateful.after_bind, Stateful.bind_assoc]
    simp only [Stateful.after_bind]
    exact .step log ⟨c.op, fun x => (c.reply x).map fun t => t.bind k⟩ hc ih

theorem Reads.result (m : Traced ν α) : (Tree.result m).Reads h (.result m) := by
  rw [Stateful.result_eq]
  exact .ret m.log m.value

end Tree

/-- A step that is read as a computation is a call of the handler, with payloads that are read. -/
theorem Tree.Reads.exists_of_op {h : Handler ν R T σ} {log : List (Event ν)}
    {c : Coyoneda ν R (Tree ν R.vocabulary α)} {m : Stateful ν σ α}
    (hc : (Tree.op log c).Reads h m) : Coyoneda.tag c ∈ T ∧
      ∃ next : R.Answer (Coyoneda.tag c) → Stateful ν σ α,
        ∀ x, (c.reply x).value.Reads h (next x) := by
  generalize ht : Tree.op log c = t at hc
  cases hc with
  | ret log a => exact nomatch ht
  | @step log' c' hc' next hnext =>
    obtain ⟨-, rfl⟩ := Tree.op_inj.1 ht
    exact ⟨hc', next, hnext⟩

/-- A recipe's tree, built by grafting, is read as the computation that the recipe evaluates to. -/
theorem Recipe.reads (h : Handler ν R T σ) (r : Recipe ν R.vocabulary α) (hr : r.AsksFor T) :
    (r.build Tree.builders).value.Reads h (r.evaluate h hr) := by
  -- nothing was recorded while the rest was built
  have hreached : ∀ {β : Type} (p : Recipe ν R.vocabulary β) (l : List (Event ν))
      (m : Stateful ν σ β), (p.build Tree.builders).value.Reads h m →
        (Tree.reached ((p.build Tree.builders).after l)).Reads h (m.after l) := by
    intro β p l m hp
    rw [Tree.reached, Traced.log_after, p.log_build, p.mapped_of_requests, List.append_nil]
    exact hp.after l
  induction r with
  | pure a => exact .ret [] a
  | @suspend α β c said next ih =>
    -- every conversion of the request is composed with the continuation
    have hstep := Tree.Reads.step [] (Coyoneda.andThen
      (fun a => ((next a).build Tree.builders).after (said a)) c) hr.1
      fun x => ih (c.reply x).value (hr.2 _)
    have hlog : ∀ a, ((next a).build Tree.builders).log = ([] : List (Event ν)) := fun a =>
      ((next a).log_build _).trans (next a).mapped_of_requests
    simp only [Coyoneda.andThen, Traced.log_bind, Traced.log_after, hlog, List.append_nil] at hstep
    simp only [evaluate, Handler.ask, Stateful.result_eq, Stateful.bind_assoc, Stateful.after_bind,
      Stateful.pure_bind, Stateful.after_after]
    exact hstep
  | lift c =>
    have hstep := Tree.Reads.step (h := h) [] (c.map (.ret [])) hr fun x =>
      .ret [] (c.reply x).value
    simp only [evaluate, Handler.ask, Stateful.result_eq]
    exact hstep
  | defer said body ih => exact hreached body said _ (ih hr)
  | flatMap p said next ihp ihnext =>
    exact (ihp hr.1).bind fun a => hreached (next a) (said a) _ (ihnext a (hr.2 a))
  | map f p ih => exact (ih hr).bind fun a => .result (f a)
  | andThen p q ihp ihq => exact (ihp hr.1).bind fun _ => ihq hr.2
  | map2 f p q ihp ihq =>
    exact (ihp hr.1).bind fun a => (ihq hr.2).bind fun b => .result (f a b)
  | apply p q ihp ihq =>
    exact (ihp hr.1).bind fun f => (ihq hr.2).bind fun a => .result (f a)

/-! ## Running a program with a handler -/

namespace Program

/-- A program whose tree is read as a computation comes to what the computation comes to, in as many
    turns as it takes, and calls the handler with the requests of the steps that are given. -/
theorem stepByHand_of_reads {h : Handler ν R T (σ × List R.vocabulary.Op)} (hrec : h.Records)
    (order : TrialOrder T) (stray : Interpreter ν R.vocabulary M (σ × List R.vocabulary.Op) α)
    {p : Program ν R.vocabulary α} {m : Stateful ν (σ × List R.vocabulary.Op) α}
    (hp : p.tree.Reads h m) (state : σ × List R.vocabulary.Op)
    (steps : List (Step ν R.vocabulary (Program ν R.vocabulary α))) : ∃ turns given,
      p.stepByHand M (h.interpreter M order stray).recording turns (state, steps)
        = (m state).map (fun r => ((r.1, steps ++ given), .inr (M.pure r.2))) ∧
      (m state).value.1.2 = state.2 ++ given.map Step.op := by
  generalize ht : p.tree = t at hp
  induction hp generalizing p state steps with
  | ret log a =>
    have hresume := (p.resume_eq_value_iff log a).2 ht
    refine ⟨1, [], ?_, (List.append_nil _).symm⟩
    rw [stepByHand_of_value hresume, List.append_nil]
    ext1
    · exact (List.append_nil _).symm
    · rfl
  | @step log c hc next hnext ih =>
    obtain ⟨s, hresume, rfl⟩ := (p.resume_eq_step_iff log c).2 ht
    have hs : Coyoneda.tag s ∈ T := hc
    -- the run goes on with the payload, from the state in which the handler's call leaves it
    generalize hcall : h state ⟨Coyoneda.tag s, hs⟩ s.op.2 = call
    obtain ⟨said, state', x⟩ := call
    have hstate : state'.2 = state.2 ++ [s.op] := by
      have := hrec state ⟨Coyoneda.tag s, hs⟩ s.op.2
      rw [hcall] at this
      exact this
    have hturn : (h.interpreter M order stray).recording (state, steps) s
        = ⟨said ++ (s.reply x).log, ((state', steps ++ [s]), M.pure (s.reply x).value)⟩ := by
      rw [Interpreter.recording, h.interpreter_of_mem order stray hs, Handler.ask, Stateful.bind,
        hcall]
      rfl
    have hmeans : Stateful.after log (Stateful.bind (fun world => h world ⟨_, hs⟩ s.op.2) fun x =>
        (next x).after (s.reply x).log) state
          = (next x state').after (log ++ (said ++ (s.reply x).log)) := by
      show ((h state ⟨_, hs⟩ s.op.2).bind fun r =>
        (next r.2 r.1).after (s.reply r.2).log).after log = _
      rw [hcall]
      ext1
      · simp
      · rfl
    obtain ⟨turns, given, hrun, hgiven⟩ := ih x state' (steps ++ [s]) rfl
    refine ⟨turns + 1, s :: given, ?_, ?_⟩
    · rw [stepByHand_of_step hresume, hturn]
      simp only [Traced.bind, Host.split_pure, Sum.swap_inr]
      rw [handOn, hrun]
      refine Eq.trans ?_ (congrArg (Traced.map _) hmeans.symm)
      ext1
      · simp
      · simp
    · refine (congrArg (fun r => r.value.1.2) hmeans).trans ?_
      rw [Traced.value_after, hgiven, hstate, List.map_cons, List.append_assoc]
      rfl

/-- Every step that such a program can come to asks for an answer of one of the types. -/
theorem Issues.tag_mem {h : Handler ν R T σ} {p : Program ν R.vocabulary α}
    {c : Coyoneda ν R (Program ν R.vocabulary α)} (hc : p.Issues c) {m : Stateful ν σ α}
    (hp : p.tree.Reads h m) : Coyoneda.tag c ∈ T := by
  induction hc generalizing m with
  | @first p c hfirst =>
    have htree := (p.resume_eq_step_iff p.resume.log _).1 ⟨c, Traced.ext rfl hfirst, rfl⟩
    exact (htree ▸ hp).exists_of_op.1
  | @later p c c' hfirst x rest ih =>
    have htree := (p.resume_eq_step_iff p.resume.log _).1 ⟨c, Traced.ext rfl hfirst, rfl⟩
    obtain ⟨-, next, hnext⟩ := (htree ▸ hp).exists_of_op
    exact ih (hnext x)

end Program

namespace Recipe

/-- Running what the recipe builds, with the types in `T` tried in any order, is evaluating the
    recipe with the handler. -/
structure Handled (h : Handler ν R T σ) (r : Recipe ν R.vocabulary α) (hr : r.AsksFor T) :
    Prop where
  /-- Every step that the program can come to is found by exactly one trial, which calls the handler
      with its request and converts the answer. All other trials give the step back as it is. -/
  found {c : Coyoneda ν R (Program ν R.vocabulary α)}
    (hissues : (r.build Program.builders).value.Issues c) (order : TrialOrder T) :
    ∃ hc : Coyoneda.tag c ∈ T,
      (order.tags.filter fun tag => Coyoneda.isRequest tag.1 c) = [⟨Coyoneda.tag c, hc⟩] ∧
      ∀ world, Coyoneda.handle (Coyoneda.tag c) (h world ⟨_, hc⟩) c = .inr (h.ask c hc world) ∧
        ∀ other : T, other.1 ≠ Coyoneda.tag c →
          Coyoneda.handle other.1 (h world other) c = .inl c
  /-- Inside a host: the handler is called with the requests of the steps, once for each and in
      order, and these calls, their conversions, the last state and the value are those of the
      evaluation. -/
  hosted (M : Host) (order : TrialOrder T)
    (stray : Interpreter ν R.vocabulary M (σ × List R.vocabulary.Op) α) (world : σ) :
    ∃ enough steps, (r.evaluate h.recording hr (world, [])).value.1.2 = steps.map Step.op ∧
      ∀ turns, enough ≤ turns →
        ((r.build Program.builders).value.runInHost M
          (h.recording.interpreter M order stray).recording turns ((world, []), [])).seen
        = ((r.evaluate h.recording hr (world, [])).map fun s =>
            ((s.1, steps), .inr (M.pure s.2))).seen
  /-- By polling, too, whenever the answers are delivered. -/
  polled (M : Host) (order : TrialOrder T)
    (stray : Interpreter ν R.vocabulary M (σ × List R.vocabulary.Op) α) (world : σ)
    (driver : Driver) (y : Nat → Nat) :
    ∃ enough steps, (r.evaluate h.recording hr (world, [])).value.1.2 = steps.map Step.op ∧
      ∀ turns limit, enough ≤ turns → enough ≤ limit →
        ((Task.pollTimes driver ((h.recording.interpreter M order stray).recording.delayed y) turns
          limit [] 0 ((world, []), []) (Task.start (r.build Program.builders).value)).map
            fun s => (s.1, s.2.2)).seen
        = ((r.evaluate h.recording hr (world, [])).map fun s =>
            ((s.1, steps), some (M.pure s.2))).seen
  /-- The order of the trials makes no difference. -/
  orderless (M : Host) (order order' : TrialOrder T)
    (stray : Interpreter ν R.vocabulary M (σ × List R.vocabulary.Op) α) :
    h.recording.interpreter M order stray = h.recording.interpreter M order' stray
  /-- That the handler keeps the requests changes nothing else in the evaluation. -/
  kept : (r.evaluate h.recording hr).Extends (r.evaluate h hr)

/-- **Requests that cannot be mapped over run as they read.** A program whose requests are for
    answers of finitely many types is run by trying these types in any order, and every step is
    found by exactly one trial. The run is the evaluation of the program with the handler, where a
    request is a call of the handler and nothing else: the same requests in the same order, the same
    value and the same state of the handler, by every driver. -/
theorem handled_directly (h : Handler ν R T σ) (r : Recipe ν R.vocabulary α)
    (hr : r.AsksFor T) : Handled h r hr := by
  have hreads : ∀ {τ : Type u} (h : Handler ν R T τ),
      (r.build Program.builders).value.tree.Reads h (r.evaluate h hr) := fun h => by
    rw [r.tree_value_build]
    exact r.reads h hr
  have hbyHand := fun (M : Host) order stray (world : σ) =>
    Program.stepByHand_of_reads (M := M) h.records_recording order stray (hreads h.recording)
      (world, []) []
  constructor
  case found =>
    intro c hissues order
    have hc := hissues.tag_mem (hreads h)
    exact ⟨hc, order.filter_isRequest hc, fun world =>
      ⟨h.handle_tag hc world, fun other hne => Coyoneda.handle_of_ne (Ne.symm hne) _⟩⟩
  case hosted =>
    intro M order stray world
    obtain ⟨enough, steps, hrun, hsteps⟩ := hbyHand M order stray world
    refine ⟨enough, steps, hsteps, fun turns hle => ?_⟩
    have hover := Program.stepByHand_of_over _ hle (congrArg (fun r => r.value.2) hrun)
    rw [Program.seen_runInHost, hover, hrun]
    rfl
  case polled =>
    intro M order stray world driver y
    obtain ⟨n, steps, hrun, hsteps⟩ := hbyHand M order stray world
    have hpace := Program.samePace_stepByHand
      (h.recording.interpreter M order stray).records_recording driver y ((world, []), [])
      (r.build Program.builders).value
    obtain ⟨enough, henough⟩ := hpace.ends (congrArg (fun r => r.value.2) hrun)
    refine ⟨enough, steps, hsteps, fun turns limit hturns hlimit => ?_⟩
    obtain ⟨hseen, hresult⟩ := henough turns limit hturns hlimit
    rw [hrun] at hseen
    obtain ⟨hlog, hvalue⟩ := Traced.seen_eq_iff.1 hseen
    exact Traced.seen_eq_iff.2 ⟨hlog, Prod.ext hvalue hresult⟩
  case orderless =>
    intro M order order' stray
    exact h.recording.interpreter_congr order order' stray
  case kept => exact r.evaluate_recording h hr

end Recipe

/-! ## A store that answers with texts and numbers -/

/-- What can be asked of a store: the text under a key, and how many entries there are. -/
def lookups : Requests where
  Tag := Bool
  Answer
    | true => String
    | false => Nat
  Request
    | true => String
    | false => Unit

/-- Asks for the number of entries, and then for a text. -/
def sizeAndText : Recipe Empty lookups.vocabulary (Nat × String) :=
  .flatMap (.lift (Coyoneda.lift (R := lookups) false ())) (fun _ => []) fun size =>
    .map (fun text => .pure (size, text)) (.lift (Coyoneda.lift (R := lookups) true "a"))

/-- The types of both answers. -/
def textOrSize : Finset lookups.Tag := (Finset.univ : Finset Bool)

theorem mem_textOrSize (tag : lookups.Tag) : tag ∈ textOrSize := Finset.mem_univ (α := Bool) tag

/-- Counts the requests. There are 40 entries, and the text under every key is the key itself. -/
def store : Handler Empty lookups textOrSize Nat := fun count tag =>
  match tag with
  | ⟨true, _⟩ => fun key => .pure (count + 1, key)
  | ⟨false, _⟩ => fun _ => .pure (count + 1, (40 : Nat))

/-- Texts are tried before numbers. -/
def textFirst : TrialOrder textOrSize where
  tags := [⟨true, mem_textOrSize true⟩, ⟨false, mem_textOrSize false⟩]
  nodup := by decide
  complete := by
    rintro ⟨tag, _⟩
    cases tag with
    | true => exact List.mem_cons_self
    | false => exact List.mem_cons_of_mem _ List.mem_cons_self

/-- A request for anything else would end the run. -/
def giveUp : Interpreter Empty lookups.vocabulary .identity (Nat × List lookups.vocabulary.Op)
    (Nat × String) := fun state _ => .pure (state, Program.pure (0, ""))

theorem sizeAndText_handled :
    sizeAndText.AsksFor textOrSize ∧
    ∃ enough, ∀ turns, enough ≤ turns →
      ((sizeAndText.build Program.builders).value.runInHost .identity
        (store.recording.interpreter .identity textFirst giveUp).recording turns
          ((0, []), [])).value.1.1 = (2, [⟨false, ()⟩, ⟨true, "a"⟩]) ∧
      ((sizeAndText.build Program.builders).value.runInHost .identity
        (store.recording.interpreter .identity textFirst giveUp).recording turns
          ((0, []), [])).value.2 = .inr (40, "a") := by
  have hasks : sizeAndText.AsksFor textOrSize :=
    ⟨mem_textOrSize false, fun _ => mem_textOrSize true⟩
  obtain ⟨enough, steps, -, hrun⟩ :=
    (Recipe.handled_directly store sizeAndText hasks).hosted .identity textFirst giveUp 0
  refine ⟨hasks, enough, fun turns hle => ?_⟩
  have hvalue := (Traced.seen_eq_iff.1 (hrun turns hle)).2
  exact ⟨(congrArg (fun r => r.1.1) hvalue).trans rfl, (congrArg Prod.snd hvalue).trans rfl⟩

end FreeMonad
