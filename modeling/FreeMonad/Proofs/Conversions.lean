import FreeMonad.Proofs.Transparency

set_option autoImplicit false

/-! # Conversions of an answer

A request keeps the type of its answer hidden while conversions are mapped over it, one after the
other. They are composed and wait for the answer, and the request is never touched. So whatever
has been mapped, the request asks for an answer of the same type as before, a handler of that type
is called on the very request and the conversions are applied to its answer in their order, and a
handler of another type is not called at all (`Coyoneda.Converted`). What a failed attempt gives
back cannot be told from what it was given, in whatever way it is used later (`Usage`).

Where a request is itself a step it can be lowered, and the conversions are then mapped over the
step as one function (`Coyoneda.Lowered`). Lowering may go through an erased answer, with two passes
over the step; the two passes fuse (`Step.mapTraced_bind_mapTraced`). -/

namespace FreeMonad

universe u v w

variable {ν : Type} {V : Vocabulary} {R : Requests}

/-! ## Chains of conversions -/

/-- Conversions of an `X` to an `α`, in the order in which they are mapped. The first one may be
    `Traced.pure`, which is no conversion. -/
inductive Conversions (ν : Type) (X : Type) : Type u → Type (u + 1) where
  | first {α : Type u} (f : X → Traced ν α) : Conversions ν X α
  | andThen {α β : Type u} (fs : Conversions ν X α) (g : α → Traced ν β) : Conversions ν X β

/-- Applies the conversions, each one to the value of the one before. -/
def Conversions.run {X : Type} : {α : Type u} → Conversions ν X α → X → Traced ν α
  | _, .first f => f
  | _, .andThen fs g => fun x => (fs.run x).bind g

namespace Coyoneda

/-- Maps the conversions one after the other. -/
def mapAll {X : Type} (c : Coyoneda ν R X) : {α : Type u} → Conversions ν X α → Coyoneda ν R α
  | _, .first f => c.andThen f
  | _, .andThen fs g => (c.mapAll fs).andThen g

theorem andThen_pure {α : Type u} (c : Coyoneda ν R α) : c.andThen .pure = c :=
  congrArg (Step.mk c.op) (funext fun x => (c.reply x).bind_pure)

theorem andThen_andThen {α : Type u} {β : Type v} {γ : Type w} (c : Coyoneda ν R α)
    (g : α → Traced ν β) (h : β → Traced ν γ) :
    (c.andThen g).andThen h = c.andThen fun a => (g a).bind h :=
  congrArg (Step.mk c.op) (funext fun x => (c.reply x).bind_assoc g h)

theorem lift_andThen {α : Type u} (tag : R.Tag) (r : R.Request tag)
    (f : R.Answer tag → Traced ν α) : (lift tag r).andThen f = ⟨⟨tag, r⟩, f⟩ :=
  congrArg (Step.mk _) (funext fun x => Traced.pure_bind x f)

/-- Mapping conversions one after the other is mapping them as one. -/
theorem mapAll_eq {X : Type} {α : Type u} (c : Coyoneda ν R X) (fs : Conversions ν X α) :
    c.mapAll fs = c.andThen fs.run := by
  induction fs with
  | first f => rfl
  | andThen fs g ih => rw [mapAll, ih, andThen_andThen, Conversions.run]

theorem lift_mapAll {α : Type u} (tag : R.Tag) (r : R.Request tag)
    (fs : Conversions ν (R.Answer tag) α) : (lift tag r).mapAll fs = ⟨⟨tag, r⟩, fs.run⟩ := by
  rw [mapAll_eq, lift_andThen]

theorem tag_mapAll {X : Type} {α : Type u} (c : Coyoneda ν R X) (fs : Conversions ν X α) :
    (c.mapAll fs).tag = c.tag := by
  rw [mapAll_eq]
  rfl

/-- A handler of another type than that of the answer gives back the request as it is. -/
theorem handle_mapAll_of_ne {X : Type} {α : Type u} {σ : Type} {c : Coyoneda ν R X} {tried : R.Tag}
    (h : tried ≠ c.tag) (fs : Conversions ν X α)
    (respond : R.Request tried → Traced ν (σ × R.Answer tried)) :
    (c.mapAll fs).handle tried respond = .inl (c.mapAll fs) := by
  refine handle_of_ne ?_ respond
  rw [tag_mapAll]
  exact h.symm

end Coyoneda

/-! ## Using a request -/

/-- What is done with a request that carries an `α`, one thing after the other: conversions are
    mapped, the type of the answer is asked, and handlers are tried. If all attempts fail, a
    request that carries a `β` is left. -/
inductive Usage (ν : Type) (R : Requests) : Type u → Type u → Type (u + 1) where
  | done {α : Type u} : Usage ν R α α
  | map {α β γ : Type u} (g : α → Traced ν β) (rest : Usage ν R β γ) : Usage ν R α γ
  | ask {α γ : Type u} (tag : R.Tag) (rest : Usage ν R α γ) : Usage ν R α γ
  | attempt {α γ : Type u} {σ : Type} (tag : R.Tag)
      (respond : R.Request tag → Traced ν (σ × R.Answer tag)) (rest : Usage ν R α γ) :
      Usage ν R α γ

/-- How a usage ends: with a request that is left, or with the result of a handler. -/
inductive Usage.End (ν : Type) (R : Requests) : Type (u + 1) where
  | left {α : Type u} (c : Coyoneda ν R α)
  | handled {σ : Type} {α : Type u} (result : Traced ν (σ × α))

namespace Usage

/-- The answers to the questions, and the end. -/
def run : {α β : Type u} → Usage ν R α β → Coyoneda ν R α → List Bool × End.{u} ν R
  | _, _, .done, c => ([], .left c)
  | _, _, .map g rest, c => rest.run (c.andThen g)
  | _, _, .ask tag rest, c => (c.isRequest tag :: (rest.run c).1, (rest.run c).2)
  | _, _, .attempt tag respond rest, c =>
    match c.handle tag respond with
    | .inl c => rest.run c
    | .inr result => ([], .handled result)

/-- The types that are asked for, in order. -/
def asked : {α β : Type u} → Usage ν R α β → List R.Tag
  | _, _, .done => []
  | _, _, .map _ rest => rest.asked
  | _, _, .ask tag rest => tag :: rest.asked
  | _, _, .attempt _ _ rest => rest.asked

/-- The types whose handlers are tried, in order. -/
def attempted : {α β : Type u} → Usage ν R α β → List R.Tag
  | _, _, .done => []
  | _, _, .map _ rest => rest.attempted
  | _, _, .ask _ rest => rest.attempted
  | _, _, .attempt tag _ rest => tag :: rest.attempted

/-- The conversions `fs`, and after them those of the usage. -/
def mappedOnto {X : Type} : {α β : Type u} → Conversions ν X α → Usage ν R α β → Conversions ν X β
  | _, _, fs, .done => fs
  | _, _, fs, .map g rest => rest.mappedOnto (fs.andThen g)
  | _, _, fs, .ask _ rest => rest.mappedOnto fs
  | _, _, fs, .attempt _ _ rest => rest.mappedOnto fs

/-- Attempts that fail cannot be noticed: questions are answered as if there were none, and the
    conversions that are mapped between them are all that is left. -/
theorem run_of_not_mem_attempted {tag : R.Tag} (r : R.Request tag) {α β : Type u}
    (fs : Conversions ν (R.Answer tag) α) (u : Usage ν R α β) (h : tag ∉ u.attempted) :
    u.run ((Coyoneda.lift tag r).mapAll fs) = (u.asked.map fun asked => decide (tag = asked),
      .left ((Coyoneda.lift tag r).mapAll (u.mappedOnto fs))) := by
  induction u with
  | done => rfl
  | map g rest ih => exact ih (fs.andThen g) h
  | ask asked rest ih =>
    rw [run, ih fs h, Coyoneda.isRequest, Coyoneda.tag_mapAll]
    rfl
  | attempt tried respond rest ih =>
    obtain ⟨hne, hrest⟩ := not_or.1 (mt List.mem_cons.2 h)
    rw [run, Coyoneda.handle_mapAll_of_ne (c := .lift tag r) (Ne.symm hne)]
    exact ih fs hrest

end Usage

/-! ## Two passes over a step -/

/-- Mapping two functions over a step one after the other is mapping both at once, with the same
    events at the same time. -/
theorem Step.mapTraced_bind_mapTraced {α β : Type} {γ : Type u} (f : α → Traced ν β)
    (g : β → Traced ν γ) (s : Step ν V α) :
    ((s.mapTraced f).bind fun t => t.mapTraced g) = s.mapTraced fun a => (f a).bind g := by
  rcases hs : V.known s.op with _ | x
  · rw [mapTraced_of_unknown f hs, mapTraced_of_unknown _ hs, Traced.pure_bind,
      mapTraced_of_unknown g hs]
    refine congrArg (fun reply => Traced.pure (Step.mk s.op reply)) (funext fun y => ?_)
    exact Traced.bind_assoc _ f g
  · -- the payload of the first pass is there at once, and the second pass finds it
    have hpass : ∀ b, (Step.mk s.op fun _ => .pure b : Step ν V β).mapTraced g
        = (g b).map fun c => ⟨s.op, fun _ => .pure c⟩ := fun b => by
      rw [mapTraced_of_known g hs, Traced.pure_bind]
    rw [mapTraced_of_known f hs, mapTraced_of_known _ hs, Traced.bind_map]
    simp only [hpass]
    rw [← Traced.bind_assoc]
    rfl

/-- A payload that is there at once is there without any event. -/
def Step.Settled {α : Type u} (s : Step ν V α) : Prop :=
  ∀ x, V.known s.op = some x → (s.reply x).log = []

/-- Over a vocabulary that keeps the laws of mapping, mapping the identity changes nothing. -/
theorem Step.mapTraced_pure (hV : V.Lawful) {α : Type} {s : Step ν V α} (hs : s.Settled) :
    s.mapTraced .pure = .pure s := by
  rcases hknown : V.known s.op with _ | x
  · rw [mapTraced_of_unknown _ hknown]
    refine congrArg (fun reply => Traced.pure (Step.mk s.op reply)) (funext fun y => ?_)
    exact Traced.bind_pure _
  · have hreply : (fun _ => .pure (s.reply x).value) = s.reply := funext fun y => by
      rw [Vocabulary.lawful_iff.1 hV s.op x hknown y]
      exact Traced.ext (hs x hknown).symm rfl
    rw [mapTraced_of_known _ hknown, Traced.bind_pure]
    exact Traced.ext (hs x hknown) (congrArg (Step.mk s.op) hreply)

/-! ## What becomes of a request with conversions -/

namespace Coyoneda

/-- The request `c` is `r` with the conversions `fs`, as far as one can find out. -/
structure Converted (tag : R.Tag) (r : R.Request tag) {α : Type u}
    (fs : Conversions ν (R.Answer tag) α) (c : Coyoneda ν R α) : Prop where
  /-- It asks for an answer of the type that `r` asks for, and of no other. -/
  isRequest (asked : R.Tag) : c.isRequest asked = true ↔ asked = tag
  /-- A handler of that type is called once, on `r` itself, and then each conversion once, in
      order. -/
  handle {σ : Type} (respond : R.Request tag → Traced ν (σ × R.Answer tag)) :
    c.handle tag respond = .inr ((respond r).bind fun x => (fs.run x.2).map fun a => (x.1, a))
  /-- A handler of another type is not called, and neither is a conversion; `c` is given back. -/
  refuse {tried : R.Tag} {σ : Type} (h : tried ≠ tag)
    (respond : R.Request tried → Traced ν (σ × R.Answer tried)) : c.handle tried respond = .inl c
  /-- However many such handlers are tried between later conversions and questions, the questions
      are answered and the conversions are added as without them. -/
  use {β : Type u} (u : Usage ν R α β) (h : tag ∉ u.attempted) :
    u.run c = (u.asked.map fun asked => decide (tag = asked),
      .left ((lift tag r).mapAll (u.mappedOnto fs)))

theorem converted_mapAll (tag : R.Tag) (r : R.Request tag) {α : Type u}
    (fs : Conversions ν (R.Answer tag) α) : Converted tag r fs ((lift tag r).mapAll fs) where
  isRequest asked := by
    rw [Coyoneda.isRequest, tag_mapAll]
    exact decide_eq_true_iff.trans eq_comm
  handle respond := by rw [lift_mapAll, handle_mk]
  refuse h respond := handle_mapAll_of_ne h fs respond
  use u h := u.run_of_not_mem_attempted r fs h

section

variable {Tag : Type} [DecidableEq Tag] {Answer : Tag → Type}

/-- What lowering a request that is the step `s` gives, with the conversions `fs`. -/
structure Lowered (tag : Tag) (s : Step ν V (Answer tag)) {α : Type u}
    (fs : Conversions ν (Answer tag) α) (lowered : Traced ν (Step ν V α)) : Prop where
  /-- The conversions are mapped over `s` as one function. -/
  fused : lowered = s.mapTraced fs.run
  /-- Also if the answer is erased in one pass, and restored and converted in another. -/
  passes {Erased : Type} {erase : Answer tag → Erased} {restore : Erased → Answer tag}
    (h : ∀ x, restore (erase x) = x) :
    lowered = (s.mapTraced fun x => .pure (erase x)).bind fun t =>
      t.mapTraced fun e => fs.run (restore e)

theorem lowered_mapAll (tag : Tag) (s : Step ν V (Answer tag)) {α : Type u}
    (fs : Conversions ν (Answer tag) α) :
    Lowered tag s fs ((lift (R := .steps ν V Answer) tag s).mapAll fs).lower := by
  have hfused : ((lift (R := .steps ν V Answer) tag s).mapAll fs).lower = s.mapTraced fs.run :=
    congrArg lower (lift_mapAll (R := .steps ν V Answer) tag s fs)
  refine ⟨hfused, fun h => ?_⟩
  rw [hfused, Step.mapTraced_bind_mapTraced]
  simp only [Traced.pure_bind, h]

end

/-- **Conversions compose.** Whatever chain of conversions is mapped over a request, the request is
    still the same one, and is handled, or given back, or lowered, as it was, with all the
    conversions applied in order. Mapping nothing, or two conversions at once, makes no difference;
    and over a vocabulary that keeps the laws of mapping, lowering a request without conversions
    gives back the step that it is. -/
theorem conversions_compose (ν : Type) :
    (∀ {R : Requests} (tag : R.Tag) (r : R.Request tag) {α : Type u}
      (fs : Conversions ν (R.Answer tag) α), Converted tag r fs ((lift tag r).mapAll fs)) ∧
    (∀ {V : Vocabulary} {Tag : Type} [DecidableEq Tag] {Answer : Tag → Type} (tag : Tag)
      (s : Step ν V (Answer tag)),
      (∀ {α : Type u} (fs : Conversions ν (Answer tag) α),
        Lowered tag s fs ((lift (R := .steps ν V Answer) tag s).mapAll fs).lower) ∧
      (V.Lawful → s.Settled → (lift (R := .steps ν V Answer) tag s).lower = .pure s)) ∧
    (∀ {R : Requests} {α : Type u} (c : Coyoneda ν R α), c.andThen .pure = c ∧
      ∀ {β : Type v} {γ : Type w} (g : α → Traced ν β) (h : β → Traced ν γ),
        (c.andThen g).andThen h = c.andThen fun a => (g a).bind h) := by
  refine ⟨converted_mapAll, fun tag s => ⟨lowered_mapAll tag s, fun hV hs => ?_⟩, fun c => ?_⟩
  · exact s.mapTraced_pure hV hs
  · exact ⟨c.andThen_pure, c.andThen_andThen⟩

/-! ## A request with two conversions -/

/-- The types of answers that are asked for below. -/
inductive Kind where
  | number
  | text
  deriving DecidableEq

/-- The type that a kind names. -/
def Kind.Answer : Kind → Type
  | .number => Nat
  | .text => String

/-- Writes three down and carries it on. -/
def threeWritten : Step Nat errands Nat := ⟨Errand.write 3, fun _ => .pure 3⟩

/-- The request for what is written down. -/
def written : Coyoneda Nat (.steps Nat errands Kind.Answer) Nat :=
  lift (R := .steps Nat errands Kind.Answer) .number threeWritten

/-- Doubles a number, and then adds one. -/
def doubled : Conversions Nat Nat Nat :=
  (Conversions.first fun n => ⟨[.user 1], n + n⟩).andThen fun n => ⟨[.user 2], n + 1⟩

/-- A handler of texts is tried before it is asked for a number. -/
def textTried : Usage Nat (.steps Nat errands Kind.Answer) Nat Nat :=
  .attempt .text (fun _ => ⟨[.user 9], ((), "")⟩) <| .ask .number <|
    .map (fun n => ⟨[.user 3], n * n⟩) .done

theorem written_converted :
    ((written.mapAll doubled).handle Kind.number fun _ => ⟨[.user 0], ((), (4 : Nat))⟩)
      = .inr ⟨[.user 0, .user 1, .user 2], ((), 9)⟩ ∧
    textTried.run (written.mapAll doubled)
      = ([true], .left (written.mapAll (textTried.mappedOnto doubled))) ∧
    (written.mapAll doubled).lower
      = ⟨[.user 1, .user 2], ⟨Errand.write 3, fun _ => .pure 7⟩⟩ ∧
    written.lower = .pure threeWritten := by
  obtain ⟨hconverted, hlowered, -⟩ := conversions_compose.{0, 0, 0} Nat
  obtain ⟨hchain, hlift⟩ := @hlowered errands Kind _ Kind.Answer .number threeWritten
  have hwritten :=
    hconverted (R := .steps Nat errands Kind.Answer) .number threeWritten doubled
  have htried : Kind.number ∉ textTried.attempted := show Kind.number ∉ [Kind.text] by decide
  refine ⟨hwritten.handle _, hwritten.use textTried htried, ?_, ?_⟩
  · exact (hchain doubled).fused
  · exact hlift errands_lawful fun x _ => rfl

end Coyoneda

end FreeMonad
