import Mathlib.Tactic.Choose
import FreeMonad.Proofs.Naturality
import FreeMonad.Proofs.Translation

set_option autoImplicit false

/-! # Programs that ask by requests

A program over `V` can be written with requests instead: every step that it lifts becomes a request
for the payload of the step, and every step with a function mapped over its payload becomes such a
request with that function as its conversion. The steps themselves are then never mapped over. Which
steps a program will come to depends on the answers, so this is said of recipes, at every place of a
recipe, inside continuations and deferred programs too (`Recipe.Requested`).

Over a vocabulary that keeps the laws of mapping, writing a program with requests changes nothing
that can be observed (`Recipe.requested_transparent`): lowering its requests gives back the program,
and running it with an interpreter that lowers each request is running the program. The conversions
are composed where the program would map at once; both come to the same tree, since lowering is a
natural translation (`Recipe.Requested.quiet_translate`, by induction on the recipe). -/

namespace FreeMonad

universe u

variable {ν : Type} {V : Vocabulary} {α β γ : Type}

/-! ## Vocabularies that keep the laws of mapping -/

namespace Step

/-- The step without the events that its answers record. -/
def quiet (s : Step ν V α) : Step ν V α := ⟨s.op, fun x => .pure (s.reply x).value⟩

theorem quiet_mk_eq_iff {op : V.Op} {reply reply' : V.Answer op → Traced ν α} :
    (mk op reply).quiet = (mk op reply').quiet ↔ ∀ x, (reply x).value = (reply' x).value := by
  constructor
  · intro h x
    injection h with _ hreply
    exact (Traced.mk.inj (congrFun hreply x)).2
  · intro h
    refine congrArg (mk op) (funext fun x => ?_)
    rw [h x]

theorem mapTraced_of_known {P : Type u} (f : α → Traced ν P) {s : Step ν V α} {x : V.Answer s.op}
    (h : V.known s.op = some x) :
    s.mapTraced f = ((s.reply x).bind f).map fun b => ⟨s.op, fun _ => .pure b⟩ := by
  rw [mapTraced, h]

theorem mapTraced_of_unknown {P : Type u} (f : α → Traced ν P) {s : Step ν V α}
    (h : V.known s.op = none) : s.mapTraced f = .pure ⟨s.op, fun x => (s.reply x).bind f⟩ := by
  rw [mapTraced, h]

end Step

namespace Vocabulary

/-- Mapping over payloads is that of a functor, up to what is recorded. -/
structure Lawful (V : Vocabulary) : Prop where
  /-- Mapping the identity changes nothing. -/
  mapTraced_pure {ν α : Type} (s : Step ν V α) : (s.mapTraced .pure).value.quiet = s.quiet
  /-- Mapping twice is mapping once. -/
  mapTraced_mapTraced {ν α β γ : Type} (f : α → Traced ν β) (g : β → Traced ν γ)
    (s : Step ν V α) : ((s.mapTraced f).value.mapTraced g).value.quiet
      = (s.mapTraced fun a => (f a).bind g).value.quiet

/-- The laws come to this: an operation whose answer is known has no other answer. -/
theorem lawful_iff :
    V.Lawful ↔ ∀ (op : V.Op) (x : V.Answer op), V.known op = some x → ∀ y, y = x := by
  constructor
  · intro hV op x hx y
    have hid := hV.mapTraced_pure (ν := Empty) ⟨op, .pure⟩
    rw [Step.mapTraced_of_known .pure hx] at hid
    exact (Step.quiet_mk_eq_iff.1 hid y).symm
  · intro honly
    constructor
    case mapTraced_pure =>
      intro ν α s
      rcases hs : V.known s.op with _ | x
      · rw [Step.mapTraced_of_unknown _ hs]
        exact Step.quiet_mk_eq_iff.2 fun y => rfl
      · rw [Step.mapTraced_of_known _ hs]
        refine Step.quiet_mk_eq_iff.2 fun y => ?_
        rw [honly s.op x hs y]
        rfl
    case mapTraced_mapTraced =>
      intro ν α β γ f g s
      rcases hs : V.known s.op with _ | x
      · rw [Step.mapTraced_of_unknown _ hs, Step.mapTraced_of_unknown _ hs, Traced.value_pure,
          Step.mapTraced_of_unknown g hs]
        exact Step.quiet_mk_eq_iff.2 fun y => rfl
      · rw [Step.mapTraced_of_known _ hs, Step.mapTraced_of_known _ hs, Traced.value_map,
          Step.mapTraced_of_known g hs]
        exact Step.quiet_mk_eq_iff.2 fun y => rfl

end Vocabulary

/-! ## Writing a recipe with requests -/

/-- The step as a request for its payload, whose type is called `tag`. -/
def Step.asRequest {Tag : Type} [DecidableEq Tag] (Answer : Tag → Type) (tag : Tag)
    (s : Step ν V (Answer tag)) : Coyoneda ν (.steps ν V Answer) (Answer tag) :=
  Coyoneda.lift (R := .steps ν V Answer) tag s

/-- Recipes that ask by requests for the payloads of steps. -/
abbrev Recipe.ByRequests (ν : Type) (V : Vocabulary) {Tag : Type} [DecidableEq Tag]
    (Answer : Tag → Type) (α : Type) : Type 1 := Recipe ν (Requests.steps ν V Answer).vocabulary α

namespace Recipe

section

variable {Tag : Type} [DecidableEq Tag] (Answer : Tag → Type)

/-- The second recipe is the first one with requests for its steps: a lifted step is a lifted
    request, and a step with a function mapped over its payload is a request with that function as
    its conversion, at every place of the recipe. -/
inductive Requested : {α : Type} → Recipe ν V α → ByRequests ν V Answer α → Prop where
  | pure {α : Type} (a : α) : Requested (.pure a) (.pure a)
  | suspend {β : Type} (tag : Tag) (s : Step ν V (Answer tag))
      (said : Answer tag → List (Event ν)) {next : Answer tag → Recipe ν V β}
      {next' : Answer tag → ByRequests ν V Answer β} (hnext : ∀ a, Requested (next a) (next' a)) :
      Requested (.suspend s said next) (.suspend (s.asRequest Answer tag) said next')
  | lift (tag : Tag) (s : Step ν V (Answer tag)) :
      Requested (.lift s) (.lift (s.asRequest Answer tag))
  | defer {α : Type} (said : List (Event ν)) {body : Recipe ν V α}
      {body' : ByRequests ν V Answer α} (hbody : Requested body body') :
      Requested (.defer said body) (.defer said body')
  | flatMap {α β : Type} (said : α → List (Event ν)) {p : Recipe ν V α}
      {p' : ByRequests ν V Answer α} {next : α → Recipe ν V β}
      {next' : α → ByRequests ν V Answer β} (hp : Requested p p')
      (hnext : ∀ a, Requested (next a) (next' a)) :
      Requested (.flatMap p said next) (.flatMap p' said next')
  | map {α β : Type} (f : α → Traced ν β) {p : Recipe ν V α} {p' : ByRequests ν V Answer α}
      (hp : Requested p p') : Requested (.map f p) (.map f p')
  | andThen {α β : Type} {p : Recipe ν V α} {p' : ByRequests ν V Answer α} {q : Recipe ν V β}
      {q' : ByRequests ν V Answer β} (hp : Requested p p') (hq : Requested q q') :
      Requested (.andThen p q) (.andThen p' q')
  | map2 {α β γ : Type} (f : α → β → Traced ν γ) {p : Recipe ν V α} {p' : ByRequests ν V Answer α}
      {q : Recipe ν V β} {q' : ByRequests ν V Answer β} (hp : Requested p p')
      (hq : Requested q q') : Requested (.map2 f p q) (.map2 f p' q')
  | apply {α β : Type} {p : Recipe ν V (α → Traced ν β)} {q : Recipe ν V α}
      {p' : ByRequests ν V Answer (α → Traced ν β)} {q' : ByRequests ν V Answer α}
      (hp : Requested p p') (hq : Requested q q') : Requested (.apply p q) (.apply p' q')

end

/-! ### Every recipe can be written with requests -/

/-- Whoever has names for the types `A` can write the recipe with requests. -/
def NamedBy (r : Recipe ν V α) {T : Type} (A : T → Type) : Prop :=
  ∀ {Tag : Type} [DecidableEq Tag] (Answer : Tag → Type) (name : T → Tag),
    (∀ x, Answer (name x) = A x) → ∃ r', Requested Answer r r'

/-- What is made of two recipes is named by the types of both. -/
theorem exists_namedBy_of_two {p : Recipe ν V α} {q : Recipe ν V β} {r : Recipe ν V γ}
    (hp : ∃ (T : Type) (A : T → Type), p.NamedBy A)
    (hq : ∃ (U : Type) (B : U → Type), q.NamedBy B)
    (make : ∀ {Tag : Type} [DecidableEq Tag] {Answer : Tag → Type} {p' : ByRequests ν V Answer α}
      {q' : ByRequests ν V Answer β}, Requested Answer p p' → Requested Answer q q' →
        ∃ r', Requested Answer r r') :
    ∃ (T : Type) (A : T → Type), r.NamedBy A := by
  obtain ⟨T, A, hp⟩ := hp
  obtain ⟨U, B, hq⟩ := hq
  refine ⟨T ⊕ U, Sum.elim A B, fun Answer name hname => ?_⟩
  obtain ⟨p', hp'⟩ := hp Answer (fun x => name (.inl x)) fun x => hname (.inl x)
  obtain ⟨q', hq'⟩ := hq Answer (fun x => name (.inr x)) fun x => hname (.inr x)
  exact make hp' hq'

/-- The recipes that a continuation returns are named by the types of all of them. -/
theorem exists_names_all {next : α → Recipe ν V β}
    (h : ∀ a, ∃ (T : Type) (A : T → Type), (next a).NamedBy A) :
    ∃ (T : Type) (A : T → Type), ∀ {Tag : Type} [DecidableEq Tag] (Answer : Tag → Type)
      (name : T → Tag), (∀ x, Answer (name x) = A x) →
        ∃ next' : α → ByRequests ν V Answer β, ∀ a, Requested Answer (next a) (next' a) := by
  choose T A hnext using h
  refine ⟨(a : α) × T a, fun x => A x.1 x.2, fun Answer name hname => ?_⟩
  have hrest a := hnext a Answer (fun x => name ⟨a, x⟩) fun x => hname ⟨a, x⟩
  choose next' hnext' using hrest
  exact ⟨next', hnext'⟩

/-- The types of the payloads at the places of a recipe suffice. -/
theorem exists_namedBy (r : Recipe ν V α) : ∃ (T : Type) (A : T → Type), r.NamedBy A := by
  induction r with
  | pure a => exact ⟨Empty, nofun, fun Answer _ _ => ⟨_, .pure a⟩⟩
  | @suspend α β s said next ih =>
    obtain ⟨T, A, hnext⟩ := exists_names_all ih
    refine ⟨Option T, fun x => x.elim α A, fun Answer name hname => ?_⟩
    obtain ⟨next', h⟩ := hnext Answer (fun x => name (some x)) fun x => hname (some x)
    obtain ⟨tag, rfl⟩ : ∃ tag, Answer tag = α := ⟨name none, hname none⟩
    exact ⟨_, .suspend tag s said h⟩
  | @lift α s =>
    refine ⟨Unit, fun _ => α, fun Answer name hname => ?_⟩
    obtain ⟨tag, rfl⟩ : ∃ tag, Answer tag = α := ⟨name (), hname ()⟩
    exact ⟨_, .lift tag s⟩
  | defer said body ih =>
    obtain ⟨T, A, hbody⟩ := ih
    refine ⟨T, A, fun Answer name hname => ?_⟩
    obtain ⟨body', h⟩ := hbody Answer name hname
    exact ⟨_, .defer said h⟩
  | flatMap p said next ihp ihnext =>
    obtain ⟨T, A, hp⟩ := ihp
    obtain ⟨U, B, hnext⟩ := exists_names_all ihnext
    refine ⟨T ⊕ U, Sum.elim A B, fun Answer name hname => ?_⟩
    obtain ⟨p', h⟩ := hp Answer (fun x => name (.inl x)) fun x => hname (.inl x)
    obtain ⟨next', h'⟩ := hnext Answer (fun x => name (.inr x)) fun x => hname (.inr x)
    exact ⟨_, .flatMap said h h'⟩
  | map f p ih =>
    obtain ⟨T, A, hp⟩ := ih
    refine ⟨T, A, fun Answer name hname => ?_⟩
    obtain ⟨p', h⟩ := hp Answer name hname
    exact ⟨_, .map f h⟩
  | andThen p q ihp ihq => exact exists_namedBy_of_two ihp ihq fun h h' => ⟨_, .andThen h h'⟩
  | map2 f p q ihp ihq => exact exists_namedBy_of_two ihp ihq fun h h' => ⟨_, .map2 f h h'⟩
  | apply p q ihp ihq => exact exists_namedBy_of_two ihp ihq fun h h' => ⟨_, .apply h h'⟩

theorem exists_requested (r : Recipe ν V α) : ∃ (Tag : Type) (_ : DecidableEq Tag)
    (Answer : Tag → Type) (r' : ByRequests ν V Answer α), r.Requested Answer r' := by
  obtain ⟨T, A, h⟩ := r.exists_namedBy
  have hnames : DecidableEq T := Classical.decEq T
  obtain ⟨r', h'⟩ := h A id fun _ => rfl
  exact ⟨T, hnames, A, r', h'⟩

end Recipe

/-! ## Lowering the requests of a tree -/

section

variable {Tag : Type} [DecidableEq Tag] {Answer : Tag → Type}

namespace Tree

/-- Steps that map functions over one step with the same results mean the same. -/
theorem quiet_op_mapTraced {f g : α → Traced ν (Tree ν V β)} (log log' : List (Event ν))
    (s : Step ν V α) (h : ∀ a, (f a).value.quiet = (g a).value.quiet) :
    (Tree.op log (s.mapTraced f).value).quiet = (Tree.op log' (s.mapTraced g).value).quiet := by
  rcases hs : V.known s.op with _ | x
  · rw [Step.mapTraced_of_unknown f hs, Step.mapTraced_of_unknown g hs]
    exact congrArg (Tree.step [] s.op fun _ => []) (funext fun x => h (s.reply x).value)
  · rw [Step.mapTraced_of_known f hs, Step.mapTraced_of_known g hs]
    exact congrArg (Tree.step [] s.op fun _ => []) (funext fun _ => h (s.reply x).value)

/-- Where mapping keeps its laws, mapping the leaf over a step is lifting the step. -/
theorem quiet_op_mapTraced_ret (hV : V.Lawful) (log log' : List (Event ν)) (s : Step ν V α) :
    (Tree.op log (s.mapTraced fun a => .pure (.ret [] a)).value).quiet
      = (Tree.op log' (s.map (.ret []))).quiet := by
  have hleaf : ∀ (l : List (Event ν)) (u : Step ν V α),
      (Tree.op l (u.map (.ret []))).quiet = .op [] (u.quiet.map (.ret [])) := fun _ _ => rfl
  have hmap : (s.mapTraced fun a => .pure (Tree.ret (ν := ν) (V := V) [] a))
      = (s.mapTraced .pure).map (Step.map (.ret [])) :=
    (Step.map_mapTraced .pure (Tree.ret []) s).symm
  rw [hmap, Traced.value_map, hleaf, hleaf, hV.mapTraced_pure]

/-- Translating and forgetting events passes through grafting. -/
theorem quiet_translate_bind {F : Vocabulary} (t : NaturalTranslator ν F V) {u : Tree ν F α}
    {v : Tree ν V α} {k : α → Tree ν F β} {l : α → Tree ν V β}
    (h : (u.translate t).quiet = v.quiet) (hk : ∀ a, ((k a).translate t).quiet = (l a).quiet) :
    ((u.bind k).translate t).quiet = (v.bind l).quiet := by
  rw [translate_bind, quiet_bind, quiet_bind, h]
  exact congrArg _ (funext hk)

/-- Lowering a request for the payload of `s` maps the rest of the tree over `s`. -/
theorem quiet_translate_asRequest (log : List (Event ν)) (tag : Tag) (s : Step ν V (Answer tag))
    (rest : Answer tag → Traced ν (Tree ν (Requests.steps ν V Answer).vocabulary β)) :
    ((Tree.op log ((s.asRequest Answer tag).andThen rest)).translate
        (Coyoneda.naturalTranslator ν V Answer)).quiet
      = (Tree.op log (s.mapTraced fun a => .pure
          ((rest a).value.translate (Coyoneda.naturalTranslator ν V Answer))).value).quiet := by
  -- the translator lowers the request alone, and its payload is put in afterwards
  have hop : (Tree.op log ((s.asRequest Answer tag).andThen rest)).translate
      (Coyoneda.naturalTranslator ν V Answer)
        = .op [] ((s.mapTraced fun y => ⟨(rest y).log, ULift.up y⟩).value.map fun y =>
            (rest y.down).value.translate (Coyoneda.naturalTranslator ν V Answer)) := rfl
  rw [hop]
  rcases hs : V.known s.op with _ | x
  · rw [Step.mapTraced_of_unknown _ hs, Step.mapTraced_of_unknown _ hs]
    rfl
  · rw [Step.mapTraced_of_known _ hs, Step.mapTraced_of_known _ hs]
    rfl

end Tree

namespace Recipe

/-- The tree of a recipe with requests, lowered, is the tree of the recipe. -/
theorem Requested.quiet_translate (hV : V.Lawful) {r : Recipe ν V α}
    {r' : ByRequests ν V Answer α} (h : Requested Answer r r') :
    ((r'.build Tree.builders).value.translate (Coyoneda.naturalTranslator ν V Answer)).quiet
      = (r.build Tree.builders).value.quiet := by
  induction h with
  | pure a => rfl
  | suspend tag s said hnext ih =>
    refine (Tree.quiet_translate_asRequest [] tag s _).trans ?_
    refine Tree.quiet_op_mapTraced [] [] s fun a => ?_
    simp [ih]
  | lift tag s =>
    -- the laws are needed here alone: the leaf is mapped over the step when the request is lowered
    refine (Tree.quiet_translate_asRequest [] tag s fun a => .pure (.ret [] a)).trans ?_
    exact Tree.quiet_op_mapTraced_ret hV [] [] s
  | @defer α said body body' hbody ih =>
    show ((Tree.reached ((body'.build Tree.builders).after said)).translate
      (Coyoneda.naturalTranslator ν V Answer)).quiet
        = (Tree.reached ((body.build Tree.builders).after said)).quiet
    rw [Tree.translate_reached, Tree.quiet_reached]
    exact ih
  | flatMap said hp hnext ihp ihnext =>
    refine Tree.quiet_translate_bind _ ihp fun a => ?_
    simp [ihnext]
  | map f hp ih => exact Tree.quiet_translate_bind _ ih fun a => rfl
  | andThen hp hq ihp ihq => exact Tree.quiet_translate_bind _ ihp fun _ => ihq
  | map2 f hp hq ihp ihq =>
    exact Tree.quiet_translate_bind _ ihp fun a => Tree.quiet_translate_bind _ ihq fun b => rfl
  | apply hp hq ihp ihq =>
    exact Tree.quiet_translate_bind _ ihp fun f => Tree.quiet_translate_bind _ ihq fun a => rfl

end Recipe

end

/-! ## Programs over requests -/

/-- The trees of what a recipe makes are what it makes of trees. -/
theorem Recipe.tree_value_build (r : Recipe ν V α) :
    (r.build Program.builders).value.tree = (r.build Tree.builders).value :=
  congrArg Traced.value (Program.tree_hom.map_build r)

/-- Whatever is observationally equal to a translated program runs like the program itself does
    through the translator. -/
theorem Program.runsThrough_of_equiv {F G : Vocabulary} (t : Translator ν F G α)
    {p : Program ν F α} {q : Program ν G α} (ends : Acc t.Leads p)
    (h : q ≈ (p.translate t ends).value) : RunsThrough.{u} t (fun _ => True) p q := by
  have hvalue : ∀ a, ∃ ends : Acc t.Leads (.pure a),
      (Program.pure a : Program ν G α) ≈ ((Program.pure a).translate t ends).value := by
    intro a
    have hpure := translate_pure t a (t.acc_pure a)
    exact ⟨t.acc_pure a, hpure ▸ Setoid.refl _⟩
  exact .of_root (R := fun _ p q => ∃ ends, q ≈ (p.translate t ends).value)
    (fun ⟨ends, h⟩ => root_of_equiv_translate t ends h) id (fun _ => hvalue) fun _ _ => ⟨ends, h⟩

namespace Recipe

section

variable {Tag : Type} [DecidableEq Tag] {Answer : Tag → Type} {r : Recipe ν V α}
  {r' : ByRequests ν V Answer α}

/-- Lowering the requests gives back the program. -/
theorem Requested.lower_equiv (hV : V.Lawful) (h : Requested Answer r r') :
    (r'.build Program.builders).value.lower.value ≈ (r.build Program.builders).value := by
  rw [Program.equiv_iff]
  have hlower : (r'.build Program.builders).value.lower.value.tree.calm
      = (r'.build Program.builders).value.tree.translate (Coyoneda.naturalTranslator ν V Answer) :=
    (Coyoneda.naturalTranslator ν V Answer).calm_tree_transform _
  rw [← Tree.quiet_calm, hlower, tree_value_build, tree_value_build]
  exact h.quiet_translate hV

/-- An interpreter that lowers each request runs the program. -/
theorem Requested.runsThrough (hV : V.Lawful) (h : Requested Answer r r') :
    Program.RunsThrough.{u} (Coyoneda.translator V Answer) (fun _ => True)
      (r'.build Program.builders).value (r.build Program.builders).value :=
  Program.runsThrough_of_equiv _ _ (Setoid.symm (h.lower_equiv hV))

end

/-- **Asking by requests is transparent.** Over a vocabulary that keeps the laws of mapping, every
    recipe can be written with requests, and however it is, lowering the requests of the program it
    makes gives a program observationally equal to the one without requests. Running the program
    with an interpreter that lowers each request, and treats the step that it is as a judge does,
    gives the same steps, the same last state and the same result as running the program without
    requests with the judge itself, by every driver. -/
theorem requested_transparent (hV : V.Lawful) (r : Recipe ν V α) :
    (∃ (Tag : Type) (_ : DecidableEq Tag) (Answer : Tag → Type)
      (r' : ByRequests ν V Answer α), r.Requested Answer r') ∧
    ∀ {Tag : Type} [DecidableEq Tag] {Answer : Tag → Type}
      {r' : ByRequests ν V Answer α}, r.Requested Answer r' →
        (r'.build Program.builders).value.lower.value ≈ (r.build Program.builders).value ∧
        Program.RunsThrough.{u} (Coyoneda.translator V Answer) (fun _ => True)
          (r'.build Program.builders).value (r.build Program.builders).value := by
  refine ⟨r.exists_requested, ?_⟩
  intro Tag _ Answer r' h
  exact ⟨h.lower_equiv hV, h.runsThrough hV⟩

end Recipe

/-! ## A recipe that asks and writes -/

/-- Writing a number down, asking for one, and giving up. -/
inductive Errand where
  | write (n : Nat)
  | ask
  | giveUp
  deriving DecidableEq

/-- Writing has its answer already, asking waits for it, and giving up has none. -/
def errands : Vocabulary where
  Op := Errand
  Answer
    | .write _ => Unit
    | .ask => Nat
    | .giveUp => Empty
  known
    | .write _ => some ()
    | .ask => none
    | .giveUp => none

theorem errands_lawful : errands.Lawful := by
  refine Vocabulary.lawful_iff.2 fun op x hx y => ?_
  cases op with
  | write n => rfl
  | ask => exact nomatch hx
  | giveUp => exact nomatch hx

/-- Asks for a number. -/
def askStep : Step Empty errands Nat := ⟨Errand.ask, fun n => .pure n⟩

/-- Writes `n` down and carries it on. -/
def writeStep (n : Nat) : Step Empty errands Nat := ⟨Errand.write n, fun _ => .pure n⟩

/-- Asks for a number, writes it down, and asks for the result. -/
def writeDown : Recipe Empty errands Nat :=
  .suspend askStep (fun _ => []) fun n =>
    .suspend (writeStep n) (fun _ => []) fun _ => .lift askStep

/-- The same, by requests for numbers. -/
def writeDownAsked : Recipe.ByRequests Empty errands (fun _ : Unit => Nat) Nat :=
  .suspend (askStep.asRequest _ ()) (fun _ => []) fun n =>
    .suspend ((writeStep n).asRequest _ ()) (fun _ => []) fun _ => .lift (askStep.asRequest _ ())

theorem writeDown_requested : writeDown.Requested (fun _ : Unit => Nat) writeDownAsked :=
  .suspend () _ _ fun _ => .suspend () _ _ fun _ => .lift () _

/-- Counts the steps and answers every question by 40 and the count. -/
def counting : Judge Empty errands .identity Nat Nat := fun count op =>
  .pure (count + 1, match op with
    | .write _ => .answer ()
    | .ask => .answer (40 + count)
    | .giveUp => .value count)

theorem writeDown_transparent :
    errands.Lawful ∧ writeDown.Requested (fun _ : Unit => Nat) writeDownAsked ∧
    (writeDownAsked.build Program.builders).value.lower.value
      ≈ (writeDown.build Program.builders).value ∧
    ((writeDownAsked.build Program.builders).value.runInHost .identity
      (counting.through (Coyoneda.translator errands _)) 4 (0, [])).value.1
        = (3, [.ask, .write 40, .ask]) ∧
    ((writeDownAsked.build Program.builders).value.runInHost .identity
      (counting.through (Coyoneda.translator errands _)) 4 (0, [])).value.2.getRight?
        = some (42 : Nat) := by
  obtain ⟨-, h⟩ := Recipe.requested_transparent errands_lawful writeDown
  obtain ⟨hequiv, hruns⟩ := h writeDown_requested
  obtain ⟨hstate, hresult⟩ := hruns.inHost counting 0 (show (fun _ => True) 4 from trivial)
  refine ⟨errands_lawful, writeDown_requested, hequiv, hstate.symm.trans ?_, hresult.symm.trans ?_⟩
  · rfl
  · rfl

end FreeMonad
