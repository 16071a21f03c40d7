import FreeMonad.Proofs.Congruence
import FreeMonad.Proofs.Discarding
import FreeMonad.Proofs.EvaluationOrder

set_option autoImplicit false

/-! # Stepping and attaching

A program can be stepped by hand first and have work attached to what is left, or have the work
attached first and be stepped then. The programs that come out are built differently: a continuation
that is attached early is wrapped once more by every `resume`, and a translation that is started
early goes on as a deferred walk. They cannot be told apart.

Stepping is said by `Program.Leaves`: answering the steps in turn leaves a program. Attaching work
is a *context* for it (`Program.StepContext`): the steps are the same ones, record the same, and
leave what the context makes of the program that is left, also after the step at which that program
ends. Every operation whose tree is a graft is such a context (`Program.StepContext.of_tree`). A
translation changes the steps, so its answers are others, of which those payloads come that the
answers to the program make (`Translator.Receives`). -/

namespace FreeMonad

variable {ν : Type} {V F G : Vocabulary} {α β γ : Type}

/-! ## Stepping -/

/-- Stepping by `resume`, with the answers of the list to the steps in turn, records `log` and
    leaves a program. -/
inductive Program.Leaves :
    Program ν V α → Answers V → List (Event ν) → Program ν V α → Prop where
  | stay (p : Program ν V α) : Leaves p [] [] p
  | answered {p r : Program ν V α} {log log' : List (Event ν)} {op : V.Op}
      {reply : V.Answer op → Traced ν (Program ν V α)} {xs : Answers V}
      (h : p.resume = ⟨log, .inl ⟨op, reply⟩⟩) (x : V.Answer op)
      (rest : Leaves (reply x).value xs log' r) :
      Leaves p (⟨op, x⟩ :: xs) (log ++ ((reply x).log ++ log')) r

namespace Program

/-- The answers say which program is left. -/
theorem Leaves.unique {p r r' : Program ν V α} {xs : Answers V} {log log' : List (Event ν)}
    (h : p.Leaves xs log r) (h' : p.Leaves xs log' r') : log = log' ∧ r = r' := by
  induction h generalizing log' with
  | stay p =>
    cases h'
    exact ⟨rfl, rfl⟩
  | answered hp x _ ih =>
    cases h' with
    | answered hp' _ rest' =>
      cases hp.symm.trans hp'
      obtain ⟨rfl, rfl⟩ := ih rest'
      exact ⟨rfl, rfl⟩

/-! ## Contexts -/

/-- A program in the context `fill` makes the steps of the program, and in the end it is `ended`. -/
structure StepContext (fill : Program ν V α → Program ν V β) (ended : α → Program ν V β) :
    Prop where
  /-- Stepping leaves what the context makes of the program that is left. -/
  steps {p r : Program ν V α} {xs : Answers V} {log : List (Event ν)} (h : p.Leaves xs log r) :
    ∃ q, (fill p).Leaves xs log q ∧ q ≈ fill r
  /-- If there is no step left, stepping leaves what the context makes of the value. -/
  ends {p r : Program ν V α} {xs : Answers V} {log : List (Event ν)} {a : α}
    (h : p.Leaves xs log r) (ha : r.resume.value = .inr a) :
    ∃ q, (fill p).Leaves xs log q ∧ q ≈ ended a

/-- Stepping goes down a grafted tree as it goes down the tree, and leaves the graft on what is left
    of it, up to no event. -/
theorem Leaves.of_tree_bind {p r : Program ν V α} {xs : Answers V} {log : List (Event ν)}
    (h : p.Leaves xs log r) {k : α → Tree ν V β} {q : Program ν V β}
    (hq : q.tree = p.tree.bind k) : ∃ q', q.Leaves xs log q' ∧ q'.tree = r.tree.bind k := by
  induction h generalizing q with
  | stay p => exact ⟨q, .stay q, hq⟩
  | answered hp x _ ih =>
    -- `q` shows the step that `p` shows, with payloads whose trees are grafted alike
    rw [(resume_eq_step_iff _ _ _).1 ⟨_, hp, rfl⟩] at hq
    obtain ⟨reply', hresume, hreply⟩ := exists_reply_of_tree_eq_step hq
    obtain ⟨hlog, htree⟩ := hreply x
    obtain ⟨q', hleaves, hq'⟩ := ih htree
    exact ⟨q', hlog ▸ .answered hresume x hleaves, hq'⟩

/-- An operation is a context if its tree is a graft. -/
theorem StepContext.of_tree {fill : Program ν V α → Program ν V β} {ended : α → Program ν V β}
    {k : α → Tree ν V β} (hfill : ∀ p, (fill p).tree = p.tree.bind k)
    (hended : ∀ a, (ended a).tree.quiet = (k a).quiet) : StepContext fill ended where
  steps {p r xs log} h := by
    obtain ⟨q, hleaves, hq⟩ := h.of_tree_bind (hfill p)
    exact ⟨q, hleaves, equiv_of_tree_eq (hq.trans (hfill r).symm)⟩
  ends {p r xs log a} h ha := by
    obtain ⟨q, hleaves, hq⟩ := h.of_tree_bind (hfill p)
    refine ⟨q, hleaves, ?_⟩
    rw [equiv_iff, hq, Tree.quiet_bind, quiet_tree r, ha, hended]
    exact Tree.ret_bind _ _

theorem stepContext_flatMap (k : α → Traced ν (Program ν V β)) :
    StepContext (fun p => p.flatMap k) fun a => (k a).value := by
  refine .of_tree (fun p => tree_flatMap p k) fun a => ?_
  rw [Tree.quiet_reached, Traced.value_map]

theorem stepContext_map (f : α → Traced ν β) :
    StepContext (V := V) (Program.map f) fun a => .pure (f a).value :=
  stepContext_flatMap fun a => (f a).map .pure

theorem stepContext_andThen (q : Program ν V β) :
    StepContext (fun p : Program ν V α => p.andThen q) fun _ => q :=
  stepContext_flatMap fun _ => .pure q

theorem stepContext_map2 (f : α → β → Traced ν γ) (q : Program ν V β) :
    StepContext (fun p => map2 f p q) fun a => q.map (f a) :=
  stepContext_flatMap fun a => .pure (q.map (f a))

theorem stepContext_apply (q : Program ν V α) :
    StepContext (fun p : Program ν V (α → Traced ν β) => p.apply q) fun f => q.map f :=
  stepContext_flatMap fun f => .pure (q.map f)

end Program

/-! ## Translations -/

/-- Along the steps of a program, which are answered by `xs`, the translated steps are answered by
    `ys` so that their payloads come to what the answers `xs` make of those of the program. -/
inductive Translator.Receives (t : Translator ν F G α) :
    Program ν F α → Answers F → Answers G → Prop where
  | nil (p : Program ν F α) : Receives t p [] []
  | cons {p : Program ν F α} {op : F.Op} {reply : F.Answer op → Traced ν (Program ν F α)}
      {xs : Answers F} {ys : Answers G} (h : p.resume.value = .inl ⟨op, reply⟩) (x : F.Answer op)
      (y : G.Answer (t ⟨op, reply⟩).value.op)
      (hxy : ((t ⟨op, reply⟩).value.reply y).value = (reply x).value)
      (rest : Receives t (reply x).value xs ys) :
      Receives t p (⟨op, x⟩ :: xs) (⟨(t ⟨op, reply⟩).value.op, y⟩ :: ys)

/-- Stepping a program that behaves like a translated one leaves one that behaves like the
    translation of what is left. -/
theorem Program.Leaves.of_equiv_translate {t : Translator ν F G α} {p r : Program ν F α}
    {xs : Answers F} {log : List (Event ν)} (h : p.Leaves xs log r) {ys : Answers G}
    (hys : t.Receives p xs ys) (ends : Acc t.Leads p) {q : Program ν G α}
    (hq : q ≈ (p.translate t ends).value) :
    ∃ ends' log' q', q.Leaves ys log' q' ∧ q' ≈ (r.translate t ends').value := by
  induction h generalizing ys q with
  | stay p =>
    cases hys
    exact ⟨ends, [], q, .stay q, hq⟩
  | answered hp x _ ih =>
    cases hys with
    | @cons _ op reply xs ys h _ y hxy hys =>
      cases (congrArg Traced.value hp).symm.trans h
      -- the step of `q` is the translated one, and its payload the walk over what `y` makes of it
      have hroot := root_of_equiv_translate t ends hq
      rw [h] at hroot
      rcases hresume : q.resume with ⟨said, o⟩
      rw [hresume] at hroot
      obtain ⟨reply', rfl, hpayloads⟩ := hroot.eq_step
      have hy := hpayloads y
      rw [hxy] at hy
      obtain ⟨ends, hy⟩ := hy
      obtain ⟨ends', log', q', hleaves, hq'⟩ := ih hys ends hy
      exact ⟨ends', _, q', .answered hresume y hleaves, hq'⟩

namespace NaturalTranslator

variable (t : NaturalTranslator ν F G)

/-- Whatever the steps of a translated program are answered with, there are answers to the steps of
    the program that come to the same payloads. -/
theorem exists_receives {ys : Answers G} {log : List (Event ν)} {q q' : Program ν G α}
    (h : q.Leaves ys log q') {p : Program ν F α} (hq : q ≈ (t.transform p).value) :
    ∃ xs log' r, p.Leaves xs log' r ∧ t.translator.Receives p xs ys := by
  induction h generalizing p with
  | stay q => exact ⟨[], [], p, .stay p, .nil p⟩
  | @answered q _ _ _ op reply ys hresume y _ ih =>
    have hroot := Program.root_of_equiv_translate t.translator (t.translator_handsOn.acc p) hq
    rw [hresume] at hroot
    rcases hp : p.resume with ⟨said, o⟩
    rw [hp] at hroot
    cases hroot with
    | step s _ hpayloads =>
      have hreply : ∃ x, ((t.translator s).value.reply y).value = (s.reply x).value :=
        t.exists_reply_onStep s y
      obtain ⟨x, hx⟩ := hreply
      have hpayload := hpayloads y
      rw [hx] at hpayload
      obtain ⟨_, hpayload⟩ := hpayload
      obtain ⟨xs, log', r, hleaves, hreceives⟩ := ih hpayload
      exact ⟨_, _, r, .answered hp x hleaves, .cons (congrArg Traced.value hp) x y hx hreceives⟩

/-- Stepping a translated program leaves the translation of what stepping the program leaves. -/
structure CommutesWithStepping (t : NaturalTranslator ν F G) (α : Type) : Prop where
  /-- While there are steps to translate. -/
  steps {p r : Program ν F α} {xs : Answers F} {ys : Answers G} {log : List (Event ν)}
    (h : p.Leaves xs log r) (hys : t.translator.Receives p xs ys) :
    ∃ log' q, (t.transform p).value.Leaves ys log' q ∧ q ≈ (t.transform r).value
  /-- After the last step. -/
  ends {p r : Program ν F α} {xs : Answers F} {ys : Answers G} {log : List (Event ν)} {a : α}
    (h : p.Leaves xs log r) (ha : r.resume.value = .inr a) (hys : t.translator.Receives p xs ys) :
    ∃ log' q, (t.transform p).value.Leaves ys log' q ∧ q ≈ .pure a
  /-- The translated program cannot be stepped in any other way. -/
  only {p : Program ν F α} {q : Program ν G α} {ys : Answers G} {log : List (Event ν)}
    (h : (t.transform p).value.Leaves ys log q) :
    ∃ xs log' r, p.Leaves xs log' r ∧ t.translator.Receives p xs ys ∧ q ≈ (t.transform r).value

theorem commutesWithStepping (α : Type) : t.CommutesWithStepping α := by
  have hsteps {p r : Program ν F α} {xs : Answers F} {ys : Answers G} {log : List (Event ν)}
      (h : p.Leaves xs log r) (hys : t.translator.Receives p xs ys) :
      ∃ log' q, (t.transform p).value.Leaves ys log' q ∧ q ≈ (t.transform r).value := by
    have hacc := t.translator_handsOn.acc p
    obtain ⟨_, log', q, hleaves, hq⟩ := h.of_equiv_translate hys hacc (Setoid.refl _)
    exact ⟨log', q, hleaves, hq⟩
  constructor
  case steps => exact hsteps
  case ends =>
    intro p r xs ys log a h ha hys
    obtain ⟨log', q, hleaves, hq⟩ := hsteps h hys
    have hresume : r.resume = ⟨r.resume.log, .inr a⟩ := Traced.ext rfl ha
    have hpure : (t.transform r).value = .pure a := by
      rw [transform, Program.translate_of_value _ _ hresume]
    exact ⟨log', q, hleaves, hpure ▸ hq⟩
  case only =>
    intro p q ys log h
    obtain ⟨xs, log', r, hp, hys⟩ := t.exists_receives h (Setoid.refl _)
    obtain ⟨log'', q', hleaves, hq'⟩ := hsteps hp hys
    obtain ⟨rfl, rfl⟩ := h.unique hleaves
    exact ⟨xs, log', r, hp, hys, hq'⟩

end NaturalTranslator

/-- **Attaching work before stepping and attaching it afterwards come to the same.** The answers to
    the steps say which program is left. Stepping a program with a continuation attached makes the
    steps of the program, for as long as it has any, and leaves what is left of it with the
    continuation attached; after the last step, it leaves what the continuation returns on the
    value. The same holds of the derived operations. Stepping a program translated along a natural
    translator makes the translated steps, and leaves the translation of what is left. -/
theorem stepping_commutes (ν : Type) (V : Vocabulary) :
    (∀ {α : Type} {p r r' : Program ν V α} {xs : Answers V} {log log' : List (Event ν)},
      p.Leaves xs log r → p.Leaves xs log' r' → log = log' ∧ r = r') ∧
    (∀ {α β : Type} (k : α → Traced ν (Program ν V β)),
      Program.StepContext (fun p => p.flatMap k) fun a => (k a).value) ∧
    (∀ {α β : Type} (f : α → Traced ν β),
      Program.StepContext (V := V) (fun p => p.map f) fun a => .pure (f a).value) ∧
    (∀ {α β : Type} (q : Program ν V β),
      Program.StepContext (fun p : Program ν V α => p.andThen q) fun _ => q) ∧
    (∀ {α β γ : Type} (f : α → β → Traced ν γ) (q : Program ν V β),
      Program.StepContext (fun p => .map2 f p q) fun a => q.map (f a)) ∧
    (∀ {α β : Type} (q : Program ν V α),
      Program.StepContext (fun p : Program ν V (α → Traced ν β) => p.apply q) fun f => q.map f) ∧
    (∀ {W : Vocabulary} (t : NaturalTranslator ν V W) (α : Type), t.CommutesWithStepping α) := by
  refine ⟨Program.Leaves.unique, Program.stepContext_flatMap, Program.stepContext_map,
    Program.stepContext_andThen, Program.stepContext_map2, Program.stepContext_apply, ?_⟩
  exact fun t α => t.commutesWithStepping α

/-- Turns the answers round, whatever they lead to. -/
def turnedRound : NaturalTranslator Empty coin coin where
  onStep s := .pure ⟨s.op, fun x => s.reply (!x)⟩
  onStep_map _ _ := rfl

/-- A second question can be attached before the first one is answered, and a question that is
    turned round is answered by no where the question is answered by yes. -/
theorem toss_stepped :
    (∃ q, (toss.flatMap fun x => .pure (toss.andThen (.pure x))).Leaves [⟨(), true⟩] [] q ∧
      q ≈ toss.andThen (.pure true)) ∧
    (∃ log q, (turnedRound.transform toss).value.Leaves [⟨(), false⟩] log q ∧ q ≈ .pure true) := by
  obtain ⟨-, hflatMap, -, -, -, -, htranslate⟩ := stepping_commutes Empty coin
  have hresume : toss.resume = ⟨[], .inl ⟨(), fun x => .pure (.pure x)⟩⟩ := rfl
  have hleaves : toss.Leaves [⟨(), true⟩] [] (.pure true) := .answered hresume true (.stay _)
  have hreceives : turnedRound.translator.Receives toss [⟨(), true⟩] [⟨(), false⟩] := by
    have hvalue := congrArg Traced.value hresume
    exact .cons (t := turnedRound.translator) hvalue true false rfl (.nil _)
  constructor
  · exact (hflatMap fun x => .pure (toss.andThen (.pure x))).ends hleaves rfl
  · exact (htranslate turnedRound Bool).ends hleaves rfl hreceives

end FreeMonad
