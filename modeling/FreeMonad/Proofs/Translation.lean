import FreeMonad.Program.Translate
import FreeMonad.Proofs.Observation
import FreeMonad.Proofs.Simulation

set_option autoImplicit false

/-! # Running a translated program

To run a translated program is to run the program itself with an interpreter that translates each
step first. This holds for every translator, also for one that replaces the payloads of the steps
it is given, as long as the interpreter does not look at payloads: a `Judge` sees the operation
and its own state, and fails, answers, or ends the run with a value. It can judge steps whose
payloads are programs over either vocabulary, so "treat the translated step as the judge does" has
a meaning on both sides (`Judge.interpreter`, `Judge.through`).

The translated program interleaves two normalizers: each payload is a deferred walk, which resumes
the payload of the translator and translates its first step. Up to observational equality the walk
is the translated rest (`Program.root_of_equiv_translate`), and that is a simulation for every
judge (`DelayedJudge.simulation`).

A translator may hand on new steps for ever. Its translated program would have no end and is not a
program here (`Program.exists_translates_iff`); what a driver sees of it in `n` turns is the
translation of the first `n` steps (`Program.TranslatesUpTo`), and that is what is stated of it. -/

namespace FreeMonad

universe u v

variable {ν : Type} {F G : Vocabulary} {M : Host} {σ : Type u} {α : Type}

/-! ## Judges -/

/-- What becomes of a step of the operation `op`, whatever its payload is. -/
inductive Ruling (G : Vocabulary) (α : Type) (op : G.Op) : Type where
  /-- The step is answered, and the run goes on with its payload. -/
  | answer (x : G.Answer op)
  /-- The run goes on with a finished program. -/
  | value (a : α)

/-- What the run goes on with after a ruling on the step `s`, if `finish` makes finished
    programs. -/
def Ruling.on {P : Type v} (finish : α → P) (s : Step ν G P) : Ruling G α s.op → Traced ν P
  | .answer x => s.reply x
  | .value a => .pure (finish a)

/-- Rules on a step inside a host; a failure stays what it is. -/
def Host.rule (M : Host) {P : Type v} (finish : α → P) (s : Step ν G P)
    (m : M.Carrier (Ruling G α s.op)) : Traced ν (M.Carrier P) :=
  match M.split m with
  | .inl failure => .pure failure
  | .inr r => (r.on finish s).map M.pure

/-- A stateful interpreter that looks at operations and its own state alone, and fails in the host,
    answers, or ends the run. -/
abbrev Judge (ν : Type) (G : Vocabulary) (M : Host) (σ : Type u) (α : Type) :=
  σ → (op : G.Op) → Traced ν (σ × M.Carrier (Ruling G α op))

/-- A judge whose rulings are delivered later. -/
abbrev DelayedJudge (ν : Type) (G : Vocabulary) (M : Host) (σ : Type u) (α : Type) :=
  σ → (op : G.Op) → Traced ν (σ × Delayed (M.Carrier (Ruling G α op)))

namespace Judge

/-- Judges a step with payloads of any kind, and keeps its operation. -/
def on {P : Type v} (J : Judge ν G M σ α) (finish : α → P) :
    σ × List G.Op → Step ν G P → Traced ν ((σ × List G.Op) × M.Carrier P) := fun (world, ops) s =>
  (J world s.op).bind fun (world, m) =>
    (M.rule finish s m).map fun answer => ((world, ops ++ [s.op]), answer)

/-- The judge of the steps of programs over `G`. Its state also keeps their operations, in
    order. -/
def interpreter (J : Judge ν G M σ α) : Interpreter ν G M (σ × List G.Op) α := J.on .pure

/-- The interpreter of programs over `F` that translates each step and treats it as the judge
    does. -/
def through (J : Judge ν G M σ α) (t : Translator ν F G α) : Interpreter ν F M (σ × List G.Op) α :=
  fun state s => (t s).bind (J.on .pure state)

/-- The judge with its rulings delivered at once. -/
def prompt (J : Judge ν G M σ α) : DelayedJudge ν G M σ α := fun world op =>
  (J world op).map fun (world, m) => (world, ⟨0, m⟩)

end Judge

namespace DelayedJudge

/-- Judges a step with payloads of any kind, and keeps its operation. -/
def on {P : Type v} (D : DelayedJudge ν G M σ α) (finish : α → P) :
    σ × List G.Op → Step ν G P → Traced ν ((σ × List G.Op) × Delayed (M.Carrier P)) :=
  fun (world, ops) s => (D world s.op).bind fun (world, d) =>
    (M.rule finish s d.value).map fun answer => ((world, ops ++ [s.op]), ⟨d.pending, answer⟩)

/-- The judge of the steps of programs over `G`. Its state also keeps their operations, in
    order. -/
def interpreter (D : DelayedJudge ν G M σ α) : DelayedInterpreter ν G M (σ × List G.Op) α :=
  D.on .pure

/-- The interpreter of programs over `F` that translates each step and treats it as the judge
    does. -/
def through (D : DelayedJudge ν G M σ α) (t : Translator ν F G α) :
    DelayedInterpreter ν F M (σ × List G.Op) α := fun state s => (t s).bind (D.on .pure state)

end DelayedJudge

/-! ## Translated outcomes -/

/-- The second outcome is the first one translated: the same value, or the translated step, with
    payloads that `R` relates to those of the translator. -/
inductive Translator.Root (t : Translator ν F G α) (R : Program ν F α → Program ν G α → Prop) :
    Outcome ν F α → Outcome ν G α → Prop where
  | value (a : α) : Root t R (.inr a) (.inr a)
  | step (s : Step ν F (Program ν F α))
      (reply : G.Answer (t s).value.op → Traced ν (Program ν G α))
      (payloads : ∀ x, R ((t s).value.reply x).value (reply x).value) :
      Root t R (.inl s) (.inl ⟨(t s).value.op, reply⟩)

namespace Translator.Root

variable {t : Translator ν F G α} {R R' : Program ν F α → Program ν G α → Prop}

theorem imp (h : ∀ p q, R p q → R' p q) {o : Outcome ν F α} {o' : Outcome ν G α}
    (hroot : t.Root R o o') : t.Root R' o o' := by
  cases hroot with
  | value a => exact .value a
  | step s reply payloads => exact .step s reply fun x => h _ _ (payloads x)

theorem eq_step {s : Step ν F (Program ν F α)} {o : Outcome ν G α} (hroot : t.Root R (.inl s) o) :
    ∃ reply, o = .inl ⟨(t s).value.op, reply⟩ ∧
      ∀ x, R ((t s).value.reply x).value (reply x).value := by
  cases hroot with
  | step _ reply payloads => exact ⟨reply, rfl, payloads⟩

end Translator.Root

/-- A ruling on steps of one operation is the same failure on both, or leads to related
    programs. -/
theorem Host.rule_liftRel (M : Host) {R : Program ν F α → Program ν G α → Prop}
    (hvalue : ∀ a, R (.pure a) (.pure a)) {op : G.Op}
    {reply : G.Answer op → Traced ν (Program ν F α)}
    {reply' : G.Answer op → Traced ν (Program ν G α)}
    (h : ∀ x, R (reply x).value (reply' x).value) (m : M.Carrier (Ruling G α op)) :
    M.LiftRel α R (M.rule .pure ⟨op, reply⟩ m).value (M.rule .pure ⟨op, reply'⟩ m).value := by
  have hruling : ∀ r : Ruling G α op,
      R (r.on .pure ⟨op, reply⟩).value (r.on .pure ⟨op, reply'⟩).value := by
    intro r
    cases r with
    | answer x => exact h x
    | value a => exact hvalue a
  cases M with
  | identity => exact .inr (hruling m)
  | option =>
    cases m with
    | none => exact .inl rfl
    | some r => exact .inr (hruling r)
  | result Error =>
    cases m with
    | error e => exact .inl rfl
    | ok r => exact .inr (hruling r)

/-- If related programs show translated outcomes, no judge tells them apart. -/
theorem DelayedJudge.simulation (D : DelayedJudge ν G M σ α) {t : Translator ν F G α}
    {R : Nat → Program ν F α → Program ν G α → Prop}
    (hroot : ∀ {n p q}, R (n + 1) p q → t.Root (R n) p.resume.value q.resume.value)
    (hweaken : ∀ {n p q}, R (n + 1) p q → R n p q) (hvalue : ∀ n a, R n (.pure a) (.pure a)) :
    Simulation (D.through t) D.interpreter R where
  turn {n p q} h state := by
    have hpq := hroot h
    generalize p.resume.value = o at hpq ⊢
    generalize q.resume.value = o' at hpq ⊢
    cases hpq with
    | value a => exact .value a
    | step s reply payloads =>
      exact .step rfl rfl
        (M.rule_liftRel (hvalue n) payloads (D state.1 (t s).value.op).value.2.value)
  weaken := hweaken

theorem Judge.simulation (J : Judge ν G M σ α) {t : Translator ν F G α}
    {R : Nat → Program ν F α → Program ν G α → Prop}
    (hroot : ∀ {n p q}, R (n + 1) p q → t.Root (R n) p.resume.value q.resume.value)
    (hweaken : ∀ {n p q}, R (n + 1) p q → R n p q) (hvalue : ∀ n a, R n (.pure a) (.pure a)) :
    Simulation (J.through t).prompt J.interpreter.prompt R :=
  J.prompt.simulation hroot hweaken hvalue

namespace Program

/-! ## The translated program -/

/-- A deferred program is observationally equal to the program that is built. -/
theorem defer_equiv (build : Unit → Traced ν (Program ν G α)) : defer build ≈ (build ()).value := by
  rw [equiv_iff, tree_defer]
  exact Tree.quiet_reached _

theorem translate_pure (t : Translator ν F G α) (a : α) (ends : Acc t.Leads (.pure a)) :
    ((Program.pure a).translate t ends).value = .pure a := by
  rw [translate_of_value t ends rfl]

/-- The translated program shows the translated outcome. Its payloads are deferred walks over the
    payloads of the translator. -/
theorem root_translate (t : Translator ν F G α) (p : Program ν F α) (ends : Acc t.Leads p) :
    t.Root (fun p q => ∃ ends, q ≈ (p.translate t ends).value) p.resume.value
      (p.translate t ends).value.resume.value := by
  rcases hp : p.resume with ⟨log, s | a⟩
  · obtain ⟨hnext, htranslate⟩ := translate_of_step t ends hp
    rw [htranslate]
    refine .step s _ fun x => ⟨hnext x, ?_⟩
    exact defer_equiv fun _ => ((t s).value.reply x).value.translate t (hnext x)
  · rw [translate_of_value t ends hp]
    exact .value a

/-- What is observationally equal to a translated program shows the translated outcome, too. -/
theorem root_of_equiv_translate (t : Translator ν F G α) {p : Program ν F α} (ends : Acc t.Leads p)
    {q : Program ν G α} (h : q ≈ (p.translate t ends).value) :
    t.Root (fun p q => ∃ ends, q ≈ (p.translate t ends).value) p.resume.value q.resume.value := by
  have hroot := root_translate t p ends
  have hq := sameRoot_of_equiv h
  generalize p.resume.value = o at hroot ⊢
  generalize (p.translate t ends).value.resume.value = o' at hroot hq
  generalize q.resume.value = o'' at hq ⊢
  cases hroot with
  | value a =>
    cases hq
    exact .value a
  | step s reply payloads =>
    cases hq with
    | step _ reply' _ hpayloads =>
      refine .step s reply' fun x => ?_
      obtain ⟨ends, hx⟩ := payloads x
      exact ⟨ends, Setoid.trans (hpayloads x) hx⟩

/-! ## The first steps of a translation -/

/-- As far as `n` turns of a driver can see, `q` is the translation of `p`. -/
def TranslatesUpTo (t : Translator ν F G α) : Nat → Program ν F α → Program ν G α → Prop
  | 0, _, _ => True
  | n + 1, p, q => t.Root (TranslatesUpTo t n) p.resume.value q.resume.value

section UpTo

variable {t : Translator ν F G α}

theorem translatesUpTo_pure : ∀ (n : Nat) (a : α), TranslatesUpTo t n (.pure a) (.pure a)
  | 0, _ => trivial
  | _ + 1, a => .value a

theorem translatesUpTo_weaken : ∀ {n : Nat} {p : Program ν F α} {q : Program ν G α},
    TranslatesUpTo t (n + 1) p q → TranslatesUpTo t n p q
  | 0, _, _, _ => trivial
  | _ + 1, _, _, h => Translator.Root.imp (fun _ _ => translatesUpTo_weaken) h

theorem translatesUpTo_mono {k n : Nat} (hk : k ≤ n) {p : Program ν F α} {q : Program ν G α}
    (h : TranslatesUpTo t n p q) : TranslatesUpTo t k p q := by
  induction hk with
  | refl => exact h
  | step _ ih => exact ih (translatesUpTo_weaken h)

/-- The translated program is the translation of every number of steps. -/
theorem translatesUpTo_of_equiv_translate : ∀ (n : Nat) {p : Program ν F α}
    (ends : Acc t.Leads p) {q : Program ν G α}, q ≈ (p.translate t ends).value →
      TranslatesUpTo t n p q
  | 0, _, _, _, _ => trivial
  | n + 1, _, ends, _, h =>
    (root_of_equiv_translate t ends h).imp fun _ _ ⟨ends, h⟩ =>
      translatesUpTo_of_equiv_translate n ends h

/-- Whatever the translator does, the first `n` steps can be translated; what comes behind them is
    cut off. -/
theorem exists_translatesUpTo (t : Translator ν F G α) (cut : Program ν G α) (n : Nat)
    (p : Program ν F α) : ∃ q, TranslatesUpTo t n p q := by
  induction n generalizing p with
  | zero => exact ⟨cut, trivial⟩
  | succ n ih =>
    simp only [TranslatesUpTo]
    cases p.resume.value with
    | inr a => exact ⟨.pure a, .value a⟩
    | inl s =>
      obtain ⟨rest, hrest⟩ := Classical.axiomOfChoice ih
      exact ⟨ofStep ((t s).value.map rest), .step s _ fun x => hrest _⟩

/-- A program is the translation of `p` to any depth only if the walk over `p` ends. -/
theorem acc_of_translates {p : Program ν F α} {q : Program ν G α}
    (h : ∀ n, TranslatesUpTo t n p q) : Acc t.Leads p := by
  induction hq : q.tree using Tree.child_wellFounded.induction generalizing p q with
  | _ _ ih =>
    subst hq
    refine ⟨_, fun rest ⟨s, hs, x, hx⟩ => ?_⟩
    subst hx
    -- `q` resumes to one step only, so its payload is the same at every depth
    have hroot : ∀ n, ∃ reply, q.resume.value = .inl ⟨(t s).value.op, reply⟩ ∧
        ∀ x, TranslatesUpTo t n ((t s).value.reply x).value (reply x).value := fun n => by
      have hn := h (n + 1)
      rw [TranslatesUpTo, hs] at hn
      exact hn.eq_step
    obtain ⟨reply, hq, -⟩ := hroot 0
    refine ih _ (child_of_resume hq x) (fun n => ?_) rfl
    obtain ⟨reply', hq', hpayloads⟩ := hroot n
    cases hq.symm.trans hq'
    exact hpayloads x

/-- There is a translated program, to any depth, exactly if the walk over `p` ends. -/
theorem exists_translates_iff {p : Program ν F α} :
    (∃ q, ∀ n, TranslatesUpTo t n p q) ↔ Acc t.Leads p :=
  ⟨fun ⟨_, h⟩ => acc_of_translates h, fun ends =>
    ⟨_, fun n => translatesUpTo_of_equiv_translate n ends (Setoid.refl _)⟩⟩

end UpTo

/-! ## Runs -/

/-- Running `q` with a judge comes to the same as running `p` through the translator: the same
    operations of `G` in the same order, the same last state, and the same result or none yet.
    This is said of the runs of a number of turns for which `within` holds. -/
structure RunsThrough (t : Translator ν F G α) (within : Nat → Prop) (p : Program ν F α)
    (q : Program ν G α) : Prop where
  /-- Inside a host; `run` and `tryRun` are two cases of this. -/
  inHost {M : Host} {σ : Type u} (J : Judge ν G M σ α) (world : σ) {turns : Nat}
    (h : within turns) :
    (q.runInHost M J.interpreter turns (world, [])).value.1
      = (p.runInHost M (J.through t) turns (world, [])).value.1 ∧
    (q.runInHost M J.interpreter turns (world, [])).value.2.getRight?
      = (p.runInHost M (J.through t) turns (world, [])).value.2.getRight?
  /-- By polling; `runAsync` and `tryRunAsync` are two cases of this. -/
  polled {M : Host} {σ : Type u} (driver : Driver) (D : DelayedJudge ν G M σ α) (world : σ)
    {turns limit : Nat} (h : within (limit * turns)) :
    (Task.pollTimes driver D.interpreter turns limit [] 0 (world, []) (Task.start q)).value
      = (Task.pollTimes driver (D.through t) turns limit [] 0 (world, []) (Task.start p)).value

/-- A simulation for every judge gives runs that come to the same. -/
theorem RunsThrough.of_root {t : Translator ν F G α}
    {R : Nat → Program ν F α → Program ν G α → Prop} {within : Nat → Prop} {p : Program ν F α}
    {q : Program ν G α}
    (hroot : ∀ {n p q}, R (n + 1) p q → t.Root (R n) p.resume.value q.resume.value)
    (hweaken : ∀ {n p q}, R (n + 1) p q → R n p q) (hvalue : ∀ n a, R n (.pure a) (.pure a))
    (h : ∀ n, within n → R n p q) : RunsThrough.{u} t within p q where
  inHost {M} _ J world turns hturns := by
    obtain ⟨hstate, hresult⟩ :=
      (J.simulation hroot hweaken hvalue).runInHost (h turns hturns) (world, [])
    refine ⟨hstate.symm, ?_⟩
    generalize (p.runInHost M (J.through t) turns (world, [])).value.2 = o at hresult ⊢
    generalize (q.runInHost M J.interpreter turns (world, [])).value.2 = o' at hresult ⊢
    cases hresult with
    | inl _ => rfl
    | inr h => exact congrArg some h.symm
  polled driver D world turns limit hturns :=
    ((D.simulation hroot hweaken hvalue).pollTimes driver turns limit [] [] 0 (world, [])
      (.ready 0 (h _ hturns))).symm

/-- **Translating is interpretation through the translator.** For every judge and every driver, the
    run of the translated program is the run of the program itself with the interpreter that
    translates each step and then treats it as the judge does, also where the judge fails and also
    if the translator changes the payloads. Where the walk over the program ends, there is a
    translated program and this holds for runs of any length; where it does not, it holds for `n`
    turns of whatever the first `n` steps are translated to. -/
theorem translate_runs_through (t : Translator ν F G α) (p : Program ν F α) :
    (∀ ends : Acc t.Leads p, RunsThrough.{u} t (fun _ => True) p (p.translate t ends).value) ∧
    (∀ (n : Nat) (q : Program ν G α), TranslatesUpTo t n p q → RunsThrough.{u} t (· ≤ n) p q) := by
  constructor
  · intro ends
    have hvalue : ∀ a, ∃ ends : Acc t.Leads (.pure a),
        (Program.pure a : Program ν G α) ≈ ((Program.pure a).translate t ends).value := fun a =>
      ⟨t.acc_pure a, translate_pure t a _ ▸ Setoid.refl _⟩
    exact .of_root (R := fun _ p q => ∃ ends, q ≈ (p.translate t ends).value)
      (fun ⟨ends, h⟩ => root_of_equiv_translate t ends h) id (fun _ => hvalue)
      fun _ _ => ⟨ends, Setoid.refl _⟩
  · intro n q h
    exact .of_root (R := TranslatesUpTo t) id translatesUpTo_weaken translatesUpTo_pure
      fun _ hturns => translatesUpTo_mono hturns h

end Program

/-! ## A translator that ends and one that does not -/

/-- The vocabulary of one question, which is answered by yes or no. -/
def coin : Vocabulary := ⟨Unit, fun _ => Bool, fun _ => none⟩

/-- Asks once and comes to the answer. -/
def toss : Program Empty coin Bool := .lift ⟨(), .pure⟩

/-- Turns the answers round. -/
def turned : Translator Empty coin coin Bool := fun s => .pure ⟨s.op, fun x => s.reply (!x)⟩

/-- Asks again, whatever the answer is, and for ever. -/
def again : Translator Empty coin coin Bool := fun s => .pure ⟨s.op, fun _ => .pure toss⟩

/-- Counts the questions and says yes to all of them. -/
def agreeable : Judge Empty coin .identity Nat Bool := fun count _ =>
  .pure (count + 1, .answer true)

theorem turned_handsOn : turned.HandsOn := fun _ x => .inl ⟨!x, rfl⟩

theorem Program.toss_runs_through :
    (∃ ends : Acc turned.Leads toss,
      ((toss.translate turned ends).value.runInHost .identity agreeable.interpreter 2
        (0, [])).value.1 = (1, [()]) ∧
      ((toss.translate turned ends).value.runInHost .identity agreeable.interpreter 2
        (0, [])).value.2.getRight? = some false) ∧
    (∃ q, TranslatesUpTo again 2 toss q ∧
      (q.runInHost .identity agreeable.interpreter 2 (0, [])).value.1 = (2, [(), ()]) ∧
      (q.runInHost .identity agreeable.interpreter 2 (0, [])).value.2.getRight? = none) := by
  constructor
  · have hruns := (translate_runs_through turned toss).1 (turned_handsOn.acc toss)
    exact ⟨_, hruns.inHost agreeable 0 (show (fun _ => True) 2 from trivial)⟩
  · obtain ⟨q, hq⟩ := exists_translatesUpTo again toss 2 toss
    have hruns := (translate_runs_through again toss).2 2 q hq
    exact ⟨q, hq, hruns.inHost agreeable 0 (Nat.le_refl 2)⟩

end FreeMonad
