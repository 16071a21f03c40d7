import FreeMonad.Proofs.Runs
import FreeMonad.Proofs.Translation
import FreeMonad.Proofs.Underway

set_option autoImplicit false

/-! # Translating in lockstep

A translated program translates one step at a time. Building it resumes the program once, and calls
the translator if that comes to a step; the walk over each payload is a thunk, which the driver
calls when it resumes the payload. So with `n` steps handed out and answered with their payloads,
but for the last one, the translator has been called on `n` steps, once each and in order, and
nothing behind the last of them has been called. A run goes along with the translation call by call
(`Course.inStep`).

Each of these steps is the first one of what the translator has handed on before. So they are the
steps of the program if the translator hands on payloads (`Program.Walk.own`). They need not be if
it replaces them, and with a translator above that does so, there need not be one of them for each
step that is handed out (`followedUp_not_followsSteps`). -/

namespace FreeMonad

universe u

variable {ν : Type} {F G H : Vocabulary} {M : Host} {σ : Type u} {α : Type}

/-! ## Walks -/

/-- Steps, in order, each with what resuming a program to it records. The first program is the given
    one, and each other one is one that `next` has after the step before. -/
inductive Program.Walk (next : Step ν F (Program ν F α) → Program ν F α → Prop) :
    Program ν F α → List (Traced ν (Step ν F (Program ν F α))) → Prop where
  | nil (p : Program ν F α) : Walk next p []
  | last {p : Program ν F α} {s : Traced ν (Step ν F (Program ν F α))}
      (h : p.resume = s.map .inl) : Walk next p [s]
  | cons {p q : Program ν F α} {s : Traced ν (Step ν F (Program ν F α))}
      {steps : List (Traced ν (Step ν F (Program ν F α)))} (h : p.resume = s.map .inl)
      (hq : next s.value q) (rest : Walk next q steps) : Walk next p (s :: steps)

namespace Program.Walk

variable {next : Step ν F (Program ν F α) → Program ν F α → Prop} {a : α}
  {p : Program ν F α} {steps : List (Traced ν (Step ν F (Program ν F α)))}

/-- A finished program has no steps. -/
theorem eq_nil (h : (Program.pure a).Walk next steps) : steps = [] := by
  cases h with
  | nil _ => rfl
  | last h => cases congrArg Traced.value h
  | cons h _ _ => cases congrArg Traced.value h

/-- If the translator only hands on what it is given, the steps are those of the program. -/
theorem own {t : Translator ν F G α} (ht : t.HandsOn)
    (h : p.Walk (fun s => (t s).value.HasPayload) steps) : p.Walk Step.HasPayload steps := by
  induction h with
  | nil p => exact .nil p
  | last h => exact .last h
  | cons h hq rest ih =>
    rcases ht.yields hq with hown | ⟨a, rfl⟩
    · exact .cons h hown ih
    · rw [rest.eq_nil]
      exact .last h

end Program.Walk

/-! ## Runs -/

section Runs

variable {t : Translator ν F G α} {T : Tower ν α G H} {I : Interpreter ν H M σ α}

/-- `record` is that a program was resumed to the step `s`, then `t` was called on `s`, once, which
    made `s'`, and then each translator of the tower, once, up to the step `s''`. As far as `n`
    resumes can tell, payloads are translations of payloads. -/
structure Translator.CalledOn (t : Translator ν F G α) (T : Tower ν α G H) (n : Nat)
    (record : List (Event ν)) (s : Traced ν (Step ν F (Program ν F α)))
    (s' : Step ν G (Program ν G α)) (s'' : Step ν H (Program ν H α)) : Prop where
  renders : t.Renders (t.UnderwayTo n []) s.value s'
  tower : ∃ tail, T.Renders n s' tail s'' ∧
    record = s.log ++ .translating :: ((t s.value).log ++ tail)

/-- With `l` recorded already, the second outcome is what `t` and the tower make of the first. -/
inductive Translator.CalledFor (t : Translator ν F G α) (T : Tower ν α G H) (n : Nat)
    (l : List (Event ν)) : Traced ν (Outcome ν F α) → Traced ν (Outcome ν H α) → Prop where
  | value (before : List (Event ν)) (a : α) :
    CalledFor t T n l ⟨l ++ before, .inr a⟩ ⟨before, .inr a⟩
  | step {before : List (Event ν)} {s : Traced ν (Step ν F (Program ν F α))}
      {s' : Step ν G (Program ν G α)} {s'' : Step ν H (Program ν H α)}
      (called : t.CalledOn T n (l ++ before) s s' s'') :
      CalledFor t T n l (s.map .inl) ⟨before, .inl s''⟩

/-- Resuming a program that is translated by `t` and then by the tower. -/
theorem Translator.UnderwayTo.calledFor {n : Nat} {l l' : List (Event ν)} {p : Program ν F α}
    {q : Program ν G α} {r : Program ν H α} (ht : t.UnderwayTo (n + 1) l p q)
    (hT : T.UnderwayTo (n + 1) q l' r) : t.CalledFor T n (l ++ l') p.resume r.resume := by
  have hshows : t.Shows (t.UnderwayTo n []) l p.resume q.resume := ht
  have htower := hT.shows
  generalize p.resume = m at hshows ⊢
  generalize q.resume = o at hshows htower
  generalize r.resume = o' at htower ⊢
  cases hshows with
  | value hlog a =>
    cases htower with
    | @value _ before hbelow a =>
      rw [← hlog, ← hbelow, ← List.append_assoc]
      exact .value before a
  | @step log _ s s' hlog renders =>
    cases htower with
    | @step _ before tail _ s'' hbelow hrenders =>
      refine .step (s := ⟨log, s⟩) ⟨renders, tail, hrenders, ?_⟩
      rw [List.append_assoc, hbelow, ← List.append_assoc, hlog, List.append_assoc]
      rfl

theorem Translator.CalledOn.mono {k n : Nat} (hk : k ≤ n) {record : List (Event ν)}
    {s : Traced ν (Step ν F (Program ν F α))} {s' : Step ν G (Program ν G α)}
    {s'' : Step ν H (Program ν H α)} (h : t.CalledOn T n record s s' s'') :
    t.CalledOn T k record s s' s'' := by
  obtain ⟨hrenders, tail, htail, hrecord⟩ := h
  exact ⟨hrenders.imp fun _ _ => Translator.UnderwayTo.mono hk, tail, htail.mono hk, hrecord⟩

/-- The calls of a run go along with the program `p`, with `l` recorded already. Before each call,
    `p` is resumed to its step, and `t` is called on it. After an answer with the payload, which is
    the tower over a payload `q`, the next call goes along with what `t` handed on there. A run that
    comes to the value has resumed the program to it, and has not called `t` again. -/
def Interpreter.InStep (I : Interpreter ν H M σ α) (t : Translator ν F G α) (T : Tower ν α G H) :
    List (Event ν) → Program ν F α → List (Call ν H σ α) → Standing ν H M α → Prop
  | l, p, [], o => ∀ log a, o = .finished log a → p.resume = ⟨l ++ log, .inr a⟩
  | l, p, c :: calls, o => ∃ (s : Traced ν (Step ν F (Program ν F α))) (s' : _),
    p.resume = s.map .inl ∧ t.CalledOn T (calls.length + 1) (l ++ c.before) s s' c.step ∧
    ∀ x q, (I c.world c.step).value.2 = M.pure (c.step.reply x).value →
      T.UnderwayTo (calls.length + 1) q [] (c.step.reply x).value → s'.Yields q →
        ∃ p', t.UnderwayTo (calls.length + 1) [] p' q ∧ (t s.value).value.Yields p' ∧
          I.InStep t T [] p' calls o

/-- A course goes along with the translation, of which each call takes one step. -/
theorem Course.inStep {world world' : σ} {l l' : List (Event ν)} {p : Program ν F α}
    {q : Program ν G α} {r : Program ν H α} {calls : List (Call ν H σ α)} {o : Standing ν H M α}
    (h : Course I world (.left r) calls world' o) (ht : t.UnderwayTo (calls.length + 1) l p q)
    (hT : T.UnderwayTo (calls.length + 1) q l' r) : I.InStep t T (l ++ l') p calls o := by
  induction calls generalizing world l l' p q r with
  | nil =>
    intro log a ho
    subst ho
    have hcalled := ht.calledFor hT
    cases h with
    | value _ hr =>
      rw [hr] at hcalled
      generalize p.resume = m at hcalled ⊢
      cases hcalled
      rfl
  | cons c calls ih =>
    have hcalled := ht.calledFor hT
    cases h with
    | call hr rest =>
      rw [hr] at hcalled
      rcases hp : p.resume with ⟨log, m⟩
      rw [hp] at hcalled
      cases hcalled with
      | @step _ s s' _ called =>
        refine ⟨s, s', hp, called, fun x q hx hunderway hq => ?_⟩
        rw [hx, Standing.answered_pure] at rest
        obtain ⟨p', hp', hyields⟩ := called.renders.exists_yields hq
        exact ⟨p', hp', hyields, ih rest hp' hunderway⟩

/-- The calls, where what is recorded already counts for the first one. -/
def Call.behind (l : List (Event ν)) : List (Call ν H σ α) → List (Call ν H σ α)
  | [] => []
  | c :: calls => { c with before := l ++ c.before } :: calls

theorem Call.behind_nil (calls : List (Call ν H σ α)) : Call.behind [] calls = calls := by
  cases calls <;> rfl

/-- Before each of the calls, `t` is called once, on the step in the same place of the list, and the
    call is about what is made of that step. -/
def Translator.CalledAlong (t : Translator ν F G α) (T : Tower ν α G H)
    (calls : List (Call ν H σ α)) (steps : List (Traced ν (Step ν F (Program ν F α)))) : Prop :=
  List.Forall₂ (fun c s => ∃ s', t.CalledOn T 0 c.before s s' c.step) calls steps

/-- While all answers are payloads, and the translators of the tower hand them on, `t` is called
    once for each call of the interpreter, on the first step of `p` and then of what it handed
    on. -/
theorem Interpreter.InStep.exists_walk (hT : T.HandsOn) {l : List (Event ν)} {p : Program ν F α}
    {calls : List (Call ν H σ α)} {o : Standing ν H M α} (h : I.InStep t T l p calls o)
    (hpayload : ∀ c ∈ calls.dropLast, c.AnsweredByPayload I) :
    ∃ steps, t.CalledAlong T (Call.behind l calls) steps ∧
      p.Walk (fun s => (t s).value.HasPayload) steps := by
  induction calls generalizing l p with
  | nil => exact ⟨[], .nil, .nil p⟩
  | cons c calls ih =>
    obtain ⟨s, s', hp, hcalled, hnext⟩ := h
    cases calls with
    | nil => exact ⟨[s], .cons ⟨s', hcalled.mono (Nat.zero_le _)⟩ .nil, .last hp⟩
    | cons d calls =>
      obtain ⟨x, hx⟩ := hpayload c List.mem_cons_self
      obtain ⟨tail, hrenders, -⟩ := hcalled.tower
      obtain ⟨q, hunderway, hq⟩ := hrenders.exists_yields hT x
      obtain ⟨p', -, hp', hrest⟩ := hnext x q hx hunderway hq
      obtain ⟨steps, hsteps, hwalk⟩ := ih hrest fun c hc => hpayload c (List.mem_cons_of_mem _ hc)
      rw [Call.behind_nil] at hsteps
      rcases hp' with hpayload | ⟨a, rfl⟩
      · exact ⟨s :: steps, .cons ⟨s', hcalled.mono (Nat.zero_le _)⟩ hsteps, .cons hp hpayload hwalk⟩
      · -- a finished program has no step for the next call
        obtain ⟨_, _, hvalue, -⟩ := hrest
        cases congrArg Traced.value hvalue

/-- A run goes along with the program `p`, with `l` recorded already: the calls of `t` keep step
    with those of the interpreter for as long as it answers with payloads, and there are none after
    another answer. -/
structure Interpreter.RunsInStep (I : Interpreter ν H M σ α) (t : Translator ν F G α)
    (T : Tower ν α G H) (l : List (Event ν)) (p : Program ν F α) (calls : List (Call ν H σ α))
    (o : Standing ν H M α) : Prop where
  inStep : I.InStep t T l p calls o
  /-- If the translators above `t` hand payloads on, `t` is called on the first steps of what it has
      handed on; if it hands payloads on, too, these are the steps of `p`. -/
  walk (hT : T.HandsOn) (hpayload : ∀ c ∈ calls.dropLast, c.AnsweredByPayload I) :
    ∃ steps, t.CalledAlong T (Call.behind l calls) steps ∧
      p.Walk (fun s => (t s).value.HasPayload) steps ∧ (t.HandsOn → p.Walk Step.HasPayload steps)
  abandons : I.Abandons calls o

theorem Interpreter.InStep.runsInStep {l : List (Event ν)} {p : Program ν F α}
    {calls : List (Call ν H σ α)} {o : Standing ν H M α} (h : I.InStep t T l p calls o)
    (habandons : I.Abandons calls o) : I.RunsInStep t T l p calls o where
  inStep := h
  walk hT hpayload := by
    obtain ⟨steps, hsteps, hwalk⟩ := h.exists_walk hT hpayload
    exact ⟨steps, hsteps, hwalk, hwalk.own⟩
  abandons := habandons

end Runs

/-! ## Building and running -/

namespace Program

/-- Building the translations of `p` one after the other, which comes to `b`, and running what is
    built goes along with `p`. This is said of the runs with a number of calls for which `within`
    holds. -/
structure TranslatedInStep (t : Translator ν F G α) (T : Tower ν α G H) (within : Nat → Prop)
    (p : Program ν F α) (b : Traced ν (Program ν H α)) : Prop where
  /-- If `p` comes to a value, no translator is called. -/
  built_value {log : List (Event ν)} {a : α} (h : p.resume = ⟨log, .inr a⟩) :
    b.log = log ∧ b.value.resume = .pure (.inr a)
  /-- If `p` comes to a step, each translator is called once, while the translations are built. The
      first resume calls nothing. -/
  built_step {s : Traced ν (Step ν F (Program ν F α))} (h : p.resume = s.map .inl) (count : Nat)
    (hcount : within count) :
    ∃ s' s'', b.value.resume = .pure (.inl s'') ∧ t.CalledOn T count b.log s s' s''
  everyRun : EveryRun.{u} b.value fun I calls o =>
    within calls.length → I.RunsInStep t T b.log p calls o

theorem translatedInStep {t : Translator ν F G α} {T : Tower ν α G H} {within : Nat → Prop}
    {p : Program ν F α} {b : Traced ν (Program ν G α)} {c : Traced ν (Program ν H α)}
    (hresumed : c.value.resume.log = []) (hzero : within 0)
    (ht : ∀ count, within count → t.UnderwayTo (count + 1) b.log p b.value)
    (hT : ∀ count, within count → T.UnderwayTo (count + 1) b.value c.log c.value) :
    TranslatedInStep.{u} t T within p (c.after b.log) := by
  -- one resume tells what building has recorded
  have hcalled : ∀ count, within count →
      t.CalledFor T count (c.after b.log).log p.resume c.value.resume := fun count hcount =>
    (ht count hcount).calledFor (hT count hcount)
  rcases hresume : c.value.resume with ⟨before, o⟩
  obtain rfl : before = [] := (congrArg Traced.log hresume).symm.trans hresumed
  rw [hresume] at hcalled
  constructor
  case built_value =>
    intro log a hp
    have hfirst := hcalled 0 hzero
    rw [hp] at hfirst
    cases hfirst
    exact ⟨(List.append_nil _).symm, hresume⟩
  case built_step =>
    rintro ⟨log, s⟩ hp count hcount
    have hfirst := hcalled count hcount
    rw [hp] at hfirst
    cases hfirst with
    | step called =>
      rw [List.append_nil] at called
      exact ⟨_, _, hresume, called⟩
  case everyRun =>
    refine everyRun_of_course fun {_ _ I _ _ calls o} hcourse hwithin => ?_
    have hstep := hcourse.inStep (ht _ hwithin) (hT _ hwithin)
    exact hstep.runsInStep hcourse.abandons

/-- **A translation keeps step with its driver.** Building a translated program calls the translator
    once, if the program comes to a step, and not at all otherwise. After that, each call of the
    translator is made while a driver, or whoever steps the program by hand, resumes the payload of
    the step before, and it is about the first step of what the translator handed on there. So while
    the answers are payloads and `n` steps are handed out, the translator has been called on `n`
    steps, in order, and nothing that comes after them has been called; after another answer, or a
    failure, it is not called again. If it hands payloads on, the steps are those of the program.
    With more translations on top, each of them is called once, after the one below it, as long as
    these hand payloads on. All this holds where the translations of the program can be built, and
    of the first steps of endless translations, too. -/
theorem translates_in_step (t : Translator ν F G α) (T : Tower ν α G H) (p : Program ν F α) :
    (∀ (ends : Acc t.Leads p) (c : Traced ν (Program ν H α)),
      T.Builds (p.translate t ends).value c →
        TranslatedInStep.{u} t T (fun _ => True) p (c.after (p.translate t ends).log)) ∧
    (∀ (n : Nat) (b : Traced ν (Program ν G α)) (c : Traced ν (Program ν H α)),
      t.BuildsTo (n + 1) p b → T.BuildsTo (n + 1) b.value c →
        TranslatedInStep.{u} t T (· ≤ n) p (c.after b.log)) ∧
    (∀ (_ : α) (n : Nat), ∃ b c, t.BuildsTo (n + 1) p b ∧ T.BuildsTo (n + 1) b.value c) := by
  refine ⟨fun ends c hc => ?_, fun n b c hb hc => ?_, fun cut n => ?_⟩
  · have hresumed := (hc.buildsTo 0).resumed (t.buildsTo_translate 0 p ends).resumed
    refine translatedInStep hresumed trivial (fun count _ => ?_) fun count _ => ?_
    · exact (t.underway_translate p ends).underwayTo (count + 1)
    · exact (hc.buildsTo (count + 1)).underwayTo
  · have hresumed := hc.resumed hb.resumed
    refine translatedInStep hresumed (Nat.zero_le n) (fun count hcount => ?_) fun count hcount => ?_
    · exact hb.underway.mono (Nat.succ_le_succ hcount)
    · exact hc.underwayTo.mono (Nat.succ_le_succ hcount)
  · obtain ⟨b, hb⟩ := t.exists_buildsTo (.pure cut) n p
    obtain ⟨c, hc⟩ := T.exists_buildsTo cut n b.value
    exact ⟨b, c, hb, hc⟩

/-- Turns the answers round once more. -/
def turnedOver : Tower Empty Bool coin coin := .storey .ground turned

/-- One question that is turned round twice is translated twice before it is put. Questions without
    end are translated three at a time, by a translator that asks for ever and by one more on
    top. -/
theorem toss_translates_in_step :
    (∃ (ends : Acc turned.Leads toss) (c : Traced Empty (Program Empty coin Bool)),
      turnedOver.Builds (toss.translate turned ends).value c ∧
      (c.after (toss.translate turned ends).log).log = [.translating, .translating] ∧
      c.value.resume.log = []) ∧
    (∃ b c, again.BuildsTo 3 toss b ∧ turnedOver.BuildsTo 3 b.value c ∧
      TranslatedInStep.{u} again turnedOver (· ≤ 2) toss (c.after b.log)) := by
  constructor
  · have ends := turned_handsOn.acc toss
    have hbuilds : turnedOver.Builds (toss.translate turned ends).value _ :=
      .storey .ground (turned_handsOn.acc _)
    have htoss : toss.resume = Traced.map .inl (.pure ⟨(), fun x => .pure (.pure x)⟩) := rfl
    have hstep := (translates_in_step.{u} turned turnedOver toss).1 ends _ hbuilds
    obtain ⟨s', s'', hresume, -, tail, htail, hlog⟩ := hstep.built_step htoss 0 trivial
    refine ⟨ends, _, hbuilds, ?_, congrArg Traced.log hresume⟩
    cases htail with
    | storey below top =>
      cases below
      exact hlog
  · obtain ⟨-, hfirst, hexists⟩ := translates_in_step.{u} again turnedOver toss
    obtain ⟨b, c, hb, hc⟩ := hexists true 2
    exact ⟨b, c, hb, hc, hfirst 2 b c hb hc⟩

end Program

/-! ## Translators that replace payloads, and translators that answer -/

/-- Whenever what is built from `p` is run and all answers are payloads, `t` is called on the steps
    of `p`, once for each call of the interpreter. -/
def Translator.FollowsSteps (t : Translator ν F G α) (T : Tower ν α G H) (p : Program ν F α)
    (b : Traced ν (Program ν H α)) : Prop :=
  ∀ {M : Host} {σ : Type} (I : Interpreter ν H M σ α) (world world' : σ)
    (calls : List (Call ν H σ α)) (o : Standing ν H M α),
    Course I world (.left b.value) calls world' o → (∀ c ∈ calls, c.AnsweredByPayload I) →
      ∃ steps, t.CalledAlong T (Call.behind b.log calls) steps ∧ p.Walk Step.HasPayload steps

/-- One question has no two steps, so no two calls are about its steps. -/
theorem Question.not_calledAlong (question : Question) {t : Translator ν questions G Bool}
    {T : Tower ν Bool G H} {σ : Type} (c d : Call ν H σ Bool) (l : List (Event ν)) :
    ¬ ∃ steps, t.CalledAlong T (Call.behind l [c, d]) steps ∧
      question.put.Walk Step.HasPayload steps := by
  rintro ⟨steps, hsteps, hwalk⟩
  have hlength : 2 = steps.length := hsteps.length_eq
  cases hwalk with
  | nil => cases hlength
  | last h => cases hlength
  | @cons _ _ s _ h hq rest =>
    obtain ⟨log, s⟩ := s
    cases h
    obtain ⟨y, rfl⟩ := hq
    -- the payload is finished
    have hnone := Program.Walk.eq_nil rest
    rw [hnone] at hlength
    cases hlength

/-- The first question has a run of two calls if it is followed up, so no translator on the way is
    called on the steps of this question, once for each call. -/
theorem followedUp_not_followsSteps {t : Translator ν questions G Bool}
    {T : Tower ν Bool G questions} {l log : List (Event ν)} {r : Program ν questions Bool}
    {reply : Bool → Traced ν (Program ν questions Bool)} {b : Traced ν (Program ν questions Bool)}
    (h : followedUp.UnderwayTo 2 l r b.value)
    (hr : r.resume = ⟨log, .inl ⟨Question.first, reply⟩⟩) :
    ¬ t.FollowsSteps T Question.first.put b := by
  intro hfollows
  obtain ⟨c, d, o, hcourse, hpayload, -⟩ := followedUp_course h hr
  exact Question.first.not_calledAlong c d b.log
    (hfollows assenting 0 2 [c, d] o hcourse hpayload)

/-- Answers every question by yes, and puts it all the same. -/
def forestalled : Translator ν questions questions Bool := fun s =>
  (s.reply true).map fun q => ⟨s.op, fun _ => .pure q⟩

theorem forestalled_handsOn : (forestalled : Translator ν questions questions Bool).HandsOn :=
  fun _ _ => .inl ⟨true, rfl⟩

/-- Puts the first question, and announces that it is answered. -/
def announcedFirst : Program Unit questions Bool :=
  .ofStep ⟨Question.first, fun x => ⟨[.user ()], .pure x⟩⟩

/-- A translator that replaces payloads is called on a step that the program does not have. If it
    stands above another translator, that one is called once while two steps are handed out. And a
    translator above that answers a step makes the program go on before the step is handed out. -/
theorem followedUp_out_of_step :
    ¬ followedUp.FollowsSteps .ground (Question.first.put : Program Empty questions Bool)
      (Question.first.put.translate followedUp (followedUp_acc _)) ∧
    (∃ c, (Tower.storey .ground followedUp).Builds passedOnFirst.value c ∧
      ¬ passedOn.FollowsSteps (.storey .ground followedUp) Question.first.put
        (c.after passedOnFirst.log)) ∧
    announcedFirst.resume.log = [] ∧
    ((announcedFirst.translate passedOn (passedOn_handsOn.acc _)).bind fun q =>
      q.translate forestalled (forestalled_handsOn.acc q)).log
        = [.translating, .translating, .user ()] := by
  refine ⟨?_, ?_, rfl, ?_⟩
  · let first : Program Empty questions Bool := Question.first.put
    have hput : first.resume = ⟨[], .inl ⟨Question.first, fun x => .pure (.pure x)⟩⟩ := rfl
    have hunderway := followedUp.underway_translate first (followedUp_acc first)
    exact followedUp_not_followsSteps (hunderway.underwayTo 2) hput
  · obtain ⟨reply, hbelow⟩ := resume_passedOnFirst
    have hunderway := followedUp.underway_translate passedOnFirst.value (followedUp_acc _)
    exact ⟨_, .storey .ground (followedUp_acc _),
      followedUp_not_followsSteps (hunderway.underwayTo 2) hbelow⟩
  · cbv

end FreeMonad
