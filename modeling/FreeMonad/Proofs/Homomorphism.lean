import FreeMonad.Proofs.ByHand
import FreeMonad.Proofs.Policy

set_option autoImplicit false

/-! # Running is a homomorphism of monads

An interpreter that fails or answers each step gives every program a meaning as a stateful
computation in the host: from a state of the interpreter, the steps it is given, its last state,
and a result or a failure (`Ending`). Endings are put in sequence by `Ending.bind`, which stops at
the first failure.

Running a program takes sequencing to sequencing (`Program.driver_homomorphism`): a program with
a continuation attached is run by running the program and then, from the state it ends in, what
the continuation returns on its value. The driver sees none of this. It is handed one program
whose payloads all carry the continuation. The proof goes by trees: the driver computes
`Tree.run`, by induction on the tree, and `Tree.run` takes grafting to `Ending.bind`. -/

namespace FreeMonad

universe u v w

variable {ν : Type} {V : Vocabulary} {M : Host} {σ : Type u} {α β γ : Type}

/-! ## Interpreters that fail or answer -/

/-- A stateful interpreter that looks at operations alone, and fails in the host or gives an
    answer to go on with. -/
abbrev Answering (ν : Type) (V : Vocabulary) (M : Host) (σ : Type u) :=
  σ → (op : V.Op) → Traced ν (σ × M.Carrier (V.Answer op))

/-- The policy of going on with the payload of the step, as the answer makes it. -/
def Answering.policy (I : Answering ν V M σ) : Policy ν V M σ α := fun world op =>
  (I world op).map fun (world, m) => (world, M.map .answer m)

/-- The interpreter as a driver is given it; its state also keeps the steps, in order. -/
def Answering.interpreter (I : Answering ν V M σ) : Interpreter ν V M (σ × List V.Op) α :=
  I.policy.recording.interpreter

/-! ## Failures -/

/-- A computation succeeds at every type, or is a failure that stays one at every type. -/
theorem Host.split_split (M : Host) {δ : Type u} {ε : Type v} {ζ : Type w} (m : M.Carrier δ) :
    (∃ a, (M.split m : M.Carrier ε ⊕ δ) = .inr a ∧ (M.split m : M.Carrier ζ ⊕ δ) = .inr a) ∨
    ∃ (f : M.Carrier ε) (g : M.Carrier ζ), M.split m = .inl f ∧ M.split m = .inl g ∧
      M.split f = .inl g := by
  cases M with
  | identity => exact .inl ⟨m, rfl, rfl⟩
  | option =>
    cases m with
    | none => exact .inr ⟨none, none, rfl, rfl, rfl⟩
    | some a => exact .inl ⟨a, rfl, rfl⟩
  | result Error =>
    cases m with
    | error e => exact .inr ⟨.error e, .error e, rfl, rfl, rfl⟩
    | ok a => exact .inl ⟨a, rfl, rfl⟩

/-! ## Endings -/

/-- What a run comes to, from some state of its interpreter. -/
@[ext]
structure Ending (ν : Type) (V : Vocabulary) (M : Host) (σ : Type u) (α : Type) where
  /-- The steps that the interpreter was given, in order. -/
  steps : List V.Op
  /-- What the functions called on the way recorded, the interpreter included. -/
  events : List ν
  /-- The state of the interpreter in the end. -/
  world : σ
  /-- The value or the failure. -/
  result : M.Carrier α

namespace Ending

/-- The run that is over at once. -/
def pure (world : σ) (a : α) : Ending ν V M σ α := ⟨[], [], world, M.pure a⟩

/-- Puts `events` before everything that was recorded. -/
def after (events : List ν) (e : Ending ν V M σ α) : Ending ν V M σ α :=
  { e with events := events ++ e.events }

/-- The run that stopped like `e`, with a failure of the type now needed. -/
def stopped (e : Ending ν V M σ α) (failure : M.Carrier β) : Ending ν V M σ β :=
  ⟨e.steps, e.events, e.world, failure⟩

/-- One run and then another one. -/
def andThen (e : Ending ν V M σ α) (e' : Ending ν V M σ β) : Ending ν V M σ β :=
  ⟨e.steps ++ e'.steps, e.events ++ e'.events, e'.world, e'.result⟩

/-- Goes on from the state and the value that a run ended with; a failure stays. -/
def bind (e : Ending ν V M σ α) (next : σ → α → Ending ν V M σ β) : Ending ν V M σ β :=
  match M.split e.result with
  | .inl failure => e.stopped failure
  | .inr a => e.andThen (next e.world a)

@[simp] theorem after_nil (e : Ending ν V M σ α) : e.after [] = e := rfl

@[simp] theorem after_after (l m : List ν) (e : Ending ν V M σ α) :
    (e.after m).after l = e.after (l ++ m) := by
  simp only [after, List.append_assoc]

@[simp] theorem pure_bind (world : σ) (a : α) (next : σ → α → Ending ν V M σ β) :
    (pure world a).bind next = next world a := by
  simp only [bind, pure, Host.split_pure]
  rfl

@[simp] theorem after_bind (l : List ν) (e : Ending ν V M σ α) (next : σ → α → Ending ν V M σ β) :
    (e.after l).bind next = (e.bind next).after l := by
  simp only [bind, after]
  cases M.split e.result with
  | inl failure => rfl
  | inr a => simp only [andThen, List.append_assoc]

theorem bind_assoc (e : Ending ν V M σ α) (f : σ → α → Ending ν V M σ β)
    (g : σ → β → Ending ν V M σ γ) :
    (e.bind f).bind g = e.bind fun world a => (f world a).bind g := by
  -- a failure of `e` is read at the type of `f` first and then at that of `g`
  rcases M.split_split (ε := β) (ζ := γ) e.result with ⟨a, hf, hg⟩ | ⟨b, c, hf, hg, hfg⟩
  · simp only [bind, hf, hg, andThen]
    cases M.split (f e.world a).result with
    | inl failure => rfl
    | inr b => simp only [List.append_assoc]
  · simp only [bind, hf, hg, stopped, hfg]

end Ending

/-- Asking for one operation as a run of its own, which gives the answer. -/
def Answering.ask (I : Answering ν V M σ) (world : σ) (op : V.Op) :
    Ending ν V M σ (V.Answer op) :=
  let r := I world op
  ⟨[op], userEvents r.log, r.value.1, r.value.2⟩

/-! ## Runs of trees -/

namespace Tree

/-- Asks for the operations of a tree, from the root down along the answers. -/
def run (I : Answering ν V M σ) (world : σ) : Tree ν V α → Ending ν V M σ α
  | ret log a => (Ending.pure world a).after (userEvents log)
  | step log op said next =>
    ((I.ask world op).bind fun world x => ((next x).run I world).after (userEvents (said x))).after
      (userEvents log)

@[simp] theorem run_after (I : Answering ν V M σ) (world : σ) (l : List (Event ν))
    (t : Tree ν V α) : (t.after l).run I world = (t.run I world).after (userEvents l) := by
  cases t <;> simp only [after, run, userEvents_append, Ending.after_after]

/-- Running takes grafting to sequencing. -/
theorem run_bind (I : Answering ν V M σ) (world : σ) (t : Tree ν V α) (k : α → Tree ν V β) :
    (t.bind k).run I world = (t.run I world).bind fun world a => (k a).run I world := by
  induction t generalizing world with
  | ret log a =>
    rw [bind, run_after, run, Ending.after_bind, Ending.pure_bind]
  | step log op said next ih =>
    simp only [bind, run, ih, Ending.after_bind, Ending.bind_assoc]

end Tree

/-! ## One turn of the driver -/

/-- Going on with the payload of a step records what its reply records, if there is an answer. -/
theorem Host.log_react_answer (M : Host) {δ : Type v} (s : Step ν V (Program ν V α))
    (m : M.Carrier (V.Answer s.op)) :
    (M.react s (M.map .answer m)).log
      = (M.split m : M.Carrier δ ⊕ V.Answer s.op).elim (fun _ => []) fun x => (s.reply x).log := by
  cases M with
  | identity => rfl
  | option => cases m <;> rfl
  | result Error => cases m <;> rfl

namespace Program

/-- The ending that the tree of a program says. -/
def ending (I : Answering ν V M σ) (world : σ) (p : Program ν V α) : Ending ν V M σ α :=
  p.tree.run I world

section Turn

variable {I : Answering ν V M σ} {p : Program ν V α} {log : List (Event ν)}

theorem ending_of_value {a : α} (h : p.resume = ⟨log, .inr a⟩) (world : σ) :
    p.ending I world = (Ending.pure world a).after (userEvents log) := by
  rw [ending, (p.resume_eq_value_iff log a).1 h, Tree.run]

theorem ending_of_step {s : Step ν V (Program ν V α)} (h : p.resume = ⟨log, .inl s⟩) (world : σ) :
    p.ending I world = ((I.ask world s.op).bind fun world x =>
      ((s.reply x).value.ending I world).after (userEvents (s.reply x).log)).after
        (userEvents log) := by
  rw [ending, (p.resume_eq_step_iff log _).1 ⟨s, h, rfl⟩]
  rfl

theorem turn_of_value {a : α} (h : p.resume = ⟨log, .inr a⟩) (state : (σ × List V.Op) × Nat) :
    turn M I.interpreter state p
      = ⟨log ++ [.finished .hosted state.2], (state, M.pure (.inr a))⟩ := by
  rw [turn, h]
  rfl

/-- A turn that reaches a step asks the interpreter for its operation, once. -/
theorem turn_of_step {s : Step ν V (Program ν V α)} (h : p.resume = ⟨log, .inl s⟩) (world : σ)
    (ops : List V.Op) (n : Nat) :
    (turn M I.interpreter ((world, ops), n) p).value.1
      = (((I world s.op).value.1, ops ++ [s.op]), n + 1) ∧
    userEvents (turn M I.interpreter ((world, ops), n) p).log
      = userEvents log ++ (userEvents (I world s.op).log ++
        userEvents ((M.split (I world s.op).value.2 : M.Carrier α ⊕ V.Answer s.op).elim
          (fun _ => []) fun x => (s.reply x).log)) ∧
    (M.split (turn M I.interpreter ((world, ops), n) p).value.2 : M.Carrier α ⊕ _)
      = (M.split (I world s.op).value.2).map id fun x => .inl (s.reply x).value := by
  rw [turn, h]
  refine ⟨rfl, ?_, ?_⟩
  · rw [← M.log_react_answer]
    simp only [Traced.bind, Traced.after, Traced.map, userEvents_append, List.singleton_append,
      userEvents_interpreting]
    exact congrArg _ (userEvents_append _ _)
  · simp only [Traced.bind, Traced.after, Traced.map, Host.split_map]
    simp only [Answering.interpreter, Policy.interpreter, Policy.recording, Answering.policy,
      Traced.value_bind, Traced.value_map, Host.split_react, Host.split_map, Sum.map_map]
    rfl

end Turn

end Program

/-! ## Whole runs -/

namespace Program

/-- With an interpreter that fails or answers, the driver reaches an end in some number of turns,
    and it is the one that the tree says: by induction on the tree, along the answers. -/
theorem iterate_ending (I : Answering ν V M σ) (p : Program ν V α) (world : σ) (ops : List V.Op)
    (n : Nat) (recorded : List (Event ν)) :
    ∃ turns log n', M.iterate (turn M I.interpreter) turns recorded ((world, ops), n) p
        = ⟨log, ((((p.ending I world).world, ops ++ (p.ending I world).steps), n'),
            .inr (p.ending I world).result)⟩ ∧
      userEvents log = userEvents recorded.reverse ++ (p.ending I world).events := by
  induction hp : p.tree using Tree.child_wellFounded.induction
    generalizing p world ops n recorded with
  | _ t ih =>
    subst hp
    rcases hr : p.resume with ⟨log, s | a⟩
    · obtain ⟨hstate, hlog, hsplit⟩ := turn_of_step (I := I) hr world ops n
      generalize hturn : turn M I.interpreter ((world, ops), n) p = r at hstate hlog hsplit
      rw [ending_of_step hr, Ending.bind]
      rcases hm : (M.split (I world s.op).value.2 : M.Carrier α ⊕ _) with failure | x
      · -- a failure ends the run in this turn
        refine ⟨1, (r.log.reverseAux recorded).reverse, n + 1, ?_, ?_⟩
        · simp only [Host.iterate, hturn, hsplit, hm, hstate, Answering.ask]
          rfl
        · rw [hm] at hlog
          simp only [userEvents_reverseAux, hlog, Answering.ask, hm]
          simp [Ending.after, Ending.stopped]
      · -- an answer goes on with the payload, whose tree is a child of this one
        have hchild := child_of_resume (congrArg Traced.value hr) x
        obtain ⟨turns, log', n', hrun, hevents⟩ := ih _ hchild (s.reply x).value
          (I world s.op).value.1 (ops ++ [s.op]) (n + 1) (r.log.reverseAux recorded) rfl
        refine ⟨turns + 1, log', n', ?_, ?_⟩
        · simp only [Host.iterate, hturn, hsplit, hm, hstate, Answering.ask]
          rw [List.append_assoc] at hrun
          exact hrun
        · rw [hm] at hlog
          rw [hevents, userEvents_reverseAux, hlog]
          simp only [Answering.ask, hm]
          simp [Ending.after, Ending.andThen]
    · refine ⟨1, ((log ++ [Event.finished .hosted n]).reverseAux recorded).reverse, n, ?_, ?_⟩
      · simp only [Host.iterate, turn_of_value hr, Host.split_pure, ending_of_value hr]
        simp [Ending.after, Ending.pure]
      · rw [userEvents_reverseAux, ending_of_value hr]
        simp [Ending.after, Ending.pure]

/-- Running the program from `world`, with enough turns, comes to the ending `e`. -/
def RunsTo (I : Answering ν V M σ) (world : σ) (p : Program ν V α) (e : Ending ν V M σ α) : Prop :=
  ∃ turns log, p.runInHost M I.interpreter turns (world, [])
      = ⟨log, ((e.world, e.steps), .inr e.result)⟩ ∧ userEvents log = e.events

/-- More turns do not change how a run ends. -/
theorem runInHost_add (I : Answering ν V M σ) {p : Program ν V α} {turns : Nat} (extra : Nat)
    {state state' : σ × List V.Op} {log : List (Event ν)} {r : M.Carrier α}
    (h : p.runInHost M I.interpreter turns state = ⟨log, (state', .inr r)⟩) :
    p.runInHost M I.interpreter (turns + extra) state = ⟨log, (state', .inr r)⟩ := by
  rcases hrun : M.tailRec (turn M I.interpreter) turns (state, 0) p with
    ⟨log', ⟨state'', n⟩, r'⟩
  rw [runInHost, hrun] at h
  cases h
  rw [runInHost, Host.tailRec, Host.iterate_add extra hrun]
  rfl

theorem runsTo_ending (I : Answering ν V M σ) (world : σ) (p : Program ν V α) :
    p.RunsTo I world (p.ending I world) := by
  obtain ⟨turns, log, n, hrun, hevents⟩ := iterate_ending I p world [] 0 []
  refine ⟨turns, log, ?_, hevents⟩
  rw [runInHost, Host.tailRec, hrun]
  rfl

/-- The endings that the driver comes to, whatever its number of turns, are the one that the tree
    says. -/
theorem runsTo_iff {I : Answering ν V M σ} {world : σ} {p : Program ν V α}
    {e : Ending ν V M σ α} : p.RunsTo I world e ↔ e = p.ending I world := by
  constructor
  · rintro ⟨turns, log, hrun, hevents⟩
    obtain ⟨turns', log', hrun', hevents'⟩ := p.runsTo_ending I world
    -- both numbers of turns suffice, so their sum gives both endings
    have hsum := runInHost_add I turns' hrun
    have hsum' := runInHost_add I turns hrun'
    rw [Nat.add_comm, hsum] at hsum'
    injection hsum' with hlog hend
    injection hend with hstate hresult
    injection hstate with hworld hsteps
    injection hresult with hresult
    refine Ending.ext hsteps ?_ hworld hresult
    rw [← hevents, hlog, hevents']
  · rintro rfl
    exact p.runsTo_ending I world

/-! ## The driver respects sequencing -/

theorem ending_pure (I : Answering ν V M σ) (world : σ) (a : α) :
    (Program.pure a : Program ν V α).ending I world = .pure world a := rfl

theorem ending_lift (I : Answering ν V M σ) (world : σ) (s : Step ν V α) :
    (lift s).ending I world = (I.ask world s.op).bind fun world x =>
      (Ending.pure world (s.reply x).value).after (userEvents (s.reply x).log) := by
  rw [ending, tree_lift]
  rfl

theorem ending_flatMap (I : Answering ν V M σ) (world : σ) (p : Program ν V α)
    (k : α → Traced ν (Program ν V β)) :
    (p.flatMap k).ending I world = (p.ending I world).bind fun world a =>
      ((k a).value.ending I world).after (userEvents (k a).log) := by
  rw [ending, tree_flatMap, Tree.run_bind]
  simp only [Tree.reached, Tree.run_after]
  rfl

/-- **A driver is a homomorphism of monads.** With an interpreter that fails or answers, each run
    comes to one ending. A finished program asks for nothing. A lifted step is handed to the
    interpreter once, and its answer makes the value. A program with a continuation runs like the
    program alone; if that fails, so does the whole in the same way, and otherwise it goes on
    from the state and the value reached, like what the continuation returns. -/
theorem driver_homomorphism (I : Answering ν V M σ) (world : σ) :
    (∀ {α : Type} (p : Program ν V α), ∃ e, p.RunsTo I world e ∧
      ∀ e', p.RunsTo I world e' → e' = e) ∧
    (∀ {α : Type} (a : α) (e : Ending ν V M σ α),
      (Program.pure a).RunsTo I world e ↔ e = ⟨[], [], world, M.pure a⟩) ∧
    (∀ {α : Type} (s : Step ν V α), (lift s).resume = .pure (.inl (s.map .pure)) ∧
      ∀ e : Ending ν V M σ α, (lift s).RunsTo I world e ↔
        e = match (M.split (I world s.op).value.2 : M.Carrier α ⊕ V.Answer s.op) with
          | .inl failure => ⟨[s.op], userEvents (I world s.op).log, (I world s.op).value.1, failure⟩
          | .inr x => ⟨[s.op], userEvents ((I world s.op).log ++ (s.reply x).log),
              (I world s.op).value.1, M.pure (s.reply x).value⟩) ∧
    (∀ {α β : Type} (p : Program ν V α) (k : α → Traced ν (Program ν V β))
      (e : Ending ν V M σ β), (p.flatMap k).RunsTo I world e ↔
        ∃ e₁, p.RunsTo I world e₁ ∧
          match (M.split e₁.result : M.Carrier β ⊕ α) with
          | .inl failure => e = ⟨e₁.steps, e₁.events, e₁.world, failure⟩
          | .inr a => ∃ e₂, (k a).value.RunsTo I e₁.world e₂ ∧
              e = ⟨e₁.steps ++ e₂.steps, e₁.events ++ (userEvents (k a).log ++ e₂.events),
                e₂.world, e₂.result⟩) := by
  refine ⟨?_, ?_, ?_, ?_⟩
  · intro α p
    exact ⟨p.ending I world, p.runsTo_ending I world, fun e h => runsTo_iff.1 h⟩
  · intro α a e
    rw [runsTo_iff, ending_pure]
    rfl
  · intro α s
    refine ⟨rfl, fun e => ?_⟩
    rw [runsTo_iff, ending_lift, Ending.bind, Answering.ask]
    dsimp only
    rcases hm : (M.split (I world s.op).value.2 : M.Carrier α ⊕ V.Answer s.op) with failure | x
    · rfl
    · simp [Ending.after, Ending.andThen, Ending.pure]
  · intro α β p k e
    simp only [runsTo_iff, ending_flatMap, exists_eq_left, Ending.bind]
    rcases (M.split (p.ending I world).result : M.Carrier β ⊕ α) with failure | a
    · rfl
    · rfl

end Program

end FreeMonad
