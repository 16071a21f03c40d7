import FreeMonad.Proofs.Polling

set_option autoImplicit false

/-! # All drivers agree

An interpreter that never fails can be used with every driver. They all do what stepping by hand
does: the same steps are given in the same order, the interpreter ends in the same state, and the
value is the same, wrapped in the success of the host.

A run can change its driver after any number of turns, since every driver goes on from the program
that is left and from the state that the interpreter is in (`Program.runRest`,
`Program.pollRest`). -/

namespace FreeMonad

universe u

variable {ν : Type} {V : Vocabulary} {M : Host} {σ : Type u} {α : Type}

/-! ## Interpreters that never fail -/

/-- An interpreter in the host `M` never fails if all its answers are successes. -/
theorem Interpreter.exists_eq_inHost_iff {K : Interpreter ν V M σ α} :
    (∃ I : Interpreter ν V .identity σ α, K = I.inHost M) ↔
      ∀ world s, ∃ p, (K world s).value.2 = M.pure p := by
  constructor
  · rintro ⟨I, rfl⟩ world s
    exact ⟨(I world s).value.2, rfl⟩
  · intro h
    choose answer hanswer using h
    refine ⟨fun world s => (K world s).map fun r => (r.1, answer world s), ?_⟩
    funext world s
    ext1
    · rfl
    · exact Prod.ext rfl (hanswer world s)

namespace Program

/-! ## Changing the driver -/

/-- Goes on inside the host `M` from what is left of a run. -/
def runRest (M : Host) (I : Interpreter ν V M σ α) (turns : Nat) (world : σ) :
    Program ν V α ⊕ M.Carrier α → Traced ν (σ × (Program ν V α ⊕ M.Carrier α))
  | .inl q => q.runInHost M I turns world
  | .inr result => .pure (world, .inr result)

/-- Goes on by polling from what is left of a run; a run that is over is not polled. -/
def pollRest (driver : Driver) (D : DelayedInterpreter ν V M σ α) (turns limit : Nat) (world : σ) :
    Program ν V α ⊕ M.Carrier α → Traced ν (σ × Nat × Option (M.Carrier α))
  | .inl q => Task.pollTimes driver D turns limit [] 0 world (Task.start q)
  | .inr result => .pure (world, 0, some result)

theorem seen_runRest (I : Interpreter ν V M σ α) (turns : Nat) (world : σ)
    (o : Program ν V α ⊕ M.Carrier α) :
    (runRest M I turns world o).seen = (handOn M I turns world o).seen := by
  cases o with
  | inl q => exact seen_runInHost I turns world q
  | inr result => rfl

/-- Turns by hand, and then the driver inside the host. -/
theorem seen_stepByHand_runRest (I : Interpreter ν V M σ α) (m n : Nat) (world : σ)
    (p : Program ν V α) :
    ((p.stepByHand M I m world).bind fun (world, o) => runRest M I n world o).seen
      = (p.runInHost M I (m + n) world).seen := by
  rw [seen_runInHost, stepByHand_add, Traced.seen_bind, Traced.seen_bind]
  congr 1
  funext ⟨world', o⟩
  exact seen_runRest I n world' o

/-- What is left of a run can be polled at the pace of a run by hand. -/
theorem samePace_pollRest {I : Interpreter ν V M (Recorded ν V σ α) α} (hI : I.Records)
    (driver : Driver) (y : Nat → Nat) (state : Recorded ν V σ α)
    (o : Program ν V α ⊕ M.Carrier α) :
    SamePace (fun turns limit => pollRest driver (I.delayed y) turns limit state o)
      fun turns => handOn M I turns state o := by
  cases o with
  | inl q => exact samePace_stepByHand hI driver y state q
  | inr result =>
    constructor
    · intro turns limit
      refine ⟨0, rfl, fun result' h => ?_⟩
      cases h
      rfl
    · intro n
      exact ⟨0, fun _ _ _ _ => ⟨n, Nat.le_refl n, rfl⟩⟩
    · intro n result' h
      cases h
      exact ⟨0, fun _ _ _ _ => ⟨rfl, rfl⟩⟩

/-- Turns by hand, and then polls. -/
theorem samePace_stepByHand_pollRest {I : Interpreter ν V M (Recorded ν V σ α) α}
    (hI : I.Records) (driver : Driver) (y : Nat → Nat) (n : Nat) (state : Recorded ν V σ α)
    (p : Program ν V α) :
    SamePace
      (fun turns limit => (p.stepByHand M I n state).bind fun (state, o) =>
        pollRest driver (I.delayed y) turns limit state o)
      fun turns => p.stepByHand M I turns state := by
  have hadd := fun k => stepByHand_add I n k state p
  generalize p.stepByHand M I n state = run at hadd ⊢
  obtain ⟨log, state', o⟩ := run
  exact (samePace_pollRest hI driver y state' o).shift hadd fun hle hover =>
    stepByHand_of_over I hle hover

/-! ## One interpreter, any driver -/

/-- What a run that cannot fail comes to in the host `M`. -/
def succeed (M : Host) : σ × (Program ν V α ⊕ α) → σ × (Program ν V α ⊕ M.Carrier α) :=
  fun (state, o) => (state, o.map id M.pure)

/-- Every driver does with the interpreter `I`, in any host and for any schedule of its answers,
    what stepping the program by hand does: the functions of the user are called in the same order,
    and the result and the state are the same. The state holds the steps that were given. -/
structure DriversAgree (p : Program ν V α) (I : Interpreter ν V .identity σ α) (world : σ) :
    Prop where
  /-- Inside a host; `run` is the case `identity`, and `tryRun` is a case of `result`. -/
  hosted (M : Host) (turns : Nat) :
    (p.runInHost M (I.recording.inHost M) turns (world, [])).seen
      = ((p.stepByHand .identity I.recording turns (world, [])).map (succeed M)).seen
  /-- By polling; `runAsync` is the case `identity`, and `tryRunAsync` is a case of `result`. -/
  polled (M : Host) (driver : Driver) (y : Nat → Nat) :
    SamePace
      (fun turns limit => Task.pollTimes driver ((I.recording.inHost M).delayed y) turns limit []
        0 (world, []) (Task.start p))
      fun turns => (p.stepByHand .identity I.recording turns (world, [])).map (succeed M)
  /-- By hand for `n` turns, and then inside a host. -/
  thenHosted (n : Nat) (M : Host) (turns : Nat) :
    ((p.stepByHand .identity I.recording n (world, [])).bind fun (state, o) =>
        runRest M (I.recording.inHost M) turns state (o.map id M.pure)).seen
      = (p.runInHost M (I.recording.inHost M) (n + turns) (world, [])).seen
  /-- By hand for `n` turns, and then by polling. -/
  thenPolled (n : Nat) (M : Host) (driver : Driver) (y : Nat → Nat) :
    SamePace
      (fun turns limit => (p.stepByHand .identity I.recording n (world, [])).bind fun (state, o) =>
        pollRest driver ((I.recording.inHost M).delayed y) turns limit state (o.map id M.pure))
      fun turns => p.runInHost M (I.recording.inHost M) turns (world, [])
  /-- By hand for `n` turns, and then by hand again. -/
  thenByHand (n turns : Nat) :
    ((p.stepByHand .identity I.recording n (world, [])).bind fun (state, o) =>
        handOn .identity I.recording turns state o)
      = p.stepByHand .identity I.recording (n + turns) (world, [])

/-- **All drivers agree, and a run may change its driver after any turn.** With an interpreter that
    never fails they all give the same steps in the same order, leave the interpreter in the same
    state and come to the same value. -/
theorem drivers_agree (p : Program ν V α) (I : Interpreter ν V .identity σ α) (world : σ) :
    p.DriversAgree I world := by
  have hI : ∀ M : Host, (I.recording.inHost M).Records := fun M =>
    Interpreter.records_inHost I.records_recording
  have hbyHand : ∀ (M : Host) (n : Nat), p.stepByHand M (I.recording.inHost M) n (world, [])
      = (p.stepByHand .identity I.recording n (world, [])).map (succeed M) := fun M n =>
    stepByHand_inHost M I.recording n (world, []) p
  constructor
  case hosted =>
    intro M turns
    rw [seen_runInHost, hbyHand]
  case polled =>
    intro M driver y
    exact (samePace_stepByHand (hI M) driver y (world, []) p).congr fun n => by rw [hbyHand]
  case thenHosted =>
    intro n M turns
    rw [← seen_stepByHand_runRest, hbyHand]
    rfl
  case thenPolled =>
    intro n M driver y
    have h := samePace_stepByHand_pollRest (hI M) driver y n (world, []) p
    rw [hbyHand] at h
    exact h.congr fun n => (seen_runInHost _ n (world, []) p).symm
  case thenByHand =>
    intro n turns
    exact (stepByHand_add I.recording n turns (world, []) p).symm

end Program

end FreeMonad
