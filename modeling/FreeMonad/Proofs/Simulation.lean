import FreeMonad.Run.Polled

set_option autoImplicit false

/-! # Programs that run in step

Two programs, over one vocabulary or over two, can be driven by interpreters that make the same of
their steps although the steps differ. A `Simulation` is a family of relations `R n` between
programs, read as "alike for the next `n` turns": related programs finish with the same value, or
their interpreters take their steps to the same state, with answers that are delivered after the
same number of polls and are the same failure or again related, for one turn less.

What one turn preserves, every driver preserves (`Simulation.runInHost`, `Simulation.pollTimes`).
A relation that holds for any number of turns is the constant family. -/

namespace FreeMonad

universe u v w

variable {ν : Type} {V W : Vocabulary} {M : Host} {σ : Type u} {α : Type}

/-! ## What one turn preserves -/

/-- The same failure, or values that `R` relates. -/
def Host.LiftRel (M : Host) (β : Type) {P : Type v} {Q : Type w} (R : P → Q → Prop)
    (m : M.Carrier P) (n : M.Carrier Q) : Prop :=
  Sum.LiftRel (fun f f' : M.Carrier β => f = f') R (M.split m) (M.split n)

/-- The interpreter with its answers delivered at once. -/
def Interpreter.prompt (I : Interpreter ν V M σ α) : DelayedInterpreter ν V M σ α :=
  fun world s => (I world s).map fun (world, answer) => (world, ⟨0, answer⟩)

/-- Outcomes that come to the same from the state `world`: one value, or steps of which the
    interpreters make the same, up to `R` between the programs to go on with. -/
inductive Matched (R : Program ν V α → Program ν W α → Prop) (I : DelayedInterpreter ν V M σ α)
    (J : DelayedInterpreter ν W M σ α) (world : σ) : Outcome ν V α → Outcome ν W α → Prop where
  | value (a : α) : Matched R I J world (.inr a) (.inr a)
  | step {s : Step ν V (Program ν V α)} {s' : Step ν W (Program ν W α)}
      (hworld : (I world s).value.1 = (J world s').value.1)
      (hpending : (I world s).value.2.pending = (J world s').value.2.pending)
      (hanswer : M.LiftRel α R (I world s).value.2.value (J world s').value.2.value) :
      Matched R I J world (.inl s) (.inl s')

/-- `R n` relates programs that run alike for `n` turns. -/
structure Simulation (I : DelayedInterpreter ν V M σ α) (J : DelayedInterpreter ν W M σ α)
    (R : Nat → Program ν V α → Program ν W α → Prop) : Prop where
  /-- One turn leads to programs that run alike for one turn less. -/
  turn {n : Nat} {p : Program ν V α} {q : Program ν W α} (h : R (n + 1) p q) (world : σ) :
    Matched (R n) I J world p.resume.value q.resume.value
  /-- Programs that run alike run alike for fewer turns. -/
  weaken {n : Nat} {p : Program ν V α} {q : Program ν W α} (h : R (n + 1) p q) : R n p q

namespace Simulation

variable {R : Nat → Program ν V α → Program ν W α → Prop}

theorem weaken_add {I : DelayedInterpreter ν V M σ α} {J : DelayedInterpreter ν W M σ α}
    (sim : Simulation I J R) {p : Program ν V α} {q : Program ν W α} :
    ∀ {k n : Nat}, R (k + n) p q → R n p q
  | 0, n, h => Nat.zero_add n ▸ h
  | k + 1, n, h => sim.weaken_add (sim.weaken (Nat.succ_add k n ▸ h))

/-! ## Inside a host -/

section Hosted

variable {I : Interpreter ν V M σ α} {J : Interpreter ν W M σ α}

/-- A turn of the driver takes related programs to the same state, and to the same failure, the
    same result or related programs. -/
theorem driverTurn (sim : Simulation I.prompt J.prompt R) {n : Nat} {p : Program ν V α}
    {q : Program ν W α} (h : R (n + 1) p q) (state : σ × Nat) :
    (Program.turn M I state p).value.1 = (Program.turn M J state q).value.1 ∧
    M.LiftRel α (Sum.LiftRel (R n) Eq) (Program.turn M I state p).value.2
      (Program.turn M J state q).value.2 := by
  have hroot := sim.turn h state.1
  simp only [Program.turn, Traced.value_bind]
  generalize p.resume.value = o at hroot ⊢
  generalize q.resume.value = o' at hroot ⊢
  cases hroot with
  | value a =>
    refine ⟨rfl, ?_⟩
    simp only [Host.LiftRel, Host.split_pure]
    exact .inr (.inr rfl)
  | @step s s' hworld hpending hanswer =>
    refine ⟨congrArg (fun w => (w, state.2 + 1)) hworld, ?_⟩
    simp only [Host.LiftRel, Interpreter.prompt, Traced.value_map, Traced.value_after,
      Host.split_map] at hanswer ⊢
    generalize M.split (I state.1 s).value.2 = r at hanswer ⊢
    generalize M.split (J state.1 s').value.2 = r' at hanswer ⊢
    cases hanswer with
    | inl hf => exact .inl hf
    | inr hp => exact .inr (.inl hp)

/-- Related programs run to the same state and the same result, or are left related when the
    turns are used up. -/
theorem iterate (sim : Simulation I.prompt J.prompt R) :
    ∀ (turns : Nat) (l l' : List (Event ν)) (state : σ × Nat) {p : Program ν V α}
      {q : Program ν W α}, R turns p q →
      (M.iterate (Program.turn M I) turns l state p).value.1
        = (M.iterate (Program.turn M J) turns l' state q).value.1 ∧
      Sum.LiftRel (R 0) Eq (M.iterate (Program.turn M I) turns l state p).value.2
        (M.iterate (Program.turn M J) turns l' state q).value.2 := by
  intro turns
  induction turns with
  | zero =>
    intro l l' state p q h
    exact ⟨rfl, .inl h⟩
  | succ turns ih =>
    intro l l' state p q h
    obtain ⟨hstate, hend⟩ := sim.driverTurn h state
    simp only [Host.iterate, Host.LiftRel] at hend ⊢
    generalize M.split (Program.turn M I state p).value.2 = r at hend ⊢
    generalize M.split (Program.turn M J state q).value.2 = r' at hend ⊢
    cases hend with
    | inl hf =>
      subst hf
      exact ⟨hstate, .inr rfl⟩
    | inr hnext =>
      cases hnext with
      | inl hR =>
        simp only [hstate]
        exact ih _ _ _ hR
      | inr hb =>
        subst hb
        exact ⟨hstate, .inr rfl⟩

/-- Inside a host, related programs come to the same. -/
theorem runInHost (sim : Simulation I.prompt J.prompt R) {turns : Nat} {p : Program ν V α}
    {q : Program ν W α} (h : R turns p q) (world : σ) :
    (p.runInHost M I turns world).value.1 = (q.runInHost M J turns world).value.1 ∧
    Sum.LiftRel (R 0) Eq (p.runInHost M I turns world).value.2
      (q.runInHost M J turns world).value.2 := by
  obtain ⟨hstate, hend⟩ := sim.iterate turns [] [] (world, 0) h
  exact ⟨congrArg Prod.fst hstate, hend⟩

end Hosted

/-! ## By polling -/

/-- Tasks that run alike for `n` turns. -/
inductive Alike (R : Nat → Program ν V α → Program ν W α → Prop) (n : Nat) :
    Task ν V M α → Task ν W M α → Prop where
  | ready (steps : Nat) {p : Program ν V α} {q : Program ν W α} (h : R n p q) :
      Alike R n (.ready steps p) (.ready steps q)
  | waiting (steps left : Nat) {m : M.Carrier (Program ν V α)} {m' : M.Carrier (Program ν W α)}
      (h : M.LiftRel α (R n) m m') : Alike R n (.waiting steps left m) (.waiting steps left m')

/-- Polls that come to the same, if the tasks they leave run alike for `n` turns. -/
inductive SamePoll (R : Nat → Program ν V α → Program ν W α → Prop) (n : Nat) :
    Polled ν V M α → Polled ν W M α → Prop where
  | pending {t : Task ν V M α} {t' : Task ν W M α} (h : Alike R n t t') :
      SamePoll R n (.pending t) (.pending t')
  | done (result : M.Carrier α) : SamePoll R n (.done result) (.done result)
  | spent {t : Task ν V M α} {t' : Task ν W M α} (h : Alike R n t t') :
      SamePoll R n (.spent t) (.spent t')

section Polled

variable {I : DelayedInterpreter ν V M σ α} {J : DelayedInterpreter ν W M σ α}

theorem liftRel_weaken (sim : Simulation I J R) {k n : Nat} {m : M.Carrier (Program ν V α)}
    {m' : M.Carrier (Program ν W α)} (h : M.LiftRel α (R (k + n)) m m') :
    M.LiftRel α (R n) m m' := by
  unfold Host.LiftRel at h ⊢
  generalize M.split m = r at h ⊢
  generalize M.split m' = r' at h ⊢
  cases h with
  | inl hf => exact .inl hf
  | inr hp => exact .inr (sim.weaken_add hp)

/-- Of the turns for which programs run alike, those of one poll may be used up. -/
theorem advance (sim : Simulation I J R) (driver : Driver) :
    ∀ (turns n : Nat) (l l' : List (Event ν)) (world : σ) (steps : Nat) {p : Program ν V α}
      {q : Program ν W α}, R (turns + n) p q →
      (Task.advance driver I turns l world steps p).value.1
        = (Task.advance driver J turns l' world steps q).value.1 ∧
      SamePoll R n (Task.advance driver I turns l world steps p).value.2
        (Task.advance driver J turns l' world steps q).value.2 := by
  intro turns
  induction turns with
  | zero =>
    intro n l l' world steps p q h
    exact ⟨rfl, .spent (.ready steps (Nat.zero_add n ▸ h))⟩
  | succ turns ih =>
    intro n l l' world steps p q h
    rw [Nat.succ_add] at h
    have hroot := sim.turn h world
    simp only [Task.advance]
    generalize p.resume.value = o at hroot ⊢
    generalize q.resume.value = o' at hroot ⊢
    cases hroot with
    | value a => exact ⟨rfl, .done _⟩
    | @step s s' hworld hpending hanswer =>
      simp only
      generalize I world s = i at hworld hpending hanswer ⊢
      generalize J world s' = j at hworld hpending hanswer ⊢
      obtain ⟨logI, worldI, pendingI, answerI⟩ := i
      obtain ⟨logJ, worldJ, pendingJ, answerJ⟩ := j
      simp only at hworld hpending hanswer
      subst hworld hpending
      -- an answer that is pending leaves a task that waits; one that is there is used at once
      cases pendingI with
      | succ left => exact ⟨rfl, .pending (.waiting _ _ (sim.liftRel_weaken hanswer))⟩
      | zero =>
        simp only [Host.LiftRel] at hanswer ⊢
        generalize M.split answerI = r at hanswer ⊢
        generalize M.split answerJ = r' at hanswer ⊢
        cases hanswer with
        | inl hf =>
          subst hf
          exact ⟨rfl, .done _⟩
        | inr hp => exact ih n _ _ _ _ hp

theorem poll (sim : Simulation I J R) (driver : Driver) {turns n : Nat} (world : σ)
    {t : Task ν V M α} {t' : Task ν W M α} (h : Alike R (turns + n) t t') :
    (Task.poll driver I turns world t).value.1 = (Task.poll driver J turns world t').value.1 ∧
    SamePoll R n (Task.poll driver I turns world t).value.2
      (Task.poll driver J turns world t').value.2 := by
  cases h with
  | ready steps h => exact sim.advance driver turns n [] [] world steps h
  | @waiting steps left m m' h =>
    cases left with
    | succ left => exact ⟨rfl, .pending (.waiting steps left (sim.liftRel_weaken h))⟩
    | zero =>
      simp only [Task.poll, Host.LiftRel] at h ⊢
      generalize M.split m = r at h ⊢
      generalize M.split m' = r' at h ⊢
      cases h with
      | inl hf =>
        subst hf
        exact ⟨rfl, .done _⟩
      | inr hp => exact sim.advance driver turns n [] [] world steps hp

/-- Polled as often, related programs come to the same. -/
theorem pollTimes (sim : Simulation I J R) (driver : Driver) (turns : Nat) :
    ∀ (limit : Nat) (l l' : List (Event ν)) (polls : Nat) (world : σ) {t : Task ν V M α}
      {t' : Task ν W M α}, Alike R (limit * turns) t t' →
      (Task.pollTimes driver I turns limit l polls world t).value
        = (Task.pollTimes driver J turns limit l' polls world t').value := by
  intro limit
  induction limit with
  | zero =>
    intro l l' polls world t t' _
    rfl
  | succ limit ih =>
    intro l l' polls world t t' h
    rw [Nat.succ_mul, Nat.add_comm] at h
    obtain ⟨hworld, hpoll⟩ := sim.poll driver world h
    simp only [Task.pollTimes]
    generalize (Task.poll driver I turns world t).value.2 = r at hpoll ⊢
    generalize (Task.poll driver J turns world t').value.2 = r' at hpoll ⊢
    cases hpoll with
    | pending h =>
      simp only [hworld]
      exact ih _ _ _ _ h
    | done result => simp only [hworld]
    | spent _ => simp only [hworld]

end Polled

end Simulation

end FreeMonad
