import FreeMonad.Program.Widen
import FreeMonad.Proofs.Placement
import FreeMonad.Proofs.Policy
import FreeMonad.Proofs.Translation

set_option autoImplicit false

/-! # Running a widened program

A program over a vocabulary that stands at a place of a sum can be widened to the sum. To run the
widened program with a policy for the vocabulary, each step is projected at the place and treated as
the policy says; a step from elsewhere would be left to another interpreter
(`DelayedPolicy.atPlace`).

This is the run of the program itself (`Program.widen_preserves`): the same operations in the same
order, the same last state and the same result, by every driver and with any interpreter for the
steps from elsewhere. No step comes from elsewhere, for every step that the widened program can come
to is an injected step of the program (`Program.Issues.of_widen`), and so it is not found at any
place apart, even if the vocabulary stands there too. Both are shown of one turn first
(`Branch.root_of_equiv_widen`): up to observational equality, a widened program shows an injected
step, with widened payloads. -/

namespace FreeMonad

universe u

variable {ν : Type} {F W : Vocabulary} {M : Host} {σ : Type u} {α : Type}

/-! ## Policies at a place -/

/-- What the run of a widened program goes on with after a reaction to the projected step `s`:
    another program is widened first. -/
def Reaction.onWide (place : Branch F W) (s : Step ν F (Program ν W α)) :
    Reaction ν F α s.op → Traced ν (Program ν W α)
  | .answer x => s.reply x
  | .instead p => p.widen place

/-- Reacts to a projected step inside a host; a failure stays what it is. -/
def Host.reactWide (M : Host) (place : Branch F W) (s : Step ν F (Program ν W α))
    (m : M.Carrier (Reaction ν F α s.op)) : Traced ν (M.Carrier (Program ν W α)) :=
  match M.split m with
  | .inl failure => .pure failure
  | .inr r => (r.onWide place s).map M.pure

theorem Host.split_reactWide {β : Type u} (M : Host) (place : Branch F W)
    (s : Step ν F (Program ν W α)) (m : M.Carrier (Reaction ν F α s.op)) :
    (M.split (M.reactWide place s m).value : M.Carrier β ⊕ Program ν W α)
      = (M.split m).map id fun r => (r.onWide place s).value := by
  cases M with
  | identity => rfl
  | option => cases m <;> rfl
  | result Error => cases m <;> rfl

/-- The interpreter that projects each step at a place and follows the policy there. Steps from
    elsewhere are left to `stray`. -/
def Policy.atPlace (P : Policy ν F M σ α) (place : Branch F W) (stray : Interpreter ν W M σ α) :
    Interpreter ν W M σ α := fun world w =>
  match place.project w with
  | .ok s => (P world s.op).bind fun (world, m) =>
      (M.reactWide place s m).map fun answer => (world, answer)
  | .error w => stray world w

/-- The interpreter that projects each step at a place, follows the policy there and delivers its
    answers later. Steps from elsewhere are left to `stray`. -/
def DelayedPolicy.atPlace (D : DelayedPolicy ν F M σ α) (place : Branch F W)
    (stray : DelayedInterpreter ν W M σ α) : DelayedInterpreter ν W M σ α := fun world w =>
  match place.project w with
  | .ok s => (D world s.op).bind fun (world, d) =>
      (M.reactWide place s d.value).map fun answer => (world, ⟨d.pending, answer⟩)
  | .error w => stray world w

theorem Policy.prompt_atPlace (P : Policy ν F M σ α) (place : Branch F W)
    (stray : Interpreter ν W M σ α) :
    (P.atPlace place stray).prompt = P.prompt.atPlace place stray.prompt := by
  funext world w
  unfold Interpreter.prompt Policy.atPlace DelayedPolicy.atPlace
  cases place.project w with
  | ok s => rfl
  | error w => rfl

theorem DelayedPolicy.atPlace_of_project (D : DelayedPolicy ν F M σ α) {place : Branch F W}
    {w : Step ν W (Program ν W α)} {s : Step ν F (Program ν W α)} (h : place.project w = .ok s)
    (stray : DelayedInterpreter ν W M σ α) (world : σ) :
    D.atPlace place stray world w = (D world s.op).bind fun (world, d) =>
      (M.reactWide place s d.value).map fun answer => (world, ⟨d.pending, answer⟩) := by
  rw [atPlace, h]

/-! ## One step -/

/-- The second outcome is the first one widened: the same value, or a step that projects to the same
    operation, with widened payloads. -/
inductive Branch.Root (place : Branch F W) : Outcome ν F α → Outcome ν W α → Prop where
  | value (a : α) : Root place (.inr a) (.inr a)
  | step (s : Step ν F (Program ν F α)) (w : Step ν W (Program ν W α))
      (reply : F.Answer s.op → Traced ν (Program ν W α))
      (hproject : place.project w = .ok ⟨s.op, reply⟩)
      (payloads : ∀ y, (reply y).value ≈ ((s.reply y).value.widen place).value) :
      Root place (.inl s) (.inl w)

/-- What is observationally equal to a widened program shows the widened outcome. -/
theorem Branch.root_of_equiv_widen (place : Branch F W) {p : Program ν F α} {q : Program ν W α}
    (h : q ≈ (p.widen place).value) : place.Root p.resume.value q.resume.value := by
  have hroot := Program.root_of_equiv_translate place.translator _ h
  generalize p.resume.value = o at hroot ⊢
  generalize q.resume.value = o' at hroot ⊢
  cases hroot with
  | value a => exact .value a
  | step s reply payloads =>
    obtain ⟨reply', hproject, hreply⟩ := place.exists_project_inject_op s reply
    refine .step s _ reply' hproject fun y => ?_
    obtain ⟨x, hx, hx'⟩ := hreply y
    obtain ⟨ends, hpayload⟩ := payloads x
    rw [← hx', ← hx]
    exact hpayload

/-- Reactions to a step and to its widened step go on with a program and the program widened. -/
theorem Reaction.onWide_equiv (place : Branch F W) {op : F.Op}
    {reply : F.Answer op → Traced ν (Program ν F α)}
    {reply' : F.Answer op → Traced ν (Program ν W α)}
    (h : ∀ y, (reply' y).value ≈ ((reply y).value.widen place).value) (r : Reaction ν F α op) :
    (r.onWide place ⟨op, reply'⟩).value ≈ ((r.on ⟨op, reply⟩).value.widen place).value := by
  cases r with
  | answer y => exact h y
  | instead p => exact Setoid.refl _

/-- In a host, either both reactions are the same failure, or they go on with a program and the
    program widened. -/
theorem Host.reactWide_equiv (M : Host) {β : Type} (place : Branch F W) {op : F.Op}
    {reply : F.Answer op → Traced ν (Program ν F α)}
    {reply' : F.Answer op → Traced ν (Program ν W α)}
    (h : ∀ y, (reply' y).value ≈ ((reply y).value.widen place).value)
    (m : M.Carrier (Reaction ν F α op)) :
    M.LiftRel β (fun p q => q ≈ (Program.widen place p).value) (M.react ⟨op, reply⟩ m).value
      (M.reactWide place ⟨op, reply'⟩ m).value := by
  rw [LiftRel, split_react, split_reactWide]
  cases M.split m with
  | inl failure => exact .inl rfl
  | inr r => exact .inr (r.onWide_equiv place h)

/-- A program runs in step with the widened program. -/
theorem DelayedPolicy.simulation_widen (D : DelayedPolicy ν F M σ α) (place : Branch F W)
    (stray : DelayedInterpreter ν W M σ α) :
    Simulation D.interpreter (D.atPlace place stray) fun _ p q =>
      q ≈ (p.widen place).value where
  turn {n p q} h world := by
    have hroot := place.root_of_equiv_widen h
    generalize p.resume.value = o at hroot ⊢
    generalize q.resume.value = o' at hroot ⊢
    cases hroot with
    | value a => exact .value a
    | step s w reply hproject payloads =>
      have hat := D.atPlace_of_project hproject stray world
      refine .step ?_ ?_ ?_
      · rw [hat]; rfl
      · rw [hat]; rfl
      · rw [hat]
        exact M.reactWide_equiv place payloads (D world s.op).value.2.value
  weaken h := h

theorem Policy.simulation_widen (P : Policy ν F M σ α) (place : Branch F W)
    (stray : Interpreter ν W M σ α) :
    Simulation P.interpreter.prompt (P.atPlace place stray).prompt fun _ p q =>
      q ≈ (p.widen place).value := by
  rw [prompt_atPlace]
  exact P.prompt.simulation_widen place stray.prompt

/-! ## The steps that a program can come to -/

namespace Program

/-- The program can come to the step `s`, if the steps before it are answered. -/
inductive Issues {V : Vocabulary} : Program ν V α → Step ν V (Program ν V α) → Prop where
  | first {p : Program ν V α} {s : Step ν V (Program ν V α)} (h : p.resume.value = .inl s) :
      Issues p s
  | later {p : Program ν V α} {s u : Step ν V (Program ν V α)} (h : p.resume.value = .inl s)
      (x : V.Answer s.op) (rest : Issues (s.reply x).value u) : Issues p u

/-- Every step that a widened program can come to is injected, and has the operation of a step that
    the program can come to, with widened payloads. -/
theorem Issues.of_widen {place : Branch F W} {q : Program ν W α} {w : Step ν W (Program ν W α)}
    (hw : q.Issues w) {p : Program ν F α} (h : q ≈ (p.widen place).value) :
    ∃ s reply, p.Issues s ∧ place.project w = .ok ⟨s.op, reply⟩ ∧ place.inject ⟨s.op, reply⟩ = w ∧
      ∀ y, (reply y).value ≈ ((s.reply y).value.widen place).value := by
  induction hw generalizing p with
  | @first q w hq =>
    have hroot := place.root_of_equiv_widen h
    rw [hq] at hroot
    generalize hp : p.resume.value = o at hroot
    cases hroot with
    | step s _ reply hproject payloads =>
      exact ⟨s, reply, .first hp, hproject, place.project_eq_ok_iff.1 hproject, payloads⟩
  | @later q w w' hq x rest ih =>
    have hroot := place.root_of_equiv_widen h
    rw [hq] at hroot
    generalize hp : p.resume.value = o at hroot
    cases hroot with
    | step s _ reply hproject payloads =>
      have hinject := place.project_eq_ok_iff.1 hproject
      subst hinject
      -- an answer to the injected step stands for an answer to the step itself
      obtain ⟨y, hy⟩ := place.exists_reply_of_inject ⟨s.op, reply⟩ x
      rw [hy] at ih
      obtain ⟨s', reply', hs', hw'⟩ := ih (payloads y)
      exact ⟨s', reply', .later hp y hs', hw'⟩

/-! ## Whole runs -/

/-- The runs of `q`, with steps projected at a place, are the runs of `p`. -/
structure RunsAt (place : Branch F W) (p : Program ν F α) (q : Program ν W α) : Prop where
  /-- Every step that `q` can come to is found at the place, and is a step that `p` can come to,
      injected there with widened payloads. -/
  found {w : Step ν W (Program ν W α)} (h : q.Issues w) :
    ∃ s reply, p.Issues s ∧ place.project w = .ok ⟨s.op, reply⟩ ∧ place.inject ⟨s.op, reply⟩ = w ∧
      ∀ y, (reply y).value ≈ ((s.reply y).value.widen place).value
  /-- It is found at no place apart. -/
  elsewhere {w : Step ν W (Program ν W α)} (h : q.Issues w) {H : Vocabulary} {other : Branch H W}
    (hother : place.Apart other) : other.project w = .error w
  /-- Inside a host, the policy is given the same operations in the same order, ends in the same
      state, and the run comes to the same result, whatever is done with steps from elsewhere. Runs
      that are out of turns leave a program and the program widened. -/
  inHost {M : Host} {σ : Type u} (P : Policy ν F M σ α)
    (stray : Interpreter ν W M (σ × List F.Op) α) (turns : Nat) (world : σ) :
    (p.runInHost M P.recording.interpreter turns (world, [])).value.1
      = (q.runInHost M (P.recording.atPlace place stray) turns (world, [])).value.1 ∧
    Sum.LiftRel (fun p' q' => q' ≈ (widen place p').value) Eq
      (p.runInHost M P.recording.interpreter turns (world, [])).value.2
      (q.runInHost M (P.recording.atPlace place stray) turns (world, [])).value.2
  /-- By polling, too. -/
  polled {M : Host} {σ : Type u} (driver : Driver) (D : DelayedPolicy ν F M σ α)
    (stray : DelayedInterpreter ν W M (σ × List F.Op) α) (turns limit : Nat) (world : σ) :
    (Task.pollTimes driver D.recording.interpreter turns limit [] 0 (world, [])
        (Task.start p)).value
      = (Task.pollTimes driver (D.recording.atPlace place stray) turns limit [] 0 (world, [])
        (Task.start q)).value

/-- **Widening preserves semantics at every place.** Every step that the widened program can come to
    is a step of the program, injected at the place, and lies at no place apart. Running the widened
    program with a policy at the place is running the program with the policy, whatever the policy
    is and whatever would be done with steps from elsewhere, by every driver and for any number of
    turns. -/
theorem widen_preserves (place : Branch F W) (p : Program ν F α) :
    RunsAt.{u} place p (p.widen place).value := by
  have hwiden : (p.widen place).value ≈ (p.widen place).value := Setoid.refl _
  constructor
  case found =>
    intro w h
    exact h.of_widen hwiden
  case elsewhere =>
    intro w h H other hother
    obtain ⟨s, reply, -, -, rfl, -⟩ := h.of_widen hwiden
    exact hother.project_inject ⟨s.op, reply⟩
  case inHost =>
    intro M σ P stray turns world
    exact (P.recording.simulation_widen place stray).runInHost hwiden (world, [])
  case polled =>
    intro M σ driver D stray turns limit world
    have hsim := D.recording.simulation_widen place stray
    exact hsim.pollTimes driver turns limit [] [] 0 (world, []) (.ready 0 hwiden)

end Program

end FreeMonad
