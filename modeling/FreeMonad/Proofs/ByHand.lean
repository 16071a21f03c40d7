import FreeMonad.Run.Hosted

set_option autoImplicit false

/-! # Stepping by hand

To step a program by hand is to resume it, to have its step answered, and to go on with the answer,
with no driver in between (`Program.stepByHand`). All drivers are measured against it. The driver
inside a host does the same, turn by turn, but for the events of its own (`Program.seen_runInHost`),
and a run by hand can be interrupted after any number of turns and taken up again
(`Program.stepByHand_add`).

What the user's functions record is kept apart by `userEvents`, and `Traced.seen` is all of a
traced value but the events of the library. -/

namespace FreeMonad

universe u v w

/-! ## What is seen of a computation -/

section Seen

variable {ν : Type}

/-- The events of the functions that a run calls, without those of its driver. -/
def userEvents (log : List (Event ν)) : List ν :=
  log.filterMap fun
    | .user event => some event
    | _ => none

@[simp] theorem userEvents_nil : userEvents ([] : List (Event ν)) = [] := rfl

@[simp] theorem userEvents_append (l m : List (Event ν)) :
    userEvents (l ++ m) = userEvents l ++ userEvents m :=
  List.filterMap_append

@[simp] theorem userEvents_interpreting (driver : Driver) (n : Nat) (l : List (Event ν)) :
    userEvents (.interpreting driver n :: l) = userEvents l := rfl

@[simp] theorem userEvents_finished (driver : Driver) (n : Nat) (l : List (Event ν)) :
    userEvents (.finished driver n :: l) = userEvents l := rfl

/-- Events that a loop puts in front of a record, which is kept the latest first. -/
theorem userEvents_reverseAux (l recorded : List (Event ν)) :
    userEvents (l.reverseAux recorded).reverse
      = userEvents recorded.reverse ++ userEvents l := by
  simp only [List.reverseAux_eq, List.reverse_append, List.reverse_reverse, userEvents_append]

namespace Traced

variable {α : Type u} {β : Type v}

/-- The value and the events of the user's functions, without those of the library itself. -/
def seen (m : Traced ν α) : Traced ν α := ⟨(userEvents m.log).map .user, m.value⟩

@[simp] theorem value_seen (m : Traced ν α) : m.seen.value = m.value := rfl

@[simp] theorem seen_pure (a : α) : (pure a : Traced ν α).seen = pure a := rfl

@[simp] theorem seen_map (f : α → β) (m : Traced ν α) : (m.map f).seen = m.seen.map f := rfl

@[simp] theorem seen_bind (m : Traced ν α) (f : α → Traced ν β) :
    (m.bind f).seen = m.seen.bind fun a => (f a).seen := by
  ext1
  · simp [seen]
  · rfl

theorem seen_after (l : List (Event ν)) (m : Traced ν α) :
    (m.after l).seen = m.seen.after ((userEvents l).map .user) := by
  ext1
  · simp [seen]
  · rfl

theorem seen_eq_iff {m n : Traced ν α} :
    m.seen = n.seen ↔ userEvents m.log = userEvents n.log ∧ m.value = n.value := by
  simp only [seen, Traced.mk.injEq, List.map_inj_right fun _ _ => Event.user.inj]

end Traced

end Seen

/-! ## Iteration in a host -/

namespace Host

variable {ν : Type} {M : Host} {σ : Type u} {τ : Type u} {S : Type v} {β : Type w}

/-- The record of a loop is put in front of what the loop records. -/
theorem iterate_eq_after (step : σ → S → Traced ν (σ × M.Carrier (S ⊕ β))) :
    ∀ (turns : Nat) (recorded : List (Event ν)) (state : σ) (s : S),
      M.iterate step turns recorded state s
        = (M.tailRec step turns state s).after recorded.reverse
  | 0, recorded, state, s => by simp [tailRec, iterate, Traced.after]
  | turns + 1, recorded, state, s => by
    simp only [tailRec, iterate]
    cases M.split (step state s).value.2 with
    | inl failure => simp [Traced.after, List.reverseAux_eq]
    | inr next =>
      cases next with
      | inr b => simp [Traced.after, List.reverseAux_eq]
      | inl s' =>
        simp only [iterate_eq_after step turns]
        simp [Traced.after, List.reverseAux_eq]

/-- The loop calls its step and, unless that is the end, goes on from the state it gives. -/
theorem tailRec_succ (step : σ → S → Traced ν (σ × M.Carrier (S ⊕ β))) (turns : Nat) (state : σ)
    (s : S) : M.tailRec step (turns + 1) state s = (step state s).bind fun (state, m) =>
      match (M.split m : M.Carrier β ⊕ (S ⊕ β)) with
      | .inl failure => .pure (state, .inr failure)
      | .inr (.inr b) => .pure (state, .inr (M.pure b))
      | .inr (.inl s) => M.tailRec step turns state s := by
  simp only [tailRec, iterate, Traced.bind, List.reverseAux_eq, List.append_nil,
    List.reverse_reverse]
  rcases (M.split (step state s).value.2 : M.Carrier β ⊕ (S ⊕ β)) with failure | s' | b
  · simp
  · simp only [iterate_eq_after step turns, List.reverse_reverse]
    rfl
  · simp

/-- Loops whose steps do the same, but for the library's own events and for a part of the state
    that the second one does without, do the same. -/
theorem seen_tailRec (g : σ → τ) {step : σ → S → Traced ν (σ × M.Carrier (S ⊕ β))}
    {step' : τ → S → Traced ν (τ × M.Carrier (S ⊕ β))}
    (h : ∀ state s, ((step state s).map fun (state, m) => (g state, m)).seen
      = (step' (g state) s).seen) :
    ∀ (turns : Nat) (state : σ) (s : S),
      ((M.tailRec step turns state s).map fun (state, o) => (g state, o)).seen
        = (M.tailRec step' turns (g state) s).seen
  | 0, _, _ => rfl
  | turns + 1, state, s => by
    rw [tailRec_succ, tailRec_succ, Traced.map_bind, Traced.seen_bind, Traced.seen_bind, ← h,
      Traced.seen_map, Traced.bind_map]
    congr 1
    funext ⟨state', m⟩
    dsimp only
    rcases (M.split m : M.Carrier β ⊕ (S ⊕ β)) with failure | s' | b
    · rfl
    · exact seen_tailRec g h turns state' s'
    · rfl

end Host

/-! ## Turns by hand -/

variable {ν : Type} {V : Vocabulary} {M : Host} {σ : Type u} {α : Type}

namespace Program

/-- One turn by hand: either the program is finished, or its step is answered and the answer is
    what is left, or the failure ends the run. -/
def handTurn (M : Host) (I : Interpreter ν V M σ α) (world : σ) (p : Program ν V α) :
    Traced ν (σ × (Program ν V α ⊕ M.Carrier α)) :=
  p.resume.bind fun
    | .inr a => .pure (world, .inr (M.pure a))
    | .inl s => (I world s).map fun (world, answer) => (world, (M.split answer).swap)

/-- Goes on by hand from what is left after some turns; a run that is over stays over. -/
def handOn (M : Host) (I : Interpreter ν V M σ α) (turns : Nat) (world : σ) :
    Program ν V α ⊕ M.Carrier α → Traced ν (σ × (Program ν V α ⊕ M.Carrier α))
  | .inl q => q.stepByHand M I turns world
  | .inr r => .pure (world, .inr r)

theorem stepByHand_zero (I : Interpreter ν V M σ α) (world : σ) (p : Program ν V α) :
    p.stepByHand M I 0 world = .pure (world, .inl p) := rfl

theorem handOn_zero (I : Interpreter ν V M σ α) (world : σ) (o : Program ν V α ⊕ M.Carrier α) :
    handOn M I 0 world o = .pure (world, o) := by
  cases o <;> rfl

theorem stepByHand_succ (I : Interpreter ν V M σ α) (turns : Nat) (world : σ)
    (p : Program ν V α) : p.stepByHand M I (turns + 1) world
      = (p.handTurn M I world).bind fun (world, o) => handOn M I turns world o := by
  rw [stepByHand, Host.tailRec_succ, handTurn, Traced.bind_assoc, Traced.bind_assoc]
  congr 1
  funext o
  cases o with
  | inr a => simp [handOn]
  | inl s =>
    rw [Traced.bind_map, Traced.bind_map]
    congr 1
    funext ⟨world', answer⟩
    simp only [Host.split_map]
    cases (M.split answer : M.Carrier α ⊕ Program ν V α) with
    | inl failure => rfl
    | inr q => rfl

/-- A run by hand whose program comes to a value is over in its first turn. -/
theorem stepByHand_of_value {I : Interpreter ν V M σ α} {world : σ} {p : Program ν V α}
    {log : List (Event ν)} {a : α} (h : p.resume = ⟨log, .inr a⟩) (n : Nat) :
    p.stepByHand M I (n + 1) world = ⟨log, (world, .inr (M.pure a))⟩ := by
  rw [stepByHand_succ, handTurn, h]
  ext1
  · simp [handOn]
  · rfl

/-- A run by hand whose program comes to a step goes on with the answer to it. -/
theorem stepByHand_of_step {I : Interpreter ν V M σ α} {world : σ} {p : Program ν V α}
    {log : List (Event ν)} {s : Step ν V (Program ν V α)} (h : p.resume = ⟨log, .inl s⟩) (n : Nat) :
    p.stepByHand M I (n + 1) world = ((I world s).bind fun (world, answer) =>
      handOn M I n world (M.split answer).swap).after log := by
  rw [stepByHand_succ, handTurn, h, Traced.bind_assoc]
  rfl

/-- A run by hand can be interrupted and taken up again. -/
theorem stepByHand_add (I : Interpreter ν V M σ α) (m n : Nat) (world : σ) (p : Program ν V α) :
    p.stepByHand M I (m + n) world
      = (p.stepByHand M I m world).bind fun (world, o) => handOn M I n world o := by
  induction m generalizing world p with
  | zero => simp [stepByHand_zero, handOn]
  | succ m ih =>
    rw [Nat.succ_add, stepByHand_succ, stepByHand_succ, Traced.bind_assoc]
    congr 1
    funext ⟨world', o⟩
    cases o with
    | inl q => exact ih world' q
    | inr r => rfl

theorem handOn_add (I : Interpreter ν V M σ α) (m n : Nat) (world : σ)
    (o : Program ν V α ⊕ M.Carrier α) : handOn M I (m + n) world o
      = (handOn M I m world o).bind fun (world, o) => handOn M I n world o := by
  cases o with
  | inl q => exact stepByHand_add I m n world q
  | inr r => rfl

/-- More turns do not change a run that is over. -/
theorem handOn_of_over (I : Interpreter ν V M σ α) {m n : Nat} (hmn : m ≤ n) {world : σ}
    {o : Program ν V α ⊕ M.Carrier α} {r : M.Carrier α}
    (h : (handOn M I m world o).value.2 = .inr r) :
    handOn M I n world o = handOn M I m world o := by
  obtain ⟨k, rfl⟩ := Nat.exists_eq_add_of_le hmn
  rw [handOn_add]
  generalize handOn M I m world o = run at h ⊢
  obtain ⟨log, world', o'⟩ := run
  cases h
  ext1
  · exact List.append_nil log
  · rfl

theorem stepByHand_of_over (I : Interpreter ν V M σ α) {m n : Nat} (hmn : m ≤ n) {world : σ}
    {p : Program ν V α} {r : M.Carrier α} (h : (p.stepByHand M I m world).value.2 = .inr r) :
    p.stepByHand M I n world = p.stepByHand M I m world :=
  handOn_of_over (o := .inl p) I hmn h

theorem handOn_eq_of_over (I : Interpreter ν V M σ α) {m n : Nat} {world : σ}
    {o : Program ν V α ⊕ M.Carrier α} {r r' : M.Carrier α}
    (hm : (handOn M I m world o).value.2 = .inr r) (hn : (handOn M I n world o).value.2 = .inr r') :
    handOn M I m world o = handOn M I n world o := by
  rcases Nat.le_total m n with h | h
  · exact (handOn_of_over I h hm).symm
  · exact handOn_of_over I h hn

/-- The driver inside a host does what a run by hand does. Its own events aside, the same functions
    are called in the same order. -/
theorem seen_runInHost (I : Interpreter ν V M σ α) (turns : Nat) (world : σ) (p : Program ν V α) :
    (p.runInHost M I turns world).seen = (p.stepByHand M I turns world).seen := by
  have hturn : ∀ (state : σ × Nat) (p : Program ν V α),
      ((turn M I state p).map fun (state, m) => (state.1, m)).seen
        = (p.resume.bind fun
          | .inr a => .pure (state.1, M.pure (.inr a))
          | .inl s =>
            (I state.1 s).map fun (world, answer) => (world, M.map .inl answer)).seen := by
    intro state p
    rw [turn, Traced.map_bind, Traced.seen_bind, Traced.seen_bind]
    congr 1
    funext o
    cases o with
    | inr a => rfl
    | inl s => rfl
  exact Host.seen_tailRec Prod.fst hturn turns (world, 0) p

end Program

/-! ## Interpreters that keep the steps they are given -/

/-- The state of an interpreter and the steps that it was given, in order. -/
abbrev Recorded (ν : Type) (V : Vocabulary) (σ : Type u) (α : Type) : Type (max u 1) :=
  σ × List (Step ν V (Program ν V α))

namespace Interpreter

/-- The interpreter that also keeps the steps it is given. -/
def recording (I : Interpreter ν V M σ α) : Interpreter ν V M (Recorded ν V σ α) α :=
  fun (world, steps) s => (I world s).map fun (world, answer) => ((world, steps ++ [s]), answer)

/-- An interpreter that never fails, inside the host `M`. -/
def inHost (M : Host) (I : Interpreter ν V .identity σ α) : Interpreter ν V M σ α := fun world s =>
  (I world s).map fun (world, p) => (world, M.pure p)

/-- Every call adds its step to those that the state keeps. -/
def Records (I : Interpreter ν V M (Recorded ν V σ α) α) : Prop :=
  ∀ state s, (I state s).value.1.2 = state.2 ++ [s]

theorem records_recording (I : Interpreter ν V M σ α) : I.recording.Records := fun _ _ => rfl

theorem records_inHost {I : Interpreter ν V .identity (Recorded ν V σ α) α} (h : I.Records) :
    (I.inHost M).Records := h

end Interpreter

namespace Program

/-- In the host, a run by hand with an interpreter that never fails is the same run, and its value
    a success. -/
theorem stepByHand_inHost (M : Host) (I : Interpreter ν V .identity σ α) (turns : Nat) (world : σ)
    (p : Program ν V α) : p.stepByHand M (I.inHost M) turns world
      = (p.stepByHand .identity I turns world).map fun (world, o) => (world, o.map id M.pure) := by
  have hpure : ∀ q : Program ν V α, (M.split (M.pure q) : M.Carrier α ⊕ _).swap = .inl q :=
    fun q => by rw [Host.split_pure, Sum.swap_inr]
  induction turns generalizing world p with
  | zero => rfl
  | succ turns ih =>
    rw [stepByHand_succ, stepByHand_succ, handTurn, handTurn, Traced.bind_assoc, Traced.bind_assoc,
      Traced.map_bind]
    congr 1
    funext o
    cases o with
    | inr a => rfl
    | inl s =>
      rw [Traced.bind_map, Traced.bind_map, Interpreter.inHost, Traced.bind_map, Traced.map_bind]
      congr 1
      funext ⟨world', q⟩
      exact (congrArg (handOn M (I.inHost M) turns world') (hpure q)).trans (ih world' q)

section Records

variable {I : Interpreter ν V M (Recorded ν V σ α) α}

/-- A turn adds at most one step, and exactly one if the run goes on. -/
theorem steps_handTurn (h : I.Records) (state : Recorded ν V σ α) (p : Program ν V α) :
    ∃ steps, (p.handTurn M I state).value.1.2 = state.2 ++ steps ∧ steps.length ≤ 1 ∧
      ∀ q, (p.handTurn M I state).value.2 = .inl q → steps.length = 1 := by
  rw [handTurn, Traced.value_bind]
  cases p.resume.value with
  | inr a => exact ⟨[], (List.append_nil _).symm, Nat.zero_le 1, nofun⟩
  | inl s => exact ⟨[s], h state s, Nat.le_refl 1, fun _ _ => rfl⟩

/-- Turns by hand add at most as many steps, and exactly as many if the run goes on. -/
theorem steps_handOn (h : I.Records) (turns : Nat) (state : Recorded ν V σ α)
    (o : Program ν V α ⊕ M.Carrier α) :
    ∃ steps, (handOn M I turns state o).value.1.2 = state.2 ++ steps ∧ steps.length ≤ turns ∧
      ∀ q, (handOn M I turns state o).value.2 = .inl q → steps.length = turns := by
  induction turns generalizing state o with
  | zero =>
    cases o with
    | inr r => exact ⟨[], (List.append_nil _).symm, Nat.le_refl 0, nofun⟩
    | inl p => exact ⟨[], (List.append_nil _).symm, Nat.le_refl 0, fun _ _ => rfl⟩
  | succ turns ih =>
    cases o with
    | inr r => exact ⟨[], (List.append_nil _).symm, Nat.zero_le _, nofun⟩
    | inl p =>
      obtain ⟨first, hfirst, hle, hgoes⟩ := steps_handTurn h state p
      rw [handOn, stepByHand_succ, Traced.value_bind]
      generalize (p.handTurn M I state).value = run at hfirst hgoes ⊢
      obtain ⟨state', o⟩ := run
      obtain ⟨rest, hrest, hle', hgoes'⟩ := ih state' o
      refine ⟨first ++ rest, ?_, ?_, fun q hq => ?_⟩
      · rw [hrest, hfirst, List.append_assoc]
      · rw [List.length_append]
        omega
      · -- a run that goes on after these turns went on after the first one
        cases o with
        | inr r => exact nomatch hq
        | inl q' => rw [List.length_append, hgoes q' rfl, hgoes' q hq, Nat.add_comm]

/-- No run gives more steps than it takes turns. -/
theorem length_handOn_le (h : I.Records) (turns : Nat) (state : Recorded ν V σ α)
    (o : Program ν V α ⊕ M.Carrier α) :
    (handOn M I turns state o).value.1.2.length ≤ state.2.length + turns := by
  obtain ⟨steps, hsteps, hle, -⟩ := steps_handOn h turns state o
  rw [hsteps, List.length_append]
  exact Nat.add_le_add_left hle _

end Records

end Program

end FreeMonad
