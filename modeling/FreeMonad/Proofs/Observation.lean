import FreeMonad.Proofs.Meaning

set_option autoImplicit false

/-! # What can be observed of a program

Whoever steps a program sees its value, or the operation of its next step, and gets on only by
answering that step. Two programs are *observationally equal*, `p ≈ q`, if no such stepping tells
them apart: they resume to the same value, or to steps of the same operation whose payloads are
again observationally equal, for every answer (`Program.IsBisimulation`). What happens on the
way, in the functions that a program calls, is not observed.

The main statement is `Program.equiv_iff`: programs are observationally equal exactly if their
trees are the same up to the events recorded in them. So observational equality is an
equivalence, it passes to everything built from trees, and an equation between trees proves
it. -/

namespace FreeMonad

universe u v

variable {ν : Type} {V : Vocabulary} {α β γ : Type}

/-! ## Observational equality -/

/-- Two outcomes show the same: one value, or one operation, with payloads that `R` relates for
    every answer. -/
inductive SameRoot {P : Type u} {Q : Type v} (R : Traced ν P → Traced ν Q → Prop) :
    Step ν V P ⊕ α → Step ν V Q ⊕ α → Prop where
  | value (a : α) : SameRoot R (.inr a) (.inr a)
  | step (op : V.Op) (reply : V.Answer op → Traced ν P) (reply' : V.Answer op → Traced ν Q)
      (payloads : ∀ x, R (reply x) (reply' x)) : SameRoot R (.inl ⟨op, reply⟩) (.inl ⟨op, reply'⟩)

namespace Program

/-- Related programs show the same root, and every answer leads to related programs again. -/
def IsBisimulation (R : Program ν V α → Program ν V α → Prop) : Prop :=
  ∀ p q, R p q → SameRoot (fun m n => R m.value n.value) p.resume.value q.resume.value

/-- No stepping tells the programs apart. -/
def ObservablyEqual (p q : Program ν V α) : Prop := ∃ R, IsBisimulation R ∧ R p q

end Program

/-! ## Trees without their events -/

namespace Tree

/-- The tree without the events in it. -/
def quiet : Tree ν V α → Tree ν V α
  | ret _ a => ret [] a
  | step _ op _ next => step [] op (fun _ => []) fun x => (next x).quiet

@[simp] theorem quiet_after (l : List (Event ν)) (t : Tree ν V α) :
    (t.after l).quiet = t.quiet := by
  cases t <;> rfl

@[simp] theorem quiet_reached (m : Traced ν (Tree ν V α)) : (reached m).quiet = m.value.quiet :=
  quiet_after m.log m.value

theorem quiet_bind (t : Tree ν V α) (k : α → Tree ν V β) :
    (t.bind k).quiet = t.quiet.bind fun a => (k a).quiet := by
  induction t with
  | ret log a => rw [bind, quiet_after, quiet, ret_bind]
  | step log op said next ih =>
    rw [bind, quiet, quiet, bind]
    exact congrArg _ (funext ih)

end Tree

namespace Program

/-- Up to events, the tree of a program is what the program resumes to. -/
theorem quiet_tree (p : Program ν V α) :
    p.tree.quiet = match p.resume.value with
      | .inr a => .ret [] a
      | .inl s => .step [] s.op (fun _ => []) fun x => (s.reply x).value.tree.quiet := by
  rw [tree_eq_ofRoot]
  obtain ⟨l, o⟩ := p.resume
  cases o <;> rfl

/-! ## Observational equality is equality of trees up to events -/

/-- A bisimulation relates only programs with the same tree up to events: by induction on the
    tree, since an answer leads to a child of it. -/
theorem IsBisimulation.quiet_tree_eq {R : Program ν V α → Program ν V α → Prop}
    (hR : IsBisimulation R) {p q : Program ν V α} (h : R p q) : p.tree.quiet = q.tree.quiet := by
  induction hp : p.tree using Tree.child_wellFounded.induction generalizing p q with
  | _ _ ih =>
    subst hp
    have hroot := hR p q h
    rw [quiet_tree p, quiet_tree q]
    generalize hop : p.resume.value = o at hroot ⊢
    generalize q.resume.value = o' at hroot ⊢
    cases hroot with
    | value a => rfl
    | step op reply reply' payloads =>
      have hnext : (fun x => (reply x).value.tree.quiet) = fun x => (reply' x).value.tree.quiet :=
        funext fun x => ih _ (child_of_resume hop x) (payloads x) rfl
      exact congrArg (Tree.step [] op fun _ => []) hnext

/-- Having the same tree up to events is a bisimulation. -/
theorem isBisimulation_quiet_tree :
    IsBisimulation fun p q : Program ν V α => p.tree.quiet = q.tree.quiet := by
  intro p q h
  rw [quiet_tree p, quiet_tree q] at h
  generalize p.resume.value = o at h ⊢
  generalize q.resume.value = o' at h ⊢
  match o, o' with
  | .inr a, .inr b =>
    cases h
    exact .value a
  | .inl ⟨op, reply⟩, .inl ⟨op', reply'⟩ =>
    simp only [Tree.step.injEq, true_and] at h
    obtain ⟨rfl, -, hnext⟩ := h
    exact .step op reply reply' fun x => congrFun (eq_of_heq hnext) x
  | .inr _, .inl _ => exact nomatch h
  | .inl _, .inr _ => exact nomatch h

theorem observablyEqual_iff {p q : Program ν V α} :
    ObservablyEqual p q ↔ p.tree.quiet = q.tree.quiet :=
  ⟨fun ⟨_, hR, h⟩ => hR.quiet_tree_eq h, fun h => ⟨_, isBisimulation_quiet_tree, h⟩⟩

instance : Setoid (Program ν V α) where
  r := ObservablyEqual
  iseqv :=
    { refl := fun _ => observablyEqual_iff.2 rfl
      symm := fun h => observablyEqual_iff.2 (observablyEqual_iff.1 h).symm
      trans := fun h h' =>
        observablyEqual_iff.2 ((observablyEqual_iff.1 h).trans (observablyEqual_iff.1 h')) }

/-- Two programs are observationally equal exactly if their trees are the same up to events. -/
theorem equiv_iff {p q : Program ν V α} : p ≈ q ↔ p.tree.quiet = q.tree.quiet :=
  observablyEqual_iff

theorem equiv_of_tree_eq {p q : Program ν V α} (h : p.tree = q.tree) : p ≈ q := by
  rw [equiv_iff, h]

/-- Observationally equal programs show the same root, with observationally equal payloads. -/
theorem sameRoot_of_equiv {p q : Program ν V α} (h : p ≈ q) :
    SameRoot (fun m n => m.value ≈ n.value) p.resume.value q.resume.value := by
  obtain ⟨R, hR, hpq⟩ := h
  have hroot := hR p q hpq
  generalize p.resume.value = o at hroot ⊢
  generalize q.resume.value = o' at hroot ⊢
  cases hroot with
  | value a => exact .value a
  | step op reply reply' payloads => exact .step op reply reply' fun x => ⟨R, hR, payloads x⟩

/-- Feeding observationally equal programs to observationally equal continuations. -/
theorem flatMap_equiv {p q : Program ν V α} {k l : α → Traced ν (Program ν V β)} (h : p ≈ q)
    (hkl : ∀ a, (k a).value ≈ (l a).value) : p.flatMap k ≈ q.flatMap l := by
  rw [equiv_iff, tree_flatMap, tree_flatMap, Tree.quiet_bind, Tree.quiet_bind, equiv_iff.1 h]
  refine congrArg _ (funext fun a => ?_)
  rw [Tree.quiet_reached, Tree.quiet_reached]
  exact equiv_iff.1 (hkl a)

end Program

end FreeMonad
