import FreeMonad.Proofs.Congruence
import FreeMonad.Proofs.Runs

set_option autoImplicit false

/-! # The laws and the order of the derived operations

`map`, `andThen`, `map2` and `apply` are made of continuations inside continuations, so that the two
sides of a law can look very different: composition has four queues on one side and two on the
other. Their trees are equal all the same, events included, for grafting is associative. So programs
are an applicative functor up to observational equality (`Program.ApplicativeLaws`), and where a law
has the same functions on both sides, they are called in the same order.

The same trees say in which order things happen. A run of two programs that are combined is a run of
the first one to its value and then a run of the second one, at whose value the results are
combined; for as long as the first one has no value, it is a run of that one alone
(`Program.InTurn`). -/

namespace FreeMonad

universe u

variable {ν : Type} {V : Vocabulary} {α β γ δ : Type}

namespace Program

/-! ## The laws -/

/-- Composes a function with another one, which is called first. -/
def composed (g : β → Traced ν γ) : Traced ν ((α → Traced ν β) → Traced ν (α → Traced ν γ)) :=
  .pure fun f => .pure fun a => (f a).bind g

theorem tree_pure_apply (f : α → Traced ν β) (p : Program ν V α) :
    ((Program.pure f).apply p).tree = (p.map f).tree := by
  simp [tree_apply, tree_map, tree]

theorem tree_map_pure (p : Program ν V α) : (p.map .pure).tree = p.tree := by
  simp [tree_map]

theorem tree_map_map (f : α → Traced ν β) (g : β → Traced ν γ) (p : Program ν V α) :
    ((p.map f).map g).tree = (p.map fun a => (f a).bind g).tree := by
  simp [tree_map, Tree.bind_assoc]

theorem tree_apply_pure (u : Program ν V (α → Traced ν β)) (a : α) :
    (u.apply (.pure a)).tree = (u.map fun g => g a).tree := by
  simp [tree_apply, tree_map, tree]

theorem tree_composed_apply (u : Program ν V (β → Traced ν γ)) (v : Program ν V (α → Traced ν β))
    (w : Program ν V α) :
    ((((Program.pure composed).apply u).apply v).apply w).tree = (u.apply (v.apply w)).tree := by
  simp only [tree_apply, tree, composed, Tree.ret_bind, Tree.bind_assoc, Tree.result_bind,
    Tree.result_pure]
  rfl

theorem tree_map2_eq_apply (f : α → β → Traced ν γ) (p : Program ν V α) (q : Program ν V β) :
    (map2 f p q).tree = ((p.map fun a => .pure (f a)).apply q).tree := by
  simp [tree_map2, tree_apply, tree_map, Tree.bind_assoc]

theorem tree_andThen_eq_map2 (p : Program ν V α) (q : Program ν V β) :
    (p.andThen q).tree = (map2 (fun _ b => .pure b) p q).tree := by
  simp [tree_andThen, tree_map2]

/-- Up to observational equality, programs over `V` are an applicative functor, of which the derived
    operations are the usual ones. -/
structure ApplicativeLaws (ν : Type) (V : Vocabulary) : Prop where
  identity {α : Type} (v : Program ν V α) : (Program.pure .pure).apply v ≈ v
  homomorphism {α β : Type} (f : α → Traced ν β) (x : α) :
    (Program.pure f).apply (.pure x) ≈ (.pure (f x).value : Program ν V β)
  interchange {α β : Type} (u : Program ν V (α → Traced ν β)) (y : α) :
    u.apply (.pure y) ≈ (Program.pure fun g => g y).apply u
  composition {α β γ : Type} (u : Program ν V (β → Traced ν γ)) (v : Program ν V (α → Traced ν β))
    (w : Program ν V α) :
    (((Program.pure composed).apply u).apply v).apply w ≈ u.apply (v.apply w)
  map2_eq {α β γ : Type} (p : Program ν V α) (q : Program ν V β) (f : α → β → Traced ν γ) :
    map2 f p q ≈ (p.map fun a => .pure fun b => f a b).apply q
  andThen_eq {α β : Type} (p : Program ν V α) (q : Program ν V β) :
    p.andThen q ≈ map2 (fun _ b => .pure b) p q
  map_map {α β γ : Type} (p : Program ν V α) (f : α → Traced ν β) (g : β → Traced ν γ) :
    (p.map f).map g ≈ p.map fun a => (f a).bind g
  map_identity {α : Type} (p : Program ν V α) : p.map .pure ≈ p

theorem applicativeLaws : ApplicativeLaws ν V where
  identity v := equiv_of_tree_eq ((tree_pure_apply .pure v).trans (tree_map_pure v))
  homomorphism f x := by
    rw [equiv_iff, tree_pure_apply, tree_map]
    simp [tree, Tree.result, Tree.quiet]
  interchange u y := equiv_of_tree_eq ((tree_apply_pure u y).trans (tree_pure_apply _ u).symm)
  composition u v w := equiv_of_tree_eq (tree_composed_apply u v w)
  map2_eq p q f := equiv_of_tree_eq (tree_map2_eq_apply f p q)
  andThen_eq p q := equiv_of_tree_eq (tree_andThen_eq_map2 p q)
  map_map p f g := equiv_of_tree_eq (tree_map_map f g p)
  map_identity p := equiv_of_tree_eq (tree_map_pure p)

/-! ## First one program, then the other -/

/-- A run by hand of `p` and then of `q`. When `p` has its value, `g` makes of it the function that
    takes the value of `q`. The run may stop at a step of either program. -/
inductive InTurn (p : Program ν V α) (q : Program ν V β) (g : α → Traced ν (β → Traced ν γ)) :
    Answers V → List (Event ν) → V.Op ⊕ γ → Prop where
  | first {xs : Answers V} {log : List (Event ν)} {op : V.Op}
      (hp : Follows resume p xs log (.inl op)) : InTurn p q g xs log (.inl op)
  | second {xs ys : Answers V} {log log' : List (Event ν)} {a : α} {op : V.Op}
      (hp : Follows resume p xs log (.inr a)) (hq : Follows resume q ys log' (.inl op)) :
      InTurn p q g (xs ++ ys) (log ++ ((g a).log ++ log')) (.inl op)
  | done {xs ys : Answers V} {log log' : List (Event ν)} {a : α} {b : β}
      (hp : Follows resume p xs log (.inr a)) (hq : Follows resume q ys log' (.inr b)) :
      InTurn p q g (xs ++ ys) (log ++ ((g a).log ++ (log' ++ ((g a).value b).log)))
        (.inr ((g a).value b).value)

/-- The tree of `m` is that of `p`, with that of `q` grafted on, and the results combined by `g`. -/
def Combines (m : Program ν V γ) (p : Program ν V α) (q : Program ν V β)
    (g : α → Traced ν (β → Traced ν γ)) : Prop :=
  m.tree = p.tree.bind fun a => (q.tree.bind fun b => .result ((g a).value b)).after (g a).log

theorem combines_map2 (f : α → β → Traced ν γ) (p : Program ν V α) (q : Program ν V β) :
    Combines (map2 f p q) p q fun a => .pure (f a) := by
  simp [Combines, tree_map2]

theorem combines_andThen (p : Program ν V α) (q : Program ν V β) :
    Combines (p.andThen q) p q fun _ => .pure .pure := by
  simp [Combines, tree_andThen]

theorem combines_apply (g : α → Traced ν (β → Traced ν γ)) (p : Program ν V α)
    (q : Program ν V β) : Combines ((p.map g).apply q) p q g := by
  simp [Combines, tree_apply, tree_map, Tree.bind_assoc, Tree.result_bind]

section

variable {m : Program ν V γ} {p : Program ν V α} {q : Program ν V β}
  {g : α → Traced ν (β → Traced ν γ)}

/-- The runs by hand of two programs combined are those of the one and then of the other. -/
theorem Combines.follows_iff (h : Combines m p q g) {xs : Answers V} {log : List (Event ν)}
    {o : V.Op ⊕ γ} : Follows resume m xs log o ↔ InTurn p q g xs log o := by
  rw [follows_iff_path tree_eq_ofRoot, h]
  simp only [Tree.path_bind_iff, Tree.path_after_iff, Tree.result, Tree.path_ret_iff,
    ← follows_iff_path tree_eq_ofRoot]
  constructor
  · rintro (⟨op, rfl, hp⟩ | ⟨ys, log₁, a, zs, log₂, rfl, rfl, hp, log₃, rfl,
      ⟨op, rfl, hq⟩ | ⟨zs', log₄, b, _, _, rfl, rfl, hq, rfl, rfl, rfl⟩⟩)
    · exact .first hp
    · exact .second hp hq
    · rw [List.append_nil]
      exact .done hp hq
  · intro h
    cases h with
    | first hp => exact .inl ⟨_, rfl, hp⟩
    | second hp hq => exact .inr ⟨_, _, _, _, _, rfl, rfl, hp, _, rfl, .inl ⟨_, rfl, hq⟩⟩
    | done hp hq =>
      refine .inr ⟨_, _, _, _, _, rfl, rfl, hp, _, rfl, .inr ⟨_, _, _, [], _, ?_, rfl, hq, ?_⟩⟩
      · exact (List.append_nil _).symm
      · exact ⟨rfl, rfl, rfl⟩

end

/-! ## Every run of two programs combined -/

/-- A run makes the steps of `p` and then those of `q`, for as long as it answers them with their
    payloads, and ends with the results combined. -/
structure MakesInTurn (p : Program ν V α) (q : Program ν V β) (g : α → Traced ν (β → Traced ν γ))
    {M : Host} {σ : Type u} (I : Interpreter ν V M σ γ) (calls : List (Call ν V σ γ))
    (o : Standing ν V M γ) : Prop where
  call {before after : List (Call ν V σ γ)} {c : Call ν V σ γ} {xs : Answers V}
    {log : List (Event ν)} (hcalls : calls = before ++ c :: after)
    (hkeeps : I.Keeps before xs log) : InTurn p q g xs (log ++ c.before) (.inl c.step.op)
  value {xs : Answers V} {log last : List (Event ν)} {r : γ} (ho : o = .finished last r)
    (hkeeps : I.Keeps calls xs log) : InTurn p q g xs (log ++ last) (.inr r)
  /-- If `p` or `q` does not complete, nothing more is done of either. -/
  abandons : I.Abandons calls o

/-- Every run of `m` is a run of `p` and then of `q`, at whose end the results are combined. -/
structure RunsInTurn (m : Program ν V γ) (p : Program ν V α) (q : Program ν V β)
    (g : α → Traced ν (β → Traced ν γ)) : Prop where
  follows_iff {xs : Answers V} {log : List (Event ν)} {o : V.Op ⊕ γ} :
    Follows resume m xs log o ↔ InTurn p q g xs log o
  everyRun : EveryRun.{u} m fun I calls o => MakesInTurn p q g I calls o

theorem Combines.runsInTurn {m : Program ν V γ} {p : Program ν V α} {q : Program ν V β}
    {g : α → Traced ν (β → Traced ν γ)} (h : Combines m p q g) : RunsInTurn.{u} m p q g where
  follows_iff := h.follows_iff
  everyRun := by
    refine everyRun_of_course fun hcourse => ?_
    constructor
    case call =>
      intro before after c xs log hcalls hkeeps
      subst hcalls
      exact h.follows_iff.1 (hcourse.follows_call hkeeps)
    case value =>
      intro xs log last r ho hkeeps
      subst ho
      exact h.follows_iff.1 (hcourse.follows_value hkeeps)
    case abandons => exact hcourse.abandons

/-- **The derived operations obey the laws of an applicative functor and go from left to right.** Up
    to observational equality, `pure`, `map`, `apply`, `map2` and `andThen` are those of an
    applicative functor. And every run of two programs combined by one of them makes all steps of
    the first program before any of the second one; it combines the results once, when the second
    program has its value; and if the first program does not complete, no step of the second one is
    made. -/
theorem derived_operations (ν : Type) (V : Vocabulary) :
    ApplicativeLaws ν V ∧
    (∀ {α β γ : Type} (f : α → β → Traced ν γ) (p : Program ν V α) (q : Program ν V β),
      RunsInTurn.{u} (map2 f p q) p q fun a => .pure (f a)) ∧
    (∀ {α β : Type} (p : Program ν V α) (q : Program ν V β),
      RunsInTurn.{u} (p.andThen q) p q fun _ => .pure .pure) ∧
    (∀ {α β γ : Type} (g : α → Traced ν (β → Traced ν γ)) (p : Program ν V α) (q : Program ν V β),
      RunsInTurn.{u} ((p.map g).apply q) p q g) := by
  refine ⟨applicativeLaws, ?_, ?_, ?_⟩
  · intro α β γ f p q
    exact (combines_map2 f p q).runsInTurn
  · intro α β p q
    exact (combines_andThen p q).runsInTurn
  · intro α β γ g p q
    exact (combines_apply g p q).runsInTurn

end Program

end FreeMonad
