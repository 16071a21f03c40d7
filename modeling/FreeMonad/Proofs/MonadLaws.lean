import FreeMonad.Proofs.Policy

set_option autoImplicit false

/-! # The laws of sequencing

Up to observational equality, feeding the result of a program to continuations obeys the laws of
a monad. So the continuations attached to a program can be bracketed in any way: attached one by
one, or put together first, in groups and groups of groups (`Bracketing`, `Chain`). The programs
are built very differently, one long queue here and queues spliced in while the program runs
there, but their trees are equal, and no driver tells them apart (`Program.monad_laws`). -/

namespace FreeMonad

universe u

variable {ν : Type} {V : Vocabulary} {α β γ : Type}

namespace Program

/-! ## The three laws -/

theorem pure_flatMap (a : α) (f : α → Traced ν (Program ν V β)) :
    (Program.pure a).flatMap f ≈ (f a).value := by
  rw [equiv_iff, tree_flatMap, tree, Tree.ret_bind, Tree.quiet_reached]
  rfl

theorem flatMap_pure (m : Program ν V α) : (m.flatMap fun a => .pure (.pure a)) ≈ m := by
  rw [equiv_iff, tree_flatMap]
  exact congrArg Tree.quiet (Tree.bind_ret m.tree)

theorem flatMap_assoc (m : Program ν V α) (f : α → Traced ν (Program ν V β))
    (g : β → Traced ν (Program ν V γ)) :
    (m.flatMap f).flatMap g ≈ m.flatMap fun a => (f a).map fun p => p.flatMap g := by
  rw [equiv_iff, tree_flatMap, tree_flatMap, tree_flatMap, Tree.bind_assoc]
  refine congrArg (fun k => (m.tree.bind k).quiet) (funext fun a => ?_)
  simp only [Tree.reached, Traced.value_map, Traced.log_map, tree_flatMap, Tree.bind_after]

end Program

/-! ## Bracketings -/

/-- Continuations put together: one of them, or those of two groups in sequence. -/
inductive Bracketing (ν : Type) (V : Vocabulary) : Type → Type → Type 1 where
  | one {α β : Type} (k : α → Traced ν (Program ν V β)) : Bracketing ν V α β
  | seq {α β γ : Type} (b : Bracketing ν V α β) (c : Bracketing ν V β γ) : Bracketing ν V α γ

namespace Bracketing

/-- The group as one continuation: what the first part returns has the second part attached. -/
def arrow : {α β : Type} → Bracketing ν V α β → α → Traced ν (Program ν V β)
  | _, _, .one k, a => k a
  | _, _, .seq b c, a => (b.arrow a).map fun p => p.flatMap c.arrow

/-- The continuations, in order. -/
def continuations : {α β : Type} → Bracketing ν V α β → Front ν V α β
  | _, _, .one k => .cons (fun a => .ofTraced (k a)) .nil
  | _, _, .seq b c => b.continuations.append c.continuations

/-- However a group is bracketed, its tree is that of its continuations in order. -/
theorem reached_arrow (b : Bracketing ν V α β) (a : α) :
    Tree.reached ((b.arrow a).map Program.tree) = b.continuations.tree a := by
  induction b with
  | one k =>
    rw [arrow, continuations, Front.tree]
    exact congrArg _ (Tree.bind_ret _).symm
  | seq b c ihb ihc =>
    -- the second group is attached to what the first one returns, that is, grafted behind it
    have hc : c.continuations.tree = fun b => Tree.reached ((c.arrow b).map Program.tree) :=
      funext fun b => (ihc b).symm
    rw [continuations, Front.tree_append, ← ihb a, hc]
    simp only [arrow, Tree.reached, Traced.value_map, Traced.log_map, Program.tree_flatMap,
      Tree.bind_after]

end Bracketing

/-- Groups of continuations attached to a program, one group after the other. -/
inductive Chain (ν : Type) (V : Vocabulary) (α : Type) : Type → Type 1 where
  | start : Chain ν V α α
  | attach {β γ : Type} (c : Chain ν V α β) (b : Bracketing ν V β γ) : Chain ν V α γ

namespace Chain

/-- The program `m` with the groups attached. -/
def on (m : Program ν V α) : {β : Type} → Chain ν V α β → Program ν V β
  | _, .start => m
  | _, .attach c b => (c.on m).flatMap b.arrow

/-- The continuations of all groups, in order. -/
def continuations : {β : Type} → Chain ν V α β → Front ν V α β
  | _, .start => .nil
  | _, .attach c b => c.continuations.append b.continuations

theorem tree_on (m : Program ν V α) (c : Chain ν V α β) :
    (c.on m).tree = m.tree.bind c.continuations.tree := by
  induction c with
  | start => exact (Tree.bind_ret m.tree).symm
  | attach c b ih =>
    have hb : (fun a => Tree.reached ((b.arrow a).map Program.tree)) = b.continuations.tree :=
      funext b.reached_arrow
    rw [on, Program.tree_flatMap, ih, hb, Tree.bind_assoc, continuations]
    exact congrArg _ (funext fun a => (Front.tree_append _ _ a).symm)

end Chain

namespace Program

/-- The program with continuations attached one by one, the first one first. -/
def chain : {α β : Type} → Program ν V α → Front ν V α β → Program ν V β
  | _, _, p, .nil => p
  | _, _, p, .cons k rest => (p.flatMap fun a => (k a).toTraced).chain rest

theorem tree_chain : {α β : Type} → (p : Program ν V α) → (ks : Front ν V α β) →
    (p.chain ks).tree = p.tree.bind ks.tree
  | _, _, p, .nil => (Tree.bind_ret p.tree).symm
  | _, _, p, .cons k rest => by
    rw [chain, tree_chain, tree_flatMap, Tree.bind_assoc]
    refine congrArg _ (funext fun a => ?_)
    show _ = ((k a).tree.bind rest.tree).after (k a).log
    rw [Tree.reached, Tree.bind_after, Reached.tree_eq]
    rfl

/-- Attaching continuations in groups comes to the same as attaching them one by one. -/
theorem on_equiv_chain (m : Program ν V α) (c : Chain ν V α β) :
    c.on m ≈ m.chain c.continuations := by
  rw [equiv_iff, Chain.tree_on, tree_chain]

/-- **The monad laws.** Up to observational equality, a finished program is neutral on both sides
    and sequencing is associative; and the continuations attached to a program, however many,
    can be bracketed in any way: no driver whose interpreter only answers tells it. -/
theorem monad_laws :
    (∀ {α β : Type} (a : α) (f : α → Traced ν (Program ν V β)),
      (Program.pure a).flatMap f ≈ (f a).value) ∧
    (∀ {α : Type} (m : Program ν V α), (m.flatMap fun a => .pure (.pure a)) ≈ m) ∧
    (∀ {α β γ : Type} (m : Program ν V α) (f : α → Traced ν (Program ν V β))
      (g : β → Traced ν (Program ν V γ)),
      (m.flatMap f).flatMap g ≈ m.flatMap fun a => (f a).map fun p => p.flatMap g) ∧
    (∀ {α β : Type} (m : Program ν V α) (c : Chain ν V α β),
      c.on m ≈ m.chain c.continuations ∧
      SameRuns.{u} (c.on m) (m.chain c.continuations)) := by
  refine ⟨pure_flatMap, flatMap_pure, flatMap_assoc, ?_⟩
  intro α β m c
  have h := on_equiv_chain m c
  exact ⟨h, sameRuns_of_equiv h⟩

end Program

end FreeMonad
