import FreeMonad.Proofs.MonadLaws
import FreeMonad.Proofs.Paired

set_option autoImplicit false

/-! # The order of evaluation

Every call of a thunk, a continuation or a reply can record events, so the events tell which
functions were called, and when. Keeping the continuations in a flat queue does not change that:
one recipe, built with queues and built with pairs, gives programs that are *in lockstep*. Each
time they are resumed they record the same events in the same order, show the same value or the
same step, and are in lockstep again whatever the answer.

A whole run by hand is a list of answers and what was recorded (`Follows`). What a run along a
chain of continuations records is said by `Calls`: each continuation is called once, in order,
with the value of the program before it, and nothing is called behind a step that is not
answered. -/

namespace FreeMonad

universe u v

variable {ν : Type} {V : Vocabulary} {α β γ : Type}

/-! ## Lockstep -/

/-- Programs in the two representations that go together: resuming them records the same events
    and shows the same root, and any answer records the same and leads to programs that go
    together again. -/
def InLockstep (p : Program ν V α) (n : Paired ν V α) : Prop :=
  ∃ R : Program ν V α → Paired ν V α → Prop,
    (∀ p n, R p n → p.resume.log = n.resume.log ∧
      SameRoot (fun t u => t.log = u.log ∧ R t.value u.value) p.resume.value n.resume.value) ∧
    R p n

/-- Things with the same root of their trees record the same events, and show the same, with
    payloads that have the same tree. -/
theorem sameRoot_of_ofRoot_eq {P : Type u} {Q : Type v} {D : P → Tree ν V α} {E : Q → Tree ν V α}
    {m : Traced ν (Step ν V P ⊕ α)} {n : Traced ν (Step ν V Q ⊕ α)}
    (h : Tree.ofRoot D m = Tree.ofRoot E n) :
    m.log = n.log ∧
      SameRoot (fun t u => t.log = u.log ∧ D t.value = E u.value) m.value n.value := by
  obtain ⟨l, o⟩ := m
  obtain ⟨l', o'⟩ := n
  match o, o' with
  | .inr a, .inr b =>
    cases h
    exact ⟨rfl, .value a⟩
  | .inl ⟨op, reply⟩, .inl ⟨op', reply'⟩ =>
    obtain ⟨hlog, hstep⟩ := Tree.op_inj.1 h
    simp only [Step.map, Step.mk.injEq] at hstep
    obtain ⟨rfl, hreply⟩ := hstep
    refine ⟨hlog, .step op reply reply' fun x => ?_⟩
    have hx := congrFun (eq_of_heq hreply) x
    exact ⟨congrArg Traced.log hx, congrArg Traced.value hx⟩
  | .inr _, .inl _ => exact nomatch h
  | .inl _, .inr _ => exact nomatch h

/-- Programs with the same tree, events included, are in lockstep. -/
theorem inLockstep_of_tree_eq {p : Program ν V α} {n : Paired ν V α} (h : p.tree = n.tree) :
    InLockstep p n := by
  refine ⟨fun p n => p.tree = n.tree, fun p n h => ?_, h⟩
  have hroot := (p.tree_eq_ofRoot.symm.trans h).trans n.tree_eq_ofRoot
  exact sameRoot_of_ofRoot_eq hroot

/-- One recipe built in both representations means one tree. -/
theorem Recipe.tree_build_eq (r : Recipe ν V α) :
    (r.build Program.builders).value.tree = (r.build Paired.builders).value.tree := by
  have hprogram := Program.tree_hom.map_build r
  have hpaired := Paired.tree_hom.map_build r
  exact congrArg Traced.value (hprogram.trans hpaired.symm)

/-! ## Runs by hand -/

/-- The answers that the successive steps of a run are given, each with the operation of its
    step. -/
abbrev Answers (V : Vocabulary) : Type := List ((op : V.Op) × V.Answer op)

/-- Stepping by `resume` and answering the steps in turn records the events of the list and comes
    to a pending step, on the left, or to a value, on the right. -/
inductive Follows {P : Type u} (resume : P → Traced ν (Step ν V P ⊕ α)) :
    P → Answers V → List (Event ν) → V.Op ⊕ α → Prop where
  | value {p : P} {log : List (Event ν)} {a : α} (h : resume p = ⟨log, .inr a⟩) :
      Follows resume p [] log (.inr a)
  | pending {p : P} {log : List (Event ν)} {s : Step ν V P} (h : resume p = ⟨log, .inl s⟩) :
      Follows resume p [] log (.inl s.op)
  | answered {p : P} {log log' : List (Event ν)} {s : Step ν V P} {xs : Answers V} {o : V.Op ⊕ α}
      (h : resume p = ⟨log, .inl s⟩) (x : V.Answer s.op)
      (rest : Follows resume (s.reply x).value xs log' o) :
      Follows resume p (⟨s.op, x⟩ :: xs) (log ++ ((s.reply x).log ++ log')) o

namespace Tree

/-- Answering the steps of a tree in turn leads past the events of the list to a step or a
    value. -/
inductive Path : Tree ν V α → Answers V → List (Event ν) → V.Op ⊕ α → Prop where
  | value (log : List (Event ν)) (a : α) : Path (.ret log a) [] log (.inr a)
  | pending (log : List (Event ν)) (s : Step ν V (Tree ν V α)) : Path (.op log s) [] log (.inl s.op)
  | answered (log : List (Event ν)) (s : Step ν V (Tree ν V α)) (x : V.Answer s.op)
      {xs : Answers V} {log' : List (Event ν)} {o : V.Op ⊕ α}
      (rest : Path (s.reply x).value xs log' o) :
      Path (.op log s) (⟨s.op, x⟩ :: xs) (log ++ ((s.reply x).log ++ log')) o

end Tree

/-- A run by hand is a path down the tree. -/
theorem follows_iff_path {P : Type u} {resume : P → Traced ν (Step ν V P ⊕ α)}
    {D : P → Tree ν V α} (hD : ∀ p, D p = .ofRoot D (resume p)) {p : P} {xs : Answers V}
    {log : List (Event ν)} {o : V.Op ⊕ α} :
    Follows resume p xs log o ↔ (D p).Path xs log o := by
  -- the induction is on the run or on the path; `hD` makes a node of what was resumed, and back
  constructor
  · intro h
    induction h with
    | value h =>
      rw [hD, h]
      exact .value _ _
    | pending h =>
      rw [hD, h]
      exact .pending _ (Step.map D _)
    | @answered p log log' s xs o h x rest ih =>
      rw [hD, h]
      exact .answered log (s.map D) x ih
  · intro h
    generalize ht : D p = t at h
    induction h generalizing p with
    | value log a => exact .value (Tree.ofRoot_eq_ret_iff.2 ((hD p).symm.trans ht))
    | pending log s =>
      obtain ⟨s', h, rfl⟩ := Tree.ofRoot_eq_op_iff.2 ((hD p).symm.trans ht)
      exact .pending h
    | answered log s x rest ih =>
      obtain ⟨s', h, rfl⟩ := Tree.ofRoot_eq_op_iff.2 ((hD p).symm.trans ht)
      exact .answered h x (ih rfl)

namespace Tree

theorem path_ret_iff {l : List (Event ν)} {a : α} {xs : Answers V} {log : List (Event ν)}
    {o : V.Op ⊕ α} : (ret l a).Path xs log o ↔ xs = [] ∧ log = l ∧ o = .inr a := by
  constructor
  · intro h
    cases h
    exact ⟨rfl, rfl, rfl⟩
  · rintro ⟨rfl, rfl, rfl⟩
    exact .value log a

theorem path_step_iff {l : List (Event ν)} {op : V.Op} {said : V.Answer op → List (Event ν)}
    {next : V.Answer op → Tree ν V α} {xs : Answers V} {log : List (Event ν)} {o : V.Op ⊕ α} :
    (step l op said next).Path xs log o ↔
      (xs = [] ∧ log = l ∧ o = .inl op) ∨
      ∃ x ys log', xs = ⟨op, x⟩ :: ys ∧ log = l ++ (said x ++ log') ∧ (next x).Path ys log' o := by
  constructor
  · intro h
    cases h with
    | pending => exact .inl ⟨rfl, rfl, rfl⟩
    | answered _ _ x rest => exact .inr ⟨x, _, _, rfl, rfl, rest⟩
  · rintro (⟨rfl, rfl, rfl⟩ | ⟨x, ys, log', rfl, rfl, h⟩)
    · exact .pending log ⟨op, fun x => ⟨said x, next x⟩⟩
    · exact .answered l ⟨op, fun x => ⟨said x, next x⟩⟩ x h

theorem path_after_iff {l : List (Event ν)} {t : Tree ν V α} {xs : Answers V}
    {log : List (Event ν)} {o : V.Op ⊕ α} :
    (t.after l).Path xs log o ↔ ∃ log', log = l ++ log' ∧ t.Path xs log' o := by
  cases t with
  | ret m a =>
    simp only [after, path_ret_iff]
    constructor
    · rintro ⟨rfl, rfl, rfl⟩
      exact ⟨m, rfl, rfl, rfl, rfl⟩
    · rintro ⟨_, rfl, rfl, rfl, rfl⟩
      exact ⟨rfl, rfl, rfl⟩
  | step m op said next =>
    simp only [after, path_step_iff]
    constructor
    · rintro (⟨rfl, rfl, rfl⟩ | ⟨x, ys, log', rfl, rfl, h⟩)
      · exact ⟨m, rfl, .inl ⟨rfl, rfl, rfl⟩⟩
      · exact ⟨_, List.append_assoc _ _ _, .inr ⟨x, ys, log', rfl, rfl, h⟩⟩
    · rintro ⟨_, rfl, ⟨rfl, rfl, rfl⟩ | ⟨x, ys, log', rfl, rfl, h⟩⟩
      · exact .inl ⟨rfl, rfl, rfl⟩
      · exact .inr ⟨x, ys, log', rfl, (List.append_assoc _ _ _).symm, h⟩

/-- A path down a grafted tree either stops at a step before any leaf, or goes through one leaf
    and on from there. -/
theorem path_bind_iff {t : Tree ν V α} {k : α → Tree ν V β} {xs : Answers V}
    {log : List (Event ν)} {o : V.Op ⊕ β} :
    (t.bind k).Path xs log o ↔
      (∃ op, o = .inl op ∧ t.Path xs log (.inl op)) ∨
      ∃ ys log₁ a zs log₂, xs = ys ++ zs ∧ log = log₁ ++ log₂ ∧ t.Path ys log₁ (.inr a) ∧
        (k a).Path zs log₂ o := by
  induction t generalizing xs log with
  | ret l a =>
    rw [bind, path_after_iff]
    constructor
    · rintro ⟨log', rfl, h⟩
      exact .inr ⟨[], l, a, xs, log', rfl, rfl, path_ret_iff.2 ⟨rfl, rfl, rfl⟩, h⟩
    · rintro (⟨op, rfl, h⟩ | ⟨ys, log₁, b, zs, log₂, rfl, rfl, hb, h⟩)
      · obtain ⟨_, _, h⟩ := path_ret_iff.1 h
        cases h
      · obtain ⟨rfl, rfl, hb⟩ := path_ret_iff.1 hb
        cases hb
        exact ⟨log₂, rfl, h⟩
  | step l op said next ih =>
    -- a path stops at this step, or answers it and is split further down
    rw [bind, path_step_iff]
    constructor
    · rintro (⟨rfl, rfl, rfl⟩ | ⟨x, ys, log', rfl, rfl, h⟩)
      · exact .inl ⟨op, rfl, path_step_iff.2 (.inl ⟨rfl, rfl, rfl⟩)⟩
      · rcases (ih x).1 h with ⟨op', rfl, hx⟩ | ⟨ys, log₁, a, zs, log₂, rfl, rfl, ha, hk⟩
        · exact .inl ⟨op', rfl, path_step_iff.2 (.inr ⟨x, _, _, rfl, rfl, hx⟩)⟩
        · refine .inr ⟨⟨op, x⟩ :: ys, l ++ (said x ++ log₁), a, zs, log₂, rfl, ?_, ?_, hk⟩
          · simp only [List.append_assoc]
          · exact path_step_iff.2 (.inr ⟨x, ys, log₁, rfl, rfl, ha⟩)
    · rintro (⟨op', rfl, h⟩ | ⟨ys, log₁, a, zs, log₂, rfl, rfl, ha, hk⟩)
      · rcases path_step_iff.1 h with ⟨rfl, rfl, hop⟩ | ⟨x, ys, log', rfl, rfl, hx⟩
        · cases hop
          exact .inl ⟨rfl, rfl, rfl⟩
        · exact .inr ⟨x, ys, log', rfl, rfl, (ih x).2 (.inl ⟨op', rfl, hx⟩)⟩
      · rcases path_step_iff.1 ha with ⟨_, _, hval⟩ | ⟨x, ys, log', rfl, rfl, hx⟩
        · cases hval
        · refine .inr ⟨x, ys ++ zs, log' ++ log₂, rfl, ?_, ?_⟩
          · simp only [List.append_assoc]
          · exact (ih x).2 (.inr ⟨ys, log', a, zs, log₂, rfl, rfl, hx, hk⟩)

end Tree

/-! ## Calls of continuations -/

/-- What feeding the value `a` to continuations records, along the answers that the steps of what
    they return are given. The first one is called with `a`, each other one with the value of the
    program that the one before it returned, and none behind a step that is not answered. -/
inductive Calls : {α β : Type} → Front ν V α β → α → Answers V → List (Event ν) → V.Op ⊕ β → Prop
    where
  | done {α : Type} (a : α) : Calls .nil a [] [] (.inr a)
  | pending {α β γ : Type} {k : α → Reached ν V β} {rest : Front ν V β γ} {a : α} {xs : Answers V}
      {log : List (Event ν)} {op : V.Op}
      (h : Follows Program.resume (k a).program xs log (.inl op)) :
      Calls (.cons k rest) a xs ((k a).log ++ log) (.inl op)
  | next {α β γ : Type} {k : α → Reached ν V β} {rest : Front ν V β γ} {a : α} {b : β}
      {xs ys : Answers V} {log log' : List (Event ν)} {o : V.Op ⊕ γ}
      (h : Follows Program.resume (k a).program xs log (.inr b)) (hrest : Calls rest b ys log' o) :
      Calls (.cons k rest) a (xs ++ ys) ((k a).log ++ (log ++ log')) o

theorem calls_iff_path : {α β : Type} → (ks : Front ν V α β) → (a : α) → {xs : Answers V} →
    {log : List (Event ν)} → {o : V.Op ⊕ β} →
    (Calls ks a xs log o ↔ (ks.tree a).Path xs log o)
  | _, _, .nil, a, xs, log, o => by
    rw [Front.tree, Tree.path_ret_iff]
    constructor
    · intro h
      cases h
      exact ⟨rfl, rfl, rfl⟩
    · rintro ⟨rfl, rfl, rfl⟩
      exact .done a
  | _, _, .cons k rest, a, xs, log, o => by
    -- the events of calling `k` come first; then the path goes on into what `k a` returned
    show _ ↔ (((k a).tree.bind rest.tree).after (k a).log).Path xs log o
    rw [Tree.path_after_iff]
    simp only [Tree.path_bind_iff, Reached.tree_eq, ← follows_iff_path Program.tree_eq_ofRoot,
      ← calls_iff_path rest]
    constructor
    · intro h
      cases h with
      | pending h => exact ⟨_, rfl, .inl ⟨_, rfl, h⟩⟩
      | next h hrest => exact ⟨_, rfl, .inr ⟨_, _, _, _, _, rfl, rfl, h, hrest⟩⟩
    · rintro ⟨_, rfl, ⟨op, rfl, h⟩ | ⟨ys, log₁, b, zs, log₂, rfl, rfl, h, hrest⟩⟩
      · exact .pending h
      · exact .next h hrest

/-- A run by hand of a program with continuations attached is a run of the program, which either
    stops at a step, with no continuation called, or gives a value that is fed to them. -/
theorem follows_chain_iff (m : Program ν V α) (ks : Front ν V α β) {xs : Answers V}
    {log : List (Event ν)} {o : V.Op ⊕ β} :
    Follows Program.resume (m.chain ks) xs log o ↔
      (∃ op, o = .inl op ∧ Follows Program.resume m xs log (.inl op)) ∨
      ∃ ys log₁ a zs log₂, xs = ys ++ zs ∧ log = log₁ ++ log₂ ∧
        Follows Program.resume m ys log₁ (.inr a) ∧ Calls ks a zs log₂ o := by
  simp only [follows_iff_path Program.tree_eq_ofRoot, Program.tree_chain, Tree.path_bind_iff,
    calls_iff_path]

/-- **The queue keeps the order of evaluation.** One recipe built with queues and built with pairs
    records nothing while it is built but what its maker maps over payloads that are there, and
    gives programs in lockstep, so that every run by hand records the same in both. And along any
    run of a program with a chain of continuations, each continuation that is reached is called
    once, in order, with the value of what comes before it. -/
theorem evaluation_order :
    (∀ {α : Type} (r : Recipe ν V α),
      (r.build Program.builders).log = r.mapped ∧
      (r.build Paired.builders).log = r.mapped ∧
      InLockstep (r.build Program.builders).value (r.build Paired.builders).value ∧
      ∀ (xs : Answers V) (log : List (Event ν)) (o : V.Op ⊕ α),
        Follows Program.resume (r.build Program.builders).value xs log o ↔
          Follows Paired.resume (r.build Paired.builders).value xs log o) ∧
    (∀ {α β : Type} (m : Program ν V α) (ks : Front ν V α β) (xs : Answers V)
      (log : List (Event ν)) (o : V.Op ⊕ β),
      Follows Program.resume (m.chain ks) xs log o ↔
        (∃ op, o = .inl op ∧ Follows Program.resume m xs log (.inl op)) ∨
        ∃ ys log₁ a zs log₂, xs = ys ++ zs ∧ log = log₁ ++ log₂ ∧
          Follows Program.resume m ys log₁ (.inr a) ∧ Calls ks a zs log₂ o) := by
  constructor
  · intro α r
    have htree := r.tree_build_eq
    refine ⟨r.log_build _, r.log_build _, inLockstep_of_tree_eq htree, fun xs log o => ?_⟩
    rw [follows_iff_path Program.tree_eq_ofRoot, htree, follows_iff_path Paired.tree_eq_ofRoot]
  · intro α β m ks xs log o
    exact follows_chain_iff m ks

end FreeMonad
