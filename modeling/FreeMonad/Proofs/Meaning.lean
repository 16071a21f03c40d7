import FreeMonad.Program.Tree
import FreeMonad.Proofs.Builders

set_option autoImplicit false

/-! # Programs and the trees they mean

Trees have the builders of programs too: a value, a step whose payload is a tree, and grafting.
`Program.tree` respects all of them (`Program.tree_hom`), whatever the queue of continuations
looks like inside, so a program built in any way means what the calls that built it say. And
resuming a program shows the root of its tree, with the rest of the tree in the payload of the
step (`Program.resume_eq_value_iff`, `Program.resume_eq_step_iff`). -/

namespace FreeMonad

universe u

variable {ν : Type} {V : Vocabulary} {α β γ : Type}

/-! ## Trees are built like programs -/

namespace Tree

/-- A tree and the events on the way to it as one tree. -/
def reached (m : Traced ν (Tree ν V α)) : Tree ν V α := m.value.after m.log

/-- The result of a function as a tree. -/
def result (m : Traced ν α) : Tree ν V α := .ret m.log m.value

/-- Grafts the trees of continuations, one after the other, onto a tree. -/
def bindAll : {α β : Type} → Tree ν V α → Front ν V α β → Tree ν V β
  | _, _, t, .nil => t
  | _, _, t, .cons k rest => (t.bind fun a => (k a).tree.after (k a).log).bindAll rest

/-- The textbook's builders: values, steps and grafting. -/
def builders : Builders ν V (Tree ν V) where
  pure a := .ret [] a
  ofStep s := .op [] s
  lift s := .op [] (s.map (.ret []))
  defer build := reached (build ())
  flatMap t k := t.bind fun a => reached (k a)
  map f t := t.bind fun a => result (f a)
  andThen t u := t.bind fun _ => u
  map2 f t u := t.bind fun a => u.bind fun b => result (f a b)
  apply t u := t.bind fun f => u.bind fun a => result (f a)

theorem reached_pure (t : Tree ν V α) : reached (.pure t) = t := after_nil t

@[simp] theorem result_pure (a : α) : (result (.pure a) : Tree ν V α) = ret [] a := rfl

theorem result_bind (m : Traced ν α) (k : α → Tree ν V β) :
    (result m).bind k = (k m.value).after m.log := rfl

/-- The result of two functions in sequence. -/
@[simp] theorem result_bind_result (m : Traced ν α) (f : α → Traced ν β) :
    (result m : Tree ν V α).bind (fun a => result (f a)) = result (m.bind f) := rfl

theorem builders_derived : (builders : Builders ν V (Tree ν V)).Derived where
  map f t := by
    refine congrArg t.bind (funext fun a => ?_)
    show ret (f a).log (f a).value = ret ((f a).log ++ []) (f a).value
    rw [List.append_nil]
  andThen t u := congrArg t.bind (funext fun _ => (reached_pure u).symm)
  map2 f t u := congrArg t.bind (funext fun _ => (reached_pure _).symm)
  apply t u := congrArg t.bind (funext fun _ => (reached_pure _).symm)

theorem bindAll_eq : {α β : Type} → (t : Tree ν V α) → (f : Front ν V α β) →
    t.bindAll f = t.bind f.tree
  | _, _, t, .nil => by
    rw [bindAll]
    exact (bind_ret t).symm
  | _, _, t, .cons k rest => by
    rw [bindAll, bindAll_eq, bind_assoc]
    simp only [bind_after]
    rfl

end Tree

/-! ## The trees of what is built -/

/-- A composition without continuations means what its head means. -/
theorem Program.tree_compose_empty (head : Unit → Reached ν V α) :
    (Program.compose head .empty).tree = (head ()).tree.after (head ()).log := by
  rw [tree, Queue.tree_eq]
  exact congrArg _ (Tree.bind_ret _)

mutual

/-- Holding a program leaves its tree as it is. -/
theorem Program.tree_held : {α : Type} → (p : Program ν V α) → p.held.tree = p.tree
  | _, .pure _ => rfl
  | _, .suspend op reply => by
    have hlog : (fun x => (reply x).held.log) = fun x => (reply x).log :=
      funext fun x => Reached.log_held (reply x)
    have htree : (fun x => (reply x).held.tree) = fun x => (reply x).tree :=
      funext fun x => Reached.tree_held (reply x)
    rw [Program.held, Program.tree_compose_empty, Reached.quietly, Reached.tree, Reached.log_mk,
      Tree.after_nil, Program.tree, Program.tree, hlog, htree]
  | _, .compose _ _ => rfl
termination_by structural _ p => p

theorem Reached.tree_held : {α : Type} → (r : Reached ν V α) → r.held.tree = r.tree
  | _, .mk _ p => Program.tree_held p
termination_by structural _ r => r

end

theorem Queue.tree_push (q : Queue ν V α β) (k : β → Reached ν V γ) :
    (q.push k).tree = fun a => (q.tree a).bind fun b => (k b).tree.after (k b).log := by
  have hk : (Front.cons k .nil).tree = fun b => (k b).tree.after (k b).log := by
    funext b
    rw [Front.tree]
    exact congrArg _ (Tree.bind_ret _)
  funext a
  rw [tree_eq, contents_push, Front.tree_append, hk, tree_eq q]

namespace Program

/-- A composition whose head is a program that was built already. -/
theorem tree_compose_quietly (p : Program ν V α) (queue : Queue ν V α β) :
    (compose (fun _ => .quietly p) queue).tree = p.tree.bind queue.tree := by
  rw [tree]
  exact Tree.after_nil _

/-- Attaching a continuation grafts its trees, whatever the program is. -/
theorem tree_attach (p : Program ν V α) (k : α → Reached ν V β) :
    (p.attach k).tree = p.tree.bind fun a => (k a).tree.after (k a).log := by
  -- all but a composition get a queue of this one continuation
  have hempty : (Queue.empty.push k).tree = fun a => (k a).tree.after (k a).log := by
    rw [Queue.tree_push, Queue.tree_eq]
    exact funext fun a => Tree.ret_bind a _
  cases p with
  | pure a => rw [attach, tree_compose_quietly, hempty]
  | suspend op reply =>
    have hheld : (suspend op fun x => (reply x).held).tree = (suspend op reply).tree := by
      simp only [tree, Reached.log_held, Reached.tree_held]
    rw [attach, tree_compose_quietly, hempty, hheld]
  | compose head queue => rw [attach, tree, tree, Queue.tree_push, Tree.bind_after, Tree.bind_assoc]

theorem tree_ofStep (s : Step ν V (Program ν V α)) :
    (ofStep s).tree = .op [] (s.map Program.tree) := by
  simp only [ofStep, tree, Reached.log_ofTraced, Reached.tree_eq, Reached.program_ofTraced]
  rfl

theorem tree_lift (s : Step ν V α) : (lift s).tree = .op [] (s.map (.ret [])) := by
  rw [lift, tree_ofStep, Step.map_map]
  rfl

theorem tree_defer (build : Unit → Traced ν (Program ν V α)) :
    (defer build).tree = .reached ((build ()).map Program.tree) := by
  rw [defer, tree_compose_empty, Reached.tree_held, Reached.log_held]
  rfl

theorem tree_flatMap (p : Program ν V α) (k : α → Traced ν (Program ν V β)) :
    (p.flatMap k).tree = p.tree.bind fun a => .reached ((k a).map Program.tree) := by
  rw [flatMap, tree_attach]
  simp only [Reached.tree_held, Reached.log_held]
  rfl

/-- Programs mean what their builders mean for trees. -/
theorem tree_hom : Program.builders.Hom Tree.builders (Program.tree (ν := ν) (V := V)) :=
  .of_derived builders_derived Tree.builders_derived (fun _ => rfl) tree_ofStep tree_lift tree_defer
    tree_flatMap

theorem tree_map (f : α → Traced ν β) (p : Program ν V α) :
    (p.map f).tree = p.tree.bind fun a => .result (f a) :=
  tree_hom.map f p

theorem tree_andThen (p : Program ν V α) (q : Program ν V β) :
    (p.andThen q).tree = p.tree.bind fun _ => q.tree :=
  tree_hom.andThen p q

theorem tree_map2 (f : α → β → Traced ν γ) (p : Program ν V α) (q : Program ν V β) :
    (map2 f p q).tree = p.tree.bind fun a => q.tree.bind fun b => .result (f a b) :=
  tree_hom.map2 f p q

theorem tree_apply (p : Program ν V (α → Traced ν β)) (q : Program ν V α) :
    (p.apply q).tree = p.tree.bind fun f => q.tree.bind fun a => .result (f a) :=
  tree_hom.apply p q

/-- A composition means the tree of its head with the trees of all its continuations grafted on,
    in order. -/
theorem tree_compose (head : Unit → Reached ν V α) (queue : Queue ν V α β) :
    (Program.compose head queue).tree
      = ((head ()).tree.after (head ()).log).bindAll queue.contents := by
  rw [tree, Queue.tree_eq, Tree.bindAll_eq, Tree.bind_after]

end Program

/-! ## Resuming shows the root of the tree -/

namespace Tree

variable {P : Type u} {D : P → Tree ν V α} {m : Traced ν (Step ν V P ⊕ α)}
  {log log' : List (Event ν)}

theorem op_inj {s t : Step ν V (Tree ν V α)} : op log s = op log' t ↔ log = log' ∧ s = t := by
  constructor
  · intro h
    obtain ⟨o, reply⟩ := s
    obtain ⟨o', reply'⟩ := t
    simp only [op, step.injEq] at h
    obtain ⟨rfl, rfl, hsaid, hnext⟩ := h
    refine ⟨rfl, congrArg (Step.mk o) (funext fun x => ?_)⟩
    have hlog := congrFun (eq_of_heq hsaid) x
    have htree := congrFun (eq_of_heq hnext) x
    exact Traced.ext hlog htree
  · rintro ⟨rfl, rfl⟩
    rfl

theorem ofRoot_after (l : List (Event ν)) : ofRoot D (m.after l) = (ofRoot D m).after l := by
  obtain ⟨l', o⟩ := m
  cases o <;> rfl

theorem ofRoot_eq_ret_iff {a : α} : m = ⟨log, .inr a⟩ ↔ ofRoot D m = .ret log a := by
  obtain ⟨l, o⟩ := m
  cases o with
  | inl s => simp [ofRoot, op]
  | inr b => simp [ofRoot]

theorem ofRoot_eq_op_iff {t : Step ν V (Tree ν V α)} :
    (∃ s, m = ⟨log, .inl s⟩ ∧ s.map D = t) ↔ ofRoot D m = .op log t := by
  obtain ⟨l, o⟩ := m
  cases o with
  | inr b => simp [ofRoot, op]
  | inl s =>
    rw [ofRoot, op_inj]
    constructor
    · rintro ⟨s', h, rfl⟩
      cases h
      exact ⟨rfl, rfl⟩
    · rintro ⟨rfl, rfl⟩
      exact ⟨s, rfl, rfl⟩

end Tree

namespace Program

/-- A program resumes to a value exactly if its tree is that value. -/
theorem resume_eq_value_iff (p : Program ν V α) (log : List (Event ν)) (a : α) :
    p.resume = ⟨log, .inr a⟩ ↔ p.tree = .ret log a := by
  rw [tree_eq_ofRoot]
  exact Tree.ofRoot_eq_ret_iff

/-- A program resumes to a step exactly if its tree is one of that step, and the payload of the
    step is a program that means the payload of the tree. -/
theorem resume_eq_step_iff (p : Program ν V α) (log : List (Event ν))
    (t : Step ν V (Tree ν V α)) :
    (∃ s, p.resume = ⟨log, .inl s⟩ ∧ s.map Program.tree = t) ↔ p.tree = .op log t := by
  rw [tree_eq_ofRoot]
  exact Tree.ofRoot_eq_op_iff

/-- **The queue of continuations is faithful to the tree.** The tree of a program is made by the
    textbook's builders wherever the program is made by its own, in compositions with any queue
    and in recipes nested in any way; and resuming shows exactly the root of the tree. -/
theorem tree_adequate :
    (Program.builders : Builders ν V (Program ν V)).Hom Tree.builders Program.tree ∧
    (∀ {α β : Type} (head : Unit → Reached ν V α) (queue : Queue ν V α β),
      (compose head queue).tree
        = ((head ()).tree.after (head ()).log).bindAll queue.contents) ∧
    (∀ {α : Type} (r : Recipe ν V α),
      (r.build Program.builders).map Program.tree = r.build Tree.builders) ∧
    (∀ {α : Type} (p : Program ν V α) (log : List (Event ν)) (a : α),
      p.resume = ⟨log, .inr a⟩ ↔ p.tree = .ret log a) ∧
    (∀ {α : Type} (p : Program ν V α) (log : List (Event ν)) (t : Step ν V (Tree ν V α)),
      (∃ s, p.resume = ⟨log, .inl s⟩ ∧ s.map Program.tree = t) ↔ p.tree = .op log t) := by
  refine ⟨tree_hom, tree_compose, fun r => tree_hom.map_build r, ?_, ?_⟩
  · intro α p log a
    exact resume_eq_value_iff p log a
  · intro α p log t
    exact resume_eq_step_iff p log t

end Program

end FreeMonad
