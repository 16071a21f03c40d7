import FreeMonad.Program.Resume

set_option autoImplicit false

/-! # The meaning of a program

A program means a tree: a value, or a step with one subtree for each answer. Each node keeps the
events recorded on the way to it, and a step also keeps what is recorded when it is answered, so
two programs with one tree agree in their steps, their values and their order of evaluation.

`Program.tree` is defined by structure alone, with no loop. The main statement is
`Program.tree_eq_ofRoot`: resuming a program shows the root of its tree, and the payload of
the step, answered, has the subtree of that answer. -/

namespace FreeMonad

universe u

/-- A value, or a step with one subtree for each answer, and the events recorded on the way. -/
inductive Tree (ν : Type) (V : Vocabulary) (α : Type) : Type where
  /-- The value, after the events `log`. -/
  | ret (log : List (Event ν)) (value : α)
  /-- The step `op`, after the events `log`; the answer `x` records `said x` and leads to
      `next x`. -/
  | step (log : List (Event ν)) (op : V.Op) (said : V.Answer op → List (Event ν))
      (next : V.Answer op → Tree ν V α)

variable {ν : Type} {V : Vocabulary} {α β γ : Type}

namespace Tree

/-- Puts `events` before everything the tree records. -/
def after (events : List (Event ν)) : Tree ν V α → Tree ν V α
  | ret log a => ret (events ++ log) a
  | step log op said next => step (events ++ log) op said next

/-- Grafts the tree `k a` onto every leaf `a`. -/
def bind (t : Tree ν V α) (k : α → Tree ν V β) : Tree ν V β :=
  match t with
  | ret log a => (k a).after log
  | step log op said next => step log op said fun x => (next x).bind k

@[simp] theorem after_nil (t : Tree ν V α) : t.after [] = t := by cases t <;> rfl

@[simp] theorem after_after (l m : List (Event ν)) (t : Tree ν V α) :
    (t.after m).after l = t.after (l ++ m) := by
  cases t <;> simp [after]

@[simp] theorem bind_after (l : List (Event ν)) (t : Tree ν V α) (k : α → Tree ν V β) :
    (t.after l).bind k = (t.bind k).after l := by
  cases t with
  | ret m a => exact (after_after l m (k a)).symm
  | step m op said next => rfl

@[simp] theorem ret_bind (a : α) (k : α → Tree ν V β) : (ret [] a).bind k = k a := after_nil _

@[simp] theorem bind_ret (t : Tree ν V α) : t.bind (ret []) = t := by
  induction t with
  | ret log a => simp [bind, after]
  | step log op said next ih => simp [bind, ih]

theorem bind_assoc (t : Tree ν V α) (k : α → Tree ν V β) (l : β → Tree ν V γ) :
    (t.bind k).bind l = t.bind fun a => (k a).bind l := by
  induction t with
  | ret log a => simp [bind]
  | step log op said next ih => simp [bind, ih]

/-- The subtrees that the answers to the root lead to. -/
inductive Child : Tree ν V α → Tree ν V α → Prop where
  | mk (log : List (Event ν)) (op : V.Op) (said : V.Answer op → List (Event ν))
      (next : V.Answer op → Tree ν V α) (x : V.Answer op) : Child (next x) (step log op said next)

/-- Every way down a tree ends. -/
theorem child_wellFounded : WellFounded (Child : Tree ν V α → Tree ν V α → Prop) := by
  refine ⟨fun t => ?_⟩
  induction t with
  | ret log a => exact ⟨_, nofun⟩
  | step log op said next ih => exact ⟨_, fun _ child => by cases child with | mk => exact ih _⟩

end Tree

/-! ## The tree of a program -/

mutual

/-- The tree that a program means. -/
def Program.tree : {α : Type} → Program ν V α → Tree ν V α
  | _, .pure a => .ret [] a
  | _, .suspend op reply => .step [] op (fun x => (reply x).log) fun x => (reply x).tree
  | _, .compose head queue => ((head ()).tree.bind queue.tree).after (head ()).log

/-- The tree of the program reached, without the events on the way to it. -/
def Reached.tree : {α : Type} → Reached ν V α → Tree ν V α
  | _, .mk _ p => p.tree

/-- The tree that the continuations of a queue give for each argument. -/
def Queue.tree : {α β : Type} → Queue ν V α β → α → Tree ν V β
  | _, _, .mk _ front back => fun a => (front.tree a).bind back.tree

/-- The tree that continuations in order give for each argument. -/
def Front.tree : {α β : Type} → Front ν V α β → α → Tree ν V β
  | _, _, .nil => fun a => .ret [] a
  | _, _, .cons k rest => fun a => ((k a).tree.bind rest.tree).after (k a).log

/-- The tree that continuations written from the end give for each argument. -/
def Back.tree : {α β : Type} → Back ν V α β → α → Tree ν V β
  | _, _, .nil => fun a => .ret [] a
  | _, _, .snoc rest k => fun a => (rest.tree a).bind fun b => (k b).tree.after (k b).log

end

theorem Reached.tree_eq (r : Reached ν V α) : r.tree = r.program.tree := by
  cases r; rfl

theorem Front.tree_append : {α β γ : Type} → (f : Front ν V α β) → (g : Front ν V β γ) →
    (a : α) → (f.append g).tree a = (f.tree a).bind g.tree
  | _, _, _, .nil, g, a => by simp [append, tree]
  | _, _, _, .cons k rest, g, a => by
    simp only [append, tree, Tree.bind_after, Tree.bind_assoc]
    exact congrArg (fun t => ((k a).tree.bind t).after (k a).log)
      (funext fun b => tree_append rest g b)

theorem Back.tree_onto : {α β γ : Type} → (b : Back ν V α β) → (f : Front ν V β γ) → (a : α) →
    (b.onto f).tree a = (b.tree a).bind f.tree
  | _, _, _, .nil, f, a => by simp [onto, tree]
  | _, _, _, .snoc rest k, f, a => by
    simp only [onto, tree, tree_onto rest, Tree.bind_assoc, Front.tree, Tree.bind_after]

/-- A queue means what its contents mean, however they are laid out. -/
theorem Queue.tree_eq (q : Queue ν V α β) : q.tree = q.contents.tree := by
  cases q with
  | mk n front back =>
    funext a
    simp only [tree, contents, Front.tree_append]
    refine congrArg (Tree.bind _) (funext fun b => ?_)
    rw [Back.tree_onto]
    exact (Tree.bind_ret _).symm

/-! ## Resuming shows the root of the tree -/

namespace Tree

/-- The step `s`, whose payload is a tree, after the events `log`. -/
def op (log : List (Event ν)) (s : Step ν V (Tree ν V α)) : Tree ν V α :=
  .step log s.op (fun x => (s.reply x).log) fun x => (s.reply x).value

/-- The tree of something that was resumed, if `D` gives the trees of payloads. -/
def ofRoot {P : Type u} (D : P → Tree ν V α) (m : Traced ν (Step ν V P ⊕ α)) : Tree ν V α :=
  match m.value with
  | .inl s => .op m.log (s.map D)
  | .inr a => .ret m.log a

end Tree

namespace Program

theorem tree_value_resumed (queue : Queue ν V α β) (r : Reached ν V α) :
    (resumed queue r).value.tree = r.tree.bind queue.contents.tree := by
  simp [resumed, tree, Reached.quietly, Reached.tree_eq, Queue.tree_eq]

/-- The loop computes the tree of its program grafted with that of its queue. -/
theorem ofRoot_normalize (recorded : List (Event ν)) (current : Program ν V α)
    (queue : Queue ν V α β) : Tree.ofRoot Program.tree (normalize recorded current queue) =
      (current.tree.bind queue.contents.tree).after recorded.reverse := by
  fun_induction normalize recorded current queue with
  | case1 _ recorded a queue _ same _ =>
    rw [← same]
    simp [Tree.ofRoot, tree, Queue.View.contents, Front.tree, Tree.after]
  | case2 _ recorded a _ _ k rest r queue same _ _ ih =>
    rw [ih, ← same]
    simp [tree, Queue.View.contents, Front.tree, Reached.tree_eq, r]
  | case3 _ _ recorded queue op reply =>
    -- the payload of the step is wrapped again, with the queue behind it
    have hpayload : (fun x => (resumed queue (reply x)).value.tree)
        = fun x => (reply x).tree.bind queue.contents.tree :=
      funext fun x => tree_value_resumed queue (reply x)
    show Tree.step recorded.reverse op (fun x => (reply x).log) _ = _
    simp only [tree, Tree.bind, Tree.after, List.append_nil]
    exact congrArg _ hpayload
  | case4 _ _ recorded queue _ head inner r ih =>
    rw [ih, Queue.contents_prepend, funext (Front.tree_append inner.contents queue.contents)]
    simp [tree, Reached.tree_eq, Queue.tree_eq, Tree.bind_assoc, r]

/-- Resuming a program shows the root of its tree: the same events, the same value or step, and
    after each answer a program with the subtree of that answer. -/
theorem tree_eq_ofRoot (p : Program ν V α) : p.tree = .ofRoot Program.tree p.resume := by
  cases p with
  | pure a => rfl
  | suspend op reply =>
    have hpayload : (fun x => (reply x).tree) = fun x => (reply x).program.tree :=
      funext fun x => (reply x).tree_eq
    rw [tree, hpayload]
    rfl
  | compose head queue =>
    rw [tree, resume, ofRoot_normalize, Reached.tree_eq, Queue.tree_eq, List.reverse_reverse]

/-- The payload of a resumed step has a subtree of the program's tree. -/
theorem child_of_resume {p : Program ν V α} {s : Step ν V (Program ν V α)}
    (h : p.resume.value = .inl s) (x : V.Answer s.op) :
    Tree.Child (s.reply x).value.tree p.tree := by
  rw [p.tree_eq_ofRoot, Tree.ofRoot, h]
  exact .mk p.resume.log s.op (fun x => (s.reply x).log) (fun x => (s.reply x).value.tree) x

end Program

end FreeMonad
