import FreeMonad.Proofs.Meaning

set_option autoImplicit false

/-! # Compositions as pairs

The plain way to represent a composition is a pair: a thunk of the first program and one
continuation, which takes its result to the rest. Attaching a continuation to a pair moves it
inside, behind the continuation that is there already, so nothing that was attached before is
looked at again; and normalizing turns nested pairs around until a value or a step shows.

Here programs are built and resumed in this way, without any queue. Like programs with queues,
they mean trees: `Paired.tree` respects the builders (`Paired.tree_hom`), and resuming shows the
root of the tree (`Paired.tree_eq_ofRoot`). The normalizer ends because programs are well
founded: turning a pair around leads to a continuation's result or into the first program. -/

namespace FreeMonad

universe u

mutual

/-- A program whose compositions are pairs. -/
inductive Paired (ν : Type) (V : Vocabulary) : Type → Type 1 where
  /-- A finished program. -/
  | pure {α : Type} (value : α) : Paired ν V α
  /-- One pending step; answering it reaches the rest of the program. -/
  | suspend {α : Type} (op : V.Op) (reply : V.Answer op → PairedReached ν V α) : Paired ν V α
  /-- The program `first` and the continuation of its result. -/
  | bind {α β : Type} (first : Unit → PairedReached ν V α) (next : α → PairedReached ν V β) :
      Paired ν V β

/-- A program and the events recorded on the way to it, oldest first. -/
inductive PairedReached (ν : Type) (V : Vocabulary) : Type → Type 1 where
  | mk {α : Type} (log : List (Event ν)) (program : Paired ν V α) : PairedReached ν V α

end

variable {ν : Type} {V : Vocabulary} {α β γ : Type}

namespace PairedReached

/-- The events recorded on the way. -/
def log : {α : Type} → PairedReached ν V α → List (Event ν)
  | _, .mk log _ => log

/-- The program reached. -/
def program : {α : Type} → PairedReached ν V α → Paired ν V α
  | _, .mk _ program => program

/-- A program reached without any event. -/
def quietly (p : Paired ν V α) : PairedReached ν V α := .mk [] p

/-- The value of a traced computation of a program. -/
def ofTraced (m : Traced ν (Paired ν V α)) : PairedReached ν V α := .mk m.log m.value

/-- A reached program as a traced value. -/
def toTraced (r : PairedReached ν V α) : Traced ν (Paired ν V α) := ⟨r.log, r.program⟩

@[simp] theorem log_mk (l : List (Event ν)) (p : Paired ν V α) : (mk l p).log = l := rfl
@[simp] theorem program_mk (l : List (Event ν)) (p : Paired ν V α) : (mk l p).program = p := rfl
@[simp] theorem log_quietly (p : Paired ν V α) : (quietly p).log = [] := rfl
@[simp] theorem program_quietly (p : Paired ν V α) : (quietly p).program = p := rfl

end PairedReached

/-! ## Building -/

namespace Paired

/-- Attaches a continuation. In a pair it goes behind the one that is there: that one is called
    when its argument is known, as the first program of a new pair. -/
def attach : {α β : Type} → Paired ν V α → (α → PairedReached ν V β) → Paired ν V β
  | _, _, .pure a, k => .bind (fun _ => .quietly (.pure a)) k
  | _, _, .suspend op reply, k => .bind (fun _ => .quietly (.suspend op reply)) k
  | _, _, .bind first next, k => .bind first fun a => .quietly (.bind (fun _ => next a) k)

/-- A program of one step whose payload is the program to go on with. -/
def ofStep (s : Step ν V (Paired ν V α)) : Paired ν V α :=
  .suspend s.op fun x => .ofTraced (s.reply x)

/-- A program that is only built when it is reached. -/
def defer (build : Unit → Traced ν (Paired ν V α)) : Paired ν V α :=
  .bind (fun _ => .ofTraced (build ())) fun a => .quietly (.pure a)

/-- Feeds the result of a program to a continuation. -/
def flatMap (p : Paired ν V α) (k : α → Traced ν (Paired ν V β)) : Paired ν V β :=
  p.attach fun a => .ofTraced (k a)

/-- Applies a function to the result. -/
def map (f : α → Traced ν β) (p : Paired ν V α) : Paired ν V β :=
  p.flatMap fun a => (f a).map .pure

/-- The builders of pairs; all but the first, `ofStep`, `defer` and `flatMap` are derived. -/
def builders : Builders ν V (Paired ν V) where
  pure := .pure
  ofStep := ofStep
  lift s := ofStep (s.map .pure)
  defer := defer
  flatMap := flatMap
  map := map
  andThen p q := p.flatMap fun _ => .pure q
  map2 f p q := p.flatMap fun a => .pure (q.map (f a))
  apply p q := p.flatMap fun f => .pure (q.map f)

end Paired

/-- The program reached with a continuation attached to it. -/
def PairedReached.attach (r : PairedReached ν V α) (k : α → PairedReached ν V β) :
    PairedReached ν V β :=
  .mk r.log (r.program.attach k)

/-! ## Normalizing -/

namespace Paired

/-- What the normalizer goes on with after a pair: what the continuation returns for the value of
    the first program, or the first program's own pair turned around. -/
inductive Below : Paired ν V β → Paired ν V β → Prop where
  | value {α : Type} (first : Unit → PairedReached ν V α) (next : α → PairedReached ν V β) (a : α)
      (h : (first ()).program = .pure a) : Below (next a).program (.bind first next)
  | nested {α γ : Type} (first : Unit → PairedReached ν V α) (next : α → PairedReached ν V β)
      (first' : Unit → PairedReached ν V γ) (next' : γ → PairedReached ν V α)
      (h : (first ()).program = .bind first' next') :
      Below (.bind first' fun c => (next' c).attach next) (.bind first next)

private theorem acc_bind_pure {first : Unit → PairedReached ν V α}
    {next : α → PairedReached ν V β} {a : α} (h : (first ()).program = .pure a)
    (hnext : Acc Below (next a).program) : Acc Below (.bind first next) := by
  refine ⟨_, fun p below => ?_⟩
  cases below with
  | value first next a' h' =>
    cases h.symm.trans h'
    exact hnext
  | nested first next first' next' h' => exact nomatch h.symm.trans h'

private theorem acc_bind_suspend {first : Unit → PairedReached ν V α}
    {next : α → PairedReached ν V β} {op : V.Op} {reply : V.Answer op → PairedReached ν V α}
    (h : (first ()).program = .suspend op reply) : Acc Below (.bind first next) := by
  refine ⟨_, fun p below => ?_⟩
  cases below with
  | value first next a' h' => exact nomatch h.symm.trans h'
  | nested first next first' next' h' => exact nomatch h.symm.trans h'

private theorem acc_bind_bind {first : Unit → PairedReached ν V α}
    {next : α → PairedReached ν V β} {first' : Unit → PairedReached ν V γ}
    {next' : γ → PairedReached ν V α} (h : (first ()).program = .bind first' next')
    (hturned : Acc Below (.bind first' fun c => (next' c).attach next)) :
    Acc Below (.bind first next) := by
  refine ⟨_, fun p below => ?_⟩
  cases below with
  | value first next a' h' => exact nomatch h.symm.trans h'
  | nested first next first'' next'' h' =>
    cases h.symm.trans h'
    exact hturned

end Paired

-- Turning a pair around makes continuations that no program holds, so the induction is on the
-- first program, for every continuation whose results are accessible: of a pair with such a
-- continuation, and of a program to which such a continuation is attached.
mutual

private theorem Paired.acc_bind : {α : Type} → (p : Paired ν V α) → {β : Type} →
    (next : α → PairedReached ν V β) → (∀ a, Acc Paired.Below (next a).program) →
    (first : Unit → PairedReached ν V α) → (first ()).program = p →
    Acc Paired.Below (.bind first next)
  | _, .pure a, _, _, ready, _, h => Paired.acc_bind_pure h (ready a)
  | _, .suspend _ _, _, _, _, _, h => Paired.acc_bind_suspend h
  | _, .bind first' next', _, next, ready, _, h =>
    Paired.acc_bind_bind h <| PairedReached.acc_bind (first' ()) _
      (fun c => PairedReached.acc_attach (next' c) next ready) first' rfl
termination_by structural _ p => p

private theorem PairedReached.acc_bind : {α : Type} → (r : PairedReached ν V α) → {β : Type} →
    (next : α → PairedReached ν V β) → (∀ a, Acc Paired.Below (next a).program) →
    (first : Unit → PairedReached ν V α) → first () = r → Acc Paired.Below (.bind first next)
  | _, .mk _ p, _, next, ready, first, h =>
    Paired.acc_bind p next ready first (congrArg PairedReached.program h)
termination_by structural _ r => r

private theorem Paired.acc_attach : {α : Type} → (p : Paired ν V α) → {β : Type} →
    (next : α → PairedReached ν V β) → (∀ a, Acc Paired.Below (next a).program) →
    Acc Paired.Below (p.attach next)
  | _, .pure a, _, _, ready => Paired.acc_bind_pure rfl (ready a)
  | _, .suspend _ _, _, _, _ => Paired.acc_bind_suspend rfl
  | _, .bind first' next', _, next, ready =>
    PairedReached.acc_bind (first' ()) _
      (fun a => PairedReached.acc_bind (next' a) next ready (fun _ => next' a) rfl) first' rfl
termination_by structural _ p => p

private theorem PairedReached.acc_attach : {α : Type} → (r : PairedReached ν V α) → {β : Type} →
    (next : α → PairedReached ν V β) → (∀ a, Acc Paired.Below (next a).program) →
    Acc Paired.Below (r.attach next).program
  | _, .mk _ p, _, next, ready => Paired.acc_attach p next ready
termination_by structural _ r => r

end

mutual

private theorem Paired.acc : {α : Type} → (p : Paired ν V α) → Acc Paired.Below p
  | _, .pure _ => ⟨_, nofun⟩
  | _, .suspend _ _ => ⟨_, nofun⟩
  | _, .bind first next =>
    PairedReached.acc_bind (first ()) next (fun a => PairedReached.acc (next a)) first rfl
termination_by structural _ p => p

private theorem PairedReached.acc : {α : Type} → (r : PairedReached ν V α) →
    Acc Paired.Below r.program
  | _, .mk _ p => Paired.acc p
termination_by structural _ r => r

end

namespace Paired

/-- Normalizing has no infinite descent. -/
theorem below_wellFounded : WellFounded (Below : Paired ν V α → Paired ν V α → Prop) := ⟨acc⟩

instance : WellFoundedRelation (Paired ν V α) := ⟨Below, below_wellFounded⟩

/-- Evaluates a program up to its value or its next step. The payload of the step is the rest of
    the program. -/
def resume {β : Type} (p : Paired ν V β) : Traced ν (Step ν V (Paired ν V β) ⊕ β) :=
  match p with
  | .pure b => .pure (.inr b)
  | .suspend op reply => .pure (.inl ⟨op, fun x => (reply x).toTraced⟩)
  | .bind first next =>
    match _h : (first ()).program with
    | .pure a => (resume (next a).program).after ((first ()).log ++ (next a).log)
    | .suspend op reply =>
      ⟨(first ()).log, .inl ⟨op, fun x => ((reply x).attach next).toTraced⟩⟩
    | .bind first' next' =>
      (resume (.bind first' fun c => (next' c).attach next)).after (first ()).log
termination_by p
decreasing_by
  · exact .value first next a _h
  · exact .nested first next first' next' _h

end Paired

/-! ## The tree of a pair -/

mutual

/-- The tree that a program means. -/
def Paired.tree : {α : Type} → Paired ν V α → Tree ν V α
  | _, .pure a => .ret [] a
  | _, .suspend op reply => .step [] op (fun x => (reply x).log) fun x => (reply x).tree
  | _, .bind first next =>
    ((first ()).tree.bind fun a => (next a).tree.after (next a).log).after (first ()).log

/-- The tree of the program reached, without the events on the way to it. -/
def PairedReached.tree : {α : Type} → PairedReached ν V α → Tree ν V α
  | _, .mk _ p => p.tree

end

theorem PairedReached.tree_eq (r : PairedReached ν V α) : r.tree = r.program.tree := by
  cases r; rfl

namespace Paired

theorem tree_bind_quietly (p : Paired ν V α) (next : α → PairedReached ν V β) :
    (Paired.bind (fun _ => .quietly p) next).tree
      = p.tree.bind fun a => (next a).tree.after (next a).log := by
  rw [tree]
  exact Tree.after_nil _

/-- Attaching a continuation grafts its trees, whatever the program is. -/
theorem tree_attach (p : Paired ν V α) (k : α → PairedReached ν V β) :
    (p.attach k).tree = p.tree.bind fun a => (k a).tree.after (k a).log := by
  cases p with
  | pure a => exact tree_bind_quietly _ k
  | suspend op reply => exact tree_bind_quietly _ k
  | bind first next =>
    rw [attach, tree, tree, Tree.bind_after, Tree.bind_assoc]
    refine congrArg (fun l => ((first ()).tree.bind l).after (first ()).log) (funext fun a => ?_)
    rw [PairedReached.log_quietly, Tree.after_nil, PairedReached.tree_eq,
      PairedReached.program_quietly, tree, Tree.bind_after]

theorem tree_flatMap (p : Paired ν V α) (k : α → Traced ν (Paired ν V β)) :
    (p.flatMap k).tree = p.tree.bind fun a => .reached ((k a).map Paired.tree) := by
  rw [flatMap, tree_attach]
  rfl

theorem tree_defer (build : Unit → Traced ν (Paired ν V α)) :
    (defer build).tree = .reached ((build ()).map Paired.tree) := by
  rw [defer, tree]
  exact congrArg (Tree.after _) (Tree.bind_ret _)

theorem builders_derived : (builders : Builders ν V (Paired ν V)).Derived where
  map _ _ := rfl
  andThen _ _ := rfl
  map2 _ _ _ := rfl
  apply _ _ := rfl

/-- Pairs mean what their builders mean for trees. -/
theorem tree_hom : Paired.builders.Hom Tree.builders (Paired.tree (ν := ν) (V := V)) :=
  .of_derived builders_derived Tree.builders_derived (fun _ => rfl) (fun _ => rfl) (fun _ => rfl)
    tree_defer tree_flatMap

/-- Resuming shows the root of the tree. -/
theorem tree_eq_ofRoot (p : Paired ν V α) : p.tree = .ofRoot Paired.tree p.resume := by
  fun_induction resume p with
  | case1 b => rfl
  | case2 op reply =>
    simp only [tree, PairedReached.tree_eq]
    rfl
  | case3 _ first next a h ih =>
    rw [Tree.ofRoot_after, ← ih, tree, PairedReached.tree_eq, h, tree, Tree.ret_bind,
      Tree.after_after, PairedReached.tree_eq]
  | case4 _ first next op reply h =>
    -- the continuation is attached to the payload of the step, in every answer
    have hpayload : (fun x => ((reply x).program.attach next).tree)
        = fun x => (reply x).tree.bind fun a => (next a).tree.after (next a).log := by
      funext x
      rw [tree_attach, PairedReached.tree_eq]
    show _ = Tree.step (first ()).log op (fun x => (reply x).log) fun x =>
      ((reply x).program.attach next).tree
    rw [hpayload, tree, PairedReached.tree_eq, h, tree]
    exact congrArg (fun l => Tree.step l op _ _) (List.append_nil _)
  | case5 _ first next _ first' next' h ih =>
    -- the pair turned around means the same: grafting is associative
    have hnext : (fun c => ((next' c).attach next).tree.after ((next' c).attach next).log)
        = fun c => ((next' c).tree.after (next' c).log).bind fun a =>
            (next a).tree.after (next a).log := by
      funext c
      rw [PairedReached.tree_eq, Tree.bind_after, PairedReached.tree_eq (next' c), ← tree_attach]
      rfl
    rw [Tree.ofRoot_after, ← ih, tree, PairedReached.tree_eq, h, tree, tree, Tree.bind_after,
      Tree.bind_assoc, hnext]

end Paired

end FreeMonad
