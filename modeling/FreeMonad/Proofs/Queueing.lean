import Mathlib.Logic.Function.Basic
import FreeMonad.Program.Queue

set_option autoImplicit false

/-! # Queues as lists

A queue is laid out in two parts and counts its continuations, and two queues are joined in one of
two ways, by a comparison of the counts. None of this can be told from what a queue gives back. Its
continuations are a list (`Queue.toList`), and the four operations do to a queue what they do to the
list: a continuation is added at the end, the first one is taken, and one list is put before another
one. So any number of queues, handled by any sequence of operations (`Queue.Runs`), stand for the
lists that the same sequence makes (`Queue.Lists.run`), and removals give the same answers.

The comparison is one of lengths only because the count is right. That is an invariant of the
operations (`Queue.Counted`), apart from the order of the continuations, and the result of joining
does not depend on it: both ways are right for all pairs of queues (`Queue.Joined`).

A queue knows what its continuations take and give, so an operation is done to queues that fit it.
Where all continuations take and give one type, every queue fits every operation, and a sequence of
operations can be carried out if each of them finds a queue in its place (`Queue.AllFit`). -/

namespace FreeMonad

open Function (update)

variable {ν : Type} {V : Vocabulary} {α β γ : Type}

/-! ## The list of a queue -/

/-- A continuation, whatever it takes and gives. -/
inductive Continuation (ν : Type) (V : Vocabulary) : Type 1 where
  | mk {Taken Given : Type} (call : Taken → Reached ν V Given)

/-- The continuation takes and gives an `E`. -/
inductive Continuation.Of (E : Type) : Continuation ν V → Prop where
  | mk (call : E → Reached ν V E) : Of E ⟨call⟩

namespace Front

/-- The continuations, one after the other. -/
def toList : {α β : Type} → Front ν V α β → List (Continuation ν V)
  | _, _, .nil => []
  | _, _, .cons k rest => ⟨k⟩ :: rest.toList

theorem toList_append : {α β γ : Type} → (f : Front ν V α β) → (g : Front ν V β γ) →
    (f.append g).toList = f.toList ++ g.toList
  | _, _, _, .nil, _ => rfl
  | _, _, _, .cons k rest, g => congrArg (List.cons (Continuation.mk k)) (toList_append rest g)

end Front

namespace Queue

/-- The continuations of a queue, in the order in which they run. -/
def toList (q : Queue ν V α β) : List (Continuation ν V) := q.contents.toList

/-- A queue, whatever its continuations take and give. -/
structure Any (ν : Type) (V : Vocabulary) where
  {Taken Given : Type}
  queue : Queue ν V Taken Given

/-- The continuations of the queue. -/
def Any.toList (q : Any ν V) : List (Continuation ν V) := q.queue.toList

@[simp] theorem Any.toList_mk (q : Queue ν V α β) : (Any.mk q).toList = q.toList := rfl

@[simp] theorem toList_empty : (empty : Queue ν V α α).toList = [] := rfl

@[simp] theorem toList_push (q : Queue ν V α β) (k : β → Reached ν V γ) :
    (q.push k).toList = q.toList ++ [⟨k⟩] := by
  rw [toList, contents_push, Front.toList_append]
  rfl

@[simp] theorem toList_pushFront (k : α → Reached ν V β) (q : Queue ν V β γ) :
    (q.pushFront k).toList = ⟨k⟩ :: q.toList := by
  rw [toList, contents_pushFront]
  rfl

@[simp] theorem toList_prepend (inner : Queue ν V α β) (outer : Queue ν V β γ) :
    (inner.prepend outer).toList = inner.toList ++ outer.toList := by
  rw [toList, contents_prepend, Front.toList_append]
  rfl

namespace View

/-- The continuation that is taken, or none if the queue has none. -/
def taken : {α β : Type} → View ν V α β → Option (Continuation ν V)
  | _, _, .empty => none
  | _, _, .first k _ => some ⟨k⟩

/-- The queue that is left. -/
def left : {α β : Type} → View ν V α β → Any ν V
  | α, _, .empty => ⟨(Queue.empty : Queue ν V α α)⟩
  | _, _, .first _ rest => ⟨rest⟩

theorem taken_eq (v : View ν V α β) : v.taken = v.contents.toList.head? := by
  cases v <;> rfl

theorem toList_left (v : View ν V α β) : v.left.toList = v.contents.toList.tail := by
  cases v <;> rfl

end View

theorem taken_pop (q : Queue ν V α β) : q.pop.1.taken = q.toList.head? := by
  rw [View.taken_eq, q.pop.2]
  rfl

theorem toList_pop (q : Queue ν V α β) : q.pop.1.left.toList = q.toList.tail := by
  rw [View.toList_left, q.pop.2]
  rfl

/-! ## The count -/

/-- The number that the queue keeps is the number of its continuations. -/
def Counted (q : Queue ν V α β) : Prop := q.size = q.toList.length

/-- The number that the queue keeps is the number of its continuations. -/
def Any.Counted (q : Any ν V) : Prop := q.queue.Counted

theorem counted_empty : (empty : Queue ν V α α).Counted := rfl

theorem Counted.push {q : Queue ν V α β} (h : q.Counted) (k : β → Reached ν V γ) :
    (q.push k).Counted := by
  obtain ⟨n, front, back⟩ := q
  rw [Counted, toList_push, List.length_append, ← h]
  rfl

theorem Counted.pushFront {q : Queue ν V β γ} (h : q.Counted) (k : α → Reached ν V β) :
    (q.pushFront k).Counted := by
  obtain ⟨n, front, back⟩ := q
  rw [Counted, toList_pushFront, List.length_cons, ← h]
  rfl

theorem Counted.pushAll : {α β γ : Type} → {q : Queue ν V α β} → q.Counted →
    (f : Front ν V β γ) → (q.pushAll f).Counted
  | _, _, _, _, h, .nil => h
  | _, _, _, _, h, .cons k rest => (h.push k).pushAll rest

theorem Counted.pushAllFront : {α β γ : Type} → {q : Queue ν V β γ} → q.Counted →
    (b : Back ν V α β) → (pushAllFront b q).Counted
  | _, _, _, _, h, .nil => h
  | _, _, _, _, h, .snoc rest k => (h.pushFront k).pushAllFront rest

/-- Whichever queue is moved, each continuation that is added is counted. -/
theorem Counted.prepend {inner : Queue ν V α β} {outer : Queue ν V β γ} (hinner : inner.Counted)
    (houter : outer.Counted) : (inner.prepend outer).Counted := by
  obtain ⟨n, front, back⟩ := inner
  obtain ⟨m, front', back'⟩ := outer
  simp only [Queue.prepend]
  split
  · exact (hinner.pushAll front').pushAll (back'.onto .nil)
  · exact (houter.pushAllFront back).pushAllFront (Front.reverseOnto .nil front)

theorem View.counted_ofFront {n : Nat} (f : Front ν V α β) (h : n = f.toList.length) :
    (ofFront n f).1.left.Counted := by
  cases f with
  | nil => exact counted_empty
  | cons k rest =>
    show n - 1 = (rest.append .nil).toList.length
    rw [h, Front.append_nil]
    rfl

theorem Counted.pop {q : Queue ν V α β} (h : q.Counted) : q.pop.1.left.Counted := by
  obtain ⟨n, front, back⟩ := q
  cases front with
  | nil => exact View.counted_ofFront (back.onto .nil) h
  | cons k rest => exact congrArg (· - 1) h

/-! ## Two ways to join two queues -/

theorem pushAll_append : {α β γ δ : Type} → (q : Queue ν V α β) → (f : Front ν V β γ) →
    (g : Front ν V γ δ) → q.pushAll (f.append g) = (q.pushAll f).pushAll g
  | _, _, _, _, _, .nil, _ => rfl
  | _, _, _, _, q, .cons k rest, g => pushAll_append (q.push k) rest g

/-- Taking the last continuation of the first queue and putting it at the front of the second one,
    until the first one has none, makes the third queue. -/
inductive MovedBefore : {α β γ : Type} → Queue ν V α β → Queue ν V β γ → Queue ν V α γ → Prop where
  | done {α γ : Type} {inner : Queue ν V α α} (outer : Queue ν V α γ)
      (h : inner.contents = .nil) : MovedBefore inner outer outer
  | turn {α β γ δ : Type} {inner : Queue ν V α γ} {outer : Queue ν V γ δ} {q : Queue ν V α δ}
      (rest : Queue ν V α β) (k : β → Reached ν V γ)
      (h : inner.contents = rest.contents.append (.cons k .nil))
      (next : MovedBefore rest (outer.pushFront k) q) : MovedBefore inner outer q

/-- Each turn keeps the continuations of the first queue followed by those of the second. -/
theorem MovedBefore.toList_eq {inner : Queue ν V α β} {outer : Queue ν V β γ} {q : Queue ν V α γ}
    (h : MovedBefore inner outer q) : q.toList = inner.toList ++ outer.toList := by
  induction h with
  | @done _ inner outer h =>
    have hinner : inner.toList = [] := congrArg Front.toList h
    rw [hinner, List.nil_append]
  | @turn _ _ _ inner outer q rest k h _ ih =>
    have hinner : inner.toList = rest.toList ++ [⟨k⟩] :=
      (congrArg Front.toList h).trans (Front.toList_append _ _)
    rw [ih, hinner, toList_pushFront, List.append_assoc, List.singleton_append]

/-- When the continuations at the end of the first queue have been moved, those before them are
    left. -/
theorem MovedBefore.of_rest : {α β γ δ : Type} → {inner : Queue ν V α γ} →
    {outer : Queue ν V γ δ} → {result : Queue ν V α δ} → (f : Front ν V α β) →
    (b : Back ν V β γ) → inner.contents = f.append (b.onto .nil) →
    (∀ rest : Queue ν V α β, rest.contents = f →
      MovedBefore rest (pushAllFront b outer) result) → MovedBefore inner outer result
  | _, _, _, _, inner, _, _, f, .nil, h, hrest => hrest inner (h.trans f.append_nil)
  | _, _, _, _, inner, _, _, f, .snoc b k, h, hrest => by
    -- the loop only looks at the continuations: any count would do for the rest
    let rest : Queue _ _ _ _ := .mk (inner.size - 1) f b
    have hlast : inner.contents = rest.contents.append (.cons k .nil) := by
      rw [h, contents, Front.append_assoc, Back.onto_append]
      rfl
    exact .turn rest k hlast (of_rest f b rfl hrest)

/-- The loop moves the second part of the queue, and then the first part from its end. -/
theorem movedBefore_pushAllFront {δ : Type} (n : Nat) (front : Front ν V α β) (back : Back ν V β γ)
    (outer : Queue ν V γ δ) : MovedBefore (.mk n front back) outer
      (pushAllFront (Front.reverseOnto .nil front) (pushAllFront back outer)) := by
  refine .of_rest front back rfl fun rest hrest => ?_
  have hfront : front = Front.append .nil ((Front.reverseOnto .nil front).onto .nil) := by
    rw [Back.onto_reverseOnto, Front.append_nil]
    rfl
  exact .of_rest .nil _ (hrest.trans hfront) fun last hlast => .done _ hlast

theorem prepend_of_le {inner : Queue ν V α β} {outer : Queue ν V β γ}
    (h : outer.size ≤ inner.size) : inner.prepend outer = inner.pushAll outer.contents := by
  obtain ⟨n, front, back⟩ := inner
  obtain ⟨m, front', back'⟩ := outer
  have hcount : n ≥ m := h
  rw [prepend, if_pos hcount, contents, pushAll_append]

theorem movedBefore_prepend {inner : Queue ν V α β} {outer : Queue ν V β γ}
    (h : inner.size < outer.size) : MovedBefore inner outer (inner.prepend outer) := by
  obtain ⟨n, front, back⟩ := inner
  obtain ⟨m, front', back'⟩ := outer
  have hcount : ¬ n ≥ m := Nat.not_le.2 h
  rw [prepend, if_neg hcount]
  exact movedBefore_pushAllFront n front back _

/-- Both ways of putting `inner` before `outer` keep all continuations in their order, and the
    lengths decide which way is taken. -/
structure Joined (inner : Queue ν V α β) (outer : Queue ν V β γ) : Prop where
  /-- The continuations of `outer` may be added at the end of `inner`. -/
  appended : (inner.pushAll outer.contents).toList = inner.toList ++ outer.toList
  /-- The continuations of `inner` may be moved to the front of `outer`, one by one. -/
  moved {q : Queue ν V α γ} (h : MovedBefore inner outer q) :
    q.toList = inner.toList ++ outer.toList
  /-- The moves come to an end. -/
  ends : ∃ q, MovedBefore inner outer q
  /-- If `inner` is at least as long, `outer` is added to it. -/
  appends (hinner : inner.Counted) (houter : outer.Counted)
    (h : outer.toList.length ≤ inner.toList.length) :
    inner.prepend outer = inner.pushAll outer.contents
  /-- If `inner` is shorter, it is moved. -/
  moves (hinner : inner.Counted) (houter : outer.Counted)
    (h : inner.toList.length < outer.toList.length) :
    MovedBefore inner outer (inner.prepend outer)

theorem joined (inner : Queue ν V α β) (outer : Queue ν V β γ) : inner.Joined outer where
  appended := by
    rw [toList, contents_pushAll, Front.toList_append]
    rfl
  moved h := h.toList_eq
  ends := by
    obtain ⟨n, front, back⟩ := inner
    exact ⟨_, movedBefore_pushAllFront n front back outer⟩
  appends hinner houter h := by
    rw [← hinner, ← houter] at h
    exact prepend_of_le h
  moves hinner houter h := by
    rw [← hinner, ← houter] at h
    exact movedBefore_prepend h

/-! ## Sequences of operations -/

/-- What is done with queues in numbered places. -/
inductive Action (ν : Type) (V : Vocabulary) : Type 1 where
  /-- A queue without continuations is put into the place; what was there is dropped. -/
  | new (i : Nat)
  /-- A continuation is added at the end of the queue. -/
  | push (i : Nat) (k : Continuation ν V)
  /-- The first continuation of the queue is taken. -/
  | pop (i : Nat)
  /-- The queue in the place `inner` is consumed: its continuations are put before those of the
      queue in the place `outer`. -/
  | prepend (inner outer : Nat)

/-- Lists in numbered places. -/
abbrev Lists (ν : Type) (V : Vocabulary) := Nat → Option (List (Continuation ν V))

/-- Queues in numbered places. -/
abbrev Shelf (ν : Type) (V : Vocabulary) := Nat → Option (Any ν V)

/-- What the removals of a sequence of actions give: a continuation, or none. -/
abbrev Removed (ν : Type) (V : Vocabulary) := List (Option (Continuation ν V))

/-- What an action does to lists, and what it gives: a removal gives the first element, or none
    if there is none. -/
def Action.onLists (l : Lists ν V) : Action ν V → Lists ν V × Removed ν V
  | .new i => (update l i (some []), [])
  | .push i k => (update l i ((l i).map (· ++ [k])), [])
  | .pop i => (update l i ((l i).map List.tail), [(l i).bind List.head?])
  | .prepend i j =>
    (update (update l i none) j ((l i).bind fun front => (l j).map (front ++ ·)), [])

/-- The lists after a sequence of actions, and what the removals gave. -/
def Lists.run (l : Lists ν V) : List (Action ν V) → Lists ν V × Removed ν V
  | [] => (l, [])
  | a :: rest => ((run (a.onLists l).1 rest).1, (a.onLists l).2 ++ (run (a.onLists l).1 rest).2)

/-- `Does s a given s'`: the action `a` makes the queues `s'` of the queues `s`, and gives what a
    removal gives. -/
inductive Does (s : Shelf ν V) : Action ν V → Removed ν V → Shelf ν V → Prop where
  | new (i : Nat) (α : Type) : Does s (.new i) [] (update s i (some ⟨(empty : Queue ν V α α)⟩))
  | push {α β γ : Type} {i : Nat} {q : Queue ν V α β} (held : s i = some ⟨q⟩)
      (k : β → Reached ν V γ) : Does s (.push i ⟨k⟩) [] (update s i (some ⟨q.push k⟩))
  | pop {α β : Type} {i : Nat} {q : Queue ν V α β} (held : s i = some ⟨q⟩) :
      Does s (.pop i) [q.pop.1.taken] (update s i (some q.pop.1.left))
  | prepend {α β γ : Type} {i j : Nat} {inner : Queue ν V α β} {outer : Queue ν V β γ}
      (apart : i ≠ j) (consumed : s i = some ⟨inner⟩) (held : s j = some ⟨outer⟩) :
      Does s (.prepend i j) [] (update (update s i none) j (some ⟨inner.prepend outer⟩))

/-- One action after the other. -/
inductive Runs : Shelf ν V → List (Action ν V) → Removed ν V → Shelf ν V → Prop where
  | done (s : Shelf ν V) : Runs s [] [] s
  | next {s s' s'' : Shelf ν V} {a : Action ν V} {rest : List (Action ν V)}
      {given given' : Removed ν V} (first : Does s a given s')
      (later : Runs s' rest given' s'') : Runs s (a :: rest) (given ++ given') s''

namespace Shelf

/-- The lists of the queues. -/
def lists (s : Shelf ν V) : Lists ν V := Option.map Any.toList ∘ s

theorem lists_update (s : Shelf ν V) (i : Nat) (q : Option (Any ν V)) :
    lists (update s i q) = update s.lists i (q.map Any.toList) :=
  Function.comp_update _ s i q

theorem lists_of_held {s : Shelf ν V} {i : Nat} {q : Queue ν V α β} (h : s i = some ⟨q⟩) :
    s.lists i = some q.toList :=
  congrArg (Option.map Any.toList) h

/-- Every queue has the property. -/
def All (P : Any ν V → Prop) (s : Shelf ν V) : Prop := ∀ i, ∀ q ∈ s i, P q

variable {P : Any ν V → Prop} {s : Shelf ν V}

theorem all_none : All P fun _ => none := fun _ _ hq => absurd hq (Option.not_mem_none _)

theorem All.updated (h : s.All P) (i : Nat) {q : Option (Any ν V)} (hq : ∀ r ∈ q, P r) :
    All P (update s i q) := by
  intro j r hr
  rcases eq_or_ne j i with rfl | hne
  · rw [Function.update_self] at hr
    exact hq r hr
  · rw [Function.update_of_ne hne] at hr
    exact h j r hr

theorem All.put (h : s.All P) (i : Nat) {q : Any ν V} (hq : P q) :
    All P (update s i (some q)) :=
  h.updated i fun _ hr => Option.mem_some.1 hr ▸ hq

theorem All.remove (h : s.All P) (i : Nat) : All P (update s i none) :=
  h.updated i fun r hr => absurd hr (Option.not_mem_none r)

end Shelf

section Steps

variable {s s' : Shelf ν V} {a : Action ν V} {given : Removed ν V}

/-- An action does to the lists of the queues what it does to lists, and gives the same. -/
theorem Does.onLists (h : Does s a given s') : a.onLists s.lists = (s'.lists, given) := by
  cases h with
  | new i α =>
    rw [Shelf.lists_update, Action.onLists]
    simp only [Option.map_some, Any.toList_mk, toList_empty]
  | push held k =>
    rw [Shelf.lists_update, Action.onLists, Shelf.lists_of_held held]
    simp only [Option.map_some, Any.toList_mk, toList_push]
  | pop held =>
    rw [Shelf.lists_update, Action.onLists, Shelf.lists_of_held held, taken_pop]
    simp only [Option.map_some, Option.bind_some, toList_pop]
  | prepend apart consumed held =>
    rw [Shelf.lists_update, Shelf.lists_update, Action.onLists, Shelf.lists_of_held consumed,
      Shelf.lists_of_held held]
    simp only [Option.map_some, Option.map_none, Option.bind_some, Any.toList_mk, toList_prepend]

/-- An action leaves queues that count right. -/
theorem Does.counted (h : Does s a given s') (hs : s.All Any.Counted) : s'.All Any.Counted := by
  cases h with
  | new i α => exact hs.put i counted_empty
  | @push _ _ _ i q held k =>
    have hq : q.Counted := hs i _ held
    exact hs.put i (hq.push k)
  | @pop _ _ i q held =>
    have hq : q.Counted := hs i _ held
    exact hs.put i hq.pop
  | @prepend _ _ _ i j inner outer apart consumed held =>
    have hinner : inner.Counted := hs i _ consumed
    have houter : outer.Counted := hs j _ held
    exact (hs.remove i).put j (hinner.prepend houter)

end Steps

/-- A sequence of actions does to the lists of the queues what it does to lists: by induction on the
    sequence. -/
theorem Runs.onLists {s s' : Shelf ν V} {actions : List (Action ν V)}
    {given : Removed ν V} (h : Runs s actions given s') :
    s.lists.run actions = (s'.lists, given) := by
  induction h with
  | done s => rfl
  | next first _ ih => rw [Lists.run, first.onLists, ih]

theorem Runs.counted {s s' : Shelf ν V} {actions : List (Action ν V)}
    {given : Removed ν V} (h : Runs s actions given s')
    (hs : s.All Any.Counted) : s'.All Any.Counted := by
  induction h with
  | done s => exact hs
  | next first _ ih => exact ih (first.counted hs)

/-! ## Queues of one type -/

/-- The queue takes and gives an `E`, and so does each of its continuations. -/
inductive Any.Of (E : Type) : Any ν V → Prop where
  | mk {q : Queue ν V E E} (h : ∀ k ∈ q.toList, k.Of E) : Of E ⟨q⟩

theorem Any.of_empty (E : Type) : (Any.mk (empty : Queue ν V E E)).Of E :=
  .mk fun _ hk => absurd hk List.not_mem_nil

theorem View.left_of {E : Type} (v : View ν V E E)
    (h : ∀ k ∈ v.contents.toList, k.Of E) : v.left.Of E := by
  cases v with
  | empty => exact Any.of_empty E
  | first k rest =>
    -- the first continuation gives an `E`, so that the rest takes one
    cases h ⟨k⟩ (List.mem_cons_self ..) with
    | mk _ => exact .mk fun k' hk' => h k' (List.mem_cons_of_mem _ hk')

/-- The action finds queues in the places that it needs, and what it adds takes and gives an `E`. -/
inductive Action.Fits (E : Type) (l : Lists ν V) : Action ν V → Prop where
  | new (i : Nat) : Fits E l (.new i)
  | push {i : Nat} (there : (l i).isSome) (k : E → Reached ν V E) : Fits E l (.push i ⟨k⟩)
  | pop {i : Nat} (there : (l i).isSome) : Fits E l (.pop i)
  | prepend {i j : Nat} (apart : i ≠ j) (there : (l i).isSome) (there' : (l j).isSome) :
      Fits E l (.prepend i j)

/-- Each action fits when its turn comes. -/
def AllFit (E : Type) (l : Lists ν V) : List (Action ν V) → Prop
  | [] => True
  | a :: rest => a.Fits E l ∧ AllFit E (a.onLists l).1 rest

theorem Shelf.All.exists_held {E : Type} {s : Shelf ν V} (hs : s.All (Any.Of E)) {i : Nat}
    (there : (s.lists i).isSome) : ∃ q : Queue ν V E E, s i = some ⟨q⟩ ∧
      ∀ k ∈ q.toList, k.Of E := by
  rw [lists, Function.comp_apply, Option.isSome_map] at there
  obtain ⟨q, hq⟩ := Option.isSome_iff_exists.1 there
  cases hs i q hq with
  | mk h => exact ⟨_, hq, h⟩

/-- Queues of one type fit every action that finds them, and become queues of that type. -/
theorem Action.Fits.exists_does {E : Type} {s : Shelf ν V} {a : Action ν V}
    (h : a.Fits E s.lists) (hs : s.All (Any.Of E)) :
    ∃ given s', Does s a given s' ∧ s'.All (Any.Of E) := by
  cases h with
  | new i => exact ⟨_, _, .new i E, hs.put i (Any.of_empty E)⟩
  | @push i there k =>
    obtain ⟨q, held, hq⟩ := hs.exists_held there
    refine ⟨_, _, .push held k, hs.put i (.mk fun k' hk' => ?_)⟩
    rw [toList_push, List.mem_append, List.mem_singleton] at hk'
    exact hk'.elim (hq k') fun hlast => hlast ▸ .mk k
  | @pop i there =>
    obtain ⟨q, held, hq⟩ := hs.exists_held there
    have hview : q.pop.1.contents.toList = q.toList := congrArg Front.toList q.pop.2
    exact ⟨_, _, .pop held, hs.put i (q.pop.1.left_of (hview ▸ hq))⟩
  | @prepend i j apart there there' =>
    obtain ⟨inner, consumed, hinner⟩ := hs.exists_held there
    obtain ⟨outer, held, houter⟩ := hs.exists_held there'
    refine ⟨_, _, .prepend apart consumed held, (hs.remove i).put j (.mk fun k hk => ?_)⟩
    rw [toList_prepend, List.mem_append] at hk
    exact hk.elim (hinner k) (houter k)

theorem AllFit.exists_runs {E : Type} {actions : List (Action ν V)} {s : Shelf ν V}
    (h : AllFit E s.lists actions) (hs : s.All (Any.Of E)) :
    ∃ given s', Runs s actions given s' := by
  induction actions generalizing s with
  | nil => exact ⟨[], s, .done s⟩
  | cons a rest ih =>
    obtain ⟨hfits, hrest⟩ := h
    obtain ⟨given, s', hdoes, hs'⟩ := hfits.exists_does hs
    rw [hdoes.onLists] at hrest
    obtain ⟨given', s'', hruns⟩ := ih hrest hs'
    exact ⟨_, s'', .next hdoes hruns⟩

/-! ## Queues and lists -/

/-- **Queues stand for lists.** Any sequence of operations on any number of queues leaves queues
    whose continuations are the lists that the sequence leaves, and its removals give the first
    elements of these lists, or none where there is none. All these queues count right. Where all
    continuations take and give one type, every sequence that finds queues in the places it names
    can be carried out. Both ways of joining two queues put all of the one before all of the other,
    whatever their lengths, and of queues that count right the longer one is not moved. -/
theorem stand_for_lists (ν : Type) (V : Vocabulary) :
    (∀ {actions : List (Action ν V)} {given : Removed ν V} {s : Shelf ν V},
      Runs (fun _ => none) actions given s →
        Lists.run (fun _ => none) actions = (s.lists, given) ∧ s.All Any.Counted) ∧
    (∀ (E : Type) {actions : List (Action ν V)}, AllFit E (fun _ => none) actions →
      ∃ given s, Runs (fun _ => none) actions given s) ∧
    (∀ {α β γ : Type} (inner : Queue ν V α β) (outer : Queue ν V β γ), inner.Joined outer) := by
  refine ⟨?_, ?_, ?_⟩
  · intro actions given s h
    exact ⟨h.onLists, h.counted Shelf.all_none⟩
  · intro E actions h
    exact h.exists_runs Shelf.all_none
  · intro α β γ inner outer
    exact inner.joined outer

/-- A vocabulary without steps. -/
def silent : Vocabulary := ⟨Empty, fun _ => Empty, fun _ => none⟩

/-- Adds a number. -/
def plus (n : Nat) : Continuation Empty silent :=
  ⟨fun m : Nat => (.quietly (.pure (m + n)) : Reached Empty silent Nat)⟩

/-- A queue is moved to the front of a longer one, and the two to that of a shorter one. -/
def joinings : List (Action Empty silent) :=
  [.new 0, .push 0 (plus 1), .new 1, .push 1 (plus 2), .push 1 (plus 3), .prepend 0 1,
    .new 2, .push 2 (plus 4), .prepend 1 2, .pop 2, .new 0, .pop 0]

theorem joinings_stand_for_lists :
    AllFit Nat (fun _ => none) joinings ∧
    ∃ s, Runs (fun _ => none) joinings [some (plus 1), none] s ∧
      s.lists 2 = some [plus 2, plus 3, plus 4] := by
  have hfit : AllFit Nat (fun _ => none) joinings :=
    ⟨.new 0, .push rfl _, .new 1, .push rfl _, .push rfl _, .prepend (by decide) rfl rfl,
      .new 2, .push rfl _, .prepend (by decide) rfl rfl, .pop rfl, .new 0, .pop rfl, trivial⟩
  obtain ⟨hlists, hfits, -⟩ := stand_for_lists Empty silent
  obtain ⟨given, s, hruns⟩ := hfits Nat hfit
  obtain ⟨hrun, -⟩ := hlists hruns
  have hgiven : [some (plus 1), none] = given := congrArg Prod.snd hrun
  have hleft : some [plus 2, plus 3, plus 4] = s.lists 2 :=
    congrFun (congrArg Prod.fst hrun) 2
  exact ⟨hfit, s, hgiven ▸ hruns, hleft.symm⟩

end Queue

end FreeMonad
