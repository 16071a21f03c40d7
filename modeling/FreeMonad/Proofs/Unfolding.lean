import Mathlib.Order.WellFounded
import Mathlib.Tactic.Choose
import FreeMonad.Program.Resume

set_option autoImplicit false

/-! # Which programs are well-founded

A program as it is written is a code that shows one layer when it is looked at: a value, a step with
a payload for each answer, or a thunk for the head of a composition with continuations behind it.
What thunks, continuations and payloads return are codes again, and nothing keeps a code from going
on for ever (`Unfolding`). A code is *well-founded* if it does not: if there is no endless branch in
the tree of all that it can unfold to, with every value given to every continuation and every answer
to every step (`Unfolding.WellFounded`).

The programs of `Program` are the well-founded ones, no more and no fewer. A code is well-founded if
and only if some program describes it, layer by layer (`Unfolding.wellFounded_iff`), and every
program unfolds to a well-founded tree itself (`Program.wellFounded`). -/

namespace FreeMonad

variable {ν : Type} {V : Vocabulary} {α β γ : Type}

/-! ## Codes and their layers -/

/-- Continuations in order, from an `α` to a `β`, that return codes of `C`. -/
inductive Arrows (ν : Type) (C : Type → Type 1) : Type → Type → Type 1 where
  | nil {α : Type} : Arrows ν C α α
  | cons {α β γ : Type} (first : α → Traced ν (C β)) (rest : Arrows ν C β γ) : Arrows ν C α γ

/-- What is seen of a program whose parts are codes of `C`. -/
inductive Layer (ν : Type) (V : Vocabulary) (C : Type → Type 1) (α : Type) : Type 1 where
  | pure (value : α)
  | suspend (op : V.Op) (reply : V.Answer op → Traced ν (C α))
  | compose {β : Type} (head : Unit → Traced ν (C β)) (queue : Arrows ν C β α)

/-- Programs as they are written: codes, and the layer that each of them shows. -/
structure Unfolding (ν : Type) (V : Vocabulary) where
  /-- The codes of programs that produce an `α`. -/
  Code : Type → Type 1
  /-- What a code shows. -/
  layer : {α : Type} → Code α → Layer ν V Code α

/-- A continuation of the list returns the code `d` for some value. -/
inductive Arrows.Returns {C : Type → Type 1} (d : (α : Type) × C α) :
    {α β : Type} → Arrows ν C α β → Prop where
  | first {α β γ : Type} {k : α → Traced ν (C β)} {rest : Arrows ν C β γ} (a : α)
      (h : d = ⟨β, (k a).value⟩) : Returns d (.cons k rest)
  | rest {α β γ : Type} {k : α → Traced ν (C β)} {rest : Arrows ν C β γ} (h : Returns d rest) :
      Returns d (.cons k rest)

/-- The code `d` is the payload for some answer, or what the thunk or a continuation returns. -/
inductive Layer.Returns {C : Type → Type 1} (d : (α : Type) × C α) {α : Type} :
    Layer ν V C α → Prop where
  | payload {op : V.Op} {reply : V.Answer op → Traced ν (C α)} (x : V.Answer op)
      (h : d = ⟨α, (reply x).value⟩) : Returns d (.suspend op reply)
  | head {β : Type} {head : Unit → Traced ν (C β)} {queue : Arrows ν C β α}
      (h : d = ⟨β, (head ()).value⟩) : Returns d (.compose head queue)
  | continuation {β : Type} {head : Unit → Traced ν (C β)} {queue : Arrows ν C β α}
      (h : queue.Returns d) : Returns d (.compose head queue)

namespace Unfolding

variable (U : Unfolding ν V)

/-- Looking at `c`, something returns `d`. -/
def Child (d c : (α : Type) × U.Code α) : Prop := (U.layer c.2).Returns d

/-- There is no endless branch in the tree of all that the code can unfold to. -/
def WellFounded (c : U.Code α) : Prop :=
  ¬∃ branch : Nat → (α : Type) × U.Code α,
    branch 0 = ⟨α, c⟩ ∧ ∀ n, U.Child (branch (n + 1)) (branch n)

theorem wellFounded_iff_acc {c : U.Code α} : U.WellFounded c ↔ Acc U.Child ⟨α, c⟩ := by
  rw [WellFounded, ← not_acc_iff_exists_descending_chain, not_not]

/-! ## Programs that describe codes -/

mutual

/-- The program is what the code unfolds to, with the same events on the way. -/
inductive Describes : {α : Type} → U.Code α → Program ν V α → Prop where
  | pure {α : Type} {c : U.Code α} {a : α} (h : U.layer c = .pure a) : Describes c (.pure a)
  | suspend {α : Type} {c : U.Code α} {op : V.Op} {reply : V.Answer op → Traced ν (U.Code α)}
      {rest : V.Answer op → Reached ν V α} (h : U.layer c = .suspend op reply)
      (hlog : ∀ x, (rest x).log = (reply x).log)
      (hrest : ∀ x, Describes (reply x).value (rest x).program) : Describes c (.suspend op rest)
  | compose {α β : Type} {c : U.Code β} {thunk : Unit → Traced ν (U.Code α)}
      {arrows : Arrows ν U.Code α β} {head : Unit → Reached ν V α} {queue : Queue ν V α β}
      (h : U.layer c = .compose thunk arrows) (hlog : (head ()).log = (thunk ()).log)
      (hhead : Describes (thunk ()).value (head ()).program)
      (hqueue : DescribesAll arrows queue.contents) : Describes c (.compose head queue)

/-- The continuations return what those of the code return, for every value. -/
inductive DescribesAll : {α β : Type} → Arrows ν U.Code α β → Front ν V α β → Prop where
  | nil {α : Type} : DescribesAll (.nil : Arrows ν U.Code α α) .nil
  | cons {α β γ : Type} {first : α → Traced ν (U.Code β)} {arrows : Arrows ν U.Code β γ}
      {k : α → Reached ν V β} {rest : Front ν V β γ} (hlog : ∀ a, (k a).log = (first a).log)
      (hfirst : ∀ a, Describes (first a).value (k a).program)
      (hrest : DescribesAll arrows rest) : DescribesAll (.cons first arrows) (.cons k rest)

end

variable {U}

/-- What a program describes is well-founded, by induction on the description. -/
theorem Describes.acc {c : U.Code α} {p : Program ν V α} (h : U.Describes c p) :
    Acc U.Child ⟨α, c⟩ := by
  induction h using Describes.rec (motive_2 := fun arrows _ _ => ∀ d, arrows.Returns d →
    Acc U.Child d) with
  | pure h =>
    refine ⟨_, fun d hd => ?_⟩
    rw [Child, h] at hd
    cases hd
  | suspend h hlog hrest ih =>
    refine ⟨_, fun d hd => ?_⟩
    rw [Child, h] at hd
    cases hd with
    | payload x hx => exact hx ▸ ih x
  | compose h hlog hhead hqueue ihhead ihqueue =>
    refine ⟨_, fun d hd => ?_⟩
    rw [Child, h] at hd
    cases hd with
    | head hd => exact hd ▸ ihhead
    | continuation hd => exact ihqueue d hd
  | nil d hd => cases hd
  | cons hlog hfirst hrest ihfirst ihrest d hd =>
    cases hd with
    | first a ha => exact ha ▸ ihfirst a
    | rest hd => exact ihrest d hd

/-- Continuations that return only codes that are described are described themselves. -/
theorem exists_describesAll (arrows : Arrows ν U.Code α β)
    (h : ∀ d : (γ : Type) × U.Code γ, arrows.Returns d → ∃ p, U.Describes d.2 p) :
    ∃ front, U.DescribesAll arrows front := by
  induction arrows with
  | nil => exact ⟨.nil, .nil⟩
  | cons first arrows ih =>
    obtain ⟨rest, hrest⟩ := ih fun d hd => h d (.rest hd)
    have hfirst : ∀ a, ∃ p, U.Describes (first a).value p := fun a => h _ (.first a rfl)
    choose p hp using hfirst
    exact ⟨.cons (fun a => .mk (first a).log (p a)) rest, .cons (fun _ => rfl) hp hrest⟩

theorem exists_describes_of_acc {c : (α : Type) × U.Code α} (h : Acc U.Child c) :
    ∃ p, U.Describes c.2 p := by
  induction h with
  | intro c _ ih =>
    rcases hlayer : U.layer c.2 with a | ⟨op, reply⟩ | ⟨head, arrows⟩
    · exact ⟨.pure a, .pure hlayer⟩
    · have hreply : ∀ x, ∃ p, U.Describes (reply x).value p := fun x =>
        ih ⟨_, (reply x).value⟩ (by rw [Child, hlayer]; exact .payload x rfl)
      choose p hp using hreply
      exact ⟨.suspend op fun x => .mk (reply x).log (p x), .suspend hlayer (fun _ => rfl) hp⟩
    · obtain ⟨p, hp⟩ := ih ⟨_, (head ()).value⟩ (by rw [Child, hlayer]; exact .head rfl)
      obtain ⟨front, hfront⟩ := exists_describesAll arrows fun d hd =>
        ih d (by rw [Child, hlayer]; exact .continuation hd)
      have hcontents : (Queue.empty.pushAll front).contents = front := Queue.contents_pushAll _ _
      refine ⟨.compose (fun _ => .mk (head ()).log p) (Queue.empty.pushAll front), ?_⟩
      exact .compose hlayer rfl hp (hcontents.symm ▸ hfront)

/-- The well-founded codes are those that programs describe. -/
theorem wellFounded_iff (c : U.Code α) : U.WellFounded c ↔ ∃ p, U.Describes c p := by
  rw [wellFounded_iff_acc]
  constructor
  · exact exists_describes_of_acc
  · rintro ⟨p, h⟩
    exact h.acc

end Unfolding

/-! ## Programs unfold to themselves -/

/-- The continuations, as functions that return programs. -/
def Front.arrows : {α β : Type} → Front ν V α β → Arrows ν (Program ν V) α β
  | _, _, .nil => .nil
  | _, _, .cons k rest => .cons (fun a => (k a).toTraced) rest.arrows

/-- What a program shows. -/
def Program.layer : {α : Type} → Program ν V α → Layer ν V (Program ν V) α
  | _, .pure a => .pure a
  | _, .suspend op reply => .suspend op fun x => (reply x).toTraced
  | _, .compose head queue => .compose (fun u => (head u).toTraced) queue.contents.arrows

/-- Programs as codes of themselves. -/
def Program.unfolding (ν : Type) (V : Vocabulary) : Unfolding ν V := ⟨Program ν V, Program.layer⟩

mutual

/-- A program is what it unfolds to. -/
theorem Program.describes_self : {α : Type} → (p : Program ν V α) →
    (Program.unfolding ν V).Describes p p
  | _, .pure _ => .pure rfl
  | _, .suspend _ reply => .suspend rfl (fun _ => rfl) fun x => Reached.describes_self (reply x)
  | _, .compose head queue =>
    .compose rfl rfl (Reached.describes_self (head ())) (Queue.describesAll_self queue)
termination_by structural _ p => p

theorem Reached.describes_self : {α : Type} → (r : Reached ν V α) →
    (Program.unfolding ν V).Describes r.program r.program
  | _, .mk _ p => Program.describes_self p
termination_by structural _ r => r

theorem Queue.describesAll_self : {α β : Type} → (q : Queue ν V α β) →
    (Program.unfolding ν V).DescribesAll q.contents.arrows q.contents
  | _, _, .mk _ front back => Front.describesAll_append front _ (Back.describesAll_onto back _ .nil)
termination_by structural _ _ q => q

theorem Front.describesAll_append : {α β : Type} → (f : Front ν V α β) → {γ : Type} →
    (rest : Front ν V β γ) → (Program.unfolding ν V).DescribesAll rest.arrows rest →
      (Program.unfolding ν V).DescribesAll (f.append rest).arrows (f.append rest)
  | _, _, .nil, _, _, h => h
  | _, _, .cons k f, _, rest, h =>
    .cons (fun _ => rfl) (fun a => Reached.describes_self (k a))
      (Front.describesAll_append f rest h)
termination_by structural _ _ f => f

theorem Back.describesAll_onto : {α β : Type} → (b : Back ν V α β) → {γ : Type} →
    (rest : Front ν V β γ) → (Program.unfolding ν V).DescribesAll rest.arrows rest →
      (Program.unfolding ν V).DescribesAll (b.onto rest).arrows (b.onto rest)
  | _, _, .nil, _, _, h => h
  | _, _, .snoc b k, _, rest, h => Back.describesAll_onto b (.cons k rest)
      (.cons (fun _ => rfl) (fun a => Reached.describes_self (k a)) h)
termination_by structural _ _ b => b

end

/-- Every program is well-founded. -/
theorem Program.wellFounded (p : Program ν V α) : (Program.unfolding ν V).WellFounded p :=
  (Unfolding.wellFounded_iff (U := unfolding ν V) p).2 ⟨p, p.describes_self⟩

/-- A code whose thunk returns the code itself is not well-founded, so no program describes it. -/
theorem Unfolding.not_wellFounded_of_head_eq {U : Unfolding ν V} {c : U.Code α}
    {head : Unit → Traced ν (U.Code α)} {queue : Arrows ν U.Code α α}
    (h : U.layer c = .compose head queue) (hself : (head ()).value = c) : ¬U.WellFounded c := by
  rw [WellFounded, not_not]
  refine ⟨fun _ => ⟨α, c⟩, rfl, fun _ => ?_⟩
  rw [Child, h]
  exact .head (by rw [hself])

end FreeMonad
