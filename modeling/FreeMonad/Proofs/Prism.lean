import FreeMonad.Proofs.Placement
import FreeMonad.Proofs.Transparency

set_option autoImplicit false

/-! # Places in a sum are prisms

A place in a sum of vocabularies can be used in both directions: steps of the vocabulary there are
injected, and steps of the sum are projected. The two directions fit together as in a prism
(`Branch.IsPrism`): what was injected is recovered, what is recovered was injected, and any other
step is given back as it is. Mapping over payloads passes through both, with all that the function
records, and at the same time.

A vocabulary may stand at several places of one sum, so that steps from different places look alike.
They are told apart by where they stand. An `Arrangement` is the way a sum is put together, and a
`Position` is a way to a part of it. Of two positions of one arrangement, neither of which is inside
the other, the one gives back every step that is injected at the other. -/

namespace FreeMonad

universe u v

variable {ν : Type} {F G W : Vocabulary} {α : Type u} {β : Type v}

/-! ## Mapping over steps of a sum -/

namespace Step

/-- A step of the left side is mapped over as in its own vocabulary. -/
@[simp] theorem mapTraced_left (h : α → Traced ν β) (s : Step ν F α) :
    (s.left : Step ν (F.sum G) α).mapTraced h = (s.mapTraced h).map left := by
  obtain ⟨op, reply⟩ := s
  simp only [mapTraced, left, Vocabulary.sum]
  cases F.known op <;> rfl

/-- A step of the right side is mapped over as in its own vocabulary. -/
@[simp] theorem mapTraced_right (h : α → Traced ν β) (s : Step ν G α) :
    (s.right : Step ν (F.sum G) α).mapTraced h = (s.mapTraced h).map right := by
  obtain ⟨op, reply⟩ := s
  simp only [mapTraced, right, Vocabulary.sum]
  cases G.known op <;> rfl

end Step

namespace Branch

/-! ## One place -/

/-- A step that does not project is given back as it is. -/
theorem eq_of_project_eq_error (place : Branch F W) {w w' : Step ν W α}
    (h : place.project w = .error w') : w' = w := by
  induction place with
  | itself => cases h
  | here =>
    rcases w.eq_left_or_eq_right with ⟨t, rfl⟩ | ⟨t, rfl⟩
    · cases h
    · exact (Except.error.inj h).symm
  | there place ih =>
    rcases w.eq_left_or_eq_right with ⟨t, rfl⟩ | ⟨t, rfl⟩
    · exact (Except.error.inj h).symm
    · rw [project_there_right] at h
      cases ht : place.project t with
      | ok s =>
        rw [ht] at h
        cases h
      | error t' =>
        rw [ht, ih ht] at h
        exact (Except.error.inj h).symm

/-- The steps that do not project are those that are not injected. -/
theorem project_eq_error_iff (place : Branch F W) {w w' : Step ν W α} :
    place.project w = .error w' ↔ w' = w ∧ ∀ s, place.inject s ≠ w := by
  constructor
  · intro h
    refine ⟨place.eq_of_project_eq_error h, fun s hs => ?_⟩
    rw [place.project_eq_ok_iff.2 hs] at h
    cases h
  · rintro ⟨rfl, hw⟩
    cases h : place.project w' with
    | ok s => exact absurd (place.project_eq_ok_iff.1 h) (hw s)
    | error w => rw [place.eq_of_project_eq_error h]

/-- Injecting is natural: the function is called when it would be called without injecting, and
    records the same. -/
theorem mapTraced_inject (place : Branch F W) (h : α → Traced ν β) (s : Step ν F α) :
    (place.inject s).mapTraced h = (s.mapTraced h).map place.inject := by
  induction place with
  | itself => rfl
  | here => exact s.mapTraced_left h
  | there place ih =>
    rw [inject, Step.mapTraced_right, ih]
    rfl

/-- Mapping over a step takes its projection along. -/
theorem mapTraced_of_project_eq_ok (place : Branch F W) (h : α → Traced ν β) {w : Step ν W α}
    {s : Step ν F α} (hw : place.project w = .ok s) :
    (w.mapTraced h).map place.project = (s.mapTraced h).map .ok := by
  have hproject : place.project (place.inject (s.mapTraced h).value) = .ok (s.mapTraced h).value :=
    place.project_eq_ok_iff.2 rfl
  rw [← place.project_eq_ok_iff.1 hw, mapTraced_inject]
  exact congrArg (Traced.mk (s.mapTraced h).log) hproject

/-- A step from another place is mapped over to one from another place. -/
theorem mapTraced_of_project_eq_error (place : Branch F W) (h : α → Traced ν β)
    {w w' : Step ν W α} (hw : place.project w = .error w') :
    (w.mapTraced h).map place.project = (w'.mapTraced h).map .error := by
  obtain rfl := place.eq_of_project_eq_error hw
  induction place with
  | itself => cases hw
  | here =>
    rcases w'.eq_left_or_eq_right with ⟨t, rfl⟩ | ⟨t, rfl⟩
    · cases hw
    · rw [Step.mapTraced_right]
      rfl
  | there place ih =>
    rcases w'.eq_left_or_eq_right with ⟨t, rfl⟩ | ⟨t, rfl⟩
    · rw [Step.mapTraced_left]
      rfl
    · rw [project_there_right] at hw
      cases ht : place.project t with
      | ok s =>
        rw [ht] at hw
        cases hw
      | error t' =>
        obtain rfl := place.eq_of_project_eq_error ht
        have hvalue : place.project (t'.mapTraced h).value = .error (t'.mapTraced h).value :=
          congrArg Traced.value (ih ht)
        rw [Step.mapTraced_right]
        refine congrArg (Traced.mk (t'.mapTraced h).log) ?_
        show place.there.project (t'.mapTraced h).value.right = _
        rw [project_there_right, hvalue]
        rfl

/-- Project and inject at a place make a prism, natural in the payload. -/
structure IsPrism (ν : Type) (place : Branch F W) : Prop where
  /-- What is injected is recovered. -/
  project_inject {α : Type u} (s : Step ν F α) : place.project (place.inject s) = .ok s
  /-- What is recovered was injected. -/
  inject_project {α : Type u} {w : Step ν W α} {s : Step ν F α} :
    place.project w = .ok s → place.inject s = w
  /-- Any other step is given back as it is, and was not injected. -/
  project_other {α : Type u} {w w' : Step ν W α} :
    place.project w = .error w' → w' = w ∧ ∀ s, place.inject s ≠ w
  /-- Mapping passes through injecting. -/
  map_inject {α : Type u} {β : Type v} (h : α → Traced ν β) (s : Step ν F α) :
    (place.inject s).mapTraced h = (s.mapTraced h).map place.inject
  /-- Mapping passes through projecting, if the step is recovered. -/
  map_project {α : Type u} {β : Type v} (h : α → Traced ν β) {w : Step ν W α} {s : Step ν F α} :
    place.project w = .ok s → (w.mapTraced h).map place.project = (s.mapTraced h).map .ok
  /-- Mapping passes through projecting, if the step is given back. -/
  map_project_other {α : Type u} {β : Type v} (h : α → Traced ν β) {w w' : Step ν W α} :
    place.project w = .error w' → (w.mapTraced h).map place.project = (w'.mapTraced h).map .error

theorem isPrism (place : Branch F W) : place.IsPrism.{u, v} ν where
  project_inject _ := place.project_eq_ok_iff.2 rfl
  inject_project := place.project_eq_ok_iff.1
  project_other := place.project_eq_error_iff.1
  map_inject := place.mapTraced_inject
  map_project := place.mapTraced_of_project_eq_ok
  map_project_other := place.mapTraced_of_project_eq_error

end Branch

/-! ## Arrangements and positions -/

/-- The way a sum is put together from vocabularies. -/
inductive Arrangement where
  | one (V : Vocabulary)
  | sum (left right : Arrangement)

namespace Arrangement

/-- The sum that is put together. -/
def vocabulary : Arrangement → Vocabulary
  | one V => V
  | sum left right => left.vocabulary.sum right.vocabulary

/-- `V` is one of the vocabularies that the sum is made of. -/
inductive Leaf (V : Vocabulary) : Arrangement → Prop where
  | one : Leaf V (.one V)
  | left {S T : Arrangement} (h : Leaf V S) : Leaf V (S.sum T)
  | right {S T : Arrangement} (h : Leaf V T) : Leaf V (S.sum T)

end Arrangement

/-- A way to a part of a sum: the whole of it, the left side, or a part of the right side. -/
inductive Position : Arrangement → Type 1 where
  | itself {S : Arrangement} : Position S
  | here {S T : Arrangement} : Position (S.sum T)
  | there {S T : Arrangement} (p : Position T) : Position (S.sum T)

namespace Position

/-- The part that the way leads to. -/
def part : {S : Arrangement} → Position S → Arrangement
  | S, itself => S
  | .sum S _, here => S
  | .sum _ _, there p => p.part

/-- The place in the sum. -/
def branch : {S : Arrangement} → (p : Position S) → Branch p.part.vocabulary S.vocabulary
  | _, itself => .itself
  | .sum _ _, here => .here
  | .sum _ _, there p => .there p.branch

/-- The part at the first position lies inside the part at the second one. -/
inductive Inside : {S : Arrangement} → Position S → Position S → Prop where
  | whole {S : Arrangement} (p : Position S) : Inside p itself
  | left {S T : Arrangement} : Inside (here : Position (S.sum T)) here
  | right {S T : Arrangement} {p q : Position T} (h : Inside p q) :
      Inside (there p : Position (S.sum T)) (there q)

/-- Positions that are not inside one another are at places apart. -/
theorem apart {S : Arrangement} {p q : Position S} (hpq : ¬p.Inside q) (hqp : ¬q.Inside p) :
    p.branch.Apart q.branch := by
  induction p with
  | itself => exact absurd (.whole q) hqp
  | here =>
    cases q with
    | itself => exact absurd (.whole _) hpq
    | here => exact absurd .left hpq
    | there q => exact .here_there q.branch
  | there p ih =>
    cases q with
    | itself => exact absurd (.whole _) hpq
    | here => exact .there_here p.branch
    | there q => exact .there_there (ih (fun h => hpq h.right) fun h => hqp h.right)

end Position

/-! ## The laws of mapping -/

/-- A sum keeps the laws of mapping if and only if both sides do. -/
theorem Vocabulary.lawful_sum_iff : (F.sum G).Lawful ↔ F.Lawful ∧ G.Lawful := by
  rw [lawful_iff, lawful_iff, lawful_iff]
  constructor
  · intro h
    exact ⟨fun op => h (.inl op), fun op => h (.inr op)⟩
  · rintro ⟨hF, hG⟩ (op | op)
    · exact hF op
    · exact hG op

/-- A sum keeps the laws of mapping if and only if all that it is made of do. -/
theorem Arrangement.lawful_vocabulary_iff (S : Arrangement) :
    S.vocabulary.Lawful ↔ ∀ V, S.Leaf V → V.Lawful := by
  induction S with
  | one V =>
    constructor
    · rintro h _ ⟨⟩
      exact h
    · intro h
      exact h V .one
  | sum S T ihS ihT =>
    rw [vocabulary, Vocabulary.lawful_sum_iff, ihS, ihT]
    constructor
    · rintro ⟨hS, hT⟩ V (_ | h | h)
      · exact hS V h
      · exact hT V h
    · intro h
      exact ⟨fun V hV => h V hV.left, fun V hV => h V hV.right⟩

/-! ## All places of a sum -/

/-- What injecting and projecting promise in a sum that is arranged as `S`. -/
structure Arrangement.Prisms (ν : Type) (S : Arrangement) : Prop where
  /-- Every place is a prism. -/
  prism {F : Vocabulary} (place : Branch F S.vocabulary) : place.IsPrism.{u, v} ν
  /-- Of two positions that are not inside one another, the one gives back what is injected at the
      other, also if the same vocabulary stands at both. -/
  apart {α : Type u} {p q : Position S} : ¬p.Inside q → ¬q.Inside p →
    ∀ s : Step ν p.part.vocabulary α,
      q.branch.project (p.branch.inject s) = .error (p.branch.inject s)
  /-- Mapping is lawful if and only if it is so for all that the sum is made of. -/
  lawful : S.vocabulary.Lawful ↔ ∀ V, S.Leaf V → V.Lawful

/-- **The places of a sum are lawful prisms**, for sums of any arrangement. -/
theorem Arrangement.prisms (ν : Type) (S : Arrangement) : S.Prisms.{u, v} ν where
  prism place := place.isPrism
  apart hpq hqp := (Position.apart hpq hqp).project_inject
  lawful := S.lawful_vocabulary_iff

/-- With the same vocabulary on both sides, a step of the left side is not one of the right side. -/
example (s : Step ν coin α) :
    (Position.there .itself : Position (.sum (.one coin) (.one coin))).branch.project s.left
      = .error s.left := rfl

end FreeMonad
