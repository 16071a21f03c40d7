import FreeMonad.Vocabulary.Sum

set_option autoImplicit false

/-! # Places in a sum

Injecting at a place and projecting there undo one another (`Branch.project_eq_ok_iff`). A step that
is injected keeps its answers: whatever replies are put in place of its own, it projects to the same
operation, with the new replies (`Branch.exists_project_inject_op`).

Two places of one sum are *apart* if their ways part somewhere: the one ends at a left side and the
other goes on to the right of it. Such places share no step, even if the same vocabulary stands at
both (`Branch.Apart.project_inject`). -/

namespace FreeMonad

universe u v

variable {ν : Type} {F G H W : Vocabulary} {α : Type u} {β : Type v}

/-! ## The sides of a sum -/

namespace Step

/-- Every step of a sum is one of its left or of its right side. -/
theorem eq_left_or_eq_right (w : Step ν (F.sum G) α) :
    (∃ s : Step ν F α, w = s.left) ∨ ∃ s : Step ν G α, w = s.right := by
  obtain ⟨op | op, reply⟩ := w
  · exact .inl ⟨⟨op, reply⟩, rfl⟩
  · exact .inr ⟨⟨op, reply⟩, rfl⟩

@[simp] theorem left_inj {s t : Step ν F α} :
    (s.left : Step ν (F.sum G) α) = t.left ↔ s = t := by
  constructor
  · intro h
    have hside := congrArg side h
    exact Sum.inl.inj hside
  · rintro rfl
    rfl

@[simp] theorem right_inj {s t : Step ν G α} :
    (s.right : Step ν (F.sum G) α) = t.right ↔ s = t := by
  constructor
  · intro h
    have hside := congrArg side h
    exact Sum.inr.inj hside
  · rintro rfl
    rfl

@[simp] theorem left_ne_right (s : Step ν F α) (t : Step ν G α) : s.left ≠ t.right := by
  intro h
  exact nomatch congrArg side h

@[simp] theorem right_ne_left (s : Step ν F α) (t : Step ν G α) : t.right ≠ s.left := by
  intro h
  exact nomatch congrArg side h

end Step

namespace Branch

/-! ## Injecting and projecting -/

@[simp] theorem project_here_left (s : Step ν F α) :
    (here : Branch F (F.sum G)).project s.left = .ok s := rfl

@[simp] theorem project_here_right (s : Step ν G α) :
    (here : Branch F (F.sum G)).project s.right = .error s.right := rfl

@[simp] theorem project_there_left (place : Branch F G) (s : Step ν H α) :
    (there place : Branch F (H.sum G)).project s.left = .error s.left := rfl

@[simp] theorem project_there_right (place : Branch F G) (s : Step ν G α) :
    (there place : Branch F (H.sum G)).project s.right = (place.project s).mapError .right := rfl

/-- What a step projects to at a place is the step of which it is the injection. -/
theorem project_eq_ok_iff (place : Branch F W) {w : Step ν W α} {s : Step ν F α} :
    place.project w = .ok s ↔ place.inject s = w := by
  induction place with
  | itself => simp [project, inject, eq_comm]
  | here =>
    rcases w.eq_left_or_eq_right with ⟨t, rfl⟩ | ⟨t, rfl⟩
    · simp [inject, eq_comm]
    · simp [inject]
  | there place ih =>
    rcases w.eq_left_or_eq_right with ⟨t, rfl⟩ | ⟨t, rfl⟩
    · simp [inject]
    · rw [project_there_right, inject, Step.right_inj, ← ih]
      cases place.project t with
      | ok t' =>
        constructor
        · intro h
          exact congrArg Except.ok (Except.ok.inj h)
        · intro h
          exact congrArg Except.ok (Except.ok.inj h)
      | error t' =>
        constructor
        · intro h
          cases h
        · intro h
          cases h

/-- A step with the operation of an injected one projects to the operation itself, whatever its
    replies are. Each answer of the one stands for an answer of the other. -/
theorem exists_project_inject_op (place : Branch F W) (s : Step ν F α)
    (reply : W.Answer (place.inject s).op → Traced ν β) :
    ∃ reply' : F.Answer s.op → Traced ν β,
      place.project ⟨(place.inject s).op, reply⟩ = .ok ⟨s.op, reply'⟩ ∧
      ∀ y, ∃ x, (place.inject s).reply x = s.reply y ∧ reply x = reply' y := by
  induction place with
  | itself => exact ⟨reply, rfl, fun y => ⟨y, rfl, rfl⟩⟩
  | here => exact ⟨reply, rfl, fun y => ⟨y, rfl, rfl⟩⟩
  | @there H G place ih =>
    obtain ⟨reply', hproject, hreply⟩ := ih reply
    refine ⟨reply', ?_, hreply⟩
    have hright := project_there_right (H := H) place ⟨(place.inject s).op, reply⟩
    rw [hproject] at hright
    exact hright

/-! ## Places that share no step -/

/-- One of the two places is a left side, and the other one lies to the right of it. -/
inductive Apart : {W : Vocabulary} → Branch F W → Branch H W → Prop where
  | here_there {G : Vocabulary} (other : Branch H G) : Apart (.here : Branch F _) (.there other)
  | there_here {G : Vocabulary} (place : Branch F G) : Apart (.there place) (.here : Branch H _)
  | there_there {K G : Vocabulary} {place : Branch F G} {other : Branch H G}
      (h : Apart place other) : Apart (W := K.sum G) (.there place) (.there other)

/-- A step injected at one place is given back unchanged at every place apart from it. -/
theorem Apart.project_inject {place : Branch F W} {other : Branch H W} (h : place.Apart other)
    (s : Step ν F α) : other.project (place.inject s) = .error (place.inject s) := by
  induction h with
  | here_there other => exact project_there_left other s
  | there_here place => exact project_here_right (place.inject s)
  | @there_there K G place other h ih => rw [inject, project_there_right, ih]; rfl

end Branch

end FreeMonad
