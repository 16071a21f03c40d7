import FreeMonad.Program.Tree

set_option autoImplicit false

/-! # Translating a program into another vocabulary

A translator turns one step of `F` into one step of `G`, payload included. `Program.translate`
applies it to every step of a program, one at a time: the program is resumed up to its first
step, that step is translated, and the walk over each payload is deferred until a driver of the
translated program reaches it.

A translator may replace the payload it is given by any program, so nothing but the translator
itself says that the walk ends. `Translator.Leads` relates a program to the payloads its
translated first step hands on, and the walk takes a proof that this descent ends. A translator
that hands on nothing but payloads of the step it was given, or finished programs, always ends
(`Translator.HandsOn.acc`). -/

namespace FreeMonad

variable {ν : Type} {F G : Vocabulary} {α : Type}

/-- A function from steps of `F` to steps of `G` that carry programs over `F`. -/
abbrev Translator (ν : Type) (F G : Vocabulary) (α : Type) : Type 1 :=
  Step ν F (Program ν F α) → Traced ν (Step ν G (Program ν F α))

namespace Translator

/-- `rest` is a payload that the translated first step of `p` hands on. -/
def Leads (t : Translator ν F G α) (rest p : Program ν F α) : Prop :=
  ∃ s, p.resume.value = .inl s ∧ ∃ x, ((t s).value.reply x).value = rest

/-- Every payload that `t` hands on is a payload of the step it was given, or is finished. -/
def HandsOn (t : Translator ν F G α) : Prop :=
  ∀ s x, (∃ y, ((t s).value.reply x).value = (s.reply y).value) ∨
    ((t s).value.reply x).value.isPure = true

theorem acc_pure (t : Translator ν F G α) (a : α) : Acc t.Leads (.pure a) :=
  ⟨_, fun _ ⟨_, h, _⟩ => nomatch h⟩

/-- The walk of a translator that only hands on what it is given ends. -/
theorem HandsOn.acc {t : Translator ν F G α} (h : t.HandsOn) (p : Program ν F α) :
    Acc t.Leads p := by
  induction hp : p.tree using Tree.child_wellFounded.induction generalizing p with
  | _ _ ih =>
    subst hp
    refine ⟨_, fun rest ⟨s, hs, x, hx⟩ => ?_⟩
    subst hx
    match h s x with
    | .inl ⟨y, hy⟩ => exact hy ▸ ih _ (Program.child_of_resume hs y) _ rfl
    | .inr hpure =>
      obtain ⟨a, ha⟩ := Program.exists_eq_pure hpure
      exact ha ▸ t.acc_pure a

instance (t : Translator ν F G α) : WellFoundedRelation { p // Acc t.Leads p } where
  rel p q := t.Leads p.1 q.1
  wf := ⟨fun ⟨p, h⟩ => by
    induction h with
    | intro p _ ih => exact ⟨_, fun q leads => ih q.1 leads⟩⟩

end Translator

namespace Program

/-- Translates every step of `p` by `t`. The first step is translated at once, each later one
    when a driver reaches it. -/
def translate (t : Translator ν F G α) (p : Program ν F α) (ends : Acc t.Leads p) :
    Traced ν (Program ν G α) :=
  let r := p.resume
  match h : r.value with
  | .inr a => ⟨r.log, .pure a⟩
  | .inl s =>
    let u := t s
    ⟨r.log ++ .translating :: u.log, .suspend u.value.op fun x =>
      let next := u.value.reply x
      .mk next.log <| .defer fun _ => translate t next.value (ends.inv ⟨s, h, x, rfl⟩)⟩
termination_by (⟨p, ends⟩ : { p // Acc t.Leads p })
decreasing_by exact ⟨s, h, x, rfl⟩

/-- Translating a program that comes to a value only resumes it. -/
theorem translate_of_value (t : Translator ν F G α) {p : Program ν F α} (ends : Acc t.Leads p)
    {log : List (Event ν)} {a : α} (h : p.resume = ⟨log, .inr a⟩) :
    p.translate t ends = ⟨log, .pure a⟩ := by
  rw [translate]
  dsimp only
  split
  case h_1 b hb =>
    rw [h] at hb ⊢
    rw [Sum.inr.inj hb]
  case h_2 s hs =>
    rw [h] at hs
    cases hs

/-- Translating a program that comes to a step resumes it and translates the step; the walk over
    each payload is deferred. -/
theorem translate_of_step (t : Translator ν F G α) {p : Program ν F α} (ends : Acc t.Leads p)
    {log : List (Event ν)} {s : Step ν F (Program ν F α)} (h : p.resume = ⟨log, .inl s⟩) :
    ∃ hnext : ∀ x, Acc t.Leads ((t s).value.reply x).value,
      p.translate t ends = ⟨log ++ .translating :: (t s).log, ofStep ⟨(t s).value.op, fun x =>
        ⟨((t s).value.reply x).log,
          defer fun _ => ((t s).value.reply x).value.translate t (hnext x)⟩⟩⟩ := by
  have hvalue : p.resume.value = .inl s := congrArg Traced.value h
  refine ⟨fun x => ends.inv ⟨s, hvalue, x, rfl⟩, ?_⟩
  rw [translate]
  dsimp only
  split
  case h_1 a ha =>
    rw [h] at ha
    cases ha
  case h_2 s' hs' =>
    obtain rfl : s' = s := Sum.inl.inj (hs'.symm.trans hvalue)
    exact Traced.ext (congrArg (fun r => r.log ++ .translating :: (t s').log) h) rfl

end Program

end FreeMonad
