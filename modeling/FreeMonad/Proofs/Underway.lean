import FreeMonad.Program.Translate
import FreeMonad.Proofs.Course
import FreeMonad.Proofs.EvaluationOrder

set_option autoImplicit false

/-! # Translations under way

A translated program is built differently after each resume, with a deferred walk inside a
composition, but it has the tree of a translated program behind the events of building it
(`Translator.Underway`). This is kept by every resume and every answer, and the resume calls the
translator once if it comes to a step (`Translator.Underway.shows`).

A translator that replaces payloads may go on for ever. Its walk is then not a program here, so what
is said is said of the first `n` steps (`Translator.UnderwayTo`), and each resume leaves one step
less. Translations that stand on one another are a tower, of which the same is said
(`Tower.UnderwayTo.shows`). -/

namespace FreeMonad

variable {ν : Type} {F G : Vocabulary} {α : Type}

/-! ## Payloads -/

/-- The program is a payload of the step. -/
def Step.HasPayload (s : Step ν G (Program ν F α)) (q : Program ν F α) : Prop :=
  ∃ y, q = (s.reply y).value

/-- The program is a payload of the step, or it is finished. -/
def Step.Yields (s : Step ν G (Program ν F α)) (q : Program ν F α) : Prop :=
  s.HasPayload q ∨ ∃ a, q = .pure a

theorem Translator.HandsOn.yields {t : Translator ν F G α} (h : t.HandsOn)
    {s : Step ν F (Program ν F α)} {q : Program ν F α} (hq : (t s).value.HasPayload q) :
    s.Yields q := by
  obtain ⟨x, rfl⟩ := hq
  rcases h s x with hpayload | hpure
  · exact .inl hpayload
  · exact .inr (Program.exists_eq_pure hpure)

/-! ## One translation -/

/-- Programs that have one tree, behind what is recorded already, show the same. -/
theorem Program.sameRoot_of_after_eq {l : List (Event ν)} {q : Program ν G α}
    {b : Traced ν (Program ν G α)} (h : q.tree.after l = .reached (b.map tree)) :
    l ++ q.resume.log = b.log ++ b.value.resume.log ∧
      SameRoot (fun m n => m.log = n.log ∧ m.value.tree = n.value.tree) q.resume.value
        b.value.resume.value := by
  have hroot : Tree.ofRoot tree (q.resume.after l)
      = Tree.ofRoot tree (b.value.resume.after b.log) := by
    rw [Tree.ofRoot_after, Tree.ofRoot_after, ← tree_eq_ofRoot, ← tree_eq_ofRoot, h]
    rfl
  exact sameRoot_of_ofRoot_eq hroot

namespace Translator

section

variable (t : Translator ν F G α) (R : Program ν F α → Program ν G α → Prop)

/-- The second step is what `t` makes of the first one. `R` relates the payloads that `t` hands on
    to its payloads. -/
inductive Renders (s : Step ν F (Program ν F α)) : Step ν G (Program ν G α) → Prop where
  | mk (reply : G.Answer (t s).value.op → Traced ν (Program ν G α))
      (log_eq : ∀ x, (reply x).log = ((t s).value.reply x).log)
      (payloads : ∀ x, R ((t s).value.reply x).value (reply x).value) :
      Renders s ⟨(t s).value.op, reply⟩

/-- With `l` recorded already, the second outcome is the first one translated: the same value, or
    the step that one call of `t` makes of the step. -/
inductive Shows (l : List (Event ν)) : Traced ν (Outcome ν F α) → Traced ν (Outcome ν G α) → Prop
    where
  | value {log before : List (Event ν)} (log_eq : l ++ before = log) (a : α) :
    Shows l ⟨log, .inr a⟩ ⟨before, .inr a⟩
  | step {log before : List (Event ν)} {s : Step ν F (Program ν F α)}
      {s' : Step ν G (Program ν G α)} (log_eq : l ++ before = log ++ .translating :: (t s).log)
      (renders : t.Renders R s s') : Shows l ⟨log, .inl s⟩ ⟨before, .inl s'⟩

end

variable {t : Translator ν F G α} {R R' : Program ν F α → Program ν G α → Prop}

theorem Renders.imp (h : ∀ p q, R p q → R' p q) {s : Step ν F (Program ν F α)}
    {s' : Step ν G (Program ν G α)} (hrenders : t.Renders R s s') : t.Renders R' s s' := by
  cases hrenders with
  | mk reply hlog payloads => exact .mk reply hlog fun x => h _ _ (payloads x)

theorem Shows.imp (h : ∀ p q, R p q → R' p q) {l : List (Event ν)} {m : Traced ν (Outcome ν F α)}
    {n : Traced ν (Outcome ν G α)} (hshows : t.Shows R l m n) : t.Shows R' l m n := by
  cases hshows with
  | value log_eq a => exact .value log_eq a
  | step log_eq renders => exact .step log_eq (renders.imp h)

/-- With `l` recorded already, `q` is the translation of `p`. -/
def Underway (t : Translator ν F G α) (l : List (Event ν)) (p : Program ν F α)
    (q : Program ν G α) : Prop :=
  ∃ ends, q.tree.after l = .reached ((p.translate t ends).map Program.tree)

theorem underway_translate (t : Translator ν F G α) (p : Program ν F α) (ends : Acc t.Leads p) :
    t.Underway (p.translate t ends).log p (p.translate t ends).value :=
  ⟨ends, rfl⟩

theorem underway_pure (t : Translator ν F G α) (a : α) : t.Underway [] (.pure a) (.pure a) := by
  refine ⟨t.acc_pure a, ?_⟩
  rw [Program.translate_of_value t _ rfl]
  rfl

/-- A deferred walk is under way. -/
theorem underway_of_tree_eq_defer {p : Program ν F α} {q : Program ν G α} (ends : Acc t.Leads p)
    (h : q.tree = (Program.defer fun _ => p.translate t ends).tree) : t.Underway [] p q :=
  ⟨ends, by rw [Tree.after_nil, h, Program.tree_defer]⟩

/-- Resuming goes on with the walk up to its next step, which it translates. -/
theorem Underway.shows {l : List (Event ν)} {p : Program ν F α} {q : Program ν G α}
    (h : t.Underway l p q) : t.Shows (t.Underway []) l p.resume q.resume := by
  obtain ⟨ends, h⟩ := h
  obtain ⟨hlog, hroot⟩ := Program.sameRoot_of_after_eq h
  rcases hp : p.resume with ⟨log, s | a⟩
  · obtain ⟨hnext, htranslate⟩ := Program.translate_of_step t ends hp
    rw [htranslate] at hlog hroot
    rcases hq : q.resume with ⟨before, o⟩
    rw [hq] at hlog hroot
    cases hroot with
    | step op reply _ payloads =>
      refine .step (hlog.trans (List.append_nil _)) (.mk reply (fun x => (payloads x).1) ?_)
      exact fun x => underway_of_tree_eq_defer (hnext x) (payloads x).2
  · rw [Program.translate_of_value t ends hp] at hlog hroot
    rcases hq : q.resume with ⟨before, o⟩
    rw [hq] at hlog hroot
    cases hroot
    exact .value (hlog.trans (List.append_nil _)) a

/-- As far as `n` resumes can tell, `q` is the translation of `p`, with `l` recorded already. -/
def UnderwayTo (t : Translator ν F G α) :
    Nat → List (Event ν) → Program ν F α → Program ν G α → Prop
  | 0, _, _, _ => True
  | n + 1, l, p, q => t.Shows (UnderwayTo t n []) l p.resume q.resume

theorem Underway.underwayTo (n : Nat) {l : List (Event ν)} {p : Program ν F α}
    {q : Program ν G α} (h : t.Underway l p q) : t.UnderwayTo n l p q := by
  induction n generalizing l p q with
  | zero => trivial
  | succ n ih => exact h.shows.imp fun _ _ => ih

theorem underwayTo_pure (t : Translator ν F G α) (n : Nat) (a : α) :
    t.UnderwayTo n [] (.pure a) (.pure a) :=
  (t.underway_pure a).underwayTo n

theorem UnderwayTo.mono {k n : Nat} (hk : k ≤ n) {l : List (Event ν)} {p : Program ν F α}
    {q : Program ν G α} (h : t.UnderwayTo n l p q) : t.UnderwayTo k l p q := by
  induction k generalizing n l p q with
  | zero => trivial
  | succ k ih =>
    obtain ⟨n, rfl⟩ := Nat.exists_eq_succ_of_ne_zero (Nat.ne_zero_of_lt hk)
    exact Shows.imp (fun _ _ => ih (Nat.le_of_succ_le_succ hk)) h

/-- Every payload of a translated step is the translation of a payload that `t` hands on. -/
theorem Renders.exists_yields {n : Nat} {s : Step ν F (Program ν F α)}
    {s' : Step ν G (Program ν G α)} (h : t.Renders (t.UnderwayTo n []) s s') {q : Program ν G α}
    (hq : s'.Yields q) : ∃ p, t.UnderwayTo n [] p q ∧ (t s).value.Yields p := by
  cases h with
  | mk reply hlog payloads =>
    rcases hq with ⟨y, rfl⟩ | ⟨a, rfl⟩
    · exact ⟨_, payloads y, .inl ⟨y, rfl⟩⟩
    · exact ⟨.pure a, t.underwayTo_pure n a, .inr ⟨a, rfl⟩⟩

/-- What building the first `n` steps of the translation of `p` comes to: the first step is
    translated, and nothing is left to do when the program that is built is resumed. -/
structure BuildsTo (t : Translator ν F G α) (n : Nat) (p : Program ν F α)
    (b : Traced ν (Program ν G α)) : Prop where
  underway : t.UnderwayTo n b.log p b.value
  resumed : b.value.resume.log = []

theorem buildsTo_translate (t : Translator ν F G α) (n : Nat) (p : Program ν F α)
    (ends : Acc t.Leads p) : t.BuildsTo n p (p.translate t ends) where
  underway := (t.underway_translate p ends).underwayTo n
  resumed := by
    rcases hp : p.resume with ⟨log, s | a⟩
    · obtain ⟨hnext, htranslate⟩ := Program.translate_of_step t ends hp
      rw [htranslate]
      rfl
    · rw [Program.translate_of_value t ends hp]
      rfl

/-- Only the tree counts, behind what is recorded already. -/
theorem UnderwayTo.of_after_eq {n : Nat} {l l' : List (Event ν)} {p : Program ν F α}
    {q q' : Program ν G α} (h : t.UnderwayTo n l p q) (hq : q'.tree.after l' = q.tree.after l) :
    t.UnderwayTo n l' p q' := by
  induction n generalizing l l' p q q' with
  | zero => trivial
  | succ n ih =>
    obtain ⟨hlog, hroot⟩ := Program.sameRoot_of_after_eq (b := ⟨l, q⟩) hq
    simp only [UnderwayTo] at h ⊢
    generalize p.resume = m at h ⊢
    rcases hr : q.resume with ⟨log, o⟩
    rcases hr' : q'.resume with ⟨log', o'⟩
    rw [hr] at h
    rw [hr, hr'] at hlog hroot
    cases h with
    | value log_eq a =>
      cases hroot
      exact .value (hlog.trans log_eq) a
    | step log_eq renders =>
      cases renders with
      | mk reply hreply payloads =>
        cases hroot with
        | step _ reply' _ hpayloads =>
          refine .step (hlog.trans log_eq) (.mk reply' (fun x => ?_) fun x => ?_)
          · exact (hpayloads x).1.trans (hreply x)
          · exact ih (payloads x) (congrArg (Tree.after []) (hpayloads x).2)

/-- Whatever the translator does, the first `n` steps of the translation can be built; what comes
    behind them is cut off. -/
theorem exists_buildsTo (t : Translator ν F G α) (cut : Program ν G α) (n : Nat)
    (p : Program ν F α) : ∃ b, t.BuildsTo (n + 1) p b := by
  have hfirst {n : Nat} (rest : Program ν F α → Program ν G α)
      (hrest : ∀ p, t.UnderwayTo n [] p (rest p)) (p : Program ν F α) :
      ∃ b, t.BuildsTo (n + 1) p b := by
    rcases hp : p.resume with ⟨log, s | a⟩
    · refine ⟨⟨log ++ .translating :: (t s).log, .ofStep ((t s).value.map rest)⟩, ?_, rfl⟩
      rw [UnderwayTo, hp]
      exact .step (List.append_nil _) (.mk _ (fun _ => rfl) fun _ => hrest _)
    · refine ⟨⟨log, .pure a⟩, ?_, rfl⟩
      rw [UnderwayTo, hp]
      exact .value (List.append_nil _) a
  induction n generalizing p with
  | zero =>
    have hcut : ∀ p, t.UnderwayTo 0 [] p cut := fun _ => trivial
    exact hfirst (fun _ => cut) hcut p
  | succ n ih =>
    obtain ⟨b, hb⟩ := Classical.axiomOfChoice ih
    refine hfirst (fun p => .defer fun _ => b p) (fun p => ?_) p
    refine (hb p).underway.of_after_eq ?_
    rw [Program.tree_defer, Tree.after_nil]
    rfl

end Translator

/-! ## Towers of translations -/

/-- Translations of programs over `G`, one after the other. -/
inductive Tower (ν α : Type) (G : Vocabulary) : Vocabulary → Type 1 where
  | ground : Tower ν α G G
  | storey {H K : Vocabulary} (T : Tower ν α G H) (u : Translator ν H K α) : Tower ν α G K

namespace Tower

variable {G H K : Vocabulary}

/-- Every translator of the tower only hands on what it is given, or finished programs. -/
def HandsOn : {H : Vocabulary} → Tower ν α G H → Prop
  | _, .ground => True
  | _, .storey T u => T.HandsOn ∧ u.HandsOn

/-- Building all translations of `q` comes to the last program. Only the walks over the programs
    that are built have to end. -/
inductive Builds (q : Program ν G α) :
    {H : Vocabulary} → Tower ν α G H → Traced ν (Program ν H α) → Prop where
  | ground : Builds q .ground (.pure q)
  | storey {H K : Vocabulary} {T : Tower ν α G H} {u : Translator ν H K α}
      {b : Traced ν (Program ν H α)} (below : Builds q T b) (ends : Acc u.Leads b.value) :
      Builds q (.storey T u) ((b.value.translate u ends).after b.log)

/-- Building the first `n` steps of all translations of `q` comes to the last program. -/
inductive BuildsTo (n : Nat) (q : Program ν G α) :
    {H : Vocabulary} → Tower ν α G H → Traced ν (Program ν H α) → Prop where
  | ground : BuildsTo n q .ground (.pure q)
  | storey {H K : Vocabulary} {T : Tower ν α G H} {u : Translator ν H K α}
      {b : Traced ν (Program ν H α)} {c : Traced ν (Program ν K α)} (below : BuildsTo n q T b)
      (top : u.BuildsTo n b.value c) : BuildsTo n q (.storey T u) (c.after b.log)

/-- As far as `n` resumes can tell, the last program is `q`, translated by the whole tower, with `l`
    recorded already. -/
inductive UnderwayTo (n : Nat) (q : Program ν G α) :
    {H : Vocabulary} → Tower ν α G H → List (Event ν) → Program ν H α → Prop where
  | ground : UnderwayTo n q .ground [] q
  | storey {H K : Vocabulary} {T : Tower ν α G H} {u : Translator ν H K α}
      {l l' : List (Event ν)} {r : Program ν H α} {r' : Program ν K α}
      (below : UnderwayTo n q T l r) (top : u.UnderwayTo n l' r r') :
      UnderwayTo n q (.storey T u) (l ++ l') r'

/-- Each translator of the tower, from the lowest one on, is called once, on the step that the one
    below it made of the step. `log` is what this records. Payloads are translations of payloads as
    far as `n` resumes can tell. -/
inductive Renders (n : Nat) (s : Step ν G (Program ν G α)) :
    {H : Vocabulary} → Tower ν α G H → List (Event ν) → Step ν H (Program ν H α) → Prop where
  | ground : Renders n s .ground [] s
  | storey {H K : Vocabulary} {T : Tower ν α G H} {u : Translator ν H K α}
      {log : List (Event ν)} {s' : Step ν H (Program ν H α)} {s'' : Step ν K (Program ν K α)}
      (below : Renders n s T log s') (top : u.Renders (u.UnderwayTo n []) s' s'') :
      Renders n s (.storey T u) (log ++ .translating :: (u s').log) s''

/-- With `l` recorded already, the second outcome is the first one translated by the whole tower:
    the same value, or the step that the tower makes of the step. -/
inductive Shows (n : Nat) (T : Tower ν α G H) (l : List (Event ν)) :
    Traced ν (Outcome ν G α) → Traced ν (Outcome ν H α) → Prop where
  | value {log before : List (Event ν)} (log_eq : l ++ before = log) (a : α) :
    Shows n T l ⟨log, .inr a⟩ ⟨before, .inr a⟩
  | step {log before tail : List (Event ν)} {s : Step ν G (Program ν G α)}
      {s' : Step ν H (Program ν H α)} (log_eq : l ++ before = log ++ tail)
      (renders : T.Renders n s tail s') : Shows n T l ⟨log, .inl s⟩ ⟨before, .inl s'⟩

variable {T : Tower ν α G H} {n : Nat} {q : Program ν G α} {c : Traced ν (Program ν H α)}

theorem Builds.buildsTo (n : Nat) (h : T.Builds q c) : T.BuildsTo n q c := by
  induction h with
  | ground => exact .ground
  | storey below ends ih => exact .storey ih (Translator.buildsTo_translate _ n _ ends)

/-- Whatever the translators do, the first `n` steps of all translations can be built. -/
theorem exists_buildsTo (T : Tower ν α G H) (cut : α) (n : Nat) (q : Program ν G α) :
    ∃ c, T.BuildsTo (n + 1) q c := by
  induction T with
  | ground => exact ⟨_, .ground⟩
  | storey T u ih =>
    obtain ⟨b, hb⟩ := ih
    obtain ⟨c, hc⟩ := u.exists_buildsTo (.pure cut) n b.value
    exact ⟨_, .storey hb hc⟩

theorem BuildsTo.underwayTo (h : T.BuildsTo n q c) : T.UnderwayTo n q c.log c.value := by
  induction h with
  | ground => exact .ground
  | storey below top ih => exact .storey ih top.underway

/-- Nothing is left to do when the program that is built is resumed. -/
theorem BuildsTo.resumed (h : T.BuildsTo n q c) (hq : q.resume.log = []) :
    c.value.resume.log = [] := by
  cases h with
  | ground => exact hq
  | storey below top => exact top.resumed

theorem underwayTo_pure (T : Tower ν α G H) (n : Nat) (a : α) :
    T.UnderwayTo n (.pure a) [] (.pure a) := by
  induction T with
  | ground => exact .ground
  | storey T u ih => exact .storey ih (u.underwayTo_pure n a)

section

variable {k : Nat} {l log : List (Event ν)} {r : Program ν H α}
  {s : Step ν G (Program ν G α)} {s' : Step ν H (Program ν H α)}

theorem UnderwayTo.mono (hk : k ≤ n) (h : T.UnderwayTo n q l r) : T.UnderwayTo k q l r := by
  induction h with
  | ground => exact .ground
  | storey below top ih => exact .storey ih (top.mono hk)

theorem Renders.mono (hk : k ≤ n) (h : T.Renders n s log s') : T.Renders k s log s' := by
  induction h with
  | ground => exact .ground
  | storey below top ih => exact .storey ih (top.imp fun _ _ => Translator.UnderwayTo.mono hk)

/-- Resuming the highest program resumes the lowest one, and calls every translator if that comes to
    a step. -/
theorem UnderwayTo.shows (h : T.UnderwayTo (n + 1) q l r) : T.Shows n l q.resume r.resume := by
  induction h with
  | ground =>
    rcases q.resume with ⟨log, s | a⟩
    · exact .step (List.append_nil log).symm .ground
    · exact .value rfl a
  | @storey _ _ T u l l' r r' below top ih =>
    have htop : u.Shows (u.UnderwayTo n []) l' r.resume r'.resume := top
    generalize q.resume = m at ih ⊢
    generalize r.resume = o at ih htop
    generalize r'.resume = o' at htop ⊢
    cases htop with
    | value hlog a =>
      cases ih with
      | value hbelow a => exact .value ((List.append_assoc ..).trans (hlog ▸ hbelow)) a
    | @step _ _ s' _ hlog renders =>
      cases ih with
      | @step log _ tail _ _ hbelow hrenders =>
        refine .step ?_ (.storey hrenders renders)
        rw [List.append_assoc, hlog, ← List.append_assoc, hbelow, List.append_assoc]

/-- If the translators hand on what they are given, every payload of the highest step is the tower
    over a payload of the lowest one. -/
theorem Renders.exists_yields (hT : T.HandsOn) (h : T.Renders n s log s') (x : H.Answer s'.op) :
    ∃ q, T.UnderwayTo n q [] (s'.reply x).value ∧ s.Yields q := by
  induction h with
  | ground => exact ⟨_, .ground, .inl ⟨x, rfl⟩⟩
  | @storey _ _ T u log s' s'' below top ih =>
    obtain ⟨hT, hu⟩ := hT
    cases top with
    | mk reply hlog payloads =>
      have htop := payloads x
      rcases hu.yields ⟨x, rfl⟩ with ⟨y, hy⟩ | ⟨a, ha⟩
      · rw [hy] at htop
        obtain ⟨q, hq, hyields⟩ := ih hT y
        exact ⟨q, .storey hq htop, hyields⟩
      · rw [ha] at htop
        exact ⟨.pure a, .storey (T.underwayTo_pure n a) htop, .inr ⟨a, rfl⟩⟩

end

end Tower

/-! ## A translator that replaces payloads and ends -/

/-- Two questions, of which the second one is there to follow up the first one. -/
inductive Question where
  | first
  | second

/-- The vocabulary of the two questions, which are answered by yes or no. -/
def questions : Vocabulary := ⟨Question, fun _ => Bool, fun _ => none⟩

/-- Puts one question and comes to the answer. -/
def Question.put (question : Question) : Program ν questions Bool := .lift ⟨question, .pure⟩

/-- Puts the second question after the first one, and gives up what was to come there. -/
def followedUp : Translator ν questions questions Bool
  | ⟨.first, _⟩ => .pure ⟨Question.first, fun _ => .pure Question.second.put⟩
  | ⟨.second, reply⟩ => .pure ⟨Question.second, reply⟩

/-- A question that follows up is not followed up again, so the walk ends. -/
theorem followedUp_acc (p : Program ν questions Bool) : Acc followedUp.Leads p := by
  have hsecond : Acc followedUp.Leads (Question.second.put : Program ν questions Bool) := by
    refine ⟨_, fun rest ⟨s, hs, x, hx⟩ => ?_⟩
    cases hs
    subst hx
    exact followedUp.acc_pure x
  induction hp : p.tree using Tree.child_wellFounded.induction generalizing p with
  | _ _ ih =>
    subst hp
    refine ⟨_, fun rest ⟨s, hs, x, hx⟩ => ?_⟩
    subst hx
    obtain ⟨question, reply⟩ := s
    cases question with
    | first => exact hsecond
    | second => exact ih _ (Program.child_of_resume hs x) _ rfl

/-- Hands every question on as it is. -/
def passedOn : Translator ν questions questions Bool := .pure

theorem passedOn_handsOn : (passedOn : Translator ν questions questions Bool).HandsOn :=
  fun _ x => .inl ⟨x, rfl⟩

/-- The first question under a translation that changes nothing. -/
def passedOnFirst : Traced Empty (Program Empty questions Bool) :=
  Question.first.put.translate passedOn (passedOn_handsOn.acc _)

/-- The first question under two translations, of which the upper one follows it up. -/
def followedUpAbove : Traced Empty (Program Empty questions Bool) :=
  passedOnFirst.bind fun p => p.translate followedUp (followedUp_acc p)

/-- Counts the questions and answers each of them by yes. -/
def assenting : Interpreter ν questions .identity Nat Bool := fun count s =>
  (s.reply true).map fun q => (count + 1, q)

/-- Where a program comes to a question, its translation puts it, and puts the second question
    after the first one. -/
theorem followedUp_shows {n : Nat} {l log : List (Event ν)} {r q : Program ν questions Bool}
    {question : Question} {reply : Bool → Traced ν (Program ν questions Bool)}
    (h : followedUp.UnderwayTo (n + 1) l r q) (hr : r.resume = ⟨log, .inl ⟨question, reply⟩⟩) :
    ∃ before s, q.resume = ⟨before, .inl s⟩ ∧ l ++ before = log ++ [.translating] ∧
      (question = .first →
        ∀ x, followedUp.UnderwayTo n [] Question.second.put (s.reply x).value) := by
  have hshows : followedUp.Shows (followedUp.UnderwayTo n []) l r.resume q.resume := h
  rw [hr] at hshows
  generalize q.resume = m at hshows ⊢
  cases hshows with
  | step hlog renders =>
    cases renders with
    | mk reply' hreply payloads =>
      refine ⟨_, _, rfl, ?_, ?_⟩
      · cases question <;> exact hlog
      · rintro rfl x
        exact payloads x

/-- Where a program comes to the first question, its translation has a run of two calls, which are
    both answered with payloads. There is one translation before the second one. -/
theorem followedUp_course {l log : List (Event ν)} {r q : Program ν questions Bool}
    {reply : Bool → Traced ν (Program ν questions Bool)} (h : followedUp.UnderwayTo 2 l r q)
    (hr : r.resume = ⟨log, .inl ⟨Question.first, reply⟩⟩) :
    ∃ c d o, Course assenting 0 (.left q) [c, d] 2 o ∧
      (∀ e ∈ [c, d], e.AnsweredByPayload assenting) ∧ d.before = [.translating] := by
  obtain ⟨before, s, hq, -, hnext⟩ := followedUp_shows h hr
  have hsecond : (Question.second.put : Program ν questions Bool).resume
      = ⟨[], .inl ⟨Question.second, fun x => .pure (.pure x)⟩⟩ := rfl
  obtain ⟨before', s', hq', hlog, -⟩ := followedUp_shows (hnext rfl true) hsecond
  refine ⟨⟨0, before, s⟩, ⟨1, before', s'⟩, .left (s'.reply true).value, ?_,
    fun e _ => ⟨true, rfl⟩, hlog⟩
  exact .call hq (.call hq' (.stay 2 _))

/-- The translation that changes nothing still puts the first question. -/
theorem resume_passedOnFirst :
    ∃ reply, passedOnFirst.value.resume = ⟨[], .inl ⟨Question.first, reply⟩⟩ := by
  have hput : (Question.first.put : Program Empty questions Bool).resume
      = ⟨[], .inl ⟨Question.first, fun x => .pure (.pure x)⟩⟩ := rfl
  obtain ⟨hnext, htranslate⟩ := Program.translate_of_step passedOn (passedOn_handsOn.acc _) hput
  exact ⟨_, congrArg (fun b => b.value.resume) htranslate⟩

end FreeMonad
