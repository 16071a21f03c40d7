import FreeMonad.Proofs.Discarding
import FreeMonad.Proofs.Translation
import FreeMonad.Script.Display

set_option autoImplicit false

/-! # What stepping shows

A program shows one of three variants: a value, a step, or a composition. Callers look at the
variant, by `Program.isPure` or in the text of `Program.display`, after each step that they take by
hand, so it matters which sequences of variants they can meet.

The variant of a payload is decided in three places. The payload of a step that the program shows
itself is what its author made of it, of any variant. The payload of a step that a composition comes
to is a composition, since `Program.resume` puts the rest of the program behind it
(`Program.variant_payload`). And the payload of a translated step is a deferred walk, a composition
again. So a run shows steps first, and then a value, or compositions for as long as it goes on
(`Program.Passes.inOrder`): a composition never turns into a value, also when no step is left. -/

namespace FreeMonad

variable {ν : Type} {V F G : Vocabulary} {α β γ : Type}

/-! ## Variants -/

/-- The variants of programs. -/
inductive Variant where
  | pure
  | suspend
  | compose
  deriving DecidableEq, Repr

namespace Program

/-- The variant that a program shows. -/
def variant : {α : Type} → Program ν V α → Variant
  | _, .pure _ => .pure
  | _, .suspend _ _ => .suspend
  | _, .compose _ _ => .compose

theorem isPure_eq (p : Program ν V α) : p.isPure = decide (p.variant = .pure) := by
  cases p <;> rfl

theorem isPure_of_compose {p : Program ν V α} (h : p.variant = .compose) : p.isPure = false := by
  rw [isPure_eq, h]
  rfl

end Program

/-- The letter that the text of a program of this variant starts with. -/
def Variant.initial : Variant → Char
  | .pure => 'P'
  | .suspend => 'S'
  | .compose => 'B'

theorem Variant.initial_injective : Function.Injective initial := by
  intro v w
  cases v <;> cases w <;> decide

/-- The text of a constructor with one field starts as the name of the constructor does. -/
theorem Layout.head_constructor (layout : Layout) {name : String} (field : String) {c : Char}
    (h : name.toList.head? = some c) : (layout.constructor name field).toList.head? = some c := by
  cases layout <;> simp [constructor, h]

namespace Program

theorem head_display (layout : Layout) (write : α → String) (p : Program ν V α) :
    (p.display layout write).toList.head? = some p.variant.initial := by
  cases p with
  | pure a => exact layout.head_constructor _ rfl
  | suspend op reply => exact layout.head_constructor _ rfl
  | compose head queue => exact layout.head_constructor _ rfl

/-- The text of a program tells its variant, however its value is written. -/
theorem variant_eq_of_display {layout : Layout} {write : α → String} {write' : β → String}
    {p : Program ν V α} {q : Program ν V β} (h : p.display layout write = q.display layout write') :
    p.variant = q.variant := by
  have hhead := congrArg (fun text => text.toList.head?) h
  simp only [head_display] at hhead
  exact Variant.initial_injective (Option.some.inj hhead)

/-! ## One step -/

theorem variant_normalize (recorded : List (Event ν)) (current : Program ν V α)
    (queue : Queue ν V α β) : ∀ s, (normalize recorded current queue).value = .inl s →
      ∀ x, (s.reply x).value.variant = .compose := by
  fun_induction normalize recorded current queue with
  | case1 =>
    intro s h
    cases h
  | case2 _ _ _ _ _ _ _ _ _ _ _ _ ih => exact ih
  | case3 _ _ recorded queue op reply =>
    intro s h x
    cases h
    rfl
  | case4 _ _ _ _ _ _ _ _ ih => exact ih

/-- The payload of a step that a composition comes to is a composition. -/
theorem variant_payload {p : Program ν V α} (hp : p.variant = .compose)
    {s : Step ν V (Program ν V α)} (h : p.resume.value = .inl s) (x : V.Answer s.op) :
    (s.reply x).value.variant = .compose := by
  cases p with
  | pure a => cases hp
  | suspend op reply => cases hp
  | compose head queue => exact variant_normalize _ _ queue s h x

/-! ## Runs -/

/-- Stepping the first program by hand, and going on with a payload of each step, passes the
    programs of the list, which are resumed, and reaches the last one. -/
inductive Passes : Program ν V α → List (Program ν V α) → Program ν V α → Prop where
  | reached (p : Program ν V α) : Passes p [] p
  | stepped {p r : Program ν V α} {s : Step ν V (Program ν V α)} {ps : List (Program ν V α)}
      (h : p.resume.value = .inl s) (x : V.Answer s.op) (rest : Passes (s.reply x).value ps r) :
      Passes p (p :: ps) r

/-- A run goes on with every payload: it is over only at a value, or at a step without payload. -/
theorem Passes.goesOn {p r : Program ν V α} {ps : List (Program ν V α)} (h : p.Passes ps r)
    {s : Step ν V (Program ν V α)} (hr : r.resume.value = .inl s) (x : V.Answer s.op) :
    p.Passes (ps ++ [r]) (s.reply x).value := by
  induction h with
  | reached p => exact .stepped hr x (.reached _)
  | stepped h y _ ih => exact .stepped h y (ih hr)

/-- The variants that are shown by the programs passed and the one reached: steps, and then nothing
    or a value or compositions. -/
inductive InOrder (ps : List (Program ν V α)) (r : Program ν V α) : Prop where
  /-- Steps only so far; the run goes on unless the last one has no payload. -/
  | steps {s : Step ν V (Program ν V α)} (n : Nat)
      (shown : (ps ++ [r]).map variant = List.replicate (n + 1) .suspend)
      (asks : r.resume.value = .inl s)
  /-- Steps, and then one value, with which the run is over. -/
  | value {a : α} (n : Nat)
      (shown : (ps ++ [r]).map variant = List.replicate n .suspend ++ [.pure])
      (ends : r.resume = .pure (.inr a))
  /-- Steps, and then compositions to the end. -/
  | compositions (n m : Nat)
      (shown : (ps ++ [r]).map variant =
        List.replicate n .suspend ++ List.replicate (m + 1) .compose)

/-- A run from a composition shows compositions only. -/
theorem Passes.variant_eq_compose {p r : Program ν V α} {ps : List (Program ν V α)}
    (h : p.Passes ps r) (hp : p.variant = .compose) : ∀ q ∈ ps ++ [r], q.variant = .compose := by
  induction h with
  | reached p =>
    intro q hq
    rw [List.mem_singleton.1 hq]
    exact hp
  | stepped h x _ ih =>
    intro q hq
    rcases List.mem_cons.1 hq with rfl | hq
    · exact hp
    · exact ih (variant_payload hp h x) q hq

/-- One more step in front of a run. -/
theorem InOrder.suspend {p r : Program ν V α} {ps : List (Program ν V α)} (h : InOrder ps r)
    (hp : p.variant = .suspend) : InOrder (p :: ps) r := by
  have hcons : ((p :: ps) ++ [r]).map variant = .suspend :: (ps ++ [r]).map variant := by
    rw [List.cons_append, List.map_cons, hp]
  cases h with
  | steps n shown asks => exact .steps (n + 1) (by rw [hcons, shown]; rfl) asks
  | value n shown ends => exact .value (n + 1) (by rw [hcons, shown]; rfl) ends
  | compositions n m shown => exact .compositions (n + 1) m (by rw [hcons, shown]; rfl)

/-- Every run shows steps, and then a value or compositions. -/
theorem Passes.inOrder {p r : Program ν V α} {ps : List (Program ν V α)} (h : p.Passes ps r) :
    InOrder ps r := by
  induction h with
  | reached p =>
    cases p with
    | pure a => exact .value 0 rfl rfl
    | suspend op reply => exact .steps 0 rfl rfl
    | compose head queue => exact .compositions 0 0 rfl
  | @stepped p r s ps h x rest ih =>
    match hp : p.variant with
    | .pure =>
      obtain ⟨a, rfl⟩ := exists_eq_pure (by rw [isPure_eq, hp]; rfl)
      cases h
    | .suspend => exact ih.suspend hp
    | .compose =>
      have hall := (Passes.stepped h x rest).variant_eq_compose hp
      refine .compositions 0 (ps.length + 1) (List.eq_replicate_iff.2 ⟨by simp, ?_⟩)
      intro v hv
      obtain ⟨q, hq, rfl⟩ := List.mem_map.1 hv
      exact hall q hq

/-! ## Builders -/

/-- Deferring a program, and attaching anything to one, makes a composition, of a value also. -/
structure BuildersCompose (ν : Type) (V : Vocabulary) (α β γ : Type) : Prop where
  defer (build : Unit → Traced ν (Program ν V α)) : (Program.defer build).variant = .compose
  flatMap (p : Program ν V α) (k : α → Traced ν (Program ν V β)) :
    (p.flatMap k).variant = .compose
  map (f : α → Traced ν β) (p : Program ν V α) : (p.map f).variant = .compose
  andThen (p : Program ν V α) (q : Program ν V β) : (p.andThen q).variant = .compose
  map2 (f : α → β → Traced ν γ) (p : Program ν V α) (q : Program ν V β) :
    (Program.map2 f p q).variant = .compose
  apply (p : Program ν V (α → Traced ν β)) (q : Program ν V α) : (p.apply q).variant = .compose

theorem variant_flatMap (p : Program ν V α) (k : α → Traced ν (Program ν V β)) :
    (p.flatMap k).variant = .compose := by
  cases p <;> rfl

theorem buildersCompose : BuildersCompose ν V α β γ where
  defer _ := rfl
  flatMap := variant_flatMap
  map _ p := variant_flatMap p _
  andThen p _ := variant_flatMap p _
  map2 _ p _ := variant_flatMap p _
  apply p _ := variant_flatMap p _

end Program

/-! ## Translations -/

/-- What the walk over a program gives at once, whatever the walks over the payloads come to later:
    also a walk that never ends begins so. -/
inductive Translator.Begins (t : Translator ν F G α) (p : Program ν F α) :
    Traced ν (Program ν G α) → Prop where
  | value {log : List (Event ν)} {a : α} (h : p.resume = ⟨log, .inr a⟩) : Begins t p ⟨log, .pure a⟩
  | step {log : List (Event ν)} {s : Step ν F (Program ν F α)} (h : p.resume = ⟨log, .inl s⟩)
      (walk : G.Answer (t s).value.op → Unit → Traced ν (Program ν G α)) :
      Begins t p ⟨log ++ .translating :: (t s).log, .ofStep ⟨(t s).value.op, fun x =>
        ⟨((t s).value.reply x).log, .defer (walk x)⟩⟩⟩

namespace Program

theorem translate_begins (t : Translator ν F G α) (p : Program ν F α) (ends : Acc t.Leads p) :
    t.Begins p (p.translate t ends) := by
  rcases hp : p.resume with ⟨log, s | a⟩
  · obtain ⟨hnext, htranslate⟩ := translate_of_step t ends hp
    rw [htranslate]
    exact .step hp fun x _ => ((t s).value.reply x).value.translate t (hnext x)
  · rw [translate_of_value t ends hp]
    exact .value hp

/-- The second program is a value exactly if the first one resumes to it, and otherwise a step whose
    payloads are compositions. -/
structure OpensAs (p : Program ν F α) (q : Program ν G α) : Prop where
  /-- It is never a composition. -/
  settled : q.variant ≠ .compose
  /-- It is the value that the first program resumes to, if there is one. -/
  value : ∀ a, q = .pure a ↔ p.resume.value = .inr a
  /-- It is a step if the first program resumes to a step. -/
  step : q.variant = .suspend ↔ ∃ s, p.resume.value = .inl s
  /-- The payloads of its step are compositions. -/
  payload {s : Step ν G (Program ν G α)} (h : q.resume.value = .inl s) (x : G.Answer s.op) :
    (s.reply x).value.variant = .compose

theorem OpensAs.of_begins {t : Translator ν F G α} {p : Program ν F α}
    {m : Traced ν (Program ν G α)} (h : t.Begins p m) : p.OpensAs m.value := by
  cases h with
  | @value log a h =>
    have hvalue : p.resume.value = .inr a := congrArg Traced.value h
    refine ⟨nofun, fun b => ?_, ⟨nofun, fun ⟨s, hs⟩ => ?_⟩, nofun⟩
    · rw [hvalue, Program.pure.injEq, Sum.inr.injEq]
    · cases hvalue.symm.trans hs
  | @step log s h walk =>
    have hvalue : p.resume.value = .inl s := congrArg Traced.value h
    refine ⟨nofun, fun a => ⟨nofun, fun ha => ?_⟩, ⟨fun _ => ⟨s, hvalue⟩, fun _ => rfl⟩, ?_⟩
    · cases hvalue.symm.trans ha
    · intro s' hs' x
      cases hs'
      rfl

/-- All translations open alike. -/
structure TranslationsOpen (ν : Type) (F : Vocabulary) (α : Type) : Prop where
  /-- By a translator whose walk may end or not. -/
  begins {G : Vocabulary} {t : Translator ν F G α} {p : Program ν F α}
    {m : Traced ν (Program ν G α)} (h : t.Begins p m) : p.OpensAs m.value
  translate {G : Vocabulary} (t : Translator ν F G α) (p : Program ν F α) (ends : Acc t.Leads p) :
    p.OpensAs (p.translate t ends).value
  widen {W : Vocabulary} (place : Branch F W) (p : Program ν F α) : p.OpensAs (p.widen place).value
  lower {Tag : Type} [DecidableEq Tag] {Answer : Tag → Type}
    (p : Program ν (Requests.steps ν F Answer).vocabulary α) : p.OpensAs p.lower.value

theorem translationsOpen : TranslationsOpen ν F α where
  begins h := .of_begins h
  translate t p ends := .of_begins (translate_begins t p ends)
  widen _ p := .of_begins (translate_begins _ p _)
  lower p := .of_begins (translate_begins _ p _)

/-! ## What programs show -/

/-- **The variants that programs show.** They are told by `isPure` and by the text of a program. A
    run by hand shows steps, and then a value or compositions, and once it has shown a composition
    it shows nothing else, whether there is a step left or not; it is over only at a value, or at a
    step that has no payload. A program that counts as finished is a value, which resuming only
    returns, while a program that comes to a value without a step need not count as finished. All
    operations that defer or attach make compositions; translations never do, but the payloads
    behind them are compositions. -/
theorem variants_shown (ν : Type) (V : Vocabulary) (α β γ : Type) :
    ((∀ p : Program ν V α, p.isPure = decide (p.variant = .pure)) ∧
      ∀ (layout : Layout) (write write' : α → String) (p q : Program ν V α),
        p.display layout write = q.display layout write' → p.variant = q.variant) ∧
    (∀ {p r : Program ν V α} {ps : List (Program ν V α)}, p.Passes ps r → InOrder ps r ∧
      (p.variant = .compose → ∀ q ∈ ps ++ [r], q.variant = .compose ∧ q.isPure = false) ∧
      ∀ s, r.resume.value = .inl s → ∀ x, p.Passes (ps ++ [r]) (s.reply x).value) ∧
    (∀ p : Program ν V α, p.isPure = true → ∃ a, p = .pure a ∧ p.resume = .pure (.inr a)) ∧
    (∀ a : α, ∃ p : Program ν V α, p.isPure = false ∧ p.resume = .pure (.inr a)) ∧
    BuildersCompose ν V α β γ ∧ TranslationsOpen ν V α := by
  refine ⟨⟨isPure_eq, fun _ _ _ _ _ => variant_eq_of_display⟩, fun {p r ps} h => ?_, fun p h => ?_,
    fun a => ?_, buildersCompose, translationsOpen⟩
  · refine ⟨h.inOrder, fun hp q hq => ?_, fun s hr x => h.goesOn hr x⟩
    have hcompose := h.variant_eq_compose hp q hq
    exact ⟨hcompose, isPure_of_compose hcompose⟩
  · obtain ⟨a, rfl⟩ := exists_eq_pure h
    exact ⟨a, rfl, rfl⟩
  · refine ⟨.defer fun _ => .pure (.pure a), rfl, ?_⟩
    exact ((defer _).resume_eq_value_iff [] a).2 rfl

/-- Asks whether to toss, and tosses whatever the answer is. -/
def askedToss : Program Empty coin Bool := .ofStep ⟨(), fun _ => .pure (toss.map .pure)⟩

theorem askedToss_shown :
    ∃ r, askedToss.Passes [askedToss, toss.map .pure] r ∧ InOrder [askedToss, toss.map .pure] r ∧
      r.isPure = false ∧ r.resume.value = .inr true ∧
      toss.OpensAs (toss.translate turned (turned_handsOn.acc toss)).value := by
  obtain ⟨-, hruns, -, -, -, htranslations⟩ := variants_shown Empty coin Bool Bool Bool
  have htree : (toss.map .pure).tree = .step [] () (fun _ => []) fun x => .ret [] x := rfl
  obtain ⟨reply, hresume, hreply⟩ := exists_reply_of_tree_eq_step htree
  have htossed : (toss.map .pure).Passes [toss.map .pure] (reply true).value :=
    .stepped (congrArg Traced.value hresume) true (.reached _)
  have hasked : askedToss.Passes [askedToss, toss.map .pure] (reply true).value :=
    .stepped rfl true htossed
  refine ⟨(reply true).value, hasked, (hruns hasked).1, ?_, ?_, ?_⟩
  · exact ((hruns htossed).2.1 rfl _ (List.mem_append_right _ (List.mem_singleton_self _))).2
  · exact congrArg Traced.value ((resume_eq_value_iff _ [] true).2 (hreply true).2)
  · exact htranslations.translate turned toss (turned_handsOn.acc toss)

end Program

end FreeMonad
