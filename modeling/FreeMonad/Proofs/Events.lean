import FreeMonad.Program.Widen
import FreeMonad.Proofs.Course
import FreeMonad.Proofs.Meaning
import FreeMonad.Proofs.Underway

set_option autoImplicit false

/-! # What the library records of a run

A driver numbers its calls of the interpreter. It records the number just before each call, and the
number of calls once it has the value; after a failure, or when it is dropped, it records nothing
more. The number belongs to the driver and not to the program, so a step that is answered by another
program does not set it back. All of this can be read off the course that the run takes
(`Interpreter.driverEvents_told`).

A translation records an event when it translates a step, which is before the driver of the
translated program can hand the step out, and it does so for one step at a time. With `m`
translations one on the other there are `m` such events before each call, if each translator hands
on programs with as many translations before each step as those that it is given. This is a property
of the tree of the program (`Tree.Deep`), each translation adds one to it
(`Program.deep_translate`), and a course on which steps are answered by their payloads walks down
the tree (`Course.spaced`). -/

namespace FreeMonad

universe u

variable {ν : Type} {V F G W : Vocabulary} {M : Host} {σ : Type u} {α : Type}

/-! ## Events of the library -/

/-- The events of drivers. -/
def driverEvents (log : List (Event ν)) : List (Event ν) :=
  log.filter fun
    | .interpreting _ _ => true
    | .finished _ _ => true
    | _ => false

/-- The events of drivers and of translations. -/
def libraryEvents (log : List (Event ν)) : List (Event ν) :=
  log.filter fun
    | .user _ => false
    | _ => true

/-- How many steps were translated. -/
def translations (log : List (Event ν)) : Nat :=
  log.countP fun
    | .translating => true
    | _ => false

@[simp] theorem driverEvents_append (l m : List (Event ν)) :
    driverEvents (l ++ m) = driverEvents l ++ driverEvents m :=
  List.filter_append l m

@[simp] theorem driverEvents_interpreting (driver : Driver) (n : Nat) (l : List (Event ν)) :
    driverEvents (.interpreting driver n :: l) = .interpreting driver n :: driverEvents l := rfl

@[simp] theorem libraryEvents_append (l m : List (Event ν)) :
    libraryEvents (l ++ m) = libraryEvents l ++ libraryEvents m :=
  List.filter_append l m

@[simp] theorem libraryEvents_interpreting (driver : Driver) (n : Nat) (l : List (Event ν)) :
    libraryEvents (.interpreting driver n :: l) = .interpreting driver n :: libraryEvents l := rfl

@[simp] theorem translations_append (l m : List (Event ν)) :
    translations (l ++ m) = translations l + translations m :=
  List.countP_append

@[simp] theorem translations_translating (l : List (Event ν)) :
    translations (.translating :: l) = translations l + 1 :=
  List.countP_cons_of_pos rfl

/-- Where no program is driven, the library records nothing but translations. -/
theorem libraryEvents_eq_replicate {log : List (Event ν)} (h : driverEvents log = []) :
    libraryEvents log = List.replicate (translations log) .translating := by
  induction log with
  | nil => rfl
  | cons e log ih =>
    cases e with
    | user e => exact ih h
    | interpreting driver n => cases h
    | finished driver n => cases h
    | translating =>
      rw [translations_translating, List.replicate_succ, ← ih h]
      rfl

/-! ## The events of drivers -/

/-- The driver's own event at the end of a run, if there is one. -/
def Standing.finish (driver : Driver) (steps : Nat) : Standing ν V M α → List (Event ν)
  | .left _ => []
  | .failed _ _ => []
  | .finished _ _ => [.finished driver steps]

/-- If nobody else drives a program meanwhile, the events of drivers are the numbers of the calls,
    in order. -/
theorem Interpreter.driverEvents_told {I : Interpreter ν V M σ α} {calls : List (Call ν V σ α)}
    (h : ∀ c ∈ calls, driverEvents c.before = [] ∧ driverEvents (I c.world c.step).log = [])
    (driver : Driver) (n : Nat) : driverEvents (I.told driver n calls)
      = (List.range' (n + 1) calls.length).map (.interpreting driver) := by
  induction calls generalizing n with
  | nil => rfl
  | cons c calls ih =>
    obtain ⟨hbefore, hcall⟩ := h c List.mem_cons_self
    have hrest := ih (fun c hc => h c (List.mem_cons_of_mem _ hc)) (n + 1)
    rw [told, toldOnce, driverEvents_append, driverEvents_append, driverEvents_interpreting,
      hbefore, hcall, hrest, List.length_cons, List.range'_succ]
    rfl

theorem Standing.driverEvents_closing {o : Standing ν V M α}
    (h : ∀ log a, o = .finished log a → driverEvents log = []) (driver : Driver) (n : Nat) :
    driverEvents (o.closing driver n) = o.finish driver n := by
  cases o with
  | left p => rfl
  | failed failure hfailure => rfl
  | finished log a =>
    rw [closing, driverEvents_append, h log a rfl]
    rfl

/-! ## Trees under translations -/

namespace Tree

/-- There are `m` translations before each step of the tree and none elsewhere. All operations of
    steps are ones of which `ok` holds. -/
def Deep (m : Nat) (ok : V.Op → Prop) : Tree ν V α → Prop
  | ret log _ => translations log = 0
  | step log op said next =>
    translations log = m ∧ ok op ∧ ∀ x, translations (said x) = 0 ∧ (next x).Deep m ok

end Tree

/-- The replies of the step translate nothing, and lead to programs with `m` translations before
    each step. -/
def Step.Deep (m : Nat) (ok : V.Op → Prop) (s : Step ν W (Program ν V α)) : Prop :=
  ∀ x, translations (s.reply x).log = 0 ∧ (s.reply x).value.tree.Deep m ok

/-- The program shows its first step, if it has one, after `m` translations. -/
theorem Program.deep_step {m : Nat} {ok : V.Op → Prop} {l log : List (Event ν)} {p : Program ν V α}
    {s : Step ν V (Program ν V α)} (h : (p.tree.after l).Deep m ok)
    (hp : p.resume = ⟨log, .inl s⟩) : translations (l ++ log) = m ∧ ok s.op ∧ s.Deep m ok := by
  rw [(p.resume_eq_step_iff log _).1 ⟨s, hp, rfl⟩] at h
  exact h

theorem Program.deep_value {m : Nat} {ok : V.Op → Prop} {l log : List (Event ν)} {p : Program ν V α}
    {a : α} (h : (p.tree.after l).Deep m ok) (hp : p.resume = ⟨log, .inr a⟩) :
    translations (l ++ log) = 0 := by
  rw [(p.resume_eq_value_iff log a).1 hp] at h
  exact h

namespace Translator

/-- The translator itself translates no other steps, and hands on programs with as many translations
    before each step as there are in those that it is given. -/
def KeepsDepth (t : Translator ν F G α) (m : Nat) (ok : F.Op → Prop) (ok' : G.Op → Prop) : Prop :=
  ∀ s, ok s.op → s.Deep m ok →
    translations (t s).log = 0 ∧ ok' (t s).value.op ∧ (t s).value.Deep m ok

end Translator

/-- Translating adds one translation before each step, after those that are there. -/
theorem Program.deep_translate {t : Translator ν F G α} {m : Nat} {ok : F.Op → Prop}
    {ok' : G.Op → Prop} (ht : t.KeepsDepth m ok ok') {p : Program ν F α} (ends : Acc t.Leads p)
    {l : List (Event ν)} (hp : (p.tree.after l).Deep m ok) :
    ((p.translate t ends).value.tree.after (l ++ (p.translate t ends).log)).Deep (m + 1) ok' := by
  induction ends generalizing l with
  | intro p hacc ih =>
    rcases hresume : p.resume with ⟨log, s | a⟩
    · obtain ⟨hnext, htranslate⟩ := translate_of_step t (.intro p hacc) hresume
      obtain ⟨hlog, hok, hs⟩ := deep_step hp hresume
      obtain ⟨hsaid, hok', ht'⟩ := ht s hok hs
      rw [htranslate]
      refine ⟨?_, hok', fun x => ⟨(ht' x).1, ?_⟩⟩
      · -- the events of resuming come first, and then the translation of the step
        rw [List.append_nil, ← List.append_assoc, translations_append, hlog,
          translations_translating, hsaid]
      · -- each payload is a deferred walk over a payload of the translator
        have hvalue : p.resume.value = .inl s := congrArg Traced.value hresume
        have hwalk : (Tree.reached ((((t s).value.reply x).value.translate t (hnext x)).map
            tree)).Deep (m + 1) ok' :=
          ih _ ⟨s, hvalue, x, rfl⟩ (l := []) ((Tree.after_nil _).symm ▸ (ht' x).2)
        have hdefer := tree_defer fun _ => ((t s).value.reply x).value.translate t (hnext x)
        rw [← hdefer] at hwalk
        exact hwalk
    · have hlog : translations (l ++ log) = 0 := deep_value hp hresume
      rw [translate_of_value t _ hresume]
      show translations (l ++ log ++ []) = 0
      rw [List.append_nil, hlog]

/-! ## Translators that keep the depth -/

/-- Mapping over a step calls its replies and the function, and nothing else. -/
theorem Step.translations_mapTraced {β : Type} {P : Type u} {s : Step ν V β} {f : β → Traced ν P}
    (hs : ∀ x, translations (s.reply x).log = 0) (hf : ∀ b, translations (f b).log = 0) :
    translations (s.mapTraced f).log = 0 ∧
      ∀ x, translations ((s.mapTraced f).value.reply x).log = 0 := by
  have hboth : ∀ x, translations ((s.reply x).bind f).log = 0 := fun x => by
    rw [Traced.log_bind, translations_append, hs, hf]
  unfold mapTraced
  cases V.known s.op with
  | none => exact ⟨rfl, hboth⟩
  | some x => exact ⟨hboth x, fun _ => rfl⟩

namespace Translator

/-- A translator that only hands on what it is given keeps the depth, if neither it nor its replies
    translate other steps. -/
theorem HandsOn.keepsDepth {t : Translator ν F G α} (h : t.HandsOn) {m : Nat} {ok : F.Op → Prop}
    {ok' : G.Op → Prop} (hok : ∀ s, ok s.op → ok' (t s).value.op)
    (hlog : ∀ s, ok s.op → (∀ y, translations (s.reply y).log = 0) →
      translations (t s).log = 0 ∧ ∀ x, translations ((t s).value.reply x).log = 0) :
    t.KeepsDepth m ok ok' := by
  intro s hs hdeep
  obtain ⟨hlog, hreply⟩ := hlog s hs fun y => (hdeep y).1
  refine ⟨hlog, hok s hs, fun x => ⟨hreply x, ?_⟩⟩
  rcases h s x with ⟨y, hy⟩ | hpure
  · rw [hy]
    exact (hdeep y).2
  · -- a finished program has no step to translate
    obtain ⟨a, ha⟩ := Program.exists_eq_pure hpure
    rw [ha]
    rfl

end Translator

theorem Branch.translator_keepsDepth (place : Branch F W) {m : Nat} {ok : F.Op → Prop}
    {ok' : W.Op → Prop} (hok : ∀ s : Step ν F (Program ν F α), ok s.op → ok' (place.inject s).op) :
    (place.translator : Translator ν F W α).KeepsDepth m ok ok' := by
  refine place.translator_handsOn.keepsDepth hok fun s _ hs => ⟨rfl, fun x => ?_⟩
  obtain ⟨y, hy⟩ := place.exists_reply_of_inject s x
  show translations ((place.inject s).reply x).log = 0
  rw [hy]
  exact hs y

/-- Lowering maps the conversion of a request over the step that the request is, and so it calls the
    reply of that step as well. -/
theorem Coyoneda.translator_keepsDepth {Tag : Type} [DecidableEq Tag] {Answer : Tag → Type}
    {m : Nat} {ok : (Requests.steps ν V Answer).vocabulary.Op → Prop} {ok' : V.Op → Prop}
    (hok : ∀ op, ok op → ok' op.2.op ∧ ∀ x, translations (op.2.reply x).log = 0) :
    (Coyoneda.translator V Answer : Translator ν _ V α).KeepsDepth m ok ok' := by
  refine translator_handsOn.keepsDepth (fun c hc => ?_) fun c hc hs => ?_
  · -- mapping the conversion leaves the operation of the step as it is
    have hop : (Coyoneda.lower c).value.op = c.op.2.op := Step.op_mapTraced c.reply c.op.2
    show ok' (Coyoneda.lower c).value.op
    rw [hop]
    exact (hok _ hc).1
  · exact Step.translations_mapTraced (hok _ hc).2 hs

/-! ## Nested translations -/

/-- The program is built by `m` translations, one inside the other, from one that translates nothing
    by itself. All operations of its steps are ones of which `ok` holds. -/
inductive Nested : {V : Vocabulary} → Nat → (V.Op → Prop) → Traced ν (Program ν V α) → Prop where
  | plain {V : Vocabulary} {ok : V.Op → Prop} {b : Traced ν (Program ν V α)}
      (h : (Tree.reached (b.map Program.tree)).Deep 0 ok) : Nested 0 ok b
  | transform {F G : Vocabulary} {m : Nat} {ok : F.Op → Prop} {ok' : G.Op → Prop}
      {b : Traced ν (Program ν F α)} (inner : Nested m ok b) {t : Translator ν F G α}
      (ends : Acc t.Leads b.value) (h : t.KeepsDepth m ok ok') :
      Nested (m + 1) ok' ((b.value.translate t ends).after b.log)
  | widen {F W : Vocabulary} {m : Nat} {ok : F.Op → Prop} {ok' : W.Op → Prop}
      {b : Traced ν (Program ν F α)} (inner : Nested m ok b) {place : Branch F W}
      (h : ∀ s : Step ν F (Program ν F α), ok s.op → ok' (place.inject s).op) :
      Nested (m + 1) ok' ((b.value.widen place).after b.log)
  | lower {V : Vocabulary} {Tag : Type} [DecidableEq Tag] {Answer : Tag → Type} {m : Nat}
      {ok : (Requests.steps ν V Answer).vocabulary.Op → Prop} {ok' : V.Op → Prop}
      {b : Traced ν (Program ν (Requests.steps ν V Answer).vocabulary α)} (inner : Nested m ok b)
      (h : ∀ op, ok op → ok' op.2.op ∧ ∀ x, translations (op.2.reply x).log = 0) :
      Nested (m + 1) ok' (b.value.lower.after b.log)

/-- There are `m` translations before each step, where building counts for the first one. -/
theorem Nested.deep {m : Nat} {ok : V.Op → Prop} {b : Traced ν (Program ν V α)}
    (h : Nested m ok b) : (b.value.tree.after b.log).Deep m ok := by
  induction h with
  | plain h => exact h
  | transform inner ends h ih => exact Program.deep_translate h ends ih
  | widen inner h ih => exact Program.deep_translate (Branch.translator_keepsDepth _ h) _ ih
  | lower inner h ih => exact Program.deep_translate (Coyoneda.translator_keepsDepth h) _ ih

/-! ## Translations along a course -/

namespace Call

/-- Nobody but the program and its driver makes the library record anything around the call. -/
def Alone (I : Interpreter ν V M σ α) (c : Call ν V σ α) : Prop :=
  driverEvents c.before = [] ∧ libraryEvents (I c.world c.step).log = []

/-- Before each of the calls `m` steps are translated, and `l` counts for the first one. -/
def Spaced (m : Nat) (l : List (Event ν)) : List (Call ν V σ α) → Prop
  | [] => True
  | c :: calls => translations (l ++ c.before) = m ∧ Spaced m [] calls

end Call

/-- What the library records of calls numbered from `n` on, with `m` translations before each. -/
def spacedCalls (driver : Driver) (m n count : Nat) : List (Event ν) :=
  (List.range' n count).flatMap fun i => List.replicate m .translating ++ [.interpreting driver i]

theorem spacedCalls_succ (driver : Driver) (m n count : Nat) :
    (spacedCalls driver m n (count + 1) : List (Event ν))
      = List.replicate m .translating ++ [.interpreting driver n]
        ++ spacedCalls driver m (n + 1) count := by
  rw [spacedCalls, List.range'_succ]
  rfl

namespace Interpreter

variable {I : Interpreter ν V M σ α} {m : Nat} {l : List (Event ν)} {c : Call ν V σ α}
  {calls : List (Call ν V σ α)}

theorem libraryEvents_toldOnce (hc : c.Alone I) (hl : driverEvents l = [])
    (hm : translations (l ++ c.before) = m) (driver : Driver) (n : Nat) :
    libraryEvents (l ++ I.toldOnce driver n c)
      = List.replicate m .translating ++ [.interpreting driver n] := by
  have hbefore : libraryEvents (l ++ c.before) = List.replicate m .translating := by
    rw [libraryEvents_eq_replicate, hm]
    rw [driverEvents_append, hl, hc.1]
    rfl
  rw [toldOnce, ← List.append_assoc, libraryEvents_append, libraryEvents_interpreting, hbefore,
    hc.2]

theorem libraryEvents_told (hspaced : Call.Spaced m l calls) (hcalls : ∀ c ∈ calls, c.Alone I)
    (hl : driverEvents l = []) (driver : Driver) (n : Nat) (hne : calls ≠ []) :
    libraryEvents (l ++ I.told driver n calls) = spacedCalls driver m (n + 1) calls.length := by
  induction calls generalizing l n with
  | nil => exact absurd rfl hne
  | cons c calls ih =>
    obtain ⟨hm, hspaced⟩ := hspaced
    have hc := libraryEvents_toldOnce (hcalls c List.mem_cons_self) hl hm driver (n + 1)
    have hrest : libraryEvents (I.told driver (n + 1) calls)
        = spacedCalls driver m (n + 1 + 1) calls.length := by
      by_cases hnil : calls = []
      · rw [hnil]
        rfl
      · exact ih hspaced (fun c hc => hcalls c (List.mem_cons_of_mem _ hc)) rfl (n + 1) hnil
    rw [told, ← List.append_assoc, libraryEvents_append, hc, hrest, List.length_cons,
      spacedCalls_succ]

end Interpreter

/-- A call that is answered by the payload leads to a program with as many translations before each
    step. -/
theorem Step.Deep.answered {I : Interpreter ν V M σ α} {m : Nat} {ok : V.Op → Prop}
    {c : Call ν V σ α} (h : c.step.Deep m ok) (hc : c.AnsweredByPayload I) :
    ∃ q : Program ν V α, Standing.answered (I c.world c.step).value.2 = .left q ∧
      (q.tree.after []).Deep m ok := by
  obtain ⟨x, hx⟩ := hc.answered
  refine ⟨(c.step.reply x).value, hx, ?_⟩
  rw [Tree.after_nil]
  exact (h x).2

namespace Course

variable {I : Interpreter ν V M σ α} {m : Nat} {ok : V.Op → Prop} {world world' : σ}
  {l : List (Event ν)} {p : Program ν V α} {calls : List (Call ν V σ α)}

/-- Before each call there are as many translations as before each step of the program. The last
    call may be answered by any program. -/
theorem spaced {o : Standing ν V M α} (h : Course I world (.left p) calls world' o)
    (hp : (p.tree.after l).Deep m ok)
    (hpayload : ∀ c ∈ calls.dropLast, c.AnsweredByPayload I) : Call.Spaced m l calls := by
  induction calls generalizing world p l with
  | nil => trivial
  | cons c calls ih =>
    cases h with
    | call hresume rest =>
      obtain ⟨hm, -, hs⟩ := Program.deep_step hp hresume
      refine ⟨hm, ?_⟩
      -- the answer matters only if another call comes after it
      by_cases hnil : calls = []
      · rw [hnil]
        trivial
      · rw [List.dropLast_cons_of_ne_nil hnil] at hpayload
        obtain ⟨q, hq, hdeep⟩ := Step.Deep.answered hs (hpayload _ List.mem_cons_self)
        exact ih (hq ▸ rest) hdeep fun c hc => hpayload c (List.mem_cons_of_mem _ hc)

/-- If all calls are answered by payloads, nothing is translated after the last one. -/
theorem libraryEvents_finished {log : List (Event ν)} {a : α}
    (h : Course I world (.left p) calls world' (.finished log a))
    (hp : (p.tree.after l).Deep m ok) (hpayload : ∀ c ∈ calls, c.AnsweredByPayload I)
    (hcalls : ∀ c ∈ calls, c.Alone I) (hl : driverEvents l = []) (hlog : driverEvents log = [])
    (driver : Driver) (n : Nat) : libraryEvents (l ++ (I.told driver n calls ++ log))
      = spacedCalls driver m (n + 1) calls.length := by
  induction calls generalizing world p l n with
  | nil =>
    cases h with
    | value _ hresume =>
      have hnone : translations (l ++ log) = 0 := Program.deep_value hp hresume
      have hquiet : driverEvents (l ++ log) = [] := by
        rw [driverEvents_append, hl, hlog]
        rfl
      show libraryEvents (l ++ log) = []
      rw [libraryEvents_eq_replicate hquiet, hnone]
      rfl
  | cons c calls ih =>
    cases h with
    | call hresume rest =>
      obtain ⟨hm, -, hs⟩ := Program.deep_step hp hresume
      obtain ⟨q, hq, hdeep⟩ := Step.Deep.answered hs (hpayload _ List.mem_cons_self)
      have hc := Interpreter.libraryEvents_toldOnce (hcalls _ List.mem_cons_self) hl hm driver
        (n + 1)
      have hrest := ih (hq ▸ rest) hdeep (fun c hc => hpayload c (List.mem_cons_of_mem _ hc))
        (fun c hc => hcalls c (List.mem_cons_of_mem _ hc)) rfl (n + 1)
      rw [List.nil_append] at hrest
      rw [Interpreter.told, List.append_assoc, ← List.append_assoc, libraryEvents_append, hc, hrest,
        List.length_cons, spacedCalls_succ]

end Course

/-! ## What a run records -/

/-- A run of `p` by `driver` that records `log` makes the calls of the list, which take the
    interpreter from `world` to `world'`, and then stands at `o`. It comes to the values of which
    `comesTo` holds, of which there is one or none. -/
structure Counted (driver : Driver) (I : Interpreter ν V M σ α) (p : Program ν V α) (world : σ)
    (calls : List (Call ν V σ α)) (world' : σ) (o : Standing ν V M α) (log : List (Event ν))
    (comesTo : α → Prop) : Prop where
  course : Course I world (.left p) calls world' o
  comesTo_iff (a : α) : comesTo a ↔ ∃ log, o = .finished log a
  /-- There is one event just before each call, which is its number, and one at the end if the run
      has come to a value. -/
  log_eq : log = I.told driver 0 calls ++ o.closing driver calls.length
  /-- If nobody else drives a program meanwhile, these are all events of drivers. -/
  ordinals
    (hcalls : ∀ c ∈ calls, driverEvents c.before = [] ∧ driverEvents (I c.world c.step).log = [])
    (hclosing : ∀ log a, o = .finished log a → driverEvents log = []) :
    driverEvents log
      = (List.range' 1 calls.length).map (.interpreting driver) ++ o.finish driver calls.length
  /-- If `p` is built by `m` translations, there are `m` of their events before each call, whatever
      the interpreter records. -/
  spaced {m : Nat} {ok : V.Op → Prop} {b : Traced ν (Program ν V α)} (hb : Nested m ok b)
    (hp : b.value = p) (hpayload : ∀ c ∈ calls.dropLast, c.AnsweredByPayload I) :
    Call.Spaced m b.log calls
  /-- If nobody else makes the library record anything, they and the numbers of the calls are all of
      its events, in this order. -/
  inOrder {m : Nat} {ok : V.Op → Prop} {b : Traced ν (Program ν V α)} (hb : Nested m ok b)
    (hp : b.value = p) (hpayload : ∀ c ∈ calls.dropLast, c.AnsweredByPayload I)
    (hbuild : driverEvents b.log = []) (hcalls : ∀ c ∈ calls, c.Alone I) (hne : calls ≠ []) :
    libraryEvents (b.log ++ I.told driver 0 calls) = spacedCalls driver m 1 calls.length
  /-- If the last call is answered by its payload as well, nothing is translated after it. -/
  inAll {m : Nat} {ok : V.Op → Prop} {b : Traced ν (Program ν V α)} (hb : Nested m ok b)
    (hp : b.value = p) (hpayload : ∀ c ∈ calls, c.AnsweredByPayload I)
    (hbuild : driverEvents b.log = []) (hcalls : ∀ c ∈ calls, c.Alone I) {last : List (Event ν)}
    {a : α} (ho : o = .finished last a) (hlast : driverEvents last = []) :
    libraryEvents (b.log ++ log)
      = spacedCalls driver m 1 calls.length ++ [.finished driver calls.length]

theorem Course.counted {driver : Driver} {I : Interpreter ν V M σ α} {p : Program ν V α}
    {world world' : σ} {calls : List (Call ν V σ α)} {o : Standing ν V M α} {comesTo : α → Prop}
    (h : Course I world (.left p) calls world' o)
    (hcomesTo : ∀ a, comesTo a ↔ ∃ log, o = .finished log a) :
    Counted driver I p world calls world' o
      (I.told driver 0 calls ++ o.closing driver calls.length) comesTo where
  course := h
  comesTo_iff := hcomesTo
  log_eq := rfl
  ordinals hcalls hclosing := by
    rw [driverEvents_append, Interpreter.driverEvents_told hcalls,
      Standing.driverEvents_closing hclosing]
  spaced hb hp hpayload := by
    subst hp
    exact h.spaced hb.deep hpayload
  inOrder hb hp hpayload hbuild hcalls hne := by
    subst hp
    exact Interpreter.libraryEvents_told (h.spaced hb.deep hpayload) hcalls hbuild driver 0 hne
  inAll {m ok b} hb hp hpayload hbuild hcalls last a ho hlast := by
    subst hp ho
    have hall := h.libraryEvents_finished hb.deep hpayload hcalls hbuild hlast driver 0
    rw [Standing.closing, ← List.append_assoc, ← List.append_assoc, libraryEvents_append,
      List.append_assoc b.log, hall]
    rfl

/-- The events of each driver count the calls of its interpreter. -/
structure Program.EventsCounted (p : Program ν V α) : Prop where
  runInHost (M : Host) {σ : Type u} (I : Interpreter ν V M σ α) (turns : Nat) (world : σ) :
    ∃ calls o, Counted .hosted I p world calls (p.runInHost M I turns world).value.1 o
      (p.runInHost M I turns world).log
      fun a => (p.runInHost M I turns world).value.2 = .inr (M.pure a)
  run {σ : Type u} (I : Interpreter ν V .identity σ α) (turns : Nat) (world : σ) :
    ∃ calls o, Counted .hosted I p world calls (p.run I turns world).value.1 o
      (p.run I turns world).log fun a => (p.run I turns world).value.2 = .inr a
  tryRun {Error : Type} {σ : Type u} (I : Interpreter ν V (.result Error) σ α) (turns : Nat)
    (world : σ) :
    ∃ calls o, Counted .hosted I p world calls (p.tryRun I turns world).value.1 o
      (p.tryRun I turns world).log fun a => (p.tryRun I turns world).value.2 = .inr (.ok a)
  runAsync {σ : Type u} (D : DelayedInterpreter ν V .identity σ α) (turns limit : Nat) (world : σ) :
    ∃ calls o, Counted .async D.settled p world calls (p.runAsync D turns limit world).value.1 o
      (p.runAsync D turns limit world).log
      fun a => (p.runAsync D turns limit world).value.2.2 = some a
  tryRunAsync {Error : Type} {σ : Type u} (D : DelayedInterpreter ν V (.result Error) σ α)
    (turns limit : Nat) (world : σ) :
    ∃ calls o, Counted .tryAsync D.settled p world calls
      (p.tryRunAsync D turns limit world).value.1 o (p.tryRunAsync D turns limit world).log
      fun a => (p.tryRunAsync D turns limit world).value.2.2 = some (.ok a)

namespace Program

theorem counted_runInHost (M : Host) (I : Interpreter ν V M σ α) (turns : Nat) (world : σ)
    (p : Program ν V α) :
    ∃ calls o, Counted .hosted I p world calls (p.runInHost M I turns world).value.1 o
      (p.runInHost M I turns world).log
      fun a => (p.runInHost M I turns world).value.2 = .inr (M.pure a) := by
  obtain ⟨calls, world', o, hcourse, hrun⟩ := runInHost_course I turns world p
  rw [hrun]
  exact ⟨calls, o, hcourse.counted fun a => Standing.rest_eq_pure_iff⟩

theorem counted_pollTimes (driver : Driver) (D : DelayedInterpreter ν V M σ α) (turns limit : Nat)
    (world : σ) (p : Program ν V α) (r : Traced ν (σ × Nat × Option (M.Carrier α)))
    (hr : Task.pollTimes driver D turns limit [] 0 world (Task.start p) = r) :
    ∃ calls o, Counted driver D.settled p world calls r.value.1 o r.log
      fun a => r.value.2.2 = some (M.pure a) := by
  obtain ⟨calls, world', o, polls, result, hcourse, hsome, hnone, hrun⟩ :=
    Task.pollTimes_course driver D turns limit 0 world (Task.start p)
  have hcomesTo : ∀ a, result = some (M.pure a) ↔ ∃ log, o = .finished log a := by
    intro a
    constructor
    · intro h
      exact Standing.rest_eq_pure_iff.1 (hsome _ h)
    · rintro ⟨log, ho⟩
      cases hresult : result with
      | none => exact absurd ho (hnone hresult log a)
      | some r =>
        have hrest : o.rest = .inr r := hsome r hresult
        rw [ho] at hrest
        exact congrArg some (Sum.inr.inj hrest).symm
  rw [← hr, hrun]
  have hgiven : (Task.start p : Task ν V M α).given = 0 := rfl
  rw [hgiven, Nat.zero_add]
  exact ⟨calls, o, hcourse.counted hcomesTo⟩

/-- **The events of the library count the run.** Each driver numbers the calls of the interpreter
    one by one, just before it makes them, and it records their number when it has the value and
    only then; and if the program is built by `m` translations, one on the other, of which each
    keeps the depth, `m` of their events come before each call. -/
theorem events_count_run (p : Program ν V α) : EventsCounted.{u} p where
  runInHost M _ I turns world := p.counted_runInHost M I turns world
  run I turns world := p.counted_runInHost .identity I turns world
  tryRun I turns world := p.counted_runInHost (.result _) I turns world
  runAsync D turns limit world := counted_pollTimes .async D turns limit world p _ rfl
  tryRunAsync D turns limit world := counted_pollTimes .tryAsync D turns limit world p _ rfl

end Program

/-! ## Translations that do not keep the depth -/

/-- Of two translations the upper one may hand on a program that the lower one has not translated.
    Then there are not two events of translations before each call, though the program below
    contains none and all answers are payloads: the second call is about a step that only the upper
    one has translated. -/
theorem followedUpAbove_unspaced :
    (Question.first.put : Program Empty questions Bool).tree.Deep 0 (fun _ => True) ∧
    ∃ calls o, Course assenting 0 (.left followedUpAbove.value) calls 2 o ∧
      (∀ c ∈ calls, c.AnsweredByPayload assenting) ∧
      ¬ Call.Spaced 2 followedUpAbove.log calls := by
  obtain ⟨reply, hbelow⟩ := resume_passedOnFirst
  have hunderway := followedUp.underway_translate passedOnFirst.value (followedUp_acc _)
  obtain ⟨c, d, o, hcourse, hpayload, hlog⟩ :=
    followedUp_course (hunderway.underwayTo 2) hbelow
  refine ⟨⟨rfl, trivial, fun x => ⟨rfl, rfl⟩⟩, [c, d], o, hcourse, hpayload, ?_⟩
  rintro ⟨-, hsecond, -⟩
  rw [hlog] at hsecond
  cases hsecond

/-! What a driver records of this run. -/

example : (followedUpAbove.bind fun p => p.run assenting 3 0).log
    = ([.translating, .translating, .interpreting .hosted 1, .translating,
      .interpreting .hosted 2, .finished .hosted 2] : List (Event Empty)) := by
  cbv

/-! A question that is asked twice, under one translation, which translates the first when it is
built. -/

example :
    let asks : Vocabulary := ⟨Unit, fun _ => Nat, fun _ => none⟩
    let twice : Program Empty asks Nat :=
      .suspend () fun n => .mk [] (.suspend () fun k => .mk [] (.pure (n + k : Nat)))
    let I : Interpreter Empty asks .identity Nat Nat := fun n s =>
      (s.reply n).map fun q => (n + 1, q)
    ((twice.widen .itself).bind fun p => p.run I 3 20).log
      = [.translating, .interpreting .hosted 1, .translating, .interpreting .hosted 2,
        .finished .hosted 2] := by
  cbv

end FreeMonad
