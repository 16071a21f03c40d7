import FreeMonad.Program.Build

set_option autoImplicit false

/-! # Ways of building

The builders of programs are operations that other things have too: a tree has a finished tree,
a tree of one step and grafting, and programs can be represented otherwise than by a queue of
continuations. `Builders` lists the operations, and a map that respects all of them is a
`Builders.Hom`.

A `Recipe` is a program written down as the calls of builders that make it, nested in any way
and with continuations that again return recipes. `Recipe.build` makes the calls in any
representation, so "the same program in two representations" is one recipe built twice. A map
that respects the builders takes the one to the other (`Builders.Hom.map_build`). -/

namespace FreeMonad

universe u v

variable {ν : Type} {V : Vocabulary} {P : Type → Type u} {Q : Type → Type v}

/-! ## Builders and the maps that respect them -/

/-- The ways of building a `P`, where `P α` stands for programs that produce an `α`. -/
structure Builders (ν : Type) (V : Vocabulary) (P : Type → Type u) where
  /-- A finished program. -/
  pure {α : Type} : α → P α
  /-- One step whose payload is the program to go on with. -/
  ofStep {α : Type} : Step ν V (P α) → P α
  /-- One step whose payload is the result. -/
  lift {α : Type} : Step ν V α → P α
  /-- A program that is built when it is reached. -/
  defer {α : Type} : (Unit → Traced ν (P α)) → P α
  /-- A program whose result is fed to a continuation. -/
  flatMap {α β : Type} : P α → (α → Traced ν (P β)) → P β
  /-- A program with a function applied to its result. -/
  map {α β : Type} : (α → Traced ν β) → P α → P β
  /-- Two programs in sequence; the first result is dropped. -/
  andThen {α β : Type} : P α → P β → P β
  /-- Two programs with their results combined. -/
  map2 {α β γ : Type} : (α → β → Traced ν γ) → P α → P β → P γ
  /-- A program that produces a function, and the program of its argument. -/
  apply {α β : Type} : P (α → Traced ν β) → P α → P β

/-- The builders of programs. -/
def Program.builders : Builders ν V (Program ν V) where
  pure := .pure
  ofStep := .ofStep
  lift := .lift
  defer := .defer
  flatMap := .flatMap
  map := .map
  andThen := .andThen
  map2 := .map2
  apply := .apply

/-- The map `D` respects every way of building. -/
structure Builders.Hom (A : Builders ν V P) (B : Builders ν V Q) (D : {α : Type} → P α → Q α) :
    Prop where
  pure {α : Type} (a : α) : D (A.pure a) = B.pure a
  ofStep {α : Type} (s : Step ν V (P α)) : D (A.ofStep s) = B.ofStep (s.map D)
  lift {α : Type} (s : Step ν V α) : D (A.lift s) = B.lift s
  defer {α : Type} (build : Unit → Traced ν (P α)) :
    D (A.defer build) = B.defer fun _ => (build ()).map D
  flatMap {α β : Type} (p : P α) (k : α → Traced ν (P β)) :
    D (A.flatMap p k) = B.flatMap (D p) fun a => (k a).map D
  map {α β : Type} (f : α → Traced ν β) (p : P α) : D (A.map f p) = B.map f (D p)
  andThen {α β : Type} (p : P α) (q : P β) : D (A.andThen p q) = B.andThen (D p) (D q)
  map2 {α β γ : Type} (f : α → β → Traced ν γ) (p : P α) (q : P β) :
    D (A.map2 f p q) = B.map2 f (D p) (D q)
  apply {α β : Type} (p : P (α → Traced ν β)) (q : P α) :
    D (A.apply p q) = B.apply (D p) (D q)

/-- The last four ways of building are made of a finished program and a continuation. -/
structure Builders.Derived (B : Builders ν V P) : Prop where
  map {α β : Type} (f : α → Traced ν β) (p : P α) :
    B.map f p = B.flatMap p fun a => (f a).map B.pure
  andThen {α β : Type} (p : P α) (q : P β) : B.andThen p q = B.flatMap p fun _ => .pure q
  map2 {α β γ : Type} (f : α → β → Traced ν γ) (p : P α) (q : P β) :
    B.map2 f p q = B.flatMap p fun a => .pure (B.map (f a) q)
  apply {α β : Type} (p : P (α → Traced ν β)) (q : P α) :
    B.apply p q = B.flatMap p fun f => .pure (B.map f q)

theorem Program.builders_derived : (Program.builders : Builders ν V (Program ν V)).Derived where
  map _ _ := rfl
  andThen _ _ := rfl
  map2 _ _ _ := rfl
  apply _ _ := rfl

/-- Where the last four are derived on both sides, a map that respects the others respects
    them. -/
theorem Builders.Hom.of_derived {A : Builders ν V P} {B : Builders ν V Q}
    {D : {α : Type} → P α → Q α} (hA : A.Derived) (hB : B.Derived)
    (pure : ∀ {α : Type} (a : α), D (A.pure a) = B.pure a)
    (ofStep : ∀ {α : Type} (s : Step ν V (P α)), D (A.ofStep s) = B.ofStep (s.map D))
    (lift : ∀ {α : Type} (s : Step ν V α), D (A.lift s) = B.lift s)
    (defer : ∀ {α : Type} (build : Unit → Traced ν (P α)),
      D (A.defer build) = B.defer fun _ => (build ()).map D)
    (flatMap : ∀ {α β : Type} (p : P α) (k : α → Traced ν (P β)),
      D (A.flatMap p k) = B.flatMap (D p) fun a => (k a).map D) : A.Hom B D := by
  have hmap {α β : Type} (f : α → Traced ν β) (p : P α) : D (A.map f p) = B.map f (D p) := by
    rw [hA.map, hB.map, flatMap]
    refine congrArg (B.flatMap (D p)) (funext fun a => ?_)
    exact Traced.ext rfl (pure (f a).value)
  exact
    { pure, ofStep, lift, defer, flatMap
      map := hmap
      andThen := fun p q => by
        rw [hA.andThen, hB.andThen, flatMap]
        rfl
      map2 := fun f p q => by
        rw [hA.map2, hB.map2, flatMap]
        exact congrArg (B.flatMap (D p)) (funext fun a => congrArg Traced.pure (hmap (f a) q))
      apply := fun p q => by
        rw [hA.apply, hB.apply, flatMap]
        exact congrArg (B.flatMap (D p)) (funext fun f => congrArg Traced.pure (hmap f q)) }

/-! ## Recipes -/

/-- A program as the calls of builders that make it. The events that a thunk or a continuation
    records when it is called are given beside what it returns. -/
inductive Recipe (ν : Type) (V : Vocabulary) : Type → Type 1 where
  | pure {α : Type} (value : α) : Recipe ν V α
  /-- The step `s` with `next` mapped over its payload: called while the step is made if the
      payload is there, and otherwise when the step is answered. -/
  | suspend {α β : Type} (s : Step ν V α) (said : α → List (Event ν)) (next : α → Recipe ν V β) :
      Recipe ν V β
  | lift {α : Type} (s : Step ν V α) : Recipe ν V α
  | defer {α : Type} (said : List (Event ν)) (body : Recipe ν V α) : Recipe ν V α
  | flatMap {α β : Type} (p : Recipe ν V α) (said : α → List (Event ν)) (next : α → Recipe ν V β) :
      Recipe ν V β
  | map {α β : Type} (f : α → Traced ν β) (p : Recipe ν V α) : Recipe ν V β
  | andThen {α β : Type} (p : Recipe ν V α) (q : Recipe ν V β) : Recipe ν V β
  | map2 {α β γ : Type} (f : α → β → Traced ν γ) (p : Recipe ν V α) (q : Recipe ν V β) :
      Recipe ν V γ
  | apply {α β : Type} (p : Recipe ν V (α → Traced ν β)) (q : Recipe ν V α) : Recipe ν V β

namespace Recipe

/-- Makes the calls of a recipe, in the order in which they are written. -/
def build (B : Builders ν V P) : {α : Type} → Recipe ν V α → Traced ν (P α)
  | _, .pure a => .pure (B.pure a)
  | _, .suspend s said next =>
    (s.mapTraced fun a => ((next a).build B).after (said a)).map B.ofStep
  | _, .lift s => .pure (B.lift s)
  | _, .defer said body => .pure (B.defer fun _ => (body.build B).after said)
  | _, .flatMap p said next =>
    (p.build B).map fun p => B.flatMap p fun a => ((next a).build B).after (said a)
  | _, .map f p => (p.build B).map (B.map f)
  | _, .andThen p q => (p.build B).bind fun p => (q.build B).map fun q => B.andThen p q
  | _, .map2 f p q => (p.build B).bind fun p => (q.build B).map fun q => B.map2 f p q
  | _, .apply p q => (p.build B).bind fun p => (q.build B).map fun q => B.apply p q

/-- The events of the functions that the maker of the recipe maps over payloads that are already
    there. They are called while the program is built. -/
def mapped : {α : Type} → Recipe ν V α → List (Event ν)
  | _, .pure _ => []
  | _, .suspend s said next =>
    match V.known s.op with
    | some x =>
      let a := s.reply x
      a.log ++ (said a.value ++ (next a.value).mapped)
    | none => []
  | _, .lift _ => []
  | _, .defer _ _ => []
  | _, .flatMap p _ _ => p.mapped
  | _, .map _ p => p.mapped
  | _, .andThen p q => p.mapped ++ q.mapped
  | _, .map2 _ p q => p.mapped ++ q.mapped
  | _, .apply p q => p.mapped ++ q.mapped

/-- Whatever the representation, building records nothing else. -/
theorem log_build (B : Builders ν V P) {α : Type} (r : Recipe ν V α) :
    (r.build B).log = r.mapped := by
  induction r with
  | pure a => rfl
  | suspend s said next ih =>
    rw [build, mapped, Step.mapTraced]
    cases V.known s.op with
    | none => rfl
    | some x =>
      -- the payload is there, so `next` is called on it now, and what it returns is built
      have h := ih (s.reply x).value
      simp [h]
  | lift s => rfl
  | defer said body => rfl
  | flatMap p said next ihp => exact ihp
  | map f p ih => exact ih
  | andThen p q ihp ihq => simp [build, mapped, ihp, ihq]
  | map2 f p q ihp ihq => simp [build, mapped, ihp, ihq]
  | apply p q ihp ihq => simp [build, mapped, ihp, ihq]

end Recipe

/-- Mapping a traced function over a payload and then a plain one is mapping both at once. -/
theorem Step.map_mapTraced {α : Type} {β : Type u} {γ : Type v} (f : α → Traced ν β) (g : β → γ)
    (s : Step ν V α) :
    (s.mapTraced f).map (Step.map g) = s.mapTraced fun a => (f a).map g := by
  unfold mapTraced
  cases V.known s.op <;> rfl

/-- A map that respects the builders takes what a recipe makes in one representation to what it
    makes in the other. -/
theorem Builders.Hom.map_build {A : Builders ν V P} {B : Builders ν V Q}
    {D : {α : Type} → P α → Q α} (hom : A.Hom B D) {α : Type} (r : Recipe ν V α) :
    (r.build A).map D = r.build B := by
  induction r with
  | pure a => exact congrArg Traced.pure (hom.pure a)
  | suspend s said next ih =>
    -- `D` passes through the mapping, whether `next` is called now or when the step is answered
    have hstep : (s.mapTraced fun a => ((next a).build A).after (said a)).map (Step.map D)
        = s.mapTraced fun a => ((next a).build B).after (said a) := by
      rw [Step.map_mapTraced]
      congr
      funext a
      rw [← ih a]
      rfl
    rw [Recipe.build, Recipe.build, ← hstep]
    exact Traced.ext rfl (hom.ofStep _)
  | lift s => exact congrArg Traced.pure (hom.lift s)
  | defer said body ih =>
    refine congrArg Traced.pure ((hom.defer _).trans ?_)
    rw [← ih]
    rfl
  | flatMap p said next ihp ihk =>
    rw [Recipe.build, Recipe.build, ← ihp]
    refine Traced.ext rfl ((hom.flatMap _ _).trans ?_)
    simp only [← ihk]
    rfl
  | map f p ih =>
    rw [Recipe.build, Recipe.build, ← ih]
    exact Traced.ext rfl (hom.map f _)
  | andThen p q ihp ihq =>
    rw [Recipe.build, Recipe.build, ← ihp, ← ihq]
    exact Traced.ext rfl (hom.andThen _ _)
  | map2 f p q ihp ihq =>
    rw [Recipe.build, Recipe.build, ← ihp, ← ihq]
    exact Traced.ext rfl (hom.map2 f _ _)
  | apply p q ihp ihq =>
    rw [Recipe.build, Recipe.build, ← ihp, ← ihq]
    exact Traced.ext rfl (hom.apply _ _)

end FreeMonad
