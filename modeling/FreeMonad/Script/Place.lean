import FreeMonad.Script.Vocab

set_option autoImplicit false

/-! # Places in the vocabularies of scripts

Scripts name the place at which one plain vocabulary stands in another. Which names there are
depends on the sum: the same name can mean a different place in another sum, and a sum of equal
sides has a name for each of them. -/

namespace FreeMonad

/-- A place at which one plain vocabulary stands in another. -/
inductive Place (p : Plain) : Plain → Type where
  /-- The whole vocabulary. -/
  | itself : Place p p
  /-- The left side of a sum. -/
  | here {r : Plain} : Place p (.sum p r)
  /-- A place in the right side of a sum. -/
  | there {l r : Plain} (place : Place p r) : Place p (.sum l r)

namespace Place

/-- The place in the vocabularies that the codes stand for. -/
def branch {p q : Plain} : Place p q → Branch p.vocabulary q.vocabulary
  | .itself => .itself
  | .here => .here
  | .there place => .there place.branch

/-- The names of the places in a sum. -/
def named : (q : Plain) → List (String × (p : Plain) × Place p q)
  | .sum .option .result =>
    [("option", ⟨_, .here⟩), ("result", ⟨_, .there .itself⟩), ("self", ⟨_, .itself⟩)]
  | .sum .tally (.sum .option .result) =>
    [("tally", ⟨_, .here⟩), ("option", ⟨_, .there .here⟩),
      ("result", ⟨_, .there (.there .itself)⟩), ("last", ⟨_, .there .itself⟩)]
  | .sum .say (.sum .tally (.sum .option .result)) =>
    [("say", ⟨_, .here⟩), ("tally", ⟨_, .there .here⟩), ("option", ⟨_, .there (.there .here)⟩),
      ("result", ⟨_, .there (.there (.there .itself))⟩), ("tail", ⟨_, .there .itself⟩),
      ("last", ⟨_, .there (.there .itself)⟩), ("self", ⟨_, .itself⟩)]
  | .sum .say (.sum .say .say) =>
    [("first", ⟨_, .here⟩), ("second", ⟨_, .there .here⟩), ("third", ⟨_, .there (.there .itself)⟩),
      ("rest", ⟨_, .there .itself⟩)]
  | .sum .say .say => [("first", ⟨_, .here⟩), ("second", ⟨_, .there .itself⟩)]
  | .sum .say .tally => [("say", ⟨_, .here⟩), ("tally", ⟨_, .there .itself⟩)]
  | .sum (.sum .say .tally) .option => [("pair", ⟨_, .here⟩), ("option", ⟨_, .there .itself⟩)]
  | _ => []

/-- The place of a name in a vocabulary, if there is one. -/
def find? (q : Plain) (name : String) : Option ((p : Plain) × Place p q) :=
  (named q).lookup name

end Place

end FreeMonad
