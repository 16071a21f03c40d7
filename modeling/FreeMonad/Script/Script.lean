import FreeMonad.Script.Command

set_option autoImplicit false

/-! # Scripts

A script is the written form of a program. It is not bound to a vocabulary: the same script can
be built over several, and what does not fit the vocabulary matters only where it is reached. -/

namespace FreeMonad

/-- Functions that rewrite the details of a program's steps; a step without one is kept. -/
structure Rules where
  /-- For the line of a written line. -/
  tell : Option Fn1
  /-- For the number that is set. -/
  put : Option Fn1
  /-- For the number that is read, once it is. -/
  get : Option Fn1
  /-- For the key that is looked up. -/
  ask : Option Fn1

/-- The written form of a program. -/
inductive Script where
  /-- A finished program. -/
  | pure (e : Expr)
  /-- One step, whose result is its payload. -/
  | lift (c : Command)
  /-- One step, with the script that its payload goes on with. -/
  | suspend (c : Command) (x : String) (body : Script)
  /-- A program that is built when it is reached. -/
  | defer (p : Script)
  /-- A program and the script that its result goes on with. -/
  | bind (p : Script) (x : String) (body : Script)
  /-- A program with a function applied to its result. -/
  | map (p : Script) (f : Fn1)
  /-- Two programs in sequence; the first result is dropped. -/
  | andThen (p q : Script)
  /-- Two programs with their results combined. -/
  | map2 (p q : Script) (f : Fn2)
  /-- The same, by a program that produces a function of the second result. -/
  | apply (p q : Script) (f : Fn2)
  /-- As many continuations as `count` says, attached one after the other; `i` numbers them. -/
  | binds (count : Expr) (p : Script) (x i : String) (body : Script)
  /-- As many functions as `count` says, applied one after the other. -/
  | maps (count : Expr) (p : Script) (f : Fn2)
  /-- As many programs as `count` says, in sequence; each is built at once. -/
  | thens (count : Expr) (p : Script) (i : String) (body : Script)
  /-- One of two programs; only the chosen one is built. -/
  | choose (condition : Expr) (p q : Script)
  /-- A program with one more variable in scope. -/
  | bindVar (x : String) (e : Expr) (p : Script)
  /-- A named definition with arguments. -/
  | call (name : String) (args : List Expr)
  /-- A program widened to its own vocabulary. -/
  | widenItself (p : Script)
  /-- A program widened along a named place in a sum. -/
  | widen (place : String) (p : Script)
  /-- A program over requests, lowered to the steps they stand for. -/
  | lower (p : Script)
  /-- A program over another vocabulary, whose every step is answered with the value of `answer`
      and stands as a description of itself. -/
  | observe (source : Vocab) (p : Script) (answer : Expr)
  /-- A program with the details of its steps rewritten. -/
  | rewrite (rules : Rules) (p : Script)
  /-- Something that is not a script. -/
  | unknown

/-- A named script with parameters. -/
structure Definition where
  params : List String
  body : Script

/-- The definitions that scripts can call. -/
abbrev Definitions := List (String × Definition)

end FreeMonad
