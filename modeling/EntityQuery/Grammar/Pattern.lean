import EntityQuery.Grammar.Rule
import EntityQuery.Text.Front
import EntityQuery.Text.Location

/-! # Patterns

A pattern says what a stretch of text must look like and what is read from it. Alternatives are
tried in order and the first that matches is final; an optional part and a repetition take what they
can and never give it back. Layout is skipped between the parts of a sequence and before each
repetition.

A pattern that fails is remembered by name, together with where it was tried (`Attempts`). Only the
furthest place counts. There the named parts of a pattern give way to its own name, unless exactly
one of them was noted; so the names left over are those of the largest parts that could have stood
there. -/

namespace EntityQuery.Grammar

/-- A word and where it starts, in bytes. -/
structure Token where
  offset : Nat
  text : String
  deriving DecidableEq, Repr, Inhabited

/-- A place in a text: how many bytes lie before it, and what follows. -/
structure Cursor where
  offset : Nat
  rest : List Char
  deriving DecidableEq, Repr

namespace Cursor

/-- The place at the front of a text. -/
def start (text : String) : Cursor :=
  { offset := 0, rest := text.toList }

/-- The place after the layout that follows. -/
def skipLayout (c : Cursor) : Cursor :=
  { offset := c.offset + Text.byteLength (c.rest.takeWhile isLayout)
    rest := c.rest.dropWhile isLayout }

/-- The place after the given characters, if they follow. -/
def symbol? (c : Cursor) (s : List Char) : Option Cursor :=
  (Text.expect s c.rest).map fun rest => { offset := c.offset + Text.byteLength s, rest }

/-- The word of a given kind that follows, and the place after it. -/
def word? (c : Cursor) (l : Lexeme) : Option (Token × Cursor) :=
  (l.scan c.rest).map fun (word, rest) =>
    ({ offset := c.offset, text := String.ofList word },
      { offset := c.offset + Text.byteLength word, rest })

end Cursor

/-- The names that failed at the furthest place reached so far, oldest first. -/
structure Attempts where
  position : Nat
  rules : List Rule
  deriving DecidableEq, Repr

namespace Attempts

/-- Nothing has failed yet. -/
def none : Attempts := { position := 0, rules := [] }

/-- The number of names noted at a place. -/
def countAt (a : Attempts) (position : Nat) : Nat :=
  if a.position = position then a.rules.length else 0

/-- Notes that `rule` failed at `position`, where `earlier` names stood before it was tried. A
single name noted since then stays in its place, more than one give way to `rule`. A place behind
the furthest one is not noted. -/
def fail (a : Attempts) (rule : Rule) (position earlier : Nat) : Attempts :=
  if a.countAt position = earlier + 1 then a
  else if position < a.position then a
  else if position = a.position then { a with rules := a.rules.take earlier ++ [rule] }
  else { position, rules := [rule] }

end Attempts

/-- What a pattern gives: what it read and the place after it, or nothing, and the failures noted.
-/
abbrev Result (α : Type) := Option (α × Cursor) × Attempts

/-- A result under a name: a failure is noted at the place where the pattern was tried. -/
def Result.named (rule : Rule) (position : Nat) (before : Attempts) {α : Type} :
    Result α → Result α
  | (some r, after) => (some r, after)
  | (none, after) => (none, after.fail rule position (before.countAt position))

/-- What a text must look like, with the type of what is read from it. -/
inductive Pattern : Type → Type 1
  /-- Nothing at all. -/
  | nothing : Pattern Unit
  /-- The end of the text. -/
  | finish : Pattern Unit
  /-- The given characters. -/
  | symbol (s : String) : Pattern Token
  /-- A word. -/
  | word (l : Lexeme) : Pattern Token
  /-- One after the other, with layout between them. -/
  | seq {α β : Type} (first : Pattern α) (second : Pattern β) : Pattern (α × β)
  /-- The first, or else the second. -/
  | orElse {α : Type} (first second : Pattern α) : Pattern α
  /-- The pattern or nothing. -/
  | optional {α : Type} (p : Pattern α) : Pattern (Option α)
  /-- The pattern as often as it matches, with layout before each. -/
  | many {α : Type} (p : Pattern α) : Pattern (List α)
  /-- The pattern, with something else made of what it reads. -/
  | map {α β : Type} (f : α → β) (p : Pattern α) : Pattern β
  /-- The pattern under a name. -/
  | named {α : Type} (rule : Rule) (p : Pattern α) : Pattern α

namespace Pattern
variable {α β : Type}

/-- One after the other; what the second reads counts. -/
def andThen (first : Pattern α) (second : Pattern β) : Pattern β :=
  (first.seq second).map Prod.snd

/-- One after the other; what the first reads counts. -/
def followedBy (first : Pattern α) (second : Pattern β) : Pattern α :=
  (first.seq second).map Prod.fst

/-- At least one, with commas between them. -/
def listed (p : Pattern α) : Pattern (List α) :=
  (p.seq (.many ((symbol ",").andThen p))).map fun (first, rest) => first :: rest

/-- Repeats a step, at most `fuel` times, until it fails. -/
def repeated (step : Cursor → Attempts → Result α) :
    Nat → Cursor → Attempts → List α × Cursor × Attempts
  | 0, c, t => ([], c, t)
  | fuel + 1, c, t =>
    match step c.skipLayout t with
    | (none, t) => ([], c, t)
    | (some (a, c), t) =>
      let (items, c, t) := repeated step fuel c t
      (a :: items, c, t)

/-- Matches a pattern at a place. A repetition is tried once more than there are characters left,
which is enough as long as what is repeated takes at least one. -/
def run {α : Type} : Pattern α → Cursor → Attempts → Result α
  | .nothing, c, t => (some ((), c), t)
  | .finish, c, t => (if c.rest.isEmpty then some ((), c) else none, t)
  | .symbol s, c, t => ((c.symbol? s.toList).map ({ offset := c.offset, text := s }, ·), t)
  | .word l, c, t => Result.named (.word l) c.offset t (c.word? l, t)
  | .seq first second, c, t =>
    match first.run c t with
    | (none, t) => (none, t)
    | (some (a, c), t) =>
      match second.run c.skipLayout t with
      | (none, t) => (none, t)
      | (some (b, c), t) => (some ((a, b), c), t)
  | .orElse first second, c, t =>
    match first.run c t with
    | (some r, t) => (some r, t)
    | (none, t) => second.run c t
  | .optional p, c, t =>
    match p.run c t with
    | (some (a, c), t) => (some (some a, c), t)
    | (none, t) => (some (none, c), t)
  | .many p, c, t =>
    let (items, c, t) := repeated p.run (c.rest.length + 1) c t
    (some (items, c), t)
  | .map f p, c, t =>
    match p.run c t with
    | (some (a, c), t) => (some (f a, c), t)
    | (none, t) => (none, t)
  | .named rule p, c, t => Result.named rule c.offset t (p.run c t)

end Pattern

end EntityQuery.Grammar
