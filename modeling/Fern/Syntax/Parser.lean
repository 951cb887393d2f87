import Fern.Syntax.Cursor

/-!
# Parsers

A parser reads something at a place and goes on to the place behind it, or fails. A choice takes the
first alternative that succeeds and never comes back to it; a repetition takes as many items as it
can. Every item of a repetition reads at least one character, so a bound on the number of items that
is no smaller than the rest of the text never cuts one short.
-/

namespace Fern

/-- A parser for things of a type. -/
def Parser (α : Type) := Cursor → Option (α × Cursor)

namespace Parser

variable {α β : Type}

/-- Reads nothing. -/
def done (a : α) : Parser α := fun cursor => some (a, cursor)

/-- Reads nothing and fails. -/
def fail : Parser α := fun _ => none

/-- Reads one thing and then another that may depend on it. -/
def andThen (p : Parser α) (next : α → Parser β) : Parser β := fun cursor =>
  match p cursor with
  | none => none
  | some (a, cursor) => next a cursor

instance : Monad Parser where
  pure := done
  bind := andThen

/-- Reads by the first parser, or else by the second from the same place. -/
def orElse (p q : Parser α) : Parser α := fun cursor =>
  match p cursor with
  | none => q cursor
  | some result => some result

/-- Reads by the first parser in a list that succeeds. -/
def firstOf (parsers : List (Parser α)) : Parser α := parsers.foldr orElse fail

/-- Reads a thing if it is there. -/
def optional (p : Parser α) : Parser (Option α) := fun cursor =>
  match p cursor with
  | none => some (none, cursor)
  | some (a, cursor) => some (some a, cursor)

/-- The things that can be read one behind the other, at most a given number, and the place behind
them. -/
def collect (p : Parser α) : (bound : Nat) → Cursor → List α × Cursor
  | 0, cursor => ([], cursor)
  | bound + 1, cursor =>
    match p cursor with
    | none => ([], cursor)
    | some (a, cursor) =>
      let (others, cursor) := collect p bound cursor
      (a :: others, cursor)

/-- Reads as many things as there are. -/
def many (p : Parser α) (bound : Nat) : Parser (List α) := fun cursor =>
  some (collect p bound cursor)

/-- Reads as many things as there are, of which there has to be one. -/
def many1 (p : Parser α) (bound : Nat) : Parser (List α) := do
  let first ← p
  let others ← many p bound
  return first :: others

/-- Reads things that are separated by others; a separator without a thing behind it is left. -/
def separated (p : Parser α) (separator : Parser Unit) (bound : Nat) : Parser (List α) := do
  let first ← p
  let others ← many (do separator; p) bound
  return first :: others

/-- Passes blanks and comments before reading. -/
def token (p : Parser α) : Parser α := fun cursor => p cursor.skip

theorem bind_eq_some {p : Parser α} {next : α → Parser β} {cursor : Cursor} {r : β × Cursor} :
    (p >>= next) cursor = some r ↔ ∃ a c, p cursor = some (a, c) ∧ next a c = some r := by
  change andThen p next cursor = some r ↔ _
  unfold andThen
  cases p cursor with
  | none => simp
  | some result =>
    exact ⟨fun h => ⟨_, _, rfl, h⟩, fun ⟨_, _, he, h⟩ => by cases he; exact h⟩

theorem orElse_eq_some {p q : Parser α} {cursor : Cursor} {r : α × Cursor} :
    orElse p q cursor = some r ↔ p cursor = some r ∨ p cursor = none ∧ q cursor = some r := by
  unfold orElse
  cases h : p cursor with
  | none => simp
  | some result => simp

/-- Whether a parser reads at least one character whenever it succeeds. -/
def Progresses (p : Parser α) : Prop :=
  ∀ cursor a behind, p cursor = some (a, behind) → behind.rest.length < cursor.rest.length

end Parser

end Fern
