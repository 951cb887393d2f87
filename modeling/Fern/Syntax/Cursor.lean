import Fern.Text.Position

/-!
# Cursors

A place in a text: what is still to be read, and the one character before it. The grammar looks no
further back than that. Blanks and comments may stand before every token; a comment runs from a hash
sign up to the end of its line.
-/

namespace Fern

/-- A place in a text. -/
structure Cursor where
  previous : Option Char
  rest : List Char
  deriving DecidableEq, Repr, Inhabited

namespace Cursor

/-- The start of a text. -/
def start (text : List Char) : Cursor := ⟨none, text⟩

/-- Goes past a character. -/
def past (c : Char) (rest : List Char) : Cursor := ⟨some c, rest⟩

/-- Passes blanks and comments, from inside a comment or from outside. -/
def skipFrom (inComment : Bool) (previous : Option Char) : List Char → Cursor
  | [] => ⟨previous, []⟩
  | c :: rest =>
    if c = '\n' then skipFrom false (some c) rest
    else if inComment then skipFrom true (some c) rest
    else if c = ' ' || c = '\t' || c = '\r' then skipFrom false (some c) rest
    else if c = '#' then skipFrom true (some c) rest
    else ⟨previous, c :: rest⟩

/-- Passes blanks and comments. -/
def skip (cursor : Cursor) : Cursor := skipFrom false cursor.previous cursor.rest

/-- Passes the characters up to the first that fails a test, and hands them out. -/
def spanFrom (test : Char → Bool) (previous : Option Char) : List Char → List Char × Cursor
  | [] => ([], ⟨previous, []⟩)
  | c :: rest =>
    if test c then
      let (taken, cursor) := spanFrom test (some c) rest
      (c :: taken, cursor)
    else ([], ⟨previous, c :: rest⟩)

def span (test : Char → Bool) (cursor : Cursor) : List Char × Cursor :=
  spanFrom test cursor.previous cursor.rest

/-- Passes a given word, if it stands here. -/
def accept (word : List Char) (cursor : Cursor) : Option Cursor :=
  if word.isPrefixOf cursor.rest then
    some ⟨word.getLast?.or cursor.previous, cursor.rest.drop word.length⟩
  else none

/-- What an accepted word leaves is what stood behind it. -/
theorem rest_of_accept {word : List Char} {cursor behind : Cursor}
    (h : cursor.accept word = some behind) : cursor.rest = word ++ behind.rest := by
  unfold accept at h
  split at h
  · next hp =>
    cases h
    exact (List.prefix_iff_eq_append.1 (List.isPrefixOf_iff_prefix.1 hp)).symm
  · cases h

/-- Skipping leaves the end of what was there. -/
theorem rest_skipFrom_suffix (inComment : Bool) (previous : Option Char) (text : List Char) :
    (skipFrom inComment previous text).rest <:+ text := by
  induction text generalizing inComment previous with
  | nil => exact List.suffix_rfl
  | cons c rest ih =>
    unfold skipFrom
    split
    · exact (ih ..).trans (List.suffix_cons ..)
    · split
      · exact (ih ..).trans (List.suffix_cons ..)
      · split
        · exact (ih ..).trans (List.suffix_cons ..)
        · split
          · exact (ih ..).trans (List.suffix_cons ..)
          · exact List.suffix_rfl

theorem rest_skip_suffix (cursor : Cursor) : cursor.skip.rest <:+ cursor.rest :=
  rest_skipFrom_suffix ..

/-- A place to which skipping leads is not left by skipping again. -/
theorem skipFrom_skipFrom (inComment : Bool) (previous : Option Char) (text : List Char) :
    (skipFrom inComment previous text).skip = skipFrom inComment previous text := by
  induction text generalizing inComment previous with
  | nil => rfl
  | cons c rest ih =>
    unfold skipFrom
    split
    · exact ih ..
    · next hn =>
      split
      · exact ih ..
      · split
        · exact ih ..
        · next hb =>
          split
          · exact ih ..
          · next hh =>
            rw [skip, skipFrom, if_neg hn, if_neg Bool.false_ne_true, if_neg hb, if_neg hh]

theorem skip_skip (cursor : Cursor) : cursor.skip.skip = cursor.skip := skipFrom_skipFrom ..

/-- Spanning takes the longest run of characters that pass, and nothing is lost. -/
theorem spanFrom_eq (test : Char → Bool) (previous : Option Char) (text : List Char) :
    (spanFrom test previous text).1 = text.takeWhile test ∧
      (spanFrom test previous text).2.rest = text.dropWhile test := by
  induction text generalizing previous with
  | nil => exact ⟨rfl, rfl⟩
  | cons c rest ih =>
    unfold spanFrom
    split
    · next h =>
      rw [List.takeWhile_cons_of_pos h, List.dropWhile_cons_of_pos h]
      exact ⟨congrArg _ (ih _).1, (ih _).2⟩
    · next h =>
      rw [List.takeWhile_cons_of_neg h, List.dropWhile_cons_of_neg h]
      exact ⟨rfl, rfl⟩

end Cursor

end Fern
