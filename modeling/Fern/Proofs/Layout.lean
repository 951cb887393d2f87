import Fern.Proofs.Writing
import Fern.Text.Position

/-!
# Words in a text

How a row of words is laid out as a text. Before a word there are blanks and
comments, and at least one of them unless the text starts there; a selector comes
without any. `Layout` leaves open which blanks and which comments, so what is
proved of it holds of every way to write a program down.

Tabs are expanded before a text is read. That turns one layout of the words into
another one, because a word never has a tab in it.
-/

namespace Fern

open Syntax

/-! ## The characters of words -/

/-- The signs of the grammar. -/
def signs : List String :=
  ["(", ")", ",", "\x7b", "\x7d", "=", ";", "|", "->", "\\", ".", ":",
    "*", "/", "%", "+", "-", "<", "<=", ">", ">=", "=="]

/-- A word is one that the grammar knows. -/
def Word.Fits : Word → Prop
  | .sign text => text ∈ signs
  | .keyword text => text ∈ keywords
  | .name text => IsVariable text
  | .constructor text => IsCapital text
  | .field text => BeginsAs isNameStart text
  | .number _ | .literal _ | .item _ => True

/-- A character that may stand behind a word. -/
def endsWord (c : Char) : Bool := c ∈ [' ', '\t', '\n', '\r', '#', '.']

/-- A word ends here, or the text does. -/
def Bounded (text : List Char) : Prop := ∀ c ∈ text.head?, endsWord c

theorem not_endsWord_of_isNameChar {c : Char} (h : isNameChar c) : endsWord c = false := by
  refine Bool.eq_false_iff.2 fun he => ?_
  simp only [endsWord, List.mem_cons, List.not_mem_nil, or_false, decide_eq_true_eq] at he
  rcases he with rfl | rfl | rfl | rfl | rfl | rfl <;> exact absurd h (by decide)

theorem not_endsWord_of_isKeywordChar {c : Char} (h : isKeywordChar c) : endsWord c = false := by
  refine Bool.eq_false_iff.2 fun he => ?_
  simp only [endsWord, List.mem_cons, List.not_mem_nil, or_false, decide_eq_true_eq] at he
  rcases he with rfl | rfl | rfl | rfl | rfl | rfl <;> exact absurd h (by decide)

theorem isNameChar_of_isDigit {c : Char} (h : c.isDigit) : isNameChar c := by
  simp [isNameChar, Char.isAlphanum, h]

theorem isNameChar_of_isAlpha {c : Char} (h : c.isAlpha) : isNameChar c := by
  simp [isNameChar, Char.isAlphanum, h]

theorem isNameChar_of_isUpper {c : Char} (h : c.isUpper) : isNameChar c :=
  isNameChar_of_isAlpha (Bool.or_eq_true_iff.2 (.inl h))

theorem isNameChar_of_isNameStart {c : Char} (h : isNameStart c) : isNameChar c := by
  rcases Bool.or_eq_true_iff.1 h with h | h
  · exact isNameChar_of_isAlpha (Bool.or_eq_true_iff.2 (.inr h))
  · simp [isNameChar, h]

theorem isDigit_of_mem_toDigits {c : Char} {n : Nat} (h : c ∈ Nat.toDigits 10 n) : c.isDigit :=
  Nat.isDigit_of_mem_toDigits (by decide) (by decide) h

/-- A name is made of the characters of names. -/
theorem BeginsAs.isNameChar {start : Char → Bool} {text : String} (h : BeginsAs start text)
    (hstart : ∀ c, start c → isNameChar c) {c : Char} (hc : c ∈ text.toList) : isNameChar c := by
  obtain ⟨d, rest, ht, hd, hrest⟩ := h
  rw [ht] at hc
  rcases List.mem_cons.1 hc with rfl | hc
  · exact hstart _ hd
  · exact hrest _ hc

/-- A character that text literals write is none that a line cannot hold. -/
theorem not_blank_of_mem_writeChar {c d : Char} (h : d ∈ writeChar c) :
    d ≠ '\t' ∧ d ≠ '\n' ∧ d ≠ '\r' := by
  unfold writeChar at h
  split at h
  all_goals first
    | -- The five characters that a backslash stands before.
      simp only [List.mem_cons, List.not_mem_nil, or_false] at h
      rcases h with rfl | rfl <;> decide
    | -- Any other stands for itself.
      cases List.mem_singleton.1 h
      refine ⟨?_, ?_, ?_⟩ <;> rintro rfl <;> contradiction

theorem Word.tab_not_mem {w : Word} (h : w.Fits) : '\t' ∉ w.chars := by
  have tab : ¬ isNameChar '\t' := by decide
  intro hm
  cases w with
  | sign text =>
      have hs : ∀ text ∈ signs, '\t' ∉ text.toList := by decide
      exact hs _ h hm
  | keyword text =>
      have hs : ∀ text ∈ keywords, '\t' ∉ text.toList := by decide
      exact hs _ h hm
  | name text => exact tab (h.begins.isNameChar (fun _ => isNameChar_of_isNameStart) hm)
  | constructor text => exact tab (BeginsAs.isNameChar h (fun _ => isNameChar_of_isUpper) hm)
  | number n => exact tab (isNameChar_of_isDigit (isDigit_of_mem_toDigits hm))
  | literal text =>
      simp only [chars, List.cons_append, List.mem_cons, List.mem_append, List.mem_flatMap,
        List.not_mem_nil, or_false] at hm
      rcases hm with h | ⟨c, -, h⟩ | h
      · exact absurd h (by decide)
      · exact (not_blank_of_mem_writeChar h).1 rfl
      · exact absurd h (by decide)
  | field text =>
      rcases List.mem_cons.1 hm with hm | hm
      · exact absurd hm (by decide)
      · exact tab (BeginsAs.isNameChar h (fun _ => isNameChar_of_isNameStart) hm)
  | item index =>
      rcases List.mem_cons.1 hm with hm | hm
      · exact absurd hm (by decide)
      · exact tab (isNameChar_of_isDigit (isDigit_of_mem_toDigits hm))

/-- The kinds of words that the first character tells apart. -/
inductive Word.Kind
  | sign | keyword | name | constructor | number | literal | selector
  deriving DecidableEq

/-- The kind of a word. -/
def Word.kind : Word → Word.Kind
  | .sign _ => .sign
  | .keyword _ => .keyword
  | .name _ => .name
  | .constructor _ => .constructor
  | .number _ => .number
  | .literal _ => .literal
  | .field _ | .item _ => .selector

/-- The characters that words of a kind begin with. -/
def Word.Kind.opens : Word.Kind → Char → Bool
  | .sign, c => !isNameChar c && c ∉ ['"', ' ', '\t', '\n', '\r', '#']
  | .keyword, c => c.isLower
  | .name, c => isNameStart c
  | .constructor, c => c.isUpper
  | .number, c => c.isDigit
  | .literal, c => c == '"'
  | .selector, c => c == '.'

theorem Word.chars_cons {w : Word} (h : w.Fits) :
    ∃ c rest, w.chars = c :: rest ∧ w.kind.opens c = true := by
  cases w with
  | sign text =>
      have hs : ∀ text ∈ signs, text.toList.head?.any Word.Kind.sign.opens = true := by decide
      obtain ⟨c, hc, ho⟩ := (Option.any_eq_true _ _).1 (hs _ h)
      obtain ⟨rest, hrest⟩ := List.head?_eq_some_iff.1 hc
      exact ⟨c, rest, hrest, ho⟩
  | keyword text =>
      have hs : ∀ text ∈ keywords, text.toList.head?.any Word.Kind.keyword.opens = true := by decide
      obtain ⟨c, hc, ho⟩ := (Option.any_eq_true _ _).1 (hs _ h)
      obtain ⟨rest, hrest⟩ := List.head?_eq_some_iff.1 hc
      exact ⟨c, rest, hrest, ho⟩
  | name text =>
      obtain ⟨c, rest, hc, hs, -⟩ := h.begins
      exact ⟨c, rest, hc, hs⟩
  | constructor text =>
      obtain ⟨c, rest, hc, hs, -⟩ := h
      exact ⟨c, rest, hc, hs⟩
  | number n =>
      obtain ⟨c, rest, hc⟩ := List.exists_cons_of_ne_nil (Nat.toDigits_ne_nil (n := n) (b := 10))
      exact ⟨c, rest, hc, isDigit_of_mem_toDigits (n := n) (hc ▸ List.mem_cons_self)⟩
  | literal text => exact ⟨'"', _, rfl, rfl⟩
  | field | item => exact ⟨'.', _, rfl, rfl⟩

/-- No blank or comment begins like a word. -/
theorem Word.Kind.not_blank_of_opens {kind : Word.Kind} {c : Char} (h : kind.opens c = true) :
    c ∉ [' ', '\t', '\n', '\r', '#'] := by
  have named (h : isNameChar c) : c ∉ [' ', '\t', '\n', '\r', '#'] := fun hm =>
    of_decide_eq_false (not_endsWord_of_isNameChar h) (List.mem_append_left ['.'] hm)
  cases kind with
  | sign =>
      have hn := of_decide_eq_true (Bool.and_eq_true_iff.1 h).2
      exact fun hm => hn (List.mem_cons_of_mem _ hm)
  | keyword => exact named (isNameChar_of_isNameStart (Bool.or_eq_true_iff.2 (.inl h)))
  | name => exact named (isNameChar_of_isNameStart h)
  | constructor => exact named (isNameChar_of_isUpper h)
  | number => exact named (isNameChar_of_isDigit h)
  | literal | selector =>
      rw [show c = _ from eq_of_beq h]
      decide

/-! ## Layouts -/

/-- Blanks and comments. -/
inductive Fill : List Char → Prop
  | nil : Fill []
  | blank {c : Char} {rest : List Char} (hc : c ∈ [' ', '\t', '\n', '\r']) (hrest : Fill rest) :
      Fill (c :: rest)
  | comment {text rest : List Char} (htext : '\n' ∉ text) (hrest : Fill rest) :
      Fill ('#' :: text ++ '\n' :: rest)

/-- A text has the given words, with blanks and comments between them, and before
the first one unless the text starts there. -/
inductive Layout : (start : Bool) → List Word → List Char → Prop
  | done {start : Bool} {gap : List Char} (hgap : Fill gap) : Layout start [] gap
  | touching {start : Bool} {w : Word} {ws : List Word} {text : List Char}
      (htouches : w.touches = true) (hbehind : Layout false ws text) :
      Layout start (w :: ws) (w.chars ++ text)
  | apart {start : Bool} {gap : List Char} {w : Word} {ws : List Word} {text : List Char}
      (htouches : w.touches = false) (hgap : Fill gap) (hstart : gap = [] → start = true)
      (hbehind : Layout false ws text) : Layout start (w :: ws) (gap ++ w.chars ++ text)

/-- Behind a word there is a character that ends it. -/
theorem Layout.bounded {ws : List Word} {text : List Char} (h : Layout false ws text) :
    Bounded text := by
  have fill {gap : List Char} (hgap : Fill gap) {c : Char} (hc : c ∈ gap.head?) : endsWord c := by
    cases hgap with
    | nil => cases hc
    | blank hb _ =>
        cases hc
        simp only [List.mem_cons, List.not_mem_nil, or_false] at hb
        rcases hb with rfl | rfl | rfl | rfl <;> decide
    | comment => cases hc; decide
  intro c hc
  cases h with
  | done hgap => exact fill hgap hc
  | @touching _ w _ _ htouches _ =>
      cases w with
      | field | item => cases hc; decide
      | _ => cases htouches
  | @apart _ gap _ _ _ _ hgap hstart _ =>
      cases gap with
      | nil => cases hstart rfl
      | cons d gap =>
          cases hc
          exact fill hgap rfl

/-! ## Tabs -/

/-- A text is expanded piece by piece. -/
theorem expandTabsFrom_append (column : Nat) (before behind : List Char) :
    ∃ next, Text.expandTabsFrom column (before ++ behind) =
      Text.expandTabsFrom column before ++ Text.expandTabsFrom next behind := by
  induction before generalizing column with
  | nil => exact ⟨column, rfl⟩
  | cons c before ih =>
      rw [List.cons_append, Text.expandTabsFrom, Text.expandTabsFrom]
      split
      · obtain ⟨next, h⟩ := ih (column + (Text.tabWidth - column % Text.tabWidth))
        exact ⟨next, by simp only [h, List.append_assoc]⟩
      · split
        · obtain ⟨next, h⟩ := ih 0
          exact ⟨next, by rw [h, List.cons_append]⟩
        · obtain ⟨next, h⟩ := ih (column + 1)
          exact ⟨next, by rw [h, List.cons_append]⟩

/-- Expanding tabs brings in no new line. -/
theorem newline_not_mem_expandTabsFrom {text : List Char} (h : '\n' ∉ text) (column : Nat) :
    '\n' ∉ Text.expandTabsFrom column text := by
  induction text generalizing column with
  | nil => exact List.not_mem_nil
  | cons c rest ih =>
      obtain ⟨hc, hrest⟩ := not_or.1 fun hm => h (List.mem_cons.2 hm)
      rw [Text.expandTabsFrom]
      split
      · intro hm
        rcases List.mem_append.1 hm with hm | hm
        · exact absurd (List.eq_of_mem_replicate hm) (by decide)
        · exact ih hrest _ hm
      · split
        · exact fun hm => (List.mem_cons.1 hm).elim hc (ih hrest _)
        · exact fun hm => (List.mem_cons.1 hm).elim hc (ih hrest _)

theorem Fill.replicate (n : Nat) {rest : List Char} (h : Fill rest) :
    Fill (List.replicate n ' ' ++ rest) := by
  induction n with
  | zero => exact h
  | succ n ih => exact .blank (by decide) ih

theorem Fill.expandTabs {gap : List Char} (h : Fill gap) (column : Nat) :
    Fill (Text.expandTabsFrom column gap) := by
  induction h generalizing column with
  | nil => exact .nil
  | blank hc _ ih =>
      rw [Text.expandTabsFrom]
      split
      · exact .replicate _ (ih _)
      · split
        · exact .blank hc (ih _)
        · exact .blank hc (ih _)
  | @comment text rest htext _ ih =>
      obtain ⟨next, he⟩ := expandTabsFrom_append (column + 1) text ('\n' :: rest)
      rw [List.cons_append, Text.expandTabsFrom, if_neg (by decide), if_neg (by decide), he,
        Text.expandTabsFrom, if_neg (by decide), if_pos (by decide)]
      exact .comment (newline_not_mem_expandTabsFrom htext _) (ih 0)

theorem expandTabsFrom_ne_nil {text : List Char} (h : text ≠ []) (column : Nat) :
    Text.expandTabsFrom column text ≠ [] := by
  obtain ⟨c, rest, rfl⟩ := List.exists_cons_of_ne_nil h
  rw [Text.expandTabsFrom]
  split
  · have hw : column % Text.tabWidth < Text.tabWidth := Nat.mod_lt _ (by decide)
    intro he
    have hl := congrArg List.length (List.append_eq_nil_iff.1 he).1
    rw [List.length_replicate, List.length_nil] at hl
    omega
  · split <;> exact List.cons_ne_nil _ _

/-- Expanding the tabs of a text leaves its words. -/
theorem Layout.expandTabs {start : Bool} {ws : List Word} {text : List Char}
    (h : Layout start ws text) (hfits : ∀ w ∈ ws, w.Fits) (column : Nat) :
    Layout start ws (Text.expandTabsFrom column text) := by
  induction h generalizing column with
  | done hgap => exact .done (hgap.expandTabs column)
  | @touching _ w ws text htouches _ ih =>
      obtain ⟨hw, hws⟩ := List.forall_mem_cons.1 hfits
      obtain ⟨next, he⟩ := expandTabsFrom_append column w.chars text
      rw [he, Text.expandTabsFrom_of_not_mem (Word.tab_not_mem hw)]
      exact .touching htouches (ih hws next)
  | @apart start gap w ws text htouches hgap hstart _ ih =>
      obtain ⟨hw, hws⟩ := List.forall_mem_cons.1 hfits
      obtain ⟨middle, hm⟩ := expandTabsFrom_append column gap (w.chars ++ text)
      obtain ⟨next, hn⟩ := expandTabsFrom_append middle w.chars text
      rw [List.append_assoc, hm, hn, Text.expandTabsFrom_of_not_mem (Word.tab_not_mem hw),
        ← List.append_assoc]
      refine .apart htouches (hgap.expandTabs column) (fun he => ?_) (ih hws next)
      by_cases hg : gap = []
      · exact hstart hg
      · exact absurd he (expandTabsFrom_ne_nil hg column)

end Fern
