import Fern.Proofs.FaultPlaces
import Fern.Text.Quoted
import Mathlib.Algebra.GroupWithZero.Nat

/-!
# Quoted texts

A quoted text stands on one line, whatever is in the text, and has two quotes more than the text at
least. Quotes can be counted line by line, since no line feed is one.
-/

namespace Fern

namespace Text

/-! ## Quotes -/

def isQuote (c : Char) : Bool := c = '\'' || c = '"'

/-- How many quotes there are in a text. -/
def quotes (text : String) : Nat := text.toList.countP isQuote

theorem quotes_append (text behind : String) :
    quotes (text ++ behind) = quotes text + quotes behind := by
  rw [quotes, String.toList_append, List.countP_append]
  rfl

/-- Joining by line feeds adds no quotes. -/
theorem quotes_intercalate (texts : List String) :
    quotes ("\n".intercalate texts) = (texts.map quotes).sum := by
  induction texts with
  | nil => rfl
  | cons text rest ih =>
      cases rest with
      | nil => rw [String.intercalate_singleton, List.map_singleton, List.sum_singleton]
      | cons next rest =>
          rw [String.intercalate_cons_cons, quotes_append, quotes_append, ih, List.map_cons,
            List.sum_cons]
          rfl

theorem countP_lines (text : List Char) :
    ((lines text).map (List.countP isQuote)).sum = text.countP isQuote := by
  induction text with
  | nil => rfl
  | cons c rest ih =>
      obtain ⟨first, others, hlines⟩ := List.exists_cons_of_ne_nil (List.splitOn_ne_nil '\n' rest)
      rw [lines, hlines, List.map_cons, List.sum_cons] at ih
      rw [lines, List.splitOn_cons_eq_if_modifyHead, hlines, List.countP_cons, ← ih]
      split
      · next hc =>
        cases eq_of_beq hc
        rw [List.map_cons, List.sum_cons, List.map_cons, List.sum_cons]
        simp [isQuote]
      · rw [List.modifyHead_cons, List.map_cons, List.sum_cons, List.countP_cons]
        omega

theorem quoteFor_eq (text : List Char) : quoteFor text = '\'' ∨ quoteFor text = '"' := by
  rw [quoteFor]
  split
  · exact .inr rfl
  · exact .inl rfl

/-- A quote is still there when it is quoted. -/
theorem countP_quotedChar {quote : Char} (hquote : quote = '\'' ∨ quote = '"') (c : Char) :
    [c].countP isQuote ≤ (quotedChar quote c).countP isQuote := by
  by_cases hc : isQuote c
  · obtain rfl | rfl : c = '\'' ∨ c = '"' := by simpa [isQuote] using hc
    all_goals rcases hquote with rfl | rfl <;> decide +kernel
  · rw [List.countP_singleton, if_neg hc]
    exact Nat.zero_le _

/-- A quoted text has two more quotes than the text. -/
theorem quotes_quoted (text : String) : quotes text + 2 ≤ quotes (quoted text) := by
  have hquote := quoteFor_eq text.toList
  have hinner : text.toList.countP isQuote ≤
      (text.toList.flatMap (quotedChar (quoteFor text.toList))).countP isQuote := by
    generalize quoteFor text.toList = quote at hquote
    induction text.toList with
    | nil => exact Nat.le_refl _
    | cons c rest ih =>
        rw [List.flatMap_cons, List.countP_append, ← List.singleton_append, List.countP_append]
        exact Nat.add_le_add (countP_quotedChar hquote c) ih
  have hends : [quoteFor text.toList].countP isQuote = 1 := by
    rcases hquote with h | h <;> rw [h] <;> rfl
  rw [quotes, quotes, quoted, String.toList_ofList, quotedChars, ← List.singleton_append,
    List.countP_append, List.countP_append, hends]
  omega

/-! ## Line feeds -/

theorem digitChar_of_mem_toDigits {b n : Nat} (hb : 1 < b) {c : Char} (h : c ∈ Nat.toDigits b n) :
    ∃ k, c = Nat.digitChar k := by
  induction n using Nat.strongRecOn with
  | ind n ih =>
      rw [Nat.toDigits_eq_if hb] at h
      split at h
      · exact ⟨n, List.mem_singleton.1 h⟩
      · rcases List.mem_append.1 h with h | h
        · exact ih _ (Nat.div_lt_self (by omega) hb) h
        · exact ⟨_, List.mem_singleton.1 h⟩

theorem newline_not_mem_hex (width n : Nat) : '\n' ∉ hex width n := by
  intro hm
  rcases List.mem_append.1 hm with hm | hm
  · exact absurd (List.eq_of_mem_replicate hm) (by decide)
  · obtain ⟨k, hk⟩ := digitChar_of_mem_toDigits (by decide) hm
    exact Nat.digitChar_ne _ (by decide) hk.symm

theorem newline_not_mem_quotedChar {quote : Char} (hquote : quote ≠ '\n') (c : Char) :
    '\n' ∉ quotedChar quote c := by
  have hbehind {letter : Char} {digits : List Char} (hletter : letter ≠ '\n')
      (h : '\n' ∉ digits) : '\n' ∉ '\\' :: letter :: digits := by
    simp [h, hletter.symm]
  unfold quotedChar
  split
  · next h =>
    obtain rfl | rfl : c = quote ∨ c = '\\' := by simpa using h
    · exact hbehind hquote List.not_mem_nil
    · decide
  split
  · decide
  · next hc =>
    split
    · decide
    split
    · decide
    split
    · exact fun hm => hc (List.mem_singleton.1 hm).symm
    split
    · exact hbehind (by decide) (newline_not_mem_hex _ _)
    split
    · exact hbehind (by decide) (newline_not_mem_hex _ _)
    · exact hbehind (by decide) (newline_not_mem_hex _ _)

/-- A quoted text stands on one line. -/
theorem newline_not_mem_quoted (text : String) : '\n' ∉ (quoted text).toList := by
  have hquote : quoteFor text.toList ≠ '\n' := by
    rcases quoteFor_eq text.toList with h | h <;> rw [h] <;> decide
  rw [quoted, String.toList_ofList, quotedChars]
  simp only [List.mem_cons, List.mem_append, List.mem_flatMap, List.not_mem_nil, or_false,
    not_or, not_exists, not_and]
  exact ⟨hquote.symm, fun c _ => newline_not_mem_quotedChar hquote c, hquote.symm⟩

end Text

end Fern
