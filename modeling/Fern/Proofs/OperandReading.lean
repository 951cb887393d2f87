import Fern.Proofs.LineRequests

/-!
# Operands

A text that is read as an application is read as the same one where an operator stands behind it, or
the end of a longer text. None of its brackets is open, as the readers take balanced text only, and
neither is any of its literals or, by assumption, its comments. So a reader that goes on at the end
of the text is outside of all brackets, and there no operator begins anything that an application
could go on with.
-/

namespace Fern

open Syntax Fern.Parser

/-! ## Operators in a text -/

namespace Operator

/-- An operator between blanks, with a text behind it. -/
def before (op : Operator) (text : List Char) : List Char :=
  ' ' :: (op.word.chars ++ ' ' :: text)

/-- The characters that operators begin with. -/
def openings : List Char := ['*', '/', '%', '+', '-', '<', '>', '=', 'a', 'o']

variable {op : Operator}

theorem exists_opening (h : op ∈ all) : ∃ x rest, op.word.chars = x :: rest ∧ x ∈ openings := by
  have heads : ∀ op ∈ all, op.word.chars.head?.any (· ∈ openings) := by decide
  obtain ⟨x, hx, hmem⟩ := (Option.any_eq_true ..).1 (heads op h)
  obtain ⟨rest, hrest⟩ := List.head?_eq_some_iff.1 hx
  exact ⟨x, rest, hrest, of_decide_eq_true hmem⟩

theorem skip_chars (h : op ∈ all) (previous : Option Char) (text : List Char) :
    Cursor.skip ⟨previous, op.word.chars ++ text⟩ = ⟨previous, op.word.chars ++ text⟩ := by
  have visible : openings.all (· ∉ [' ', '\t', '\n', '\r', '#']) := by decide
  obtain ⟨x, rest, hx, hmem⟩ := exists_opening h
  rw [hx]
  exact visible_cons (of_decide_eq_true (List.all_eq_true.1 visible x hmem)) _ previous

/-- The blank in front of an operator is passed, and nothing else. -/
theorem skip_before (h : op ∈ all) (previous : Option Char) (text : List Char) :
    Cursor.skip ⟨previous, op.before text⟩ = ⟨some ' ', op.word.chars ++ ' ' :: text⟩ :=
  skip_chars h (some ' ') (' ' :: text)

end Operator

namespace Parser

variable {α : Type} {p : Parser α} {n bound bound' depth depth' : Nat}

/-- The end of a text, and the same or an operator with a text behind it. -/
inductive OperandEnd : Tails
  | last : OperandEnd [] []
  | operator {op : Operator} (h : op ∈ Operator.all) (text : List Char) :
      OperandEnd [] (op.before text)

theorem bars_operandEnd : Bars OperandEnd := by
  have hnil : Barred [] := nofun
  intro t t' h
  cases h with
  | last => exact ⟨hnil, hnil⟩
  | operator => exact ⟨hnil, fun c hc => Option.some.inj hc ▸ by decide⟩

theorem barsSelectors_operandEnd : BarsSelectors OperandEnd := by
  have hnil : Unselected [] := fun _ => selector_eq_none_of_head nofun
  intro t t' h
  cases h with
  | last => exact ⟨hnil, hnil⟩
  | operator =>
      exact ⟨hnil, fun _ => selector_eq_none_of_head fun c hc => Option.some.inj hc ▸ by decide⟩

/-- A reader that passes blanks fails at the end of an operand if it fails at the end of a text and
at operators. -/
theorem Skips.endsAt (hp : Skips p) (hnil : ∀ before, p ⟨before, []⟩ = none)
    (hop : ∀ op ∈ Operator.all, ∀ text, p ⟨some ' ', op.word.chars ++ ' ' :: text⟩ = none) :
    EndsAt OperandEnd p p := by
  intro t t' h
  refine .inr fun before => ?_
  cases h with
  | last => exact ⟨hnil before, hnil before⟩
  | operator h text =>
      refine ⟨hnil before, ?_⟩
      rw [← hp, Operator.skip_before h]
      exact hop _ h text

/-- A reader of words that begin as no operator does fails at operators. -/
theorem Opens.operator {test : Char → Bool} (hp : Opens p test) {op : Operator}
    (h : op ∈ Operator.all) (htest : ∀ x ∈ op.word.chars.head?, test x = false)
    (previous : Option Char) (text : List Char) : p ⟨previous, op.word.chars ++ text⟩ = none := by
  refine hp _ fun y hy => htest y ?_
  obtain ⟨x, rest, hx, -⟩ := Operator.exists_opening h
  rw [Operator.skip_chars h, hx] at hy
  rw [hx]
  exact hy

theorem Opens.endsAt {test : Char → Bool} (hp : Opens p test) (hskips : Skips p)
    (htest : Operator.openings.any test = false) : EndsAt OperandEnd p p := by
  refine hskips.endsAt (fun before => hp _ fun y hy => by cases hy) fun op h text => ?_
  refine hp.operator h (fun x hx => Bool.eq_false_iff.2 (List.any_eq_false.1 htest x ?_)) _ _
  obtain ⟨y, rest, hy, hmem⟩ := Operator.exists_opening h
  rw [hy] at hx
  cases hx
  exact hmem

theorem atKeyword_of_word {w : String} (h : w ∈ keywords) (text : List Char) :
    atKeyword ⟨some ' ', w.toList ++ ' ' :: text⟩ := by
  have hbounded : Bounded (' ' :: text) := fun c hc => Option.some.inj hc ▸ by decide
  refine List.any_eq_true.2 ⟨w, h, ?_⟩
  rw [keywordHere_eq (isKeywordChar_of_mem_keywords h) (by decide), if_pos]
  · rfl
  · rw [takeWhile_append_of_bounded hbounded, takeWhile_of_keyword h]

/-- An operator that is a word is no name. -/
theorem name_endsAt : EndsAt OperandEnd name name := by
  have kinds : ∀ op ∈ Operator.all, (∃ w ∈ keywords, op.word.chars = w.toList) ∨
      op.word.chars.head?.any isNameStart = false := by
    decide
  have hskips : Skips name := skips_token _
  refine hskips.endsAt (fun before => name_opens _ fun y hy => by cases hy) fun op h text => ?_
  obtain ⟨w, hw, hchars⟩ | hother := kinds op h
  · have hat : atKeyword (Cursor.skip ⟨some ' ', op.word.chars ++ ' ' :: text⟩) := by
      rw [Operator.skip_chars h, hchars]
      exact atKeyword_of_word hw text
    exact if_pos hat
  · refine name_opens.operator h (fun x hx => ?_) _ _
    rw [hx] at hother
    exact hother

/-- Reading up to the end of an operand compares the readers of single words. -/
def upToOperandEnd : Comparison where
  Reads := Local OperandEnd
  Steps := Steps OperandEnd
  reads := Steps.toLocal
  reads_mono := Local.mono
  steps_mono := Steps.mono
  reads_zero := Local.of_zero
  steps_zero := Steps.of_zero
  pure := .pure
  bind := Local.bind
  stepBind := Steps.bind
  ifThere := Local.ifThere
  fail := .fail
  orElse := Steps.orElse
  truth := by
    intro n w h
    have opening : ∀ w ∈ ["true", "false"],
        w.toList ≠ [] ∧ Operator.openings.any (begins w) = false := by
      decide
    obtain ⟨hne, hbegins⟩ := opening w h
    exact keyword_steps bars_operandEnd (mem_keywords_of_truth h)
      ((keyword_opens hne).endsAt (skips_token _) hbegins)
  name := name_steps bars_operandEnd name_endsAt
  constructorName := constructorName_steps bars_operandEnd
    ((word_opens Char.isUpper isNameChar).endsAt (skips_token _) (by decide))
  number := number_steps bars_operandEnd (number_opens.endsAt (skips_token _) (by decide))
  literal := literal_steps bars_operandEnd (literal_opens.endsAt (skips_token _) (by decide))

theorem enclosed_steps {α β : Type} {p q : Parser α} {w w' : String}
    (hpair : (w, w') ∈ bracketSigns) (hp : Local (Stop Unselected) (n - 1) p q) (f : α → β) :
    Steps OperandEnd n (do symbol w; let a ← p; symbol w'; return f a)
      (do symbol w; let a ← q; symbol w'; return f a) := by
  have opening : ∀ pair ∈ bracketSigns,
      pair.1.toList ≠ [] ∧ Operator.openings.any (begins pair.1) = false := by
    decide
  obtain ⟨hne, hbegins⟩ := opening _ hpair
  have hends : EndsAt OperandEnd (symbol w) (symbol w) :=
    (symbol_opens hne).endsAt (skips_token _) hbegins
  exact hp.enclosedBySigns bars_operandEnd hpair hends f

/-- An application is read up to the end of an operand in the same way by all bounds that are no
smaller than the text before it. -/
theorem application_steps (hb : n ≤ bound) (hb' : n ≤ bound') (hd : n ≤ depth + 1)
    (hd' : n ≤ depth' + 1) :
    Steps OperandEnd n (application bound (term depth)) (application bound' (term depth')) := by
  have hterm : Steps (Stop Unselected) (n - 1) (term depth) (term depth') :=
    term_steps (by omega) (by omega)
  have hitems := TypeComparison.commaSeparated (K := upToStop.toTypeComparison) hterm
    (by omega : n - 1 ≤ bound) (by omega : n - 1 ≤ bound')
  have hfields := TypeComparison.commaSeparated (K := upToStop.toTypeComparison)
    (GrammarComparison.fieldInit (K := upToStop) hterm)
    (by omega : n - 1 ≤ bound) (by omega : n - 1 ≤ bound')
  refine Comparison.application (K := upToOperandEnd) (Comparison.atom ?unit ?tuple ?record)
    (selector_steps bars_operandEnd barsSelectors_operandEnd) hb hb'
  case unit => exact enclosed_steps (by decide) (.pure ()) fun _ => Term.unit
  case tuple => exact enclosed_steps (by decide) (upToStop.reads hitems) parenthesized
  case record => exact enclosed_steps (by decide) (upToStop.reads hfields) Term.record

end Parser

/-! ## Texts of operands -/

/-- A text without tabs, and without a comment at its end, that is an application. -/
structure IsOperand (text : String) (t : Term) : Prop where
  untabbed : '\t' ∉ text.toList
  uncommented : ¬EndsInComment text.toList
  reads : parseElement (fun bound => application bound (term bound)) true text = some t

namespace IsOperand

variable {text : String} {t : Term} {bound depth : Nat}

/-- Alone, such a text is read up to some blanks at its end, and no bracket is open there. -/
theorem alone (h : IsOperand text t) :
    ∃ d, application (boundFor text.toList) (term (boundFor text.toList)) (.start text.toList) =
        some (t, d) ∧ Balanced text.toList ∧ IsGap d.rest := by
  obtain ⟨htab, hcomment, hread⟩ := h
  unfold parseElement at hread
  rw [Text.expandTabs, Text.expandTabsFrom_of_not_mem htab] at hread
  simp only at hread
  split at hread
  · cases hread
  · next a d hd =>
    have hend : ¬(true && !d.skip.rest.isEmpty) = true := by
      intro hleft
      rw [if_pos hleft] at hread
      cases hread
    rw [if_neg hend] at hread
    cases hread
    have hblank : Blank d := by simpa [Blank] using hend
    let readers (bound : Nat) : Parser Term := application bound (term bound)
    have hsteps : Steps OperandEnd 0 (readers (boundFor text.toList)) (readers 0) :=
      application_steps (Nat.zero_le _) (Nat.zero_le _) (Nat.zero_le _) (Nat.zero_le _)
    obtain ⟨w, hw, htext⟩ := hsteps.takes _ _ _ hd
    have hgap : IsGap d.rest := isGap_of_blank hcomment hw.closed htext hblank
    have hbare : ∀ c ∈ d.rest, isBare c := by
      have bare : [' ', '\t', '\n', '\r'].all isBare := by decide
      exact fun c hc => List.all_eq_true.1 bare c (hgap c hc)
    refine ⟨d, hd, ?_, hgap⟩
    rw [show text.toList = w ++ d.rest from htext]
    exact hw.append (balanced_of_bare hbare)

/-- In front of an operator, or of the end of a longer text, it is read as the same. -/
theorem before (h : IsOperand text t) {tail : List Char} (htail : OperandEnd [] tail) {c : Cursor}
    (hrest : c.rest = text.toList ++ tail) (hprevious : c.previous.any isKeywordChar = false)
    (hb : text.toList.length < bound) (hd : text.toList.length ≤ depth) :
    ∃ gap d, application bound (term depth) c = some (t, d) ∧ d.rest = gap ++ tail ∧ IsGap gap := by
  obtain ⟨alone, hread, hbalanced, hgap⟩ := h.alone
  have hsteps : Steps OperandEnd (text.toList.length + 1)
      (application (boundFor text.toList) (term (boundFor text.toList)))
      (application bound (term depth)) :=
    application_steps (Nat.le_refl _) hb (Nat.le_succ _) (Nat.succ_le_succ hd)
  have habreast : Abreast [] tail text.toList (.start text.toList) c :=
    ⟨hbalanced, (List.append_nil _).symm, hrest, hprevious.symm⟩
  have hr := hsteps.agrees htail _ _ _ habreast (Nat.lt_succ_self _)
  rw [hread] at hr
  generalize hc : application bound (term depth) c = reading at hr
  cases hr with
  | some hv =>
      refine ⟨alone.rest, _, rfl, ?_, hgap⟩
      rw [hv.rest', hv.rest, List.append_nil]

end IsOperand

end Fern
