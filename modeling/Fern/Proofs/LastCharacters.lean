import Fern.Proofs.LocalGrammar
import Fern.Text.Charset

/-!
# What readers take last

No expression ends with a blank or with a full stop. A full stop inside one is the dot of a selector,
with the name or the number behind it, or belongs to a text literal, with the closing quote behind
it; what is passed between two words belongs to the word behind it. So the last character that a
reader of expressions takes is that of a word, and the grammar is gone through as a comparison of
readers that looks at one of them alone.
-/

namespace Fern.Parser

open Syntax

/-- A character that the last word of an expression may end with. -/
def isLastChar (c : Char) : Bool := !Text.isBlank c && c != '.'

/-- Between two places there is some text that ends as an expression may. -/
def EndsWell (c d : Cursor) : Prop := ∃ w y, c.rest = w ++ y :: d.rest ∧ isLastChar y

section EndsWell

variable {c d e : Cursor}

theorem EndsWell.trans (hd : d.rest <:+ c.rest) (h : EndsWell d e) : EndsWell c e := by
  obtain ⟨v, hv⟩ := hd
  obtain ⟨w, y, hw, hy⟩ := h
  exact ⟨v ++ w, y, by rw [← hv, hw, List.append_assoc], hy⟩

theorem EndsWell.suffix (h : EndsWell c d) : d.rest <:+ c.rest := by
  obtain ⟨w, y, hw, -⟩ := h
  exact ⟨w ++ [y], by rw [hw, List.append_assoc, List.singleton_append]⟩

end EndsWell

section Combinators

variable {α β : Type} {p q : Parser α} {next : α → Parser β}

/-- All that a parser takes ends well. -/
def TakesWord (p : Parser α) : Prop := ∀ c a d, p c = some (a, d) → EndsWell c d

/-- A parser takes nothing, or what it takes ends well. -/
def TakesWords (p : Parser α) : Prop := ∀ c a d, p c = some (a, d) → d.rest = c.rest ∨ EndsWell c d

theorem TakesWord.takesWords (h : TakesWord p) : TakesWords p := fun c a d hc => .inr (h c a d hc)

theorem TakesWords.pure (a : α) : TakesWords (pure a) := by
  intro c b d h
  cases h
  exact .inl rfl

theorem TakesWords.bind (hp : TakesWords p) (hnext : ∀ a, TakesWords (next a)) :
    TakesWords (p >>= next) := by
  intro c b d h
  obtain ⟨a, mid, ha, hb⟩ := bind_eq_some.1 h
  rcases hp _ _ _ ha with hmid | hmid
  · rcases hnext a _ _ _ hb with hd | hd
    · exact .inl (hd.trans hmid)
    · exact .inr (.trans (hmid ▸ List.suffix_rfl) hd)
  · rcases hnext a _ _ _ hb with hd | hd
    · obtain ⟨w, y, hw, hy⟩ := hmid
      exact .inr ⟨w, y, by rw [hw, hd], hy⟩
    · exact .inr (.trans hmid.suffix hd)

theorem TakesWord.bind (hp : TakesWord p) (hnext : ∀ a, TakesWords (next a)) :
    TakesWord (p >>= next) := by
  intro c b d h
  obtain ⟨a, mid, ha, hb⟩ := bind_eq_some.1 h
  have hmid := hp _ _ _ ha
  rcases hnext a _ _ _ hb with hd | hd
  · obtain ⟨w, y, hw, hy⟩ := hmid
    exact ⟨w, y, by rw [hw, hd], hy⟩
  · exact .trans hmid.suffix hd

theorem TakesWord.orElse (hp : TakesWord p) (hq : TakesWord q) : TakesWord (orElse p q) :=
  fun c a d h => (orElse_eq_some.1 h).elim (hp c a d) fun h => hq c a d h.2

theorem TakesWords.optional (hp : TakesWord p) : TakesWords (optional p) := by
  intro c o d h
  unfold Parser.optional at h
  split at h
  · cases h
    exact .inl rfl
  · next hc =>
    cases h
    exact .inr (hp _ _ _ hc)

theorem TakesWord.token (hp : TakesWord p) : TakesWord (token p) :=
  fun c a d h => .trans (Cursor.rest_skip_suffix c) (hp _ a d h)

end Combinators

/-! ## Words -/

/-- A word that is taken ends what is taken. -/
theorem EndsWell.of_word {w : List Char} {c d : Cursor} (hrest : c.rest = w ++ d.rest)
    (hw : w.getLast?.any isLastChar) : EndsWell c d := by
  obtain ⟨y, hlast, hy⟩ := (Option.any_eq_true ..).1 hw
  obtain ⟨front, rfl⟩ := List.getLast?_eq_some_iff.1 hlast
  exact ⟨front, y, by rw [hrest, List.append_assoc, List.singleton_append], hy⟩

/-- A test that fails on blanks and full stops. -/
def EndsWords (test : Char → Bool) : Prop := ∀ c, test c → isLastChar c

theorem isLastChar_of_isAlphanum {c : Char} (h : c.isAlphanum) : isLastChar c := by
  have hranges : ∀ range ∈ Text.blanks, range.2 < 48 ∨ 122 < range.1 := by decide
  have hdot : c ≠ '.' := by
    rintro rfl
    exact absurd h (by decide)
  have hcode : 48 ≤ c.toNat ∧ c.toNat ≤ 122 := by
    rcases Bool.or_eq_true_iff.1 h with halpha | hdigit
    · rcases Bool.or_eq_true_iff.1 halpha with hupper | hlower
      · obtain ⟨hlow, hhigh⟩ : 65 ≤ c.toNat ∧ c.toNat ≤ 90 := of_decide_eq_true hupper
        omega
      · obtain ⟨hlow, hhigh⟩ := Bool.and_eq_true_iff.1 hlower
        have hlow : 97 ≤ c.toNat := of_decide_eq_true hlow
        have hhigh : c.toNat ≤ 122 := of_decide_eq_true hhigh
        omega
    · obtain ⟨hlow, hhigh⟩ := Bool.and_eq_true_iff.1 hdigit
      have hlow : 48 ≤ c.toNat := of_decide_eq_true hlow
      have hhigh : c.toNat ≤ 57 := of_decide_eq_true hhigh
      omega
  have hblank : Text.isBlank c = false := by
    rw [← Bool.not_eq_true, Text.isBlank, Text.Charset.has_iff]
    rintro ⟨range, hmem, hlow, hhigh⟩
    have hout := hranges range hmem
    omega
  rw [isLastChar, hblank, bne_iff_ne.2 hdot]
  rfl

theorem endsWords_isNameChar : EndsWords isNameChar := by
  intro c h
  simp only [isNameChar, Bool.or_eq_true, beq_iff_eq] at h
  rcases h with (h | rfl) | rfl
  · exact isLastChar_of_isAlphanum h
  · decide
  · decide

theorem endsWords_isNameStart : EndsWords isNameStart :=
  fun c h => endsWords_isNameChar c (isNameChar_of_isNameStart h)

theorem endsWords_isUpper : EndsWords Char.isUpper :=
  fun c h => endsWords_isNameChar c (isNameChar_of_isUpper h)

theorem endsWords_isDigit : EndsWords Char.isDigit :=
  fun c h => endsWords_isNameChar c (isNameChar_of_isDigit h)

theorem word_takesWord {start others : Char → Bool} (hstart : EndsWords start)
    (hothers : EndsWords others) : TakesWord (word start others) := by
  intro c a d h
  obtain ⟨x, rest, hc, hx, -, hd⟩ := exists_of_word h
  refine .of_word (w := x :: rest.takeWhile others) ?_ ?_
  · rw [hc, hd, List.cons_append, List.takeWhile_append_dropWhile]
  · rw [List.getLast?_eq_some_getLast (List.cons_ne_nil _ _), Option.any_some]
    have hmem := List.getLast_mem (List.cons_ne_nil x (rest.takeWhile others))
    rcases List.mem_cons.1 hmem with hlast | hlast
    · rw [hlast]
      exact hstart x hx
    · exact hothers _ (List.mem_takeWhile_imp hlast)

theorem sign_takesWord {w : String} (h : w ∈ signs.filter (· ≠ ".")) : TakesWord (symbol w) := by
  have hlast : ∀ w ∈ signs.filter (· ≠ "."), w.toList.getLast?.any isLastChar := by decide
  refine TakesWord.token fun c a d hc => ?_
  obtain ⟨behind, haccept, hd⟩ := Option.map_eq_some_iff.1 hc
  cases hd
  exact .of_word (Cursor.rest_of_accept haccept) (hlast w h)

theorem keyword_takesWord {w : String} (h : w ∈ keywords) : TakesWord (keyword w) := by
  have hlast : ∀ w ∈ keywords, w.toList.getLast?.any isLastChar := by decide
  refine TakesWord.token fun c a d hc => ?_
  unfold keywordHere at hc
  split at hc
  · cases hc
  · split at hc
    · cases hc
    · next haccept =>
      split at hc
      · cases hc
      · cases hc
        exact .of_word (Cursor.rest_of_accept haccept) (hlast w h)

theorem name_takesWord : TakesWord name := by
  refine TakesWord.token fun c a d hc => ?_
  split at hc
  · cases hc
  · exact word_takesWord endsWords_isNameStart endsWords_isNameChar c a d hc

theorem digits_takesWord : TakesWord (word Char.isDigit Char.isDigit) :=
  word_takesWord endsWords_isDigit endsWords_isDigit

theorem literal_takesWord : TakesWord literal := by
  refine TakesWord.token fun c a d hc => ?_
  split at hc
  · next text hrest =>
    obtain ⟨⟨body, behind⟩, hbody, hd⟩ := Option.map_eq_some_iff.1 hc
    cases hd
    obtain ⟨inside, hinside, -⟩ := exists_of_literalBody hbody
    exact ⟨'"' :: inside, '"', by rw [hrest, hinside, List.cons_append], by decide⟩
  · cases hc

theorem selector_takesWord : TakesWord selector := by
  intro c a d h
  unfold selector at h
  split at h
  · next rest hrest =>
    refine .trans (d := .past '.' rest) ?_ (TakesWord.orElse ?field ?item _ _ _ h)
    · exact hrest ▸ List.suffix_cons '.' rest
    case field =>
        exact (word_takesWord endsWords_isNameStart endsWords_isNameChar).bind fun _ => .pure _
    case item => exact digits_takesWord.bind fun _ => .pure _
  · cases h

/-! ## Expressions -/

theorem innerSigns_subset : innerSigns ⊆ signs.filter (· ≠ ".") := by
  have known : ∀ w ∈ innerSigns, w ∈ signs.filter (· ≠ ".") := by decide
  exact known

theorem TakesWords.enclosed {α β : Type} {p : Parser α} {w w' : String}
    (hpair : (w, w') ∈ bracketSigns) (hp : TakesWords p) (f : α → β) :
    TakesWord (do symbol w; let a ← p; symbol w'; return f a) := by
  have known : ∀ pair ∈ bracketSigns,
      pair.1 ∈ signs.filter (· ≠ ".") ∧ pair.2 ∈ signs.filter (· ≠ ".") := by
    decide
  obtain ⟨hopen, hclose⟩ := known _ hpair
  refine (sign_takesWord hopen).bind fun _ => hp.bind fun a => ?_
  exact (sign_takesWord hclose).takesWords.bind fun _ => .pure (f a)

/-- Taking text that ends well compares readers, by the first of two. -/
def endingWell : GrammarComparison where
  Reads := fun _ p _ => TakesWords p
  Steps := fun _ p _ => TakesWord p
  reads := TakesWord.takesWords
  reads_mono := fun h _ => h
  steps_mono := fun h _ => h
  reads_zero := id
  steps_zero := id
  pure := .pure
  bind := TakesWords.bind
  stepBind := TakesWord.bind
  ifThere := fun hp hnone hsome => (TakesWords.optional hp).bind fun
    | none => hnone
    | some a => hsome a
  fail := fun _ _ _ h => nomatch h
  orElse := TakesWord.orElse
  sign := fun h => sign_takesWord (innerSigns_subset h)
  keyword := keyword_takesWord
  enclosed := TakesWords.enclosed
  truth := fun h => keyword_takesWord (mem_keywords_of_truth h)
  name := name_takesWord
  constructorName := (word_takesWord endsWords_isUpper endsWords_isNameChar).token
  number := (digits_takesWord.bind fun _ => .pure _).token
  literal := literal_takesWord
  selector := selector_takesWord

/-- What is read as an expression ends neither with a blank nor with a full stop. -/
theorem term_takesWord (bound : Nat) : TakesWord (term bound) :=
  GrammarComparison.term (K := endingWell) (Nat.le_refl bound) (Nat.le_refl bound)

end Fern.Parser
