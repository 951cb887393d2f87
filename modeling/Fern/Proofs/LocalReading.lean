import Fern.Proofs.FirstCharacters
import Mathlib.Data.List.Forall2

/-!
# Reading up to a place

What a reader of the grammar does before a full stop, before a closing bracket or before the end of
an operand does not depend on what is behind. Two texts that begin with the same words are followed
abreast, by two parsers that need not have the same bounds: both fail, or both read the same thing
and stay where the texts are the same. That has to be a text in which every comment, every text
literal and every bracket is closed; and what follows it, the tail, must not join its last word.

Which pairs of tails are looked at is a parameter: tails at which reading stops anyway need other
facts than those behind a bracket that is open. That a reading takes only such balanced text, and
that a single item of a repetition takes some, is carried along, because the bounds are compared
with the length of what is left.
-/

namespace Fern

open Syntax

/-! ## Closed texts -/

/-- A character that begins neither a comment nor a text literal. -/
def isPlain (c : Char) : Bool := c != '"' && c != '#'

/-- Every comment and every text literal that begins in a text ends in it. -/
inductive ClosedText : List Char → Prop
  | nil : ClosedText []
  | plain {c : Char} {rest : List Char} (hc : isPlain c) (hrest : ClosedText rest) :
      ClosedText (c :: rest)
  | comment {text rest : List Char} (htext : '\n' ∉ text) (hrest : ClosedText rest) :
      ClosedText ('#' :: text ++ '\n' :: rest)
  | literal {text body behind : List Char} {previous : Option Char}
      (hbody : literalBody text = some (body, ⟨previous, behind⟩)) (hbehind : ClosedText behind) :
      ClosedText ('"' :: text)

/-- A literal ends at its closing quote, whatever follows. -/
theorem exists_of_literalBody {text body behind : List Char} {previous : Option Char}
    (h : literalBody text = some (body, ⟨previous, behind⟩)) :
    ∃ inside, text = inside ++ '"' :: behind ∧
      ∀ more, literalBody (inside ++ '"' :: more) = some (body, ⟨previous, more⟩) := by
  induction text using literalBody.induct generalizing body with
  | case1 => cases h
  | case2 rest =>
      cases h
      exact ⟨[], rfl, fun _ => rfl⟩
  | case3 rest => rw [literalBody, if_pos rfl] at h; cases h
  | case4 c rest hc ih =>
      rw [literalBody, if_neg hc] at h
      obtain ⟨⟨inside, last⟩, hr, he⟩ := Option.map_eq_some_iff.1 h
      cases he
      obtain ⟨front, hrest, hmore⟩ := ih hr
      refine ⟨'\\' :: c :: front, by rw [hrest]; rfl, fun more => ?_⟩
      rw [List.cons_append, List.cons_append, literalBody, if_neg hc, hmore, Option.map_some]
  | case5 c rest hquote hslash hc =>
      rw [literalBody, if_pos hc] at h
      · cases h
      · exact hquote
      · exact hslash
  | case6 c rest hquote hslash hc ih =>
      have hback : c ≠ '\\' := fun he => hc (by simp [he])
      rw [literalBody, if_neg hc] at h
      · obtain ⟨⟨inside, last⟩, hr, he⟩ := Option.map_eq_some_iff.1 h
        cases he
        obtain ⟨front, hrest, hmore⟩ := ih hr
        refine ⟨c :: front, by rw [hrest]; rfl, fun more => ?_⟩
        rw [List.cons_append, literalBody, if_neg hc, hmore, Option.map_some]
        · exact hquote
        · exact fun d others he _ => hback he
      · exact hquote
      · exact hslash

theorem literalBody_append {text body behind : List Char} {previous : Option Char}
    (h : literalBody text = some (body, ⟨previous, behind⟩)) (more : List Char) :
    literalBody (text ++ more) = some (body, ⟨previous, behind ++ more⟩) := by
  obtain ⟨inside, rfl, hmore⟩ := exists_of_literalBody h
  rw [List.append_assoc, List.cons_append, hmore]

theorem ClosedText.append {text more : List Char} (h : ClosedText text) (hm : ClosedText more) :
    ClosedText (text ++ more) := by
  induction h with
  | nil => exact hm
  | plain hc _ ih => exact .plain hc ih
  | comment htext _ ih =>
      rw [List.append_assoc, List.cons_append]
      exact .comment htext ih
  | literal hbody _ ih => exact .literal (literalBody_append hbody more) ih

/-! ## Balanced texts -/

/-- The brackets of the grammar. -/
def brackets : List (Char × Char) := [('(', ')'), ('\x7b', '\x7d')]

/-- A plain character that is no bracket. -/
def isBare (c : Char) : Bool := isPlain c && !brackets.any fun pair => c == pair.1 || c == pair.2

/-- Every comment, text literal and bracket that begins in a text ends in it, and no bracket ends in
it that does not begin there. -/
inductive Balanced : List Char → Prop
  | nil : Balanced []
  | bare {c : Char} {rest : List Char} (hc : isBare c) (hrest : Balanced rest) :
      Balanced (c :: rest)
  | comment {text rest : List Char} (htext : '\n' ∉ text) (hrest : Balanced rest) :
      Balanced ('#' :: text ++ '\n' :: rest)
  | literal {text body behind : List Char} {previous : Option Char}
      (hbody : literalBody text = some (body, ⟨previous, behind⟩)) (hbehind : Balanced behind) :
      Balanced ('"' :: text)
  | bracket {l r : Char} {inside behind : List Char} (hpair : (l, r) ∈ brackets)
      (hinside : Balanced inside) (hbehind : Balanced behind) :
      Balanced (l :: inside ++ r :: behind)

theorem isPlain_of_isBare {c : Char} (h : isBare c) : isPlain c := (Bool.and_eq_true_iff.1 h).1

theorem isPlain_of_bracket {l r : Char} (h : (l, r) ∈ brackets) : isPlain l ∧ isPlain r := by
  have plain : ∀ pair ∈ brackets, isPlain pair.1 ∧ isPlain pair.2 := by decide
  exact plain _ h

theorem ne_bracket_of_isBare {c l r : Char} (hc : isBare c) (h : (l, r) ∈ brackets) :
    c ≠ l ∧ c ≠ r := by
  have hany := (Bool.and_eq_true_iff.1 hc).2
  rw [Bool.not_eq_true', List.any_eq_false] at hany
  have hpair := hany _ h
  simp only [Bool.or_eq_true, beq_iff_eq, not_or] at hpair
  exact hpair

theorem Balanced.closed {text : List Char} (h : Balanced text) : ClosedText text := by
  induction h with
  | nil => exact .nil
  | bare hc _ ih => exact .plain (isPlain_of_isBare hc) ih
  | comment htext _ ih => exact .comment htext ih
  | literal hbody _ ih => exact .literal hbody ih
  | bracket hpair _ _ hinside hbehind =>
      obtain ⟨hl, hr⟩ := isPlain_of_bracket hpair
      exact .plain hl (hinside.append (.plain hr hbehind))

theorem Balanced.append {text more : List Char} (h : Balanced text) (hm : Balanced more) :
    Balanced (text ++ more) := by
  induction h with
  | nil => exact hm
  | bare hc _ ih => exact .bare hc ih
  | comment htext _ ih =>
      rw [List.append_assoc, List.cons_append]
      exact .comment htext ih
  | literal hbody _ ih => exact .literal (literalBody_append hbody more) ih
  | bracket hpair hinside _ _ ih =>
      rw [List.append_assoc, List.cons_append]
      exact .bracket hpair hinside ih

theorem balanced_of_bare {text : List Char} (h : ∀ c ∈ text, isBare c) : Balanced text := by
  induction text with
  | nil => exact .nil
  | cons c rest ih =>
      obtain ⟨hc, hrest⟩ := List.forall_mem_cons.1 h
      exact .bare hc (ih hrest)

theorem Balanced.of_bare_cons {c : Char} {rest : List Char} (h : Balanced (c :: rest))
    (hc : isBare c) : Balanced rest := by
  cases h with
  | bare _ hrest => exact hrest
  | comment => exact absurd hc (by decide)
  | literal => exact absurd hc (by decide)
  | bracket hpair => exact absurd rfl (ne_bracket_of_isBare hc hpair).1

/-- Bare characters at the front leave a balanced text behind them. -/
theorem Balanced.of_append_bare {text rest : List Char} (h : Balanced (text ++ rest))
    (hbare : ∀ c ∈ text, isBare c) : Balanced rest := by
  induction text with
  | nil => exact h
  | cons c text ih =>
      obtain ⟨hc, htext⟩ := List.forall_mem_cons.1 hbare
      exact ih (h.of_bare_cons hc) htext

/-- Behind an opening bracket there is the closing one. -/
theorem Balanced.of_bracket_cons {l r : Char} {rest : List Char} (h : Balanced (l :: rest))
    (hpair : (l, r) ∈ brackets) :
    ∃ inside behind, rest = inside ++ r :: behind ∧ Balanced inside ∧ Balanced behind := by
  have closer : ∀ pair ∈ brackets, ∀ other ∈ brackets, pair.1 = other.1 → pair.2 = other.2 := by
    decide
  have marks : ∀ pair ∈ brackets, pair.1 ≠ '#' ∧ pair.1 ≠ '"' := by decide
  cases h with
  | bare hc => exact absurd rfl (ne_bracket_of_isBare hc hpair).1
  | comment => exact absurd rfl (marks _ hpair).1
  | literal => exact absurd rfl (marks _ hpair).2
  | @bracket _ r' inside behind hother hinside hbehind =>
      obtain rfl : r = r' := closer _ hpair _ hother rfl
      exact ⟨inside, behind, rfl, hinside, hbehind⟩

/-- No balanced text begins with a closing bracket. -/
theorem Balanced.head_ne {l r c : Char} {rest : List Char} (h : Balanced (c :: rest))
    (hpair : (l, r) ∈ brackets) : c ≠ r := by
  have closers : ∀ pair ∈ brackets, pair.2 ≠ '#' ∧ pair.2 ≠ '"' ∧
      ∀ other ∈ brackets, other.1 ≠ pair.2 := by
    decide
  obtain ⟨hhash, hquote, hopen⟩ := closers _ hpair
  cases h with
  | bare hc => exact (ne_bracket_of_isBare hc hpair).2
  | comment => exact hhash.symm
  | literal => exact hquote.symm
  | bracket hother => exact hopen _ hother

theorem balanced_of_fill {gap : List Char} (h : Fill gap) : Balanced gap := by
  induction h with
  | nil => exact .nil
  | blank hc _ ih =>
      have bare : [' ', '\t', '\n', '\r'].all isBare := by decide
      exact .bare (List.all_eq_true.1 bare _ hc) ih
  | comment htext _ ih => exact .comment htext ih

/-- A comment goes on up to the end of its line. -/
theorem Fill.comment_cons {c : Char} {gap : List Char} (h : Fill ('#' :: gap)) (hc : c ≠ '\n') :
    Fill ('#' :: c :: gap) := by
  generalize htext : '#' :: gap = text at h
  cases h with
  | nil => cases htext
  | blank hb => cases htext; exact absurd hb (by decide)
  | @comment inside rest hinside hrest =>
      cases htext
      have hmem : '\n' ∉ c :: inside := by simp [Ne.symm hc, hinside]
      exact .comment hmem hrest

/-- What skipping passes on its way to a character are blanks and comments, with the hash sign in
front if it starts inside a comment. -/
theorem fill_of_skipFrom {inComment : Bool} {previous : Option Char} {text : List Char}
    (h : (Cursor.skipFrom inComment previous text).rest ≠ []) :
    ∃ gap, text = gap ++ (Cursor.skipFrom inComment previous text).rest ∧
      Fill (bif inComment then '#' :: gap else gap) := by
  induction text generalizing inComment previous with
  | nil => exact absurd rfl h
  | cons c rest ih =>
      unfold Cursor.skipFrom at h ⊢
      split at h
      · next hn =>
        subst hn
        obtain ⟨gap, hgap, hfill⟩ := ih h
        refine ⟨'\n' :: gap, by rw [if_pos rfl, List.cons_append, ← hgap], ?_⟩
        cases inComment with
        | true => exact @Fill.comment [] gap List.not_mem_nil hfill
        | false => exact .blank (by decide) hfill
      · next hn =>
        rw [if_neg hn]
        split at h
        · next hi =>
          subst hi
          obtain ⟨gap, hgap, hfill⟩ := ih h
          exact ⟨c :: gap, by rw [if_pos rfl, List.cons_append, ← hgap], hfill.comment_cons hn⟩
        · next hi =>
          obtain rfl := Bool.eq_false_iff.2 hi
          rw [if_neg hi]
          split at h
          · next hb =>
            obtain ⟨gap, hgap, hfill⟩ := ih h
            refine ⟨c :: gap, by rw [if_pos hb, List.cons_append, ← hgap], .blank ?_ hfill⟩
            simp only [Bool.or_eq_true, decide_eq_true_eq] at hb
            rcases hb with (rfl | rfl) | rfl <;> decide
          · next hb =>
            rw [if_neg hb]
            split at h
            · next hh =>
              subst hh
              obtain ⟨gap, hgap, hfill⟩ := ih h
              exact ⟨'#' :: gap, by rw [if_pos rfl, List.cons_append, ← hgap], hfill⟩
            · next hh => exact ⟨[], by rw [if_neg hh]; rfl, .nil⟩

/-- Blanks and comments stand in front of the character that skipping leads to. -/
theorem fill_of_skip {c : Cursor} (h : c.skip.rest ≠ []) :
    ∃ gap, Fill gap ∧ c.rest = gap ++ c.skip.rest := by
  obtain ⟨gap, hgap, hfill⟩ := fill_of_skipFrom h
  exact ⟨gap, hfill, hgap⟩

/-- Skipping leads to no blank and to no comment. -/
theorem not_blank_of_skipFrom (inComment : Bool) (previous : Option Char) (text : List Char) :
    ∀ x ∈ (Cursor.skipFrom inComment previous text).rest.head?,
      x ∉ [' ', '\t', '\n', '\r', '#'] := by
  induction text generalizing inComment previous with
  | nil => exact nofun
  | cons c rest ih =>
      unfold Cursor.skipFrom
      split
      · exact ih _ _
      · next hn =>
        split
        · exact ih _ _
        · split
          · exact ih _ _
          · next hb =>
            split
            · exact ih _ _
            · next hh =>
              intro x hx
              cases hx
              simp only [Bool.or_eq_true, decide_eq_true_eq, not_or] at hb
              simp only [List.mem_cons, List.not_mem_nil, or_false, not_or]
              exact ⟨hb.1.1, hb.1.2, hn, hb.2, hh⟩

/-- Where something is skipped, no character that can touch a keyword is left before the place. -/
theorem skip_settles (c : Cursor) :
    c.skip = c ∨ c.skip.rest = [] ∨ c.skip.previous.any isKeywordChar = false := by
  by_cases hnil : c.skip.rest = []
  · exact .inr (.inl hnil)
  · obtain ⟨gap, hfill, hgap⟩ := fill_of_skip hnil
    have hvisible (previous : Option Char) :
        Cursor.skipFrom false previous c.skip.rest = ⟨previous, c.skip.rest⟩ :=
      Parser.skip_of_visible (c := ⟨previous, c.skip.rest⟩) (not_blank_of_skipFrom _ _ _)
    obtain ⟨passed, hskip, hpassed⟩ := hfill.skipFrom_append hvisible c.previous
    rw [← hgap] at hskip
    rcases hpassed with ⟨rfl, rfl⟩ | hblank
    · have hsame : c.skip = ⟨c.previous, c.skip.rest⟩ := hskip
      rw [List.nil_append] at hgap
      rw [← hgap] at hsame
      exact .inl hsame
    · have hprevious : c.skip.previous = passed := congrArg Cursor.previous hskip
      exact .inr (.inr (hprevious ▸ hblank))

/-! ## Abreast -/

/-- Two places before the same balanced text, with a tail behind it at each. -/
structure Abreast (t t' u : List Char) (c c' : Cursor) : Prop where
  balanced : Balanced u
  rest : c.rest = u ++ t
  rest' : c'.rest = u ++ t'
  previous : c.previous.any isKeywordChar = c'.previous.any isKeywordChar

/-- Two readings fail, or both hand out the same and stay abreast. -/
inductive SameReading {α : Type} (t t' : List Char) :
    Option (α × Cursor) → Option (α × Cursor) → Prop
  | none : SameReading t t' none none
  | some {a : α} {u : List Char} {c c' : Cursor} (h : Abreast t t' u c c') :
      SameReading t t' (some (a, c)) (some (a, c'))

/-- Nothing is passed at the front of a text. -/
def Visible (text : List Char) : Prop :=
  ∀ previous, Cursor.skipFrom false previous text = ⟨previous, text⟩

section Abreast

variable {t t' u v : List Char} {c c' d d' : Cursor}

theorem Abreast.length (h : Abreast t t' u c c') : c.rest.length = u.length + t.length := by
  rw [h.rest, List.length_append]

/-- Blanks and comments are passed in both texts alike, and with them all of the text that is the
same or not. -/
theorem skipFrom_abreast (hu : Balanced u) {previous previous' : Option Char}
    (hp : previous.any isKeywordChar = previous'.any isKeywordChar) :
    (∃ v, Abreast t t' v (Cursor.skipFrom false previous (u ++ t))
        (Cursor.skipFrom false previous' (u ++ t'))) ∨
      ∃ before before', before.any isKeywordChar = before'.any isKeywordChar ∧
        Cursor.skipFrom false previous (u ++ t) = Cursor.skipFrom false before t ∧
          Cursor.skipFrom false previous' (u ++ t') = Cursor.skipFrom false before' t' := by
  induction hu generalizing previous previous' with
  | nil => exact .inr ⟨previous, previous', hp, rfl, rfl⟩
  | @bare x rest hx hrest ih =>
      rw [List.cons_append, List.cons_append, Cursor.skipFrom, Cursor.skipFrom,
        if_neg Bool.false_ne_true, if_neg Bool.false_ne_true]
      have hash : x ≠ '#' := by
        rintro rfl
        exact absurd hx (by decide)
      split
      · exact ih rfl
      · split
        · exact ih rfl
        · exact .inl ⟨x :: rest, .bare hx hrest, rfl, rfl, hp⟩
  | @comment text rest htext _ ih =>
      have hcomment (p : Option Char) (more : List Char) :
          Cursor.skipFrom false p ('#' :: text ++ '\n' :: rest ++ more) =
            Cursor.skipFrom false (some '\n') (rest ++ more) := by
        rw [List.append_assoc, List.cons_append, List.cons_append, Cursor.skipFrom,
          if_neg (by decide), if_neg Bool.false_ne_true, if_neg (by decide), if_pos rfl,
          skipFrom_comment htext]
      rw [hcomment, hcomment]
      exact ih rfl
  | @literal text body behind last hbody hbehind _ =>
      exact .inl ⟨'"' :: text, .literal hbody hbehind, rfl, rfl, hp⟩
  | @bracket l r inside behind hpair hinside hbehind _ _ =>
      have visible : ∀ pair ∈ brackets, pair.1 ∉ [' ', '\t', '\n', '\r', '#'] := by decide
      have stays (p : Option Char) (text : List Char) :
          Cursor.skipFrom false p (l :: text) = ⟨p, l :: text⟩ :=
        Parser.skip_cons_of_visible (visible _ hpair) p text
      have hrest (tail : List Char) :
          l :: inside ++ r :: behind ++ tail = l :: (inside ++ r :: behind ++ tail) := rfl
      rw [hrest, hrest, stays, stays]
      exact .inl ⟨l :: inside ++ r :: behind, .bracket hpair hinside hbehind, rfl, rfl, hp⟩

/-- Before visible tails nothing of them is passed. -/
theorem Abreast.skip (h : Abreast t t' u c c') (ht : Visible t) (ht' : Visible t') :
    ∃ v, Abreast t t' v c.skip c'.skip := by
  rw [Cursor.skip, Cursor.skip, h.rest, h.rest']
  obtain habreast | ⟨before, before', hb, hc, hc'⟩ := skipFrom_abreast h.balanced h.previous
  · exact habreast
  · rw [hc, hc', ht, ht']
    exact ⟨[], .nil, rfl, rfl, hb⟩

theorem Abreast.length_le (h : Abreast t t' u c c') (hv : Abreast t t' v d d')
    (hle : d.rest.length ≤ c.rest.length) : v.length ≤ u.length := by
  rw [h.length, hv.length] at hle
  omega

theorem Abreast.length_lt (h : Abreast t t' u c c') (hv : Abreast t t' v d d')
    (hlt : d.rest.length < c.rest.length) : v.length < u.length := by
  rw [h.length, hv.length] at hlt
  omega

end Abreast

/-! ## Local parsers -/

namespace Parser

variable {α β : Type}

/-- Pairs of tails. -/
def Tails : Type := List Char → List Char → Prop

/-- Two parsers take balanced text, and with little text in front of some tails they do the same. -/
structure Local (B : Tails) (n : Nat) (p q : Parser α) : Prop where
  takes : ∀ c a d, p c = some (a, d) → ∃ w, Balanced w ∧ c.rest = w ++ d.rest
  agrees : ∀ {t t'}, B t t' → ∀ u c c', Abreast t t' u c c' → u.length < n →
    SameReading t t' (p c) (q c')

/-- They also take at least one character. -/
structure Steps (B : Tails) (n : Nat) (p q : Parser α) : Prop extends Local B n p q where
  progresses : p.Progresses

/-- Nothing is passed at the front of tails, or two parsers that pass it fail there. -/
def EndsAt (B : Tails) (p q : Parser α) : Prop :=
  ∀ t t', B t t' → Visible t ∧ Visible t' ∨
    ∀ before, p ⟨before, t⟩ = none ∧ q ⟨before, t'⟩ = none

section Combinators

variable {B : Tails} {n m : Nat} {p q p' q' : Parser α} {next next' : α → Parser β}

theorem Local.mono (h : Local B n p q) (hm : m ≤ n) : Local B m p q :=
  ⟨h.takes, fun hB u c c' hu hlen => h.agrees hB u c c' hu (Nat.lt_of_lt_of_le hlen hm)⟩

theorem Steps.mono (h : Steps B n p q) (hm : m ≤ n) : Steps B m p q :=
  ⟨h.toLocal.mono hm, h.progresses⟩

/-- Balanced text that is never empty has at least one character. -/
theorem Steps.of_takes
    (htakes : ∀ c a d, p c = some (a, d) → ∃ w, Balanced w ∧ w ≠ [] ∧ c.rest = w ++ d.rest)
    (hagrees : ∀ {t t'}, B t t' → ∀ u c c', Abreast t t' u c c' → u.length < n →
      SameReading t t' (p c) (q c')) :
    Steps B n p q where
  takes := by
    intro c a d h
    obtain ⟨w, hw, -, hrest⟩ := htakes c a d h
    exact ⟨w, hw, hrest⟩
  agrees := hagrees
  progresses := by
    intro c a d h
    obtain ⟨w, -, hne, hrest⟩ := htakes c a d h
    have hpos := List.length_pos_of_ne_nil hne
    rw [hrest, List.length_append]
    omega

/-- With no text in front of the tails there is nothing to agree on. -/
theorem Local.of_zero (h : Local B 0 p q) : Local B 0 p q' where
  takes := h.takes
  agrees := fun _ _ _ _ _ hlen => absurd hlen (Nat.not_lt_zero _)

theorem Steps.of_zero (h : Steps B 0 p q) : Steps B 0 p q' where
  toLocal := h.toLocal.of_zero
  progresses := h.progresses

theorem Local.pure (a : α) : Local B n (pure a) (pure a) where
  takes := by
    intro c b d h
    cases h
    exact ⟨[], .nil, rfl⟩
  agrees := fun _ _ _ _ hu _ => .some hu

theorem Local.rest_le (h : Local B n p q) {c d : Cursor} {a : α} (hc : p c = some (a, d)) :
    d.rest.length ≤ c.rest.length := by
  obtain ⟨w, -, hw⟩ := h.takes c a d hc
  rw [hw, List.length_append]
  omega

theorem takes_bind (hp : Local B n p q) (hnext : ∀ a, Local B m (next a) (next' a))
    {c d : Cursor} {b : β} (h : (p >>= next) c = some (b, d)) :
    ∃ w, Balanced w ∧ c.rest = w ++ d.rest := by
  obtain ⟨a, mid, ha, hb⟩ := bind_eq_some.1 h
  obtain ⟨w, hw, hc⟩ := hp.takes _ _ _ ha
  obtain ⟨v, hv, hmid⟩ := (hnext a).takes _ _ _ hb
  exact ⟨w ++ v, hw.append hv, by rw [hc, hmid, List.append_assoc]⟩

/-- How a reading goes on after a first one that two parsers agree on. -/
theorem agrees_bind {t t' : List Char} {c c' : Cursor} (hp : SameReading t t' (p c) (q c'))
    (hnext : ∀ a v d d', p c = some (a, d) → Abreast t t' v d d' →
      SameReading t t' (next a d) (next' a d')) :
    SameReading t t' ((p >>= next) c) ((q >>= next') c') := by
  change SameReading t t' (andThen p next c) (andThen q next' c')
  unfold andThen
  generalize hr : p c = r, q c' = r' at hp
  cases hp with
  | none => exact .none
  | some h => exact hnext _ _ _ _ hr h

theorem Local.bind (hp : Local B n p q) (hnext : ∀ a, Local B n (next a) (next' a)) :
    Local B n (p >>= next) (q >>= next') where
  takes := fun _ _ _ => takes_bind hp hnext
  agrees := by
    intro t t' hB u c c' hu hlen
    refine agrees_bind (hp.agrees hB u c c' hu hlen) fun a v d d' hc hv => ?_
    have hle := hu.length_le hv (hp.rest_le hc)
    exact (hnext a).agrees hB v d d' hv (by omega)

/-- Behind a character that has been taken there is less text in front of the tails. -/
theorem Steps.bind (hp : Steps B n p q) (hnext : ∀ a, Local B (n - 1) (next a) (next' a)) :
    Steps B n (p >>= next) (q >>= next') where
  takes := fun _ _ _ => takes_bind hp.toLocal hnext
  agrees := by
    intro t t' hB u c c' hu hlen
    refine agrees_bind (hp.agrees hB u c c' hu hlen) fun a v d d' hc hv => ?_
    have hlt := hu.length_lt hv (hp.progresses _ _ _ hc)
    exact (hnext a).agrees hB v d d' hv (by omega)
  progresses := by
    intro c b d h
    obtain ⟨a, mid, ha, hb⟩ := bind_eq_some.1 h
    exact Nat.lt_of_le_of_lt ((hnext a).rest_le hb) (hp.progresses _ _ _ ha)

theorem Steps.orElse (hp : Steps B n p q) (hp' : Steps B n p' q') :
    Steps B n (orElse p p') (orElse q q') where
  takes := fun c a d h => (orElse_eq_some.1 h).elim (hp.takes c a d) fun h => hp'.takes c a d h.2
  agrees := by
    intro t t' hB u c c' hu hlen
    have hr := hp.agrees hB u c c' hu hlen
    unfold Parser.orElse
    generalize p c = r, q c' = r' at hr
    cases hr with
    | none => exact hp'.agrees hB u c c' hu hlen
    | some h => exact .some h
  progresses := fun c a d h =>
    (orElse_eq_some.1 h).elim (hp.progresses c a d) fun h => hp'.progresses c a d h.2

theorem Steps.fail : Steps B n (fail : Parser α) fail where
  takes := fun _ _ _ h => by cases h
  agrees := fun _ _ _ _ _ _ => .none
  progresses := fun _ _ _ h => by cases h

/-- What is not there leaves all the text for what comes next. -/
theorem Local.ifThere {next next' : Option α → Parser β} (hp : Steps B n p q)
    (hnone : Local B n (next none) (next' none))
    (hsome : ∀ a, Local B (n - 1) (next (some a)) (next' (some a))) :
    Local B n (optional p >>= next) (optional q >>= next') where
  takes := by
    intro c b d h
    obtain ⟨o, mid, ho, hb⟩ := bind_eq_some.1 h
    unfold Parser.optional at ho
    split at ho
    · cases ho
      exact hnone.takes _ _ _ hb
    · next a behind hc =>
      cases ho
      obtain ⟨w, hw, hrest⟩ := hp.takes _ _ _ hc
      obtain ⟨v, hv, hmid⟩ := (hsome a).takes _ _ _ hb
      exact ⟨w ++ v, hw.append hv, by rw [hrest, hmid, List.append_assoc]⟩
  agrees := by
    intro t t' hB u c c' hu hlen
    change SameReading t t' (andThen (Parser.optional p) next c)
      (andThen (Parser.optional q) next' c')
    unfold andThen Parser.optional
    have hr := hp.agrees hB u c c' hu hlen
    generalize hc : p c = r, q c' = r' at hr
    cases hr with
    | none => exact hnone.agrees hB u c c' hu hlen
    | @some a v d d' hv =>
        have hlt := hu.length_lt hv (hp.progresses _ _ _ hc)
        exact (hsome a).agrees hB v d d' hv (by omega)

theorem Steps.token (hp : Steps B n p q) (hends : EndsAt B (token p) (token q)) :
    Steps B n (token p) (token q) where
  takes := by
    intro c a d h
    obtain ⟨w, hw, hskip⟩ := hp.takes _ _ _ h
    have hne : c.skip.rest ≠ [] := by
      have hlt := hp.progresses _ _ _ h
      exact List.ne_nil_of_length_pos (by omega)
    obtain ⟨gap, hfill, hgap⟩ := fill_of_skip hne
    refine ⟨gap ++ w, (balanced_of_fill hfill).append hw, ?_⟩
    rw [hgap, List.append_assoc, ← hskip]
  agrees := by
    intro t t' hB u c c' hu hlen
    have before {v : List Char} (hv : Abreast t t' v c.skip c'.skip) :
        SameReading t t' (p c.skip) (q c'.skip) := by
      have hle := hu.length_le hv (Cursor.rest_skip_suffix c).length_le
      exact hp.agrees hB v _ _ hv (by omega)
    obtain ⟨ht, ht'⟩ | hnone := hends _ _ hB
    · obtain ⟨v, hv⟩ := hu.skip ht ht'
      exact before hv
    · have hskip : c.skip = Cursor.skipFrom false c.previous (u ++ t) := by rw [← hu.rest]; rfl
      have hskip' : c'.skip = Cursor.skipFrom false c'.previous (u ++ t') := by rw [← hu.rest']; rfl
      obtain ⟨v, hv⟩ | ⟨b, b', -, hc, hc'⟩ := skipFrom_abreast hu.balanced hu.previous
      · rw [← hskip, ← hskip'] at hv
        exact before hv
      · have hp : p (Cursor.skipFrom false b t) = none := (hnone b).1
        have hq : q (Cursor.skipFrom false b' t') = none := (hnone b').2
        unfold Parser.token
        rw [hskip, hskip', hc, hc', hp, hq]
        exact .none
  progresses := fun c a d h => Nat.lt_of_lt_of_le (hp.progresses _ _ _ h)
    (Cursor.rest_skip_suffix c).length_le

end Combinators

end Parser

end Fern
