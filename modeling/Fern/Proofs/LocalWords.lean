import Fern.Proofs.LocalReading
import Mathlib.Data.List.TakeWhile

/-!
# Reading words up to a place

A word of the grammar is read in the same way whatever the tail behind it is, as long as the tail
does not go on with the word. Tails begin with a full stop, with a closing bracket, with a blank or
with a comment, and no word has one of these in it, except for a selector, which begins with a full
stop. Whether a tail begins with a selector is asked for apart from that: where no selector is read
it does not matter.

An opening bracket is read together with what it encloses and with the closing one. What stands
between the two is read up to the closing bracket, which is a tail of its own.
-/

namespace Fern.Parser

open Syntax

/-! ## Tails -/

/-- The characters that tails begin with. -/
def tailMarks : List Char := ['.', ')', '\x7d', ' ', '\t', '\n', '\r', '#']

/-- A text that goes on with no word in front of it. -/
def Barred (text : List Char) : Prop := ∀ c ∈ text.head?, c ∈ tailMarks

/-- A text that does not begin with a selector. -/
def Unselected (text : List Char) : Prop := ∀ previous, selector ⟨previous, text⟩ = none

/-- All tails are barred. -/
def Bars (B : Tails) : Prop := ∀ {t t'}, B t t' → Barred t ∧ Barred t'

/-- No tail begins with a selector. -/
def BarsSelectors (B : Tails) : Prop := ∀ {t t'}, B t t' → Unselected t ∧ Unselected t'

/-- Tails of one kind from a full stop on, with the same blanks and comments in front of it, and all
those from a closing bracket on. -/
inductive Stop (kind : List Char → Prop) : Tails
  | dot {gap s s' : List Char} (hgap : Fill gap) (hs : kind (gap ++ '.' :: s))
      (hs' : kind (gap ++ '.' :: s')) : Stop kind (gap ++ '.' :: s) (gap ++ '.' :: s')
  | closer {l r : Char} {s s' : List Char} (hpair : (l, r) ∈ brackets) :
      Stop kind (r :: s) (r :: s')

theorem Fill.head {gap : List Char} (h : Fill gap) :
    ∀ c ∈ gap.head?, c ∈ [' ', '\t', '\n', '\r', '#'] := by
  intro c hc
  cases h with
  | nil => cases hc
  | blank hb =>
      cases hc
      exact List.mem_append_left ['#'] hb
  | comment =>
      cases hc
      decide

theorem barred_dot {gap : List Char} (h : Fill gap) (s : List Char) : Barred (gap ++ '.' :: s) := by
  have marks : [' ', '\t', '\n', '\r', '#'].all (· ∈ tailMarks) := by decide
  intro c hc
  cases gap with
  | nil =>
      cases hc
      decide
  | cons x gap => exact of_decide_eq_true (List.all_eq_true.1 marks c (Fill.head h c hc))

/-- A full stop is no selector behind blanks and comments, or in front of a text that makes none of
it. -/
theorem unselected_dot {gap s : List Char} (h : Fill gap) (hs : gap = [] → NoSelector s) :
    Unselected (gap ++ '.' :: s) := by
  have marks : [' ', '\t', '\n', '\r', '#'].all (· ≠ '.') := by decide
  intro previous
  cases gap with
  | nil => exact selector_eq_none (hs rfl)
  | cons x gap =>
      refine selector_eq_none_of_head fun c hc => ?_
      exact of_decide_eq_true (List.all_eq_true.1 marks c (Fill.head h c hc))

theorem barred_closer {l r : Char} (hpair : (l, r) ∈ brackets) (s : List Char) :
    Barred (r :: s) := by
  have marks : ∀ pair ∈ brackets, pair.2 ∈ tailMarks := by decide
  exact fun c hc => Option.some.inj hc ▸ marks _ hpair

theorem unselected_closer {l r : Char} (hpair : (l, r) ∈ brackets) (s : List Char) :
    Unselected (r :: s) := by
  have marks : ∀ pair ∈ brackets, pair.2 ≠ '.' := by decide
  exact fun _ => selector_eq_none_of_head fun c hc => Option.some.inj hc ▸ marks _ hpair

theorem visible_cons {c : Char} (h : c ∉ [' ', '\t', '\n', '\r', '#']) (s : List Char) :
    Visible (c :: s) :=
  fun previous => skip_cons_of_visible h previous s

theorem visible_closer {l r : Char} (hpair : (l, r) ∈ brackets) (s : List Char) :
    Visible (r :: s) := by
  have visible : ∀ pair ∈ brackets, pair.2 ∉ [' ', '\t', '\n', '\r', '#'] := by decide
  exact visible_cons (visible _ hpair) s

section Stop

variable {kind : List Char → Prop} {B : Tails}

theorem bars_stop : Bars (Stop kind) := by
  intro t t' h
  cases h with
  | dot hgap => exact ⟨barred_dot hgap _, barred_dot hgap _⟩
  | closer hpair => exact ⟨barred_closer hpair _, barred_closer hpair _⟩

theorem barsSelectors_stop : BarsSelectors (Stop Unselected) := by
  intro t t' h
  cases h with
  | dot _ hs hs' => exact ⟨hs, hs'⟩
  | closer hpair => exact ⟨unselected_closer hpair _, unselected_closer hpair _⟩

/-- Nothing that opens otherwise is read at a full stop. -/
theorem Opens.endsAt_stop {α : Type} {p : Parser α} {test : Char → Bool} (hp : Opens p test)
    (htest : test '.' = false) : EndsAt (Stop kind) p p := by
  have hnone {gap : List Char} (hgap : Fill gap) (s : List Char) (before : Option Char) :
      p ⟨before, gap ++ '.' :: s⟩ = none := by
    have hdot : Visible ('.' :: s) := visible_cons (by decide) s
    obtain ⟨passed, hskip, -⟩ := hgap.skipFrom_append hdot before
    refine hp _ fun x hx => ?_
    rw [Cursor.skip, hskip] at hx
    cases hx
    exact htest
  intro t t' h
  cases h with
  | dot hgap => exact .inr fun before => ⟨hnone hgap _ before, hnone hgap _ before⟩
  | closer hpair => exact .inl ⟨visible_closer hpair _, visible_closer hpair _⟩

end Stop

section Words

variable {B : Tails} {n : Nat} (hB : Bars B)

/-! ## Names and numbers -/

/-- A test that fails on quotes, hash signs, brackets and whatever tails begin with. -/
def Unmarked (test : Char → Bool) : Prop := (['"', '#', '(', '\x7b'] ++ tailMarks).any test = false

instance (test : Char → Bool) : Decidable (Unmarked test) :=
  inferInstanceAs (Decidable ((['"', '#', '(', '\x7b'] ++ tailMarks).any test = false))

theorem Unmarked.isBare {test : Char → Bool} (h : Unmarked test) {c : Char} (hc : test c) :
    isBare c := by
  have hmark : c ∉ ['"', '#', '(', '\x7b'] ++ tailMarks :=
    fun hm => List.any_eq_false.1 h c hm hc
  simp only [tailMarks, List.cons_append, List.nil_append, List.mem_cons, List.not_mem_nil,
    or_false, not_or] at hmark
  simp [Fern.isBare, isPlain, brackets, hmark]

theorem Unmarked.of_barred {test : Char → Bool} (h : Unmarked test) {text : List Char}
    (htext : Barred text) : ∀ c ∈ text.head?, test c = false := by
  intro c hc
  have hmark := List.mem_append_right ['"', '#', '(', '\x7b'] (htext c hc)
  exact Bool.eq_false_iff.2 (List.any_eq_false.1 h c hmark)

theorem unmarked_isNameStart : Unmarked isNameStart := by decide
theorem unmarked_isNameChar : Unmarked isNameChar := by decide
theorem unmarked_isUpper : Unmarked Char.isUpper := by decide
theorem unmarked_isDigit : Unmarked Char.isDigit := by decide
theorem unmarked_isKeywordChar : Unmarked isKeywordChar := by decide

theorem spanFrom_barred {test : Char → Bool} (h : Unmarked test) {text : List Char}
    (htext : Barred text) (previous : Option Char) :
    Cursor.spanFrom test previous text = ([], ⟨previous, text⟩) := by
  cases text with
  | nil => rfl
  | cons x rest => rw [Cursor.spanFrom, if_neg (by rw [h.of_barred htext x rfl]; decide)]

theorem spanFrom_abreast {test : Char → Bool} (h : Unmarked test) {t t' u : List Char}
    (ht : Barred t) (ht' : Barred t') (hu : Balanced u) (previous : Option Char) :
    ∃ v taken d d', Cursor.spanFrom test previous (u ++ t) = (taken, d) ∧
      Cursor.spanFrom test previous (u ++ t') = (taken, d') ∧ Abreast t t' v d d' := by
  induction u generalizing previous with
  | nil =>
      exact ⟨[], [], _, _, spanFrom_barred h ht _, spanFrom_barred h ht' _, .nil, rfl, rfl, rfl⟩
  | cons x u ih =>
      rw [List.cons_append, List.cons_append, Cursor.spanFrom, Cursor.spanFrom]
      by_cases hx : test x
      · obtain ⟨v, taken, d, d', hd, hd', hv⟩ := ih (hu.of_bare_cons (h.isBare hx)) (some x)
        rw [if_pos hx, if_pos hx, hd, hd']
        exact ⟨v, x :: taken, d, d', rfl, rfl, hv⟩
      · rw [if_neg hx, if_neg hx]
        exact ⟨x :: u, [], _, _, rfl, rfl, hu, rfl, rfl, rfl⟩

include hB in
theorem word_steps {start others : Char → Bool} (hstart : Unmarked start)
    (hothers : Unmarked others) : Steps B n (word start others) (word start others) where
  takes := by
    intro c a d h
    obtain ⟨x, rest, hc, hx, -, hd⟩ := exists_of_word h
    have htaken : Balanced (rest.takeWhile others) :=
      balanced_of_bare fun y hy => hothers.isBare (List.mem_takeWhile_imp hy)
    refine ⟨x :: rest.takeWhile others, .bare (hstart.isBare hx) htaken, ?_⟩
    rw [hc, hd, List.cons_append, List.takeWhile_append_dropWhile]
  agrees := by
    rintro t t' htails u ⟨previous, text⟩ ⟨previous', text'⟩ ⟨hbalanced, rfl, rfl, -⟩ -
    obtain ⟨ht, ht'⟩ := hB htails
    cases u with
    | nil =>
        rw [List.nil_append, List.nil_append, word_eq_none (hstart.of_barred ht),
          word_eq_none (hstart.of_barred ht')]
        exact .none
    | cons x u =>
        simp only [word, List.cons_append]
        split
        · next hx =>
          obtain ⟨v, taken, d, d', hd, hd', hv⟩ :=
            spanFrom_abreast hothers ht ht' (hbalanced.of_bare_cons (hstart.isBare hx)) (some x)
          simp only [Cursor.span, Cursor.past, hd, hd']
          exact .some hv
        · exact .none
  progresses := by
    intro c a d h
    obtain ⟨x, rest, hc, -, -, hd⟩ := exists_of_word h
    rw [hc, hd]
    exact Nat.lt_succ_of_le (List.dropWhile_suffix others).length_le

/-! ## Signs and keywords -/

/-- A word of bare characters that no tail begins with. -/
def isBareWord (w : List Char) : Bool := !w.isEmpty && w.all fun c => isBare c && c ∉ tailMarks

theorem isBareWord_iff {w : List Char} :
    isBareWord w ↔ w ≠ [] ∧ ∀ c ∈ w, isBare c ∧ c ∉ tailMarks := by
  simp only [isBareWord, Bool.and_eq_true, List.all_eq_true, decide_eq_true_eq, Bool.not_eq_true',
    List.isEmpty_eq_false_iff]

/-- Such a word does not reach into a tail. -/
theorem prefix_append_barred {w u t : List Char} (hw : ∀ c ∈ w, c ∉ tailMarks) (ht : Barred t) :
    w <+: u ++ t ↔ w <+: u := by
  refine ⟨fun h => ?_, fun h => h.trans (List.prefix_append ..)⟩
  rcases Nat.lt_or_ge u.length w.length with hlt | hge
  · cases t with
    | nil => rwa [List.append_nil] at h
    | cons x t =>
        have hstop : u ++ [x] <+: w := by
          refine List.prefix_of_prefix_length_le ?_ h ?_
          · exact ⟨t, by rw [List.append_assoc]; rfl⟩
          · rw [List.length_append, List.length_singleton]
            exact hlt
        exact absurd (ht x rfl) (hw x (hstop.subset (by simp)))
  · exact List.prefix_of_prefix_length_le h (List.prefix_append ..) hge

/-- Such a word stands at both places or at none. -/
theorem accept_abreast {w t t' u : List Char} (hw : isBareWord w) (ht : Barred t)
    (ht' : Barred t') {c c' : Cursor} (hu : Abreast t t' u c c') :
    c.accept w = none ∧ c'.accept w = none ∨
      ∃ v d d', c.accept w = some d ∧ c'.accept w = some d' ∧ Abreast t t' v d d' := by
  obtain ⟨hne, hw⟩ := isBareWord_iff.1 hw
  have hbefore {more : List Char} (hmore : Barred more) : w <+: u ++ more ↔ w <+: u :=
    prefix_append_barred (fun c hc => (hw c hc).2) hmore
  unfold Cursor.accept
  rw [hu.rest, hu.rest']
  by_cases hp : w <+: u
  · obtain ⟨v, rfl⟩ := hp
    have hbalanced := hu.balanced.of_append_bare fun c hc => (hw c hc).1
    refine .inr ⟨v, _, _, if_pos ?_, if_pos ?_, hbalanced, ?_, ?_, ?_⟩
    · exact List.isPrefixOf_iff_prefix.2 ((hbefore ht).2 (List.prefix_append ..))
    · exact List.isPrefixOf_iff_prefix.2 ((hbefore ht').2 (List.prefix_append ..))
    · rw [List.append_assoc, List.drop_left]
    · rw [List.append_assoc, List.drop_left]
    · rw [List.getLast?_eq_some_getLast hne]
      rfl
  · refine .inl ⟨if_neg ?_, if_neg ?_⟩
    · exact fun h => hp ((hbefore ht).1 (List.isPrefixOf_iff_prefix.1 h))
    · exact fun h => hp ((hbefore ht').1 (List.isPrefixOf_iff_prefix.1 h))

theorem accept_takes {w : List Char} (hw : isBareWord w) {c d : Cursor}
    (h : c.accept w = some d) :
    (∃ v, Balanced v ∧ c.rest = v ++ d.rest) ∧ d.rest.length < c.rest.length := by
  obtain ⟨hne, hw⟩ := isBareWord_iff.1 hw
  have hrest := Cursor.rest_of_accept h
  refine ⟨⟨w, balanced_of_bare fun c hc => (hw c hc).1, hrest⟩, ?_⟩
  have hpos := List.length_pos_iff.2 hne
  rw [hrest, List.length_append]
  omega

include hB in
theorem symbol_steps {w : String} (hw : isBareWord w.toList)
    (hends : EndsAt B (symbol w) (symbol w)) : Steps B n (symbol w) (symbol w) := by
  refine Steps.token { takes := fun c a d h => ?_, agrees := fun htails u c c' hu _ => ?_,
                       progresses := fun c a d h => ?_ } hends
  · obtain ⟨e, he, hd⟩ := Option.map_eq_some_iff.1 h
    cases hd
    exact (accept_takes hw he).1
  · obtain ⟨ht, ht'⟩ := hB htails
    obtain ⟨hc, hc'⟩ | ⟨v, d, d', hc, hc', hv⟩ := accept_abreast hw ht ht' hu
    · rw [hc, hc']
      exact .none
    · rw [hc, hc']
      exact .some hv
  · obtain ⟨e, he, hd⟩ := Option.map_eq_some_iff.1 h
    cases hd
    exact (accept_takes hw he).2

/-- What stands behind a word keeps it from being a keyword at both places or at none. -/
theorem head_abreast {t t' u : List Char} {c c' : Cursor} (hu : Abreast t t' u c c')
    (ht : Barred t) (ht' : Barred t') :
    c.rest.head?.any isKeywordChar = c'.rest.head?.any isKeywordChar := by
  have hfalse {text : List Char} (h : Barred text) : text.head?.any isKeywordChar = false := by
    have hhead := unmarked_isKeywordChar.of_barred h
    cases text with
    | nil => rfl
    | cons x rest => exact hhead x rfl
  rw [hu.rest, hu.rest']
  cases u with
  | nil => exact (hfalse ht).trans (hfalse ht').symm
  | cons => rfl

include hB in
theorem keywordHere_steps {w : String} (hw : isBareWord w.toList) :
    Steps B n (keywordHere w) (keywordHere w) := by
  have accepted {c d : Cursor} {a : Unit} (h : keywordHere w c = some (a, d)) :
      c.accept w.toList = some d := by
    unfold keywordHere at h
    split at h
    · cases h
    · split at h
      · cases h
      · next he =>
        split at h
        · cases h
        · cases h
          exact he
  refine { takes := fun c a d h => (accept_takes hw (accepted h)).1,
           agrees := fun htails u c c' hu _ => ?_,
           progresses := fun c a d h => (accept_takes hw (accepted h)).2 }
  obtain ⟨ht, ht'⟩ := hB htails
  unfold keywordHere
  rw [← hu.previous]
  split
  · exact .none
  · obtain ⟨hc, hc'⟩ | ⟨v, d, d', hc, hc', hv⟩ := accept_abreast hw ht ht' hu
    · rw [hc, hc']
      exact .none
    · rw [hc, hc']
      simp only
      rw [← head_abreast hv ht ht']
      split
      · exact .none
      · exact .some hv

theorem isBareWord_of_keyword : ∀ w ∈ keywords, isBareWord w.toList := by decide

include hB in
theorem keyword_steps {w : String} (h : w ∈ keywords)
    (hends : EndsAt B (keyword w) (keyword w)) : Steps B n (keyword w) (keyword w) :=
  (keywordHere_steps hB (isBareWord_of_keyword w h)).token hends

include hB in
theorem atKeyword_abreast {t t' u : List Char} (htails : B t t') {c c' : Cursor}
    (hu : Abreast t t' u c c') : atKeyword c = atKeyword c' := by
  have each : ∀ w ∈ keywords, (keywordHere w c).isSome = (keywordHere w c').isSome := by
    intro w hw
    have hsteps : Steps B (u.length + 1) (keywordHere w) (keywordHere w) :=
      keywordHere_steps hB (isBareWord_of_keyword w hw)
    have hr := hsteps.agrees htails u c c' hu (Nat.lt_succ_self _)
    generalize keywordHere w c = r, keywordHere w c' = r' at hr
    cases hr <;> rfl
  unfold atKeyword
  rw [Bool.eq_iff_iff, List.any_eq_true, List.any_eq_true]
  exact exists_congr fun w => and_congr_right fun hw => by rw [each w hw]

include hB in
theorem name_steps (hends : EndsAt B name name) : Steps B n name name := by
  have hword : Steps B n (word isNameStart isNameChar) (word isNameStart isNameChar) :=
    word_steps hB unmarked_isNameStart unmarked_isNameChar
  have accepted {c d : Cursor} {a : String}
      (h : (if atKeyword c then none else word isNameStart isNameChar c) = some (a, d)) :
      word isNameStart isNameChar c = some (a, d) := by
    split at h
    · cases h
    · exact h
  refine Steps.token { takes := fun c a d h => hword.takes c a d (accepted h),
                       agrees := fun htails u c c' hu hlen => ?_,
                       progresses := fun c a d h => hword.progresses c a d (accepted h) } hends
  rw [← atKeyword_abreast hB htails hu]
  split
  · exact .none
  · exact hword.agrees htails u c c' hu hlen

include hB in
theorem constructorName_steps (hends : EndsAt B constructorName constructorName) :
    Steps B n constructorName constructorName :=
  (word_steps hB unmarked_isUpper unmarked_isNameChar).token hends

include hB in
theorem digits_steps : Steps B n (word Char.isDigit Char.isDigit)
    (word Char.isDigit Char.isDigit) :=
  word_steps hB unmarked_isDigit unmarked_isDigit

include hB in
theorem number_steps (hends : EndsAt B number number) : Steps B n number number :=
  Steps.token ((digits_steps hB).bind fun _ => .pure _) hends

/-! ## Text literals and selectors -/

include hB in
theorem literal_steps (hends : EndsAt B literal literal) : Steps B n literal literal := by
  refine Steps.token (.of_takes (fun c a d h => ?_) fun htails u c c' hu _ => ?_) hends
  · split at h
    · next text hc =>
      obtain ⟨⟨body, e⟩, hb, he⟩ := Option.map_eq_some_iff.1 h
      cases he
      obtain ⟨inside, rfl, hmore⟩ := exists_of_literalBody hb
      refine ⟨'"' :: (inside ++ ['"']), .literal (hmore []) .nil, List.cons_ne_nil _ _, ?_⟩
      rw [hc, List.cons_append, List.append_assoc, List.singleton_append]
    · cases h
  · obtain ⟨ht, ht'⟩ := hB htails
    obtain ⟨hbalanced, hrest, hrest', -⟩ := hu
    rw [hrest, hrest']
    cases hbalanced with
    | nil =>
        have unquoted {text rest : List Char} (h : Barred text) : text ≠ '"' :: rest := by
          rintro rfl
          exact absurd (h '"' rfl) (by decide)
        rw [List.nil_append, List.nil_append]
        split
        · exact absurd rfl (unquoted ht)
        · split
          · exact absurd rfl (unquoted ht')
          · exact .none
    | @bare x rest hx hr =>
        have hquote : x ≠ '"' := by
          rintro rfl
          exact absurd hx (by decide)
        rw [List.cons_append, List.cons_append]
        split
        · next he => exact absurd (List.cons.inj he).1 hquote
        · split
          · next he => exact absurd (List.cons.inj he).1 hquote
          · exact .none
    | comment => exact .none
    | @literal text body behind previous hbody hbehind =>
        simp only [List.cons_append, literalBody_append hbody, Option.map_some]
        exact .some ⟨hbehind, rfl, rfl, rfl⟩
    | bracket hpair =>
        simp only [brackets, List.mem_cons, List.not_mem_nil, or_false, Prod.mk.injEq] at hpair
        rcases hpair with ⟨rfl, rfl⟩ | ⟨rfl, rfl⟩ <;> exact .none

include hB in
theorem selector_steps (hselectors : BarsSelectors B) : Steps B n selector selector := by
  let behindDot : Parser (String ⊕ Nat) :=
    orElse (do return .inl (← word isNameStart isNameChar))
      (do return .inr (Text.decimalValue (← word Char.isDigit Char.isDigit).toList))
  have hbehind : Steps B n behindDot behindDot :=
    ((word_steps hB unmarked_isNameStart unmarked_isNameChar).bind fun _ => .pure _).orElse
      ((digits_steps hB).bind fun _ => .pure _)
  have accepted {c d : Cursor} {a : String ⊕ Nat} (h : selector c = some (a, d)) :
      ∃ rest, c.rest = '.' :: rest ∧ behindDot (.past '.' rest) = some (a, d) := by
    unfold selector at h
    split at h
    · next rest hc => exact ⟨rest, hc, h⟩
    · cases h
  refine { takes := fun c a d h => ?_, agrees := fun {t t'} htails u c c' hu hlen => ?_,
           progresses := fun c a d h => ?_ }
  · obtain ⟨rest, hc, hr⟩ := accepted h
    obtain ⟨w, hw, hrest⟩ := hbehind.takes _ _ _ hr
    exact ⟨'.' :: w, .bare (by decide) hw, by rw [hc, List.cons_append, ← hrest]; rfl⟩
  · obtain ⟨ht, ht'⟩ := hselectors htails
    obtain ⟨previous, text⟩ := c
    obtain ⟨previous', text'⟩ := c'
    obtain ⟨hbalanced, rfl, rfl, -⟩ := hu
    cases u with
    | nil =>
        rw [List.nil_append, List.nil_append, ht previous, ht' previous']
        exact .none
    | cons x u =>
        rw [List.cons_append, List.cons_append]
        by_cases hx : x = '.'
        · subst hx
          have hu : Abreast t t' u (.past '.' (u ++ t)) (.past '.' (u ++ t')) :=
            ⟨hbalanced.of_bare_cons (by decide), rfl, rfl, rfl⟩
          exact hbehind.agrees htails u _ _ hu (Nat.lt_of_succ_lt hlen)
        · have hnone (p : Option Char) (more : List Char) : selector ⟨p, x :: more⟩ = none :=
            selector_eq_none_of_head fun y hy => Option.some.inj hy ▸ hx
          rw [hnone, hnone]
          exact .none
  · obtain ⟨rest, hc, hr⟩ := accepted h
    have hlt := hbehind.progresses _ _ _ hr
    rw [hc, List.length_cons]
    exact Nat.lt_succ_of_lt hlt

/-! ## Brackets -/

/-- A sign at this very place. -/
def symbolHere (w : String) : Parser Unit := fun cursor => (cursor.accept w.toList).map ((), ·)

theorem symbolHere_cons {w : String} {x : Char} (hw : w.toList = [x]) (previous : Option Char)
    (rest : List Char) : symbolHere w ⟨previous, x :: rest⟩ = some ((), ⟨some x, rest⟩) := by
  unfold symbolHere
  rw [hw]
  exact congrArg (Option.map _) (accept_append [x] rest previous)

theorem symbolHere_eq_none {w : String} {x : Char} (hw : w.toList = [x]) {c : Cursor}
    (h : ∀ y ∈ c.rest.head?, y ≠ x) : symbolHere w c = none := by
  unfold symbolHere
  rw [hw, accept_eq_none (List.cons_ne_nil _ _) fun he => h x he.symm rfl]
  rfl

theorem rest_of_symbolHere {w : String} {x : Char} (hw : w.toList = [x]) {c d : Cursor} {a : Unit}
    (h : symbolHere w c = some (a, d)) : c.rest = x :: d.rest := by
  obtain ⟨e, he, hd⟩ := Option.map_eq_some_iff.1 h
  cases hd
  rw [Cursor.rest_of_accept he, hw]
  rfl

theorem rest_of_symbol {w : String} {x : Char} (hw : w.toList = [x]) {c d : Cursor} {a : Unit}
    (h : symbol w c = some (a, d)) : ∃ gap, Balanced gap ∧ c.rest = gap ++ x :: d.rest := by
  have hskip : c.skip.rest = x :: d.rest := rest_of_symbolHere hw h
  have hne : c.skip.rest ≠ [] := by
    rw [hskip]
    exact List.cons_ne_nil _ _
  obtain ⟨gap, hfill, hgap⟩ := fill_of_skip hne
  exact ⟨gap, balanced_of_fill hfill, hgap.trans (congrArg (gap ++ ·) hskip)⟩

theorem symbol_progresses {w : String} {x : Char} (hw : w.toList = [x]) :
    (symbol w).Progresses := by
  intro c a d h
  obtain ⟨gap, -, hrest⟩ := rest_of_symbol hw h
  rw [hrest, List.length_append, List.length_cons]
  omega

/-- An opening bracket stands at both places or at none, and the closing one stands before the
tails. -/
theorem opener_abreast {w : String} {l r : Char} (hw : w.toList = [l]) (hpair : (l, r) ∈ brackets)
    {t t' u : List Char} (ht : Barred t) (ht' : Barred t') {c c' : Cursor}
    (hu : Abreast t t' u c c') :
    symbolHere w c = none ∧ symbolHere w c' = none ∨
      ∃ inside behind d d', symbolHere w c = some ((), d) ∧ symbolHere w c' = some ((), d') ∧
        Abreast (r :: (behind ++ t)) (r :: (behind ++ t')) inside d d' ∧ Balanced behind ∧
          inside.length < u.length := by
  obtain ⟨previous, text⟩ := c
  obtain ⟨previous', text'⟩ := c'
  obtain ⟨hbalanced, rfl, rfl, -⟩ := hu
  have absent {x : Char} (hx : x ≠ l) (p : Option Char) (rest : List Char) :
      symbolHere w ⟨p, x :: rest⟩ = none :=
    symbolHere_eq_none hw fun y hy => Option.some.inj hy ▸ hx
  cases u with
  | nil =>
      have opener : ∀ pair ∈ brackets, pair.1 ∉ tailMarks := by decide
      have barred {text : List Char} (h : Barred text) (p : Option Char) :
          symbolHere w ⟨p, text⟩ = none :=
        symbolHere_eq_none hw fun y hy he => opener _ hpair (he ▸ h y hy)
      exact .inl ⟨barred ht _, barred ht' _⟩
  | cons x u =>
      by_cases hx : x = l
      · subst hx
        obtain ⟨inside, behind, rfl, hinside, hbehind⟩ := hbalanced.of_bracket_cons hpair
        refine .inr ⟨inside, behind, _, _, symbolHere_cons hw _ _, symbolHere_cons hw _ _,
          ⟨hinside, ?_, ?_, rfl⟩, hbehind, ?_⟩
        · exact List.append_assoc inside (r :: behind) t
        · exact List.append_assoc inside (r :: behind) t'
        · rw [List.length_cons, List.length_append]
          omega
      · exact .inl ⟨absent hx _ _, absent hx _ _⟩

/-- A closing bracket behind a balanced text stands at both places or at none. -/
theorem closer_abreast {w : String} {l r : Char} (hw : w.toList = [r]) (hpair : (l, r) ∈ brackets)
    {s s' v : List Char} {c c' : Cursor} (hv : Abreast (r :: s) (r :: s') v c c') :
    symbol w c = none ∧ symbol w c' = none ∨
      symbol w c = some ((), ⟨some r, s⟩) ∧ symbol w c' = some ((), ⟨some r, s'⟩) := by
  obtain ⟨u, hu⟩ := hv.skip (visible_closer hpair s) (visible_closer hpair s')
  change symbolHere w c.skip = none ∧ symbolHere w c'.skip = none ∨
    symbolHere w c.skip = some ((), ⟨some r, s⟩) ∧ symbolHere w c'.skip = some ((), ⟨some r, s'⟩)
  generalize c.skip = d, c'.skip = d' at hu
  obtain ⟨previous, text⟩ := d
  obtain ⟨previous', text'⟩ := d'
  obtain ⟨hbalanced, rfl, rfl, -⟩ := hu
  cases u with
  | nil => exact .inr ⟨symbolHere_cons hw _ _, symbolHere_cons hw _ _⟩
  | cons x u =>
      have hx : x ≠ r := hbalanced.head_ne hpair
      have absent (p : Option Char) (rest : List Char) : symbolHere w ⟨p, x :: rest⟩ = none :=
        symbolHere_eq_none hw fun y hy => Option.some.inj hy ▸ hx
      exact .inl ⟨absent _ _, absent _ _⟩

include hB in
/-- What is read between brackets is read alike if it is up to the closing one. -/
theorem Local.enclosed {α β : Type} {kind : List Char → Prop} {p q : Parser α} {w w' : String}
    {l r : Char} (hw : w.toList = [l]) (hw' : w'.toList = [r]) (hlr : (l, r) ∈ brackets)
    (hends : EndsAt B (symbol w) (symbol w)) (hp : Local (Stop kind) (n - 1) p q) (f : α → β) :
    Steps B n (do symbol w; let a ← p; symbol w'; return f a)
      (do symbol w; let a ← q; symbol w'; return f a) := by
  -- Blanks are passed in front of all of it, so the opening bracket stands at this very place.
  change Steps B n (token do symbolHere w; let a ← p; symbol w'; return f a)
    (token do symbolHere w; let a ← q; symbol w'; return f a)
  refine Steps.token (.of_takes (fun c b d h => ?_) fun {t t'} htails u c c' hu hlen => ?_) ?_
  · obtain ⟨_, c₁, hl, h⟩ := bind_eq_some.1 h
    obtain ⟨a, c₂, ha, h⟩ := bind_eq_some.1 h
    obtain ⟨_, c₃, hr, h⟩ := bind_eq_some.1 h
    cases h
    obtain ⟨inside, hinside, hc₁⟩ := hp.takes _ _ _ ha
    obtain ⟨gap, hgap, hc₂⟩ := rest_of_symbol hw' hr
    refine ⟨l :: (inside ++ gap) ++ r :: [], .bracket hlr (hinside.append hgap) .nil,
      List.cons_ne_nil _ _, ?_⟩
    rw [rest_of_symbolHere hw hl, hc₁, hc₂]
    simp only [List.append_assoc, List.cons_append, List.nil_append]
  · obtain ⟨ht, ht'⟩ := hB htails
    obtain ⟨hc, hc'⟩ | ⟨inside, behind, d, d', hc, hc', hinside, hbehind, hshort⟩ :=
      opener_abreast hw hlr ht ht' hu
    · rw [bind_eq_none hc, bind_eq_none hc']
      exact .none
    · rw [bind_of_some hc, bind_of_some hc']
      have hr := hp.agrees (.closer hlr) inside d d' hinside (by omega)
      generalize hpd : p d = reading, hqd : q d' = reading' at hr
      cases hr with
      | none =>
          rw [bind_eq_none hpd, bind_eq_none hqd]
          exact .none
      | some hv =>
          rw [bind_of_some hpd, bind_of_some hqd]
          obtain ⟨he, he'⟩ | ⟨he, he'⟩ := closer_abreast hw' hlr hv
          · rw [bind_eq_none he, bind_eq_none he']
            exact .none
          · rw [bind_of_some he, bind_of_some he']
            exact .some ⟨hbehind, rfl, rfl, rfl⟩
  · intro t t' htails
    refine (hends _ _ htails).imp_right fun hnone before => ?_
    exact ⟨bind_eq_none (hnone before).1, bind_eq_none (hnone before).2⟩

end Words

end Fern.Parser
