import Fern.Proofs.DataReading
import Fern.Proofs.GrammarShape
import Fern.Proofs.LocalReading

/-!
# Names and keywords

No name that a program introduces is a keyword. A variable may be one, in one case only: a keyword is
none where a digit touches it, and a number ends with its digits, so that a name may start there. In
a text that is read as a whole, every other name stands where a keyword would be one.

Alone, a text with the characters of names is read as a variable unless it is a keyword or begins
with one that an apostrophe follows: that character goes on with names but does not touch keywords.

Main statement: `names_are_no_keywords`.
-/

namespace Fern

open Syntax Fern.Parser

/-! ## Passing text -/

namespace Cursor

/-- Between two places some text has been passed, and its last character stands before the second
place. -/
def Passes (c d : Cursor) : Prop :=
  ∃ w, c.rest = w ++ d.rest ∧ d.previous = w.getLast?.or c.previous

variable {c d e : Cursor}

theorem Passes.refl (c : Cursor) : Passes c c := ⟨[], rfl, rfl⟩

theorem Passes.trans (h : Passes c d) (h' : Passes d e) : Passes c e := by
  obtain ⟨v, hv, hprevious⟩ := h
  obtain ⟨w, hw, hprevious'⟩ := h'
  refine ⟨v ++ w, by rw [hv, hw, List.append_assoc], ?_⟩
  rw [hprevious', hprevious, List.getLast?_append, Option.or_assoc]

theorem Passes.past (x : Char) (rest : List Char) (previous : Option Char) :
    Passes ⟨previous, x :: rest⟩ (.past x rest) :=
  ⟨[x], rfl, rfl⟩

theorem passes_skipFrom (inComment : Bool) (previous : Option Char) (text : List Char) :
    Passes ⟨previous, text⟩ (skipFrom inComment previous text) := by
  induction text generalizing inComment previous with
  | nil => exact .refl _
  | cons x rest ih =>
    have next (inComment : Bool) :
        Passes ⟨previous, x :: rest⟩ (skipFrom inComment (some x) rest) :=
      (Passes.past x rest previous).trans (ih inComment (some x))
    unfold skipFrom
    split
    · exact next false
    · split
      · exact next true
      · split
        · exact next false
        · split
          · exact next true
          · exact .refl _

theorem spanFrom_passes (test : Char → Bool) (previous : Option Char) (text : List Char) :
    text = (spanFrom test previous text).1 ++ (spanFrom test previous text).2.rest ∧
      (spanFrom test previous text).2.previous =
        (spanFrom test previous text).1.getLast?.or previous := by
  induction text generalizing previous with
  | nil => exact ⟨rfl, rfl⟩
  | cons x rest ih =>
    unfold spanFrom
    split
    · obtain ⟨hrest, hprevious⟩ := ih (some x)
      refine ⟨congrArg (x :: ·) hrest, hprevious.trans ?_⟩
      rw [List.getLast?_cons]
      cases (spanFrom test (some x) rest).1.getLast? <;> rfl
    · exact ⟨rfl, rfl⟩

theorem passes_accept {w : List Char} (h : c.accept w = some d) :
    c.rest = w ++ d.rest ∧ d.previous = w.getLast?.or c.previous := by
  refine ⟨rest_of_accept h, ?_⟩
  unfold accept at h
  split at h
  · cases h
    rfl
  · cases h

end Cursor

/-! ## Where names stand -/

/-- A name stands in a text where it is no keyword and where nothing touches it that can touch a
keyword, but for characters of one kind before it. -/
structure StandsBetween (text : List Char) (touching : Char → Bool) (name : String)
    (before behind : List Char) : Prop where
  text_eq : text = before ++ name.toList ++ behind
  unreserved : atKeyword ⟨before.getLast?, name.toList ++ behind⟩ = false
  touches : ∀ x ∈ before.getLast?, isKeywordChar x → touching x
  ends : ∀ y ∈ behind.head?, isNameChar y = false ∧ y ≠ '$'

/-- So it stands at some place of the text. -/
def StandsIn (text : List Char) (touching : Char → Bool) (name : String) : Prop :=
  ∃ before behind, StandsBetween text touching name before behind

/-- A name stands right behind a digit in a text, and no character of names follows it. -/
def StandsBehindDigit (text : List Char) (name : String) : Prop :=
  ∃ before digit behind, text = before ++ digit :: (name.toList ++ behind) ∧ digit.isDigit ∧
    ∀ y ∈ behind.head?, isNameChar y = false

theorem isKeywordChar_eq_false {y : Char} (h : isNameChar y = false) (hy : y ≠ '$') :
    isKeywordChar y = false := by
  obtain ⟨hother, -⟩ := Bool.or_eq_false_iff.1 h
  rw [isKeywordChar, hother, Bool.false_or]
  exact beq_false_of_ne hy

/-- A keyword is a name only where something touches it. -/
theorem StandsIn.of_keyword {text : List Char} {touching : Char → Bool} {name : String}
    (h : StandsIn text touching name) (hname : name ∈ keywords) :
    ∃ before x behind, text = before ++ x :: (name.toList ++ behind) ∧ touching x ∧
      ∀ y ∈ behind.head?, isNameChar y = false := by
  obtain ⟨before, behind, htext, hunreserved, htouches, hends⟩ := h
  cases hbefore : before.getLast?.any isKeywordChar with
  | true =>
      obtain ⟨x, hlast, hx⟩ := (Option.any_eq_true ..).1 hbefore
      obtain ⟨front, rfl⟩ := List.getLast?_eq_some_iff.1 hlast
      refine ⟨front, x, behind, ?_, htouches x hlast hx, fun y hy => (hends y hy).1⟩
      rw [htext, List.append_assoc, List.append_assoc]
      rfl
  | false =>
      -- Nothing touches the keyword, so it would have been one.
      have hbehind : behind.takeWhile isKeywordChar = [] := by
        cases behind with
        | nil => rfl
        | cons y rest =>
            obtain ⟨hy, hdollar⟩ := hends y rfl
            exact List.takeWhile_cons_of_neg
              (Bool.not_eq_true _ ▸ isKeywordChar_eq_false hy hdollar)
      have hhere : (keywordHere name ⟨before.getLast?, name.toList ++ behind⟩).isSome := by
        have hchars := isKeywordChar_of_mem_keywords hname
        rw [keywordHere_eq hchars hbefore, List.takeWhile_append_of_pos hchars, hbehind,
          List.append_nil, if_pos rfl]
        rfl
      have hat : atKeyword ⟨before.getLast?, name.toList ++ behind⟩ :=
        List.any_eq_true.2 ⟨name, hname, hhere⟩
      rw [hat] at hunreserved
      cases hunreserved

/-! ## Places in a text -/

/-- A place in a text where, if a name can start there, the character before it can touch a keyword
only if it is of one kind. -/
structure Beside (text : List Char) (touching : Char → Bool) (c : Cursor) : Prop where
  within : Cursor.Passes (.start text) c
  touches : ∀ y ∈ c.rest.head?, isNameStart y → ∀ x ∈ c.previous, isKeywordChar x → touching x

/-- At a dollar sign no word starts. -/
def AtDollar (c : Cursor) : Prop := c.rest.head? = some '$'

theorem AtDollar.skip {c : Cursor} (h : AtDollar c) : c.skip = c :=
  skip_of_visible fun x hx => by
    rw [h] at hx
    cases hx
    decide

theorem Parser.Opens.atDollar {α : Type} {p : Parser α} {test : Char → Bool} (hp : Opens p test)
    (hdollar : test '$' = false) {c : Cursor} (h : AtDollar c) : p c = none := by
  refine hp c fun x hx => ?_
  rw [h.skip, h] at hx
  cases hx
  exact hdollar

/-- What a reader of words does to places: it passes text, behind which the character before a name
is of one kind if it can touch a keyword, and it fails at dollar signs. -/
structure LeavesBeside {α : Type} (p : Parser α) (touching : Char → Bool) : Prop where
  passes : ∀ c a d, p c = some (a, d) → Cursor.Passes c d
  touches : ∀ c a d, p c = some (a, d) → ∀ y ∈ d.rest.head?, isNameStart y →
    ∀ x ∈ d.previous, isKeywordChar x → touching x
  atDollar : ∀ c, AtDollar c → p c = none

section Words

variable {α : Type} {p : Parser α} {touching touching' : Char → Bool} {text : List Char}

theorem Beside.skip {c : Cursor} (h : Beside text touching c) : Beside text touching c.skip := by
  refine ⟨h.within.trans (Cursor.passes_skipFrom ..), fun y hy hstart x hx hkeyword => ?_⟩
  rcases skip_settles c with hsame | hnil | hblank
  · rw [hsame] at hx hy
    exact h.touches y hy hstart x hx hkeyword
  · rw [hnil] at hy
    cases hy
  · have hany : c.skip.previous.any isKeywordChar := (Option.any_eq_true ..).2 ⟨x, hx, hkeyword⟩
    rw [hblank] at hany
    cases hany

theorem LeavesBeside.leads (h : LeavesBeside p touching') {sort : α → Prop}
    (hsort : ∀ c a d, p c = some (a, d) → sort a) :
    Leads AtDollar (Beside text touching) p sort (Beside text touching') := by
  intro c a d hc hr
  refine ⟨⟨hc.within.trans (h.passes c a d hr), h.touches c a d hr⟩, fun hdollar => ?_,
    .inr (hsort c a d hr)⟩
  rw [h.atDollar c hdollar] at hr
  cases hr

theorem LeavesBeside.token (h : LeavesBeside p touching) : LeavesBeside (token p) touching where
  passes c a d hr := (Cursor.passes_skipFrom ..).trans (h.passes _ a d hr)
  touches c a d hr := h.touches _ a d hr
  atDollar c hc := by
    unfold Parser.token
    rw [hc.skip]
    exact h.atDollar c hc

/-! ## Words -/

/-- A word has been read between two places. -/
structure WordBetween (start others : Char → Bool) (name : String) (c d : Cursor) : Prop where
  begins : ∃ x taken, name.toList = x :: taken ∧ start x ∧ ∀ y ∈ taken, others y
  rest : c.rest = name.toList ++ d.rest
  previous : d.previous = name.toList.getLast?
  ends : ∀ y ∈ d.rest.head?, others y = false

section WordBetween

variable {start others : Char → Bool} {c d : Cursor} {name : String}

theorem wordBetween_of_word (h : word start others c = some (name, d)) :
    WordBetween start others name c d := by
  obtain ⟨x, rest, hrest, hx, rfl, hbehind⟩ := exists_of_word h
  have hlast : d.previous = (x :: rest.takeWhile others).getLast? := by
    have hspan := (Cursor.spanFrom_passes others (some x) rest).2
    rw [(Cursor.spanFrom_eq others (some x) rest).1] at hspan
    have hd : d = (Cursor.spanFrom others (some x) rest).2 := by
      simp only [word, hrest, if_pos hx] at h
      exact (Prod.mk.inj (Option.some.inj h)).2.symm
    rw [hd, hspan, List.getLast?_cons]
    cases (rest.takeWhile others).getLast? <;> rfl
  refine ⟨⟨x, _, String.toList_ofList, hx, fun y hy => List.mem_takeWhile_imp hy⟩, ?_, ?_, ?_⟩
  · rw [String.toList_ofList, hrest, hbehind, List.cons_append, List.takeWhile_append_dropWhile]
  · rw [String.toList_ofList, hlast]
  · intro y hy
    have hstop := List.head?_dropWhile_not others rest
    rw [hbehind] at hy
    rw [hy] at hstop
    simpa using hstop

theorem WordBetween.passes (h : WordBetween start others name c d) : Cursor.Passes c d := by
  obtain ⟨x, taken, hname, -⟩ := h.begins
  refine ⟨name.toList, h.rest, ?_⟩
  rw [h.previous, hname, List.getLast?_cons]
  rfl

/-- No name starts behind a word that goes on with the characters of names. -/
theorem WordBetween.not_isNameStart (h : WordBetween start isNameChar name c d) :
    ∀ y ∈ d.rest.head?, isNameStart y = false := fun y hy =>
  Bool.eq_false_iff.2 fun hstart => by
    have hends := h.ends y hy
    rw [isNameChar_of_isNameStart hstart] at hends
    cases hends

end WordBetween

theorem word_atDollar {start others : Char → Bool} (hdollar : start '$' = false) {c : Cursor}
    (hc : AtDollar c) : word start others c = none :=
  word_eq_none fun x hx => by
    rw [hc] at hx
    cases hx
    exact hdollar

theorem word_leaves {start : Char → Bool} (hdollar : start '$' = false) :
    LeavesBeside (word start isNameChar) touching where
  passes _ _ _ hr := (wordBetween_of_word hr).passes
  touches _ _ _ hr y hy hstart := by
    rw [(wordBetween_of_word hr).not_isNameStart y hy] at hstart
    cases hstart
  atDollar _ hc := word_atDollar hdollar hc

theorem digits_leave : LeavesBeside (word Char.isDigit Char.isDigit) Char.isDigit where
  passes _ _ _ hr := (wordBetween_of_word hr).passes
  touches c a d hr y _ _ x hx _ := by
    obtain ⟨⟨z, taken, ha, hz, htaken⟩, -, hprevious, -⟩ := wordBetween_of_word hr
    have hmem : x ∈ z :: taken := by
      rw [← ha]
      rw [hprevious] at hx
      exact List.mem_of_getLast? hx
    rcases List.mem_cons.1 hmem with rfl | hmem
    · exact hz
    · exact htaken x hmem
  atDollar _ hc := word_atDollar (by decide) hc

theorem accept_atDollar {w : List Char} (hw : w.head?.any (· != '$')) {c : Cursor}
    (hc : AtDollar c) : c.accept w = none := by
  obtain ⟨z, hz, hother⟩ := (Option.any_eq_true ..).1 hw
  refine accept_eq_none (fun he => ?_) fun he => ?_
  · rw [he] at hz
    cases hz
  · rw [hz, hc] at he
    cases he
    cases hother

theorem symbol_leaves {w : String} (hw : w ∈ signs) : LeavesBeside (symbol w) touching := by
  have known : ∀ w ∈ signs, w.toList.head?.any (· != '$') ∧
      w.toList.getLast?.any (!isKeywordChar ·) := by
    decide
  obtain ⟨hfirst, hlast⟩ := known w hw
  refine .token ⟨fun c a d hr => ?_, fun c a d hr y hy hstart x hx hkeyword => ?_, fun c hc => ?_⟩
  · obtain ⟨behind, haccept, hd⟩ := Option.map_eq_some_iff.1 hr
    cases hd
    exact ⟨w.toList, Cursor.passes_accept haccept⟩
  · obtain ⟨behind, haccept, hd⟩ := Option.map_eq_some_iff.1 hr
    cases hd
    obtain ⟨z, hz, hother⟩ := (Option.any_eq_true ..).1 hlast
    rw [(Cursor.passes_accept haccept).2, hz] at hx
    cases hx
    rw [hkeyword] at hother
    cases hother
  · exact Option.map_eq_none_iff.2 (accept_atDollar hfirst hc)

theorem exists_of_keywordHere {w : String} {c d : Cursor} {a : Unit}
    (h : keywordHere w c = some (a, d)) :
    c.accept w.toList = some d ∧ d.rest.head?.any isKeywordChar = false := by
  unfold keywordHere at h
  split at h
  · cases h
  · split at h
    · cases h
    · next behind haccept =>
      split at h
      · cases h
      · next hends =>
        cases h
        exact ⟨haccept, Bool.eq_false_iff.2 hends⟩

theorem isKeywordChar_of_isNameStart {y : Char} (h : isNameStart y) : isKeywordChar y := by
  rcases Bool.or_eq_true_iff.1 h with h | h
  · have halpha : y.isAlpha := Bool.or_eq_true_iff.2 (.inr h)
    simp [isKeywordChar, Char.isAlphanum, halpha]
  · simp [isKeywordChar, h]

theorem keyword_leaves {w : String} (hw : w ∈ keywords) : LeavesBeside (keyword w) touching := by
  have known : ∀ w ∈ keywords, w.toList.head?.any (· != '$') := by decide
  refine .token ⟨fun c a d hr => ?_, fun c a d hr y hy hstart => ?_, fun c hc => ?_⟩
  · exact ⟨w.toList, Cursor.passes_accept (exists_of_keywordHere hr).1⟩
  · have hends := (exists_of_keywordHere hr).2
    rw [hy, Option.any_some, isKeywordChar_of_isNameStart hstart] at hends
    cases hends
  · unfold keywordHere
    rw [accept_atDollar (known w hw) hc]
    split <;> rfl

theorem previous_of_literalBody {text body : List Char} {d : Cursor}
    (h : literalBody text = some (body, d)) : d.previous = some '"' := by
  induction text using literalBody.induct generalizing body with
  | case1 => cases h
  | case2 rest =>
      cases h
      rfl
  | case3 rest =>
      rw [literalBody, if_pos rfl] at h
      cases h
  | case4 c rest hc ih =>
      rw [literalBody, if_neg hc] at h
      obtain ⟨⟨inside, last⟩, hr, he⟩ := Option.map_eq_some_iff.1 h
      cases he
      exact ih hr
  | case5 c rest hquote hslash hc =>
      rw [literalBody, if_pos hc] at h
      · cases h
      · exact hquote
      · exact hslash
  | case6 c rest hquote hslash hc ih =>
      rw [literalBody, if_neg hc] at h
      · obtain ⟨⟨inside, last⟩, hr, he⟩ := Option.map_eq_some_iff.1 h
        cases he
        exact ih hr
      · exact hquote
      · exact hslash

theorem literal_leaves : LeavesBeside literal touching := by
  have behind {c d : Cursor} {rest body : List Char} (hrest : c.rest = '"' :: rest)
      (hbody : literalBody rest = some (body, d)) :
      Cursor.Passes c d ∧ d.previous = some '"' := by
    have hprevious := previous_of_literalBody hbody
    obtain ⟨inside, hinside, -⟩ := exists_of_literalBody hbody
    refine ⟨⟨'"' :: inside ++ ['"'], ?_, ?_⟩, hprevious⟩
    · rw [hrest, hinside, List.append_assoc]
      rfl
    · rw [hprevious, List.getLast?_concat]
      rfl
  refine .token ⟨fun c a d hr => ?_, fun c a d hr y hy hstart x hx hkeyword => ?_, fun c hc => ?_⟩
  · split at hr
    · next rest hrest =>
      obtain ⟨⟨body, last⟩, hbody, hd⟩ := Option.map_eq_some_iff.1 hr
      cases hd
      exact (behind hrest hbody).1
    · cases hr
  · split at hr
    · next rest hrest =>
      obtain ⟨⟨body, last⟩, hbody, hd⟩ := Option.map_eq_some_iff.1 hr
      cases hd
      rw [(behind hrest hbody).2] at hx
      cases hx
      cases hkeyword
    · cases hr
  · split
    · next rest hrest =>
      rw [AtDollar, hrest] at hc
      cases hc
    · rfl

theorem LeavesBeside.map {β : Type} (h : LeavesBeside p touching) (f : α → β) :
    LeavesBeside (do return f (← p)) touching where
  passes c b d hr := by
    obtain ⟨a, _, ha, hb⟩ := bind_eq_some.1 hr
    cases hb
    exact h.passes c a _ ha
  touches c b d hr := by
    obtain ⟨a, _, ha, hb⟩ := bind_eq_some.1 hr
    cases hb
    exact h.touches c a _ ha
  atDollar c hc := bind_eq_none (h.atDollar c hc)

theorem LeavesBeside.orElse {q : Parser α} (hp : LeavesBeside p touching)
    (hq : LeavesBeside q touching) : LeavesBeside (orElse p q) touching where
  passes c a d hr := (orElse_eq_some.1 hr).elim (hp.passes c a d) fun h => hq.passes c a d h.2
  touches c a d hr := (orElse_eq_some.1 hr).elim (hp.touches c a d) fun h => hq.touches c a d h.2
  atDollar c hc := (orElse_of_none (hp.atDollar c hc)).trans (hq.atDollar c hc)

theorem selector_leaves : LeavesBeside selector Char.isDigit := by
  have hname : LeavesBeside (do return .inl (← word isNameStart isNameChar) : Parser (String ⊕ Nat))
      Char.isDigit :=
    (word_leaves (by decide)).map _
  have hindex : LeavesBeside
      (do return .inr (Text.decimalValue (← word Char.isDigit Char.isDigit).toList) :
        Parser (String ⊕ Nat)) Char.isDigit :=
    digits_leave.map _
  have hbehind := hname.orElse hindex
  refine ⟨fun c a d hr => ?_, fun c a d hr => ?_, fun c hc => ?_⟩
  · unfold selector at hr
    split at hr
    · next rest hrest =>
      have hdot : Cursor.Passes c (.past '.' rest) := by
        refine ⟨['.'], hrest, rfl⟩
      exact hdot.trans (hbehind.passes _ a d hr)
    · cases hr
  · unfold selector at hr
    split at hr
    · exact hbehind.touches _ a d hr
    · cases hr
  · refine selector_eq_none_of_head fun x hx => ?_
    rw [hc] at hx
    cases hx
    decide

/-- What is read as a name stands in the text as one, unless a dollar sign follows. -/
theorem name_leads : Leads AtDollar (Beside text touching) name (StandsIn text touching)
    (Beside text touching') := by
  intro c x d hc hr
  have hdollar : AtDollar c → name c = none := name_opens.atDollar (by decide)
  have hskip := hc.skip
  change (if atKeyword c.skip then none else _) = some (x, d) at hr
  split at hr
  · cases hr
  · next hat =>
    have hword := wordBetween_of_word hr
    refine ⟨⟨hskip.within.trans hword.passes, fun y hy hstart => ?_⟩, fun hstuck => ?_, ?_⟩
    · rw [hword.not_isNameStart y hy] at hstart
      cases hstart
    · rw [hstuck.skip, word_atDollar (by decide) hstuck] at hr
      cases hr
    · by_cases hstuck : AtDollar d
      · exact .inl hstuck
      · obtain ⟨before, htext, hprevious⟩ := hskip.within
        have hprevious : c.skip.previous = before.getLast? := hprevious.trans Option.or_none
        have hplace : c.skip = ⟨before.getLast?, x.toList ++ d.rest⟩ := by
          rw [← hprevious, ← hword.rest]
        refine .inr ⟨before, d.rest, ?_, ?_, fun z hz hkeyword => ?_, fun y hy => ⟨?_, ?_⟩⟩
        · rw [List.append_assoc, ← hword.rest]
          exact htext
        · rw [← hplace]
          exact Bool.eq_false_iff.2 hat
        · obtain ⟨y, taken, hx, hstart, -⟩ := hword.begins
          have hfirst : c.skip.rest.head? = some y := by
            rw [hword.rest, hx]
            rfl
          exact hskip.touches y hfirst hstart z (hprevious ▸ hz) hkeyword
        · exact hword.ends y hy
        · rintro rfl
          exact hstuck hy

end Words

/-- The places and the names of a text. -/
def Syntax.WordPlaces.ofText (text : List Char) : WordPlaces where
  stuck := AtDollar
  site := Beside text Char.isDigit
  apart := Beside text fun _ => false
  free := StandsIn text Char.isDigit
  binding := StandsIn text fun _ => false
  site_of_apart h := ⟨h.within, fun y hy hstart x hx hkeyword =>
    absurd (h.touches y hy hstart x hx hkeyword) Bool.false_ne_true⟩
  symbol hw := (symbol_leaves hw).leads fun _ _ _ _ => trivial
  keyword hw := (keyword_leaves hw).leads fun _ _ _ _ => trivial
  literal := literal_leaves.leads fun _ _ _ _ => trivial
  number := (digits_leave.map _).token.leads fun _ _ _ _ => trivial
  selector := selector_leaves.leads fun _ _ _ _ => trivial
  constructorName := (word_leaves (by decide)).token.leads (yields_iff.1 constructorName_yields)
  freeName := name_leads
  bindingName := name_leads

theorem beside_start (text : List Char) (touching : Char → Bool) :
    Beside text touching (.start text) :=
  ⟨.refl _, fun _ _ _ _ hx => by cases hx⟩

theorem AtDollar.left {c : Cursor} (h : AtDollar c) : c.skip.rest ≠ [] := by
  intro hnil
  rw [h.skip] at hnil
  rw [AtDollar, hnil] at h
  cases h

/-! ## Texts that are names -/

theorem tab_not_mem_of_beginsAs {name : String} (h : BeginsAs isNameStart name) :
    '\t' ∉ name.toList := fun hmem =>
  absurd (h.isNameChar (fun _ => isNameChar_of_isNameStart) hmem) (by decide)

/-- Alone, a text with the characters of names is a name unless a keyword stands at its start. -/
theorem parseExpression_identifier_iff {name : String} (h : BeginsAs isNameStart name) :
    parseExpression name = .ok (.identifier name) ↔
      atKeyword (.start name.toList) = false := by
  have htabs : Text.expandTabs name.toList = name.toList :=
    Text.expandTabsFrom_of_not_mem (tab_not_mem_of_beginsAs h) 0
  rw [parseExpression, htabs]
  constructor
  · intro hread
    have hfits := expressionOf_fits (P := .ofText name.toList) (fun _ => AtDollar.left)
      (beside_start _ _) hread
    obtain ⟨before, behind, htext, hunreserved, -, -⟩ := hfits.here.2
    have hlength := congrArg List.length htext
    rw [List.length_append, List.length_append] at hlength
    obtain rfl := List.length_eq_zero_iff.1 (by omega : before.length = 0)
    obtain rfl := List.length_eq_zero_iff.1 (by omega : behind.length = 0)
    rw [List.append_nil] at hunreserved
    exact hunreserved
  · intro hfree
    obtain ⟨last, hword⟩ := word_eq_of_beginsAs none h
      (show ∀ d ∈ ([] : List Char).head?, isNameChar d = false by simp)
    rw [List.append_nil] at hword
    have hskip : (Cursor.start name.toList).skip = .start name.toList := by
      obtain ⟨x, others, hx, hstart, -⟩ := h
      refine skip_of_visible fun y hy => ?_
      rw [Cursor.start, hx] at hy
      cases hy
      exact @Word.Kind.not_blank_of_opens .name x hstart
    have hname : Syntax.name (.start name.toList) = some (name, ⟨some last, []⟩) := by
      change (if atKeyword (Cursor.start name.toList).skip then none else _) = _
      rw [hskip, if_neg (by rw [hfree]; exact Bool.false_ne_true)]
      exact hword
    have hread : term (name.toList.length + 1) _ = _ :=
      term_of_closing (application_of_atom (atom_of_name hname) closing_nil) closing_nil
    rw [expressionOf, show boundFor name.toList = name.toList.length + 1 from rfl, hread]
    rfl

theorem atKeyword_start_iff {name : String} (h : BeginsAs isNameStart name) :
    atKeyword (.start name.toList) ↔
      name ∈ keywords ∨ ∃ keyword ∈ keywords, keyword.toList ++ ['\''] <+: name.toList := by
  have hhere (keyword : String) (hk : keyword ∈ keywords) :
      (keywordHere keyword (.start name.toList)).isSome ↔
        name.toList.takeWhile isKeywordChar = keyword.toList := by
    rw [Cursor.start, keywordHere_eq (isKeywordChar_of_mem_keywords hk) rfl]
    split
    · next hrun => exact iff_of_true rfl hrun
    · next hrun => exact iff_of_false Bool.false_ne_true hrun
  rw [atKeyword, List.any_eq_true]
  constructor
  · rintro ⟨keyword, hk, hsome⟩
    have hrun := (hhere keyword hk).1 hsome
    have hname := List.takeWhile_append_dropWhile (p := isKeywordChar) (l := name.toList)
    have hstop := List.head?_dropWhile_not isKeywordChar name.toList
    rw [hrun] at hname
    cases hbehind : name.toList.dropWhile isKeywordChar with
    | nil =>
        rw [hbehind, List.append_nil] at hname
        exact .inl (String.toList_inj.1 hname ▸ hk)
    | cons y rest =>
        rw [hbehind] at hname hstop
        have hmem : y ∈ name.toList := hname ▸ List.mem_append_right _ List.mem_cons_self
        have hchar := h.isNameChar (fun _ => isNameChar_of_isNameStart) hmem
        -- A character of names that does not touch keywords is an apostrophe.
        have hquote : y = '\'' := by
          rcases Bool.or_eq_true_iff.1 hchar with hother | hquote
          · simp [isKeywordChar, hother] at hstop
          · exact eq_of_beq hquote
        subst hquote
        exact .inr ⟨keyword, hk, rest, by rw [List.append_assoc]; exact hname⟩
  · rintro (hmem | ⟨keyword, hk, rest, hrest⟩)
    · exact ⟨name, hmem, (hhere name hmem).2 (takeWhile_of_keyword hmem)⟩
    · refine ⟨keyword, hk, (hhere keyword hk).2 ?_⟩
      rw [← hrest, List.append_assoc,
        List.takeWhile_append_of_pos (isKeywordChar_of_mem_keywords hk)]
      exact List.append_nil _

/-! ## Names and keywords in texts -/

/-- No name that is introduced is a keyword, and a variable only where it stands behind a digit. A
text that has the characters of names is read as that variable, unless it is a keyword or begins with
one that an apostrophe follows. -/
theorem names_are_no_keywords (source : String) :
    (∀ t, parseExpression source = .ok t →
      t.All (Term.Named (fun name => name ∈ keywords →
        StandsBehindDigit (Text.expandTabs source.toList) name) (· ∉ keywords))) ∧
    (∀ decls, parseProgram source = .ok decls → ∀ decl ∈ decls,
      decl.Named (fun name => name ∈ keywords →
        StandsBehindDigit (Text.expandTabs source.toList) name) (· ∉ keywords)) ∧
    (BeginsAs isNameStart source →
      (parseExpression source = .ok (.identifier source) ↔
        source ∉ keywords ∧ ∀ keyword ∈ keywords, ¬keyword.toList ++ ['\''] <+: source.toList)) := by
  have hfree (text : List Char) (name : String) (h : StandsIn text Char.isDigit name)
      (hname : name ∈ keywords) : StandsBehindDigit text name := h.of_keyword hname
  have hbinding (text : List Char) (name : String) (h : StandsIn text (fun _ => false) name) :
      name ∉ keywords := by
    intro hname
    obtain ⟨before, x, behind, -, hx, -⟩ := h.of_keyword hname
    exact Bool.false_ne_true hx
  refine ⟨fun t h => ?_, fun decls h decl hm => ?_, fun hbegins => ?_⟩
  · have hfits := expressionOf_fits (P := .ofText (Text.expandTabs source.toList))
      (fun _ => AtDollar.left) (beside_start _ _) h
    exact hfits.imp fun _ ht => ht.2.imp (hfree _) (hbinding _)
  · have hfits := programOf_fits (P := .ofText (Text.expandTabs source.toList))
      (fun _ => AtDollar.left) (beside_start _ _) h decl hm
    exact hfits.2.imp (hfree _) (hbinding _)
  · rw [parseExpression_identifier_iff hbegins, Bool.eq_false_iff, Ne, atKeyword_start_iff hbegins]
    simp only [not_or, not_exists, not_and]

/-- A variable behind a digit, introduced names that go on where a keyword ends, and a text of such a
name. -/
theorem names_are_no_keywords_let :
    (∃ t, parseExpression "let in2 = 1and 2 in in2" = .ok t ∧
      t.All (Term.Named (fun name => name ∈ keywords →
        StandsBehindDigit (Text.expandTabs "let in2 = 1and 2 in in2".toList) name) (· ∉ keywords))) ∧
    (∃ decls, parseProgram "f or2 = \\x_ -> 1in." = .ok decls ∧ ∀ decl ∈ decls,
      decl.Named (fun name => name ∈ keywords →
        StandsBehindDigit (Text.expandTabs "f or2 = \\x_ -> 1in.".toList) name) (· ∉ keywords)) ∧
    BeginsAs isNameStart "or_'" ∧ parseExpression "or_'" = .ok (.identifier "or_'") := by
  have hbegins : BeginsAs isNameStart "or_'" :=
    ⟨'o', ['r', '_', '\''], rfl, rfl, List.all_eq_true.1 (by decide)⟩
  refine ⟨?_, ?_, hbegins, ((names_are_no_keywords _).2.2 hbegins).2 (by decide)⟩
  · have hread : (parseExpression "let in2 = 1and 2 in in2").isOk := by decide +kernel
    cases h : parseExpression "let in2 = 1and 2 in in2" with
    | error fault =>
        rw [h] at hread
        cases hread
    | ok t => exact ⟨t, rfl, (names_are_no_keywords _).1 t h⟩
  · have hread : (parseProgram "f or2 = \\x_ -> 1in.").isOk := by decide +kernel
    cases h : parseProgram "f or2 = \\x_ -> 1in." with
    | error fault =>
        rw [h] at hread
        cases hread
    | ok decls => exact ⟨decls, rfl, (names_are_no_keywords _).2.1 decls h⟩

/-- A keyword behind a digit is read as a variable, and a name that begins with a keyword and an
apostrophe is not read. -/
theorem keyword_is_name_behind_digit :
    parseExpression "1and 2" = .ok (.apply (.integer 1) [.identifier "and", .integer 2]) ∧
      "and" ∈ keywords ∧ BeginsAs isNameStart "in'" ∧ "in'" ∉ keywords ∧
      ¬(parseExpression "in'").isOk := by
  refine ⟨?_, by decide, ⟨'i', ['n', '\''], rfl, rfl, List.all_eq_true.1 (by decide)⟩, by decide,
    by decide +kernel⟩
  have hone : atom 7 (term 6) (.start "1and 2".toList) =
      some (.integer 1, ⟨some '1', "and 2".toList⟩) := rfl
  have hand : name ⟨some '1', "and 2".toList⟩ = some ("and", ⟨some 'd', [' ', '2']⟩) := by
    decide +kernel
  have htwo : atom 7 (term 6) ⟨some 'd', [' ', '2']⟩ = some (.integer 2, ⟨some '2', []⟩) := rfl
  have hblank : ∀ x ∈ [' ', '2'].head?, x ≠ '.' := by
    rintro _ ⟨⟩
    decide
  have hletter : ∀ x ∈ "and 2".toList.head?, x ≠ '.' := by
    rintro _ ⟨⟩
    decide
  have hargs : many (selection 7 (term 6)) 7 ⟨some '1', "and 2".toList⟩ =
      some ([.identifier "and", .integer 2], ⟨some '2', []⟩) :=
    many_of_some (selection_of_atom (atom_of_name hand) hblank)
      (many_of_some (selection_of_atom htwo closing_nil.ne_dot)
        (many_of_none (bind_eq_none (atom_of_closing closing_nil)) _))
  have happlication : application 7 (term 6) (.start "1and 2".toList) =
      some (.apply (.integer 1) [.identifier "and", .integer 2], ⟨some '2', []⟩) :=
    (bind_of_some (selection_of_atom hone hletter)).trans ((bind_of_some hargs).trans rfl)
  have hread : term 7 (.start "1and 2".toList) = _ := term_of_closing happlication closing_nil
  rw [parseExpression, show Text.expandTabs "1and 2".toList = "1and 2".toList from rfl,
    expressionOf, show boundFor "1and 2".toList = 7 from rfl, hread]
  rfl

end Fern
