import Fern.Proofs.WordReading
import Fern.Syntax.Grammar

/-!
# What readers look at first

Every reader of the grammar first passes blanks and comments, and the character that it finds there
tells most readers at once that they have to fail. Both are carried through the ways of putting
readers together, so that a text can be followed one character at a time where its words touch.
-/

namespace Fern

open Syntax

namespace Parser

variable {α β : Type} {p q : Parser α} {next : α → Parser β}

/-! ## Passing blanks first -/

/-- Blanks and comments in front of what is read do not matter. -/
def Skips (p : Parser α) : Prop := ∀ c : Cursor, p c.skip = p c

theorem Skips.blank (hp : Skips p) (previous : Option Char) (rest : List Char) :
    p ⟨previous, ' ' :: rest⟩ = p ⟨some ' ', rest⟩ := by
  rw [← hp, ← hp ⟨some ' ', rest⟩]
  rfl

/-- Where a character other than blanks and hash signs stands, or none, skipping stays. -/
theorem skip_of_visible {c : Cursor} (h : ∀ x ∈ c.rest.head?, x ∉ [' ', '\t', '\n', '\r', '#']) :
    c.skip = c := by
  obtain ⟨previous, text⟩ := c
  cases text with
  | nil => rfl
  | cons x rest =>
      have hx := h x rfl
      simp only [List.mem_cons, List.not_mem_nil, or_false, not_or] at hx
      obtain ⟨hspace, htab, hline, hreturn, hhash⟩ := hx
      rw [Cursor.skip, Cursor.skipFrom, if_neg hline, if_neg Bool.false_ne_true,
        if_neg (by simp [hspace, htab, hreturn]), if_neg hhash]

theorem skip_cons_of_visible {x : Char} (hx : x ∉ [' ', '\t', '\n', '\r', '#'])
    (previous : Option Char) (rest : List Char) :
    (Cursor.mk previous (x :: rest)).skip = ⟨previous, x :: rest⟩ :=
  skip_of_visible fun _ hy => Option.some.inj hy ▸ hx

theorem skips_token (p : Parser α) : Skips (token p) := by
  intro c
  unfold token
  rw [Cursor.skip_skip]

theorem Skips.bind (hp : Skips p) : Skips (p >>= next) := by
  intro c
  change andThen p next c.skip = andThen p next c
  unfold andThen
  rw [hp]

theorem Skips.orElse (hp : Skips p) (hq : Skips q) : Skips (orElse p q) := by
  intro c
  unfold Parser.orElse
  rw [hp, hq]

theorem Skips.firstOf {parsers : List (Parser α)} (h : ∀ p ∈ parsers, Skips p) :
    Skips (firstOf parsers) := by
  induction parsers with
  | nil => exact fun _ => rfl
  | cons p parsers ih =>
      obtain ⟨hp, hparsers⟩ := List.forall_mem_cons.1 h
      exact hp.orElse (ih hparsers)

/-! ## Failing at the first character -/

/-- A parser fails unless the first character behind blanks and comments passes a test. -/
def Opens (p : Parser α) (test : Char → Bool) : Prop :=
  ∀ c : Cursor, (∀ x ∈ c.skip.rest.head?, test x = false) → p c = none

theorem Opens.token {test : Char → Bool}
    (h : ∀ c : Cursor, (∀ x ∈ c.rest.head?, test x = false) → p c = none) :
    Opens (token p) test := fun c hc => h c.skip hc

theorem Opens.bind {test : Char → Bool} (h : Opens p test) : Opens (p >>= next) test :=
  fun c hc => bind_eq_none (h c hc)

theorem Opens.test {test : Char → Bool} (h : Opens p test) {c : Cursor} {r : α × Cursor}
    (hp : p c = some r) : ∀ x ∈ c.skip.rest.head?, test x := by
  intro x hx
  cases htest : test x with
  | true => rfl
  | false =>
      have hnone : p c = none := h c fun y hy => by
        rw [hx] at hy
        cases hy
        exact htest
      rw [hnone] at hp
      cases hp

/-! ## Words -/

theorem accept_eq_none {w : List Char} {c : Cursor} (hw : w ≠ []) (h : w.head? ≠ c.rest.head?) :
    c.accept w = none := by
  obtain ⟨x, rest, rfl⟩ := List.exists_cons_of_ne_nil hw
  refine if_neg fun hp => h ?_
  obtain ⟨more, hmore⟩ := List.isPrefixOf_iff_prefix.1 hp
  rw [← hmore]
  rfl

/-- The test for the first character of a word. -/
def begins (w : String) (x : Char) : Bool := w.toList.head? == some x

theorem begins_eq_false {w : String} {x y : Char} (hw : w.toList.head? = some y) (h : x ≠ y) :
    begins w x = false := by
  rw [begins, hw]
  exact beq_eq_false_iff_ne.2 fun he => h (Option.some.inj he).symm

theorem accept_eq_none_of_begins {w : String} (hw : w.toList ≠ []) {c : Cursor}
    (h : ∀ x ∈ c.rest.head?, begins w x = false) : c.accept w.toList = none := by
  refine accept_eq_none hw fun he => ?_
  obtain ⟨x, hx⟩ := Option.isSome_iff_exists.1 (List.isSome_head?.2 hw)
  have hfalse := h x (he ▸ hx)
  rw [begins, hx, beq_self_eq_true] at hfalse
  cases hfalse

theorem symbol_opens {w : String} (hw : w.toList ≠ []) : Opens (symbol w) (begins w) := by
  refine Opens.token fun c hc => ?_
  rw [accept_eq_none_of_begins hw hc]
  rfl

theorem keyword_opens {w : String} (hw : w.toList ≠ []) : Opens (keyword w) (begins w) := by
  refine Opens.token fun c hc => ?_
  unfold keywordHere
  split
  · rfl
  · rw [accept_eq_none_of_begins hw hc]

theorem word_opens (start others : Char → Bool) : Opens (token (word start others)) start :=
  Opens.token fun _ hc => word_eq_none hc

theorem name_opens : Opens name isNameStart := by
  refine Opens.token fun c hc => ?_
  split
  · rfl
  · exact word_eq_none hc

theorem number_opens : Opens number Char.isDigit :=
  Opens.token fun _ hc => bind_eq_none (word_eq_none hc)

theorem literal_opens : Opens literal (· == '"') := by
  refine Opens.token fun c hc => ?_
  split
  · next rest hr =>
    rw [hr] at hc
    exact absurd (hc '"' rfl) (by decide)
  · rfl

/-- Where a keyword stands there is no name. -/
theorem name_of_keyword {w : String} (hw : w ∈ keywords) {c : Cursor} {r : Unit × Cursor}
    (h : keyword w c = some r) : name c = none := by
  refine if_pos (List.any_eq_true.2 ⟨w, hw, ?_⟩)
  have hhere : keywordHere w c.skip = some r := h
  rw [hhere]
  rfl

/-- Where a keyword stands there is no other one. -/
theorem keyword_of_other {v w : String} (hv : v ∈ keywords) (hw : w ∈ keywords) (hne : v ≠ w)
    {c : Cursor} {r : Unit × Cursor} (h : keyword w c = some r) : keyword v c = none := by
  unfold keyword token at h ⊢
  generalize c.skip = e at h ⊢
  obtain ⟨previous, text⟩ := e
  cases hp : previous.any isKeywordChar with
  | true =>
      rw [keywordHere, if_pos hp] at h
      cases h
  | false =>
      rw [keywordHere_eq (isKeywordChar_of_mem_keywords hw) hp] at h
      rw [keywordHere_eq (isKeywordChar_of_mem_keywords hv) hp]
      split at h
      · next hrun => exact if_neg fun he => hne (String.toList_inj.1 (he.symm.trans hrun))
      · cases h

/-! ## Expressions -/

/-- Without an operator there is no row. -/
theorem operatorRow_of_none {operand : Parser Term} {operator : Parser Operator} {c : Cursor}
    (h : operator c = none) (bound : Nat) (lhs : Term) :
    operatorRow operand operator bound lhs c = some (lhs, c) := by
  cases bound with
  | zero => rfl
  | succ bound => simp only [operatorRow, h]

theorem operatorSign_eq_none {level : List OperatorSign} (hlevel : level ∈ operatorLevels)
    {sign : OperatorSign} (hsign : sign ∈ level) {c : Cursor}
    (h : ∀ x ∈ c.skip.rest.head?, begins sign.sign x = false) : sign.read c = none := by
  have known : ∀ level ∈ operatorLevels, ∀ sign ∈ level, sign.sign.toList ≠ [] := by decide
  have hne := known level hlevel sign hsign
  unfold OperatorSign.read
  split
  · exact (keyword_opens hne).bind c h
  · exact (symbol_opens hne).bind c h

/-- No operator stands where none of a level begins with the character that is there. -/
theorem levelOperator_eq_none {level : List OperatorSign} (hlevel : level ∈ operatorLevels)
    {c : Cursor} (h : ∀ x ∈ c.skip.rest.head?, ∀ sign ∈ level, begins sign.sign x = false) :
    levelOperator level c = none := by
  refine firstOf_eq_none fun p hp => ?_
  obtain ⟨sign, hsign, rfl⟩ := List.mem_map.1 hp
  exact operatorSign_eq_none hlevel hsign fun x hx => h x hx sign hsign

theorem levelOperator_skips (level : List OperatorSign) : Skips (levelOperator level) := by
  refine Skips.firstOf fun p hp => ?_
  obtain ⟨sign, -, rfl⟩ := List.mem_map.1 hp
  unfold OperatorSign.read
  split
  · exact (skips_token _).bind
  · exact (skips_token _).bind

section Layer

variable {bound : Nat} {inner : Parser Term}

theorem atom_skips : Skips (atom bound inner) := by
  refine Skips.firstOf fun p hp => ?_
  simp only [List.mem_cons, List.not_mem_nil, or_false] at hp
  rcases hp with rfl | rfl | rfl | rfl | rfl | rfl | rfl | rfl | rfl <;> exact (skips_token _).bind

theorem operatorTerm_skips : Skips (operatorTerm bound inner) := by
  have levels : ∀ (levels : List (List OperatorSign)) (operand : Parser Term), Skips operand →
      Skips (levels.foldl (operatorLevel bound) operand) := by
    intro levels
    induction levels with
    | nil => exact fun _ ho => ho
    | cons level levels ih => exact fun _ ho => ih _ ho.bind
  exact levels operatorLevels _ atom_skips.bind.bind

theorem simpleTerm_skips : Skips (simpleTerm bound inner) := by
  refine Skips.firstOf fun p hp => ?_
  simp only [List.mem_cons, List.not_mem_nil, or_false] at hp
  rcases hp with rfl | rfl | rfl | rfl | rfl
  · exact (skips_token _).bind
  · exact (skips_token _).bind
  · exact (skips_token _).bind
  · exact (skips_token _).bind
  · exact operatorTerm_skips

/-! ## Forms with a keyword or a backslash -/

variable {c : Cursor} {result : Term × Cursor}

/-- The characters that an atom other than a word of small letters begins with. -/
def opensPlainAtom (x : Char) : Bool := x ∈ ['(', '\x7b', '"'] || x.isDigit || x.isUpper

/-- Where none of them stands, an atom is a word of small letters. -/
theorem atom_of_small_letter (h : ∀ x ∈ c.skip.rest.head?, opensPlainAtom x = false) :
    atom bound inner c =
      Parser.firstOf
        [ (do keyword "true"; return .boolean true),
          (do keyword "false"; return .boolean false),
          (do return .constructor (← constructorName)),
          (do return .identifier (← name)) ] c := by
  have fails {test : Char → Bool} (htest : ∀ x, test x → opensPlainAtom x) :
      ∀ x ∈ c.skip.rest.head?, test x = false := by
    intro x hx
    refine Bool.eq_false_iff.2 fun htrue => ?_
    have hfalse := h x hx
    rw [htest x htrue] at hfalse
    cases hfalse
  have begun {w : String} {y : Char} (hw : w.toList.head? = some y) (hy : opensPlainAtom y) :
      ∀ x, begins w x → opensPlainAtom x := by
    intro x hx
    by_cases he : x = y
    · exact he ▸ hy
    · rw [begins_eq_false hw he] at hx
      cases hx
  have hunit : unitTerm c = none :=
    (symbol_opens (by decide)).bind c (fails (begun rfl (by decide)))
  have htuple : tupleTerm bound inner c = none :=
    (symbol_opens (by decide)).bind c (fails (begun rfl (by decide)))
  have hrecord : recordTerm bound inner c = none :=
    (symbol_opens (by decide)).bind c (fails (begun rfl (by decide)))
  have hliteral : (do return .string (← literal) : Parser Term) c = none :=
    literal_opens.bind c (fails fun x hx => by rw [eq_of_beq hx]; decide)
  have hnumber : (do return .integer (← number) : Parser Term) c = none :=
    number_opens.bind c (fails fun x hx => by simp [opensPlainAtom, hx])
  rw [atom, firstOf_of_none hunit, firstOf_of_none htuple, firstOf_of_none hrecord,
    firstOf_of_none hliteral, firstOf_of_none hnumber]

theorem atom_eq_none_of_words (h : ∀ x ∈ c.skip.rest.head?, opensPlainAtom x = false)
    (htrue : keyword "true" c = none) (hfalse : keyword "false" c = none) (hname : name c = none) :
    atom bound inner c = none := by
  rw [atom_of_small_letter h]
  refine firstOf_eq_none fun p hp => ?_
  simp only [List.mem_cons, List.not_mem_nil, or_false] at hp
  rcases hp with rfl | rfl | rfl | rfl
  · exact bind_eq_none htrue
  · exact bind_eq_none hfalse
  · refine (word_opens _ _).bind c fun x hx => Bool.eq_false_iff.2 fun hupper => ?_
    have hplain := h x hx
    simp [opensPlainAtom, hupper] at hplain
  · exact bind_eq_none hname

/-- The characters that an atom other than a name begins with. -/
def opensAtom (x : Char) : Bool := opensPlainAtom x || x ∈ ['t', 'f']

theorem atom_eq_none (h : ∀ x ∈ c.skip.rest.head?, opensAtom x = false) (hname : name c = none) :
    atom bound inner c = none := by
  have begun {w : String} {y : Char} (hw : w.toList.head? = some y) (hy : y ∈ ['t', 'f']) :
      ∀ x ∈ c.skip.rest.head?, begins w x = false := by
    intro x hx
    refine begins_eq_false hw ?_
    rintro rfl
    have hother := (Bool.or_eq_false_iff.1 (h x hx)).2
    exact of_decide_eq_false hother hy
  exact atom_eq_none_of_words (fun x hx => (Bool.or_eq_false_iff.1 (h x hx)).1)
    (keyword_opens (by decide) c (begun rfl (by decide)))
    (keyword_opens (by decide) c (begun rfl (by decide))) hname

/-- Where no form with a keyword or a backslash stands, operators are read. -/
theorem simpleTerm_of_no_form (hlet : keyword "let" c = none) (hif : keyword "if" c = none)
    (hmatch : keyword "match" c = none) (hlambda : symbol "\\" c = none) :
    simpleTerm bound inner c = operatorTerm bound inner c := by
  have hlet : letTerm inner c = none := bind_eq_none hlet
  have hif : ifTerm inner c = none := bind_eq_none hif
  have hmatch : matchTerm bound inner c = none := bind_eq_none hmatch
  have hlambda : lambdaTerm bound inner c = none := bind_eq_none hlambda
  rw [simpleTerm, firstOf_of_none hlet, firstOf_of_none hif, firstOf_of_none hmatch,
    firstOf_of_none hlambda]
  cases hr : operatorTerm bound inner c with
  | none => exact orElse_of_none hr
  | some r => exact firstOf_of_some hr

/-- An application begins no form with a keyword or a backslash. -/
theorem simpleTerm_of_application (h : application bound inner c = some result) :
    simpleTerm bound inner c = operatorTerm bound inner c := by
  have absent {p : Parser Unit} {y : Char} {w : String} (hopens : Opens p (begins w))
      (hy : w.toList.head? = some y) (hother : opensAtom y = false)
      (hname : ∀ r, p c = some r → name c = none) : p c = none := by
    cases hp : p c with
    | none => rfl
    | some r =>
        have hatom : atom bound inner c = none := by
          refine atom_eq_none (fun x hx => ?_) (hname r hp)
          have hbegins := hopens.test hp x hx
          rw [begins, hy, beq_iff_eq] at hbegins
          cases hbegins
          exact hother
        have hselection : selection bound inner c = none := bind_eq_none hatom
        have happlication : application bound inner c = none := bind_eq_none hselection
        rw [happlication] at h
        cases h
  have hkeyword {w : String} (hw : w ∈ keywords) (r : Unit × Cursor) (hp : keyword w c = some r) :
      name c = none := name_of_keyword hw hp
  refine simpleTerm_of_no_form
    (absent (keyword_opens (by decide)) rfl (by decide) (hkeyword (by decide)))
    (absent (keyword_opens (by decide)) rfl (by decide) (hkeyword (by decide)))
    (absent (keyword_opens (by decide)) rfl (by decide) (hkeyword (by decide))) ?_
  have hopens : Opens (symbol "\\") (begins "\\") := symbol_opens (by decide)
  refine absent hopens rfl (by decide) fun r hp => name_opens c fun x hx => ?_
  have hbegins := hopens.test hp x hx
  rw [begins, beq_iff_eq] at hbegins
  cases hbegins
  rfl

theorem operatorTerm_eq_none (h : application bound inner c = none) :
    operatorTerm bound inner c = none := by
  have levels : ∀ (levels : List (List OperatorSign)) (operand : Parser Term), operand c = none →
      levels.foldl (operatorLevel bound) operand c = none := by
    intro levels
    induction levels with
    | nil => exact fun _ ho => ho
    | cons level levels ih => exact fun _ ho => ih _ (bind_eq_none ho)
  exact levels operatorLevels _ h

/-- An application is all that is read as operators if no operator follows. -/
theorem operatorTerm_of_application {t : Term} {d : Cursor}
    (h : application bound inner c = some (t, d))
    (hd : ∀ level ∈ operatorLevels, levelOperator level d = none) :
    operatorTerm bound inner c = some (t, d) := by
  have levels : ∀ levels : List (List OperatorSign), levels ⊆ operatorLevels →
      ∀ operand : Parser Term, operand c = some (t, d) →
        levels.foldl (operatorLevel bound) operand c = some (t, d) := by
    intro levels
    induction levels with
    | nil => exact fun _ _ ho => ho
    | cons level levels ih =>
        intro hsub operand ho
        obtain ⟨hlevel, hlevels⟩ := List.cons_subset.1 hsub
        exact ih hlevels _ ((bind_of_some ho).trans (operatorRow_of_none (hd level hlevel) _ _))
  exact levels operatorLevels (List.Subset.refl _) _ h

end Layer

theorem term_skips (bound : Nat) : Skips (term bound) := by
  cases bound with
  | zero => exact fun _ => rfl
  | succ bound => exact simpleTerm_skips.bind

/-- An application is a whole expression if neither an operator nor a semicolon follows. -/
theorem term_of_application {bound : Nat} {c d : Cursor} {t : Term}
    (h : application (bound + 1) (term bound) c = some (t, d))
    (hoperators : ∀ level ∈ operatorLevels, levelOperator level d = none)
    (hsemicolon : symbol ";" d = none) : term (bound + 1) c = some (t, d) := by
  have hsimple : simpleTerm (bound + 1) (term bound) c = some (t, d) :=
    (simpleTerm_of_application h).trans (operatorTerm_of_application h hoperators)
  have hothers : (do symbol ";"; simpleTerm (bound + 1) (term bound) : Parser Term) d = none :=
    bind_eq_none hsemicolon
  exact (bind_of_some hsimple).trans ((bind_of_some (many_of_none hothers _)).trans rfl)

/-! ## Declarations -/

theorem declaration_skips (bound : Nat) : Skips (declaration bound) := by
  have htype : Skips (typeDecl bound) := (skips_token _).bind
  have hfunction : Skips (functionDecl bound) := (skips_token _).bind
  exact htype.orElse hfunction

end Parser

end Fern
