import Fern.Proofs.FirstCharacters

/-!
# Reading displayed data

Data is displayed with no blanks but one behind a comma and one behind the name of a variant, so its
words touch and are followed by their characters. A reader reads a text as something wherever a
comma, a closing parenthesis or the end of the text follows: that is what can stand behind the parts
of a tuple and behind all of a value. There no reader of the grammar goes on.
-/

namespace Fern.Parser

open Syntax

variable {α : Type} {p : Parser α}

/-! ## What may stand behind a part of a tuple -/

/-- A text ends here or goes on with a comma or a closing parenthesis. -/
def Closing (text : List Char) : Prop := ∀ x ∈ text.head?, x = ',' ∨ x = ')'

theorem closing_nil : Closing [] := nofun

theorem closing_comma (rest : List Char) : Closing (',' :: rest) := by
  intro x hx
  cases hx
  exact .inl rfl

theorem closing_parenthesis (rest : List Char) : Closing (')' :: rest) := by
  intro x hx
  cases hx
  exact .inr rfl

section Closing

variable {c d : Cursor} {bound : Nat} {inner : Parser Term} {t : Term}

theorem Closing.skip (h : Closing c.rest) : c.skip = c := by
  refine skip_of_visible fun x hx => ?_
  rcases h x hx with rfl | rfl <;> decide

/-- A reader that opens with neither of the two characters fails there. -/
theorem Opens.closing {test : Char → Bool} (hp : Opens p test) (hcomma : test ',' = false)
    (hparenthesis : test ')' = false) (h : Closing c.rest) : p c = none := by
  refine hp c fun x hx => ?_
  rw [h.skip] at hx
  rcases h x hx with rfl | rfl
  · exact hcomma
  · exact hparenthesis

theorem atom_of_closing (h : Closing c.rest) : atom bound inner c = none := by
  refine atom_eq_none (fun x hx => ?_) (name_opens.closing (by decide) (by decide) h)
  rw [h.skip] at hx
  rcases h x hx with rfl | rfl <;> decide

theorem levelOperator_of_closing {level : List OperatorSign} (hlevel : level ∈ operatorLevels)
    (h : Closing c.rest) : levelOperator level c = none := by
  have known : ∀ level ∈ operatorLevels, ∀ sign ∈ level,
      begins sign.sign ',' = false ∧ begins sign.sign ')' = false := by
    decide
  refine levelOperator_eq_none hlevel fun x hx sign hsign => ?_
  obtain ⟨hcomma, hparenthesis⟩ := known level hlevel sign hsign
  rw [h.skip] at hx
  rcases h x hx with rfl | rfl
  · exact hcomma
  · exact hparenthesis

/-! ## From atoms to expressions -/

theorem Closing.ne_dot (h : Closing d.rest) : ∀ x ∈ d.rest.head?, x ≠ '.' := by
  intro x hx
  rcases h x hx with rfl | rfl <;> decide

/-- An atom that no dot follows is read with no selection. -/
theorem selection_of_atom (h : atom bound inner c = some (t, d))
    (hd : ∀ x ∈ d.rest.head?, x ≠ '.') : selection bound inner c = some (t, d) := by
  have hselector : selector d = none := selector_eq_none_of_head hd
  exact (bind_of_some h).trans ((bind_of_some (many_of_none hselector bound)).trans rfl)

/-- An atom that no dot and no argument follows is an application. -/
theorem application_of_atom (h : atom bound inner c = some (t, d)) (hd : Closing d.rest) :
    application bound inner c = some (t, d) := by
  have hselection : selection bound inner c = some (t, d) := selection_of_atom h hd.ne_dot
  have hnone : selection bound inner d = none := bind_eq_none (atom_of_closing hd)
  exact (bind_of_some hselection).trans ((bind_of_some (many_of_none hnone bound)).trans rfl)

/-- A constructor with a blank and an atom behind it is an application. -/
theorem application_of_argument {head arg : Term} {mid : Cursor}
    (hhead : atom (bound + 1) inner c = some (head, mid)) (hmid : ∀ x ∈ mid.rest.head?, x ≠ '.')
    (harg : atom (bound + 1) inner mid = some (arg, d)) (hd : Closing d.rest) :
    application (bound + 1) inner c = some (.apply head [arg], d) := by
  have hcallee : selection (bound + 1) inner c = some (head, mid) := selection_of_atom hhead hmid
  have hargument : selection (bound + 1) inner mid = some (arg, d) :=
    selection_of_atom harg hd.ne_dot
  have hnone : selection (bound + 1) inner d = none := bind_eq_none (atom_of_closing hd)
  have hargs : many (selection (bound + 1) inner) (bound + 1) mid = some ([arg], d) :=
    many_of_some hargument (many_of_none hnone bound)
  exact (bind_of_some hcallee).trans ((bind_of_some hargs).trans rfl)

/-- An application is a whole expression if nothing of the expression follows. -/
theorem term_of_closing (h : application (bound + 1) (term bound) c = some (t, d))
    (hd : Closing d.rest) : term (bound + 1) c = some (t, d) :=
  term_of_application h (fun _ hlevel => levelOperator_of_closing hlevel hd)
    ((symbol_opens (by decide)).closing (by decide) (by decide) hd)

end Closing

/-! ## Texts of atoms -/

/-- A parser reads a text as something wherever a comma, a closing parenthesis or the end
follows. -/
def ReadsText (p : Parser α) (a : α) (text : List Char) : Prop :=
  ∀ previous rest, Closing rest → ∃ last, p ⟨previous, text ++ rest⟩ = some (a, ⟨last, rest⟩)

/-- A reader that does not open with a visible character fails where that one stands. -/
theorem Opens.visible {test : Char → Bool} (hp : Opens p test) {x : Char} (hx : test x = false)
    (hvisible : x ∉ [' ', '\t', '\n', '\r', '#']) (previous : Option Char) (rest : List Char) :
    p ⟨previous, x :: rest⟩ = none := by
  refine hp _ fun y hy => ?_
  rw [skip_cons_of_visible hvisible] at hy
  cases hy
  exact hx

/-- Two characters that a test tells apart differ. -/
theorem ne_of_test {test : Char → Bool} {x y : Char} (hx : test x) (hy : test y = false) :
    x ≠ y := by
  rintro rfl
  rw [hx] at hy
  cases hy

section Atoms

variable {bound : Nat} {inner : Parser Term}

/-- Where no bracket stands, an atom is a word. -/
theorem atom_of_no_bracket {x : Char} (hvisible : x ∉ [' ', '\t', '\n', '\r', '#'])
    (hx : x ∉ ['(', '\x7b']) (previous : Option Char) (rest : List Char) :
    atom bound inner ⟨previous, x :: rest⟩ =
      Parser.firstOf
        [ (do return .string (← literal)),
          (do return .integer (← number)),
          (do keyword "true"; return .boolean true),
          (do keyword "false"; return .boolean false),
          (do return .constructor (← constructorName)),
          (do return .identifier (← name)) ] ⟨previous, x :: rest⟩ := by
  simp only [List.mem_cons, List.not_mem_nil, or_false, not_or] at hx
  have hopen : begins "(" x = false := begins_eq_false rfl hx.1
  have hbrace : begins "\x7b" x = false := begins_eq_false rfl hx.2
  have hunit : unitTerm ⟨previous, x :: rest⟩ = none :=
    (symbol_opens (by decide)).bind.visible hopen hvisible _ _
  have htuple : tupleTerm bound inner ⟨previous, x :: rest⟩ = none :=
    (symbol_opens (by decide)).bind.visible hopen hvisible _ _
  have hrecord : recordTerm bound inner ⟨previous, x :: rest⟩ = none :=
    (symbol_opens (by decide)).bind.visible hbrace hvisible _ _
  rw [atom, firstOf_of_none hunit, firstOf_of_none htuple, firstOf_of_none hrecord]

theorem readsText_unit : ReadsText (atom bound inner) .unit "()".toList := by
  intro previous rest _
  have hopen : symbol "(" ⟨previous, "()".toList ++ rest⟩ = some ((), ⟨some '(', ')' :: rest⟩) :=
    rfl
  have hclose : symbol ")" ⟨some '(', ')' :: rest⟩ = some ((), ⟨some ')', rest⟩) := rfl
  have hunit : unitTerm ⟨previous, "()".toList ++ rest⟩ = some (.unit, ⟨some ')', rest⟩) :=
    (bind_of_some hopen).trans ((bind_of_some hclose).trans rfl)
  refine ⟨some ')', ?_⟩
  rw [atom]
  exact firstOf_of_some hunit

theorem readsText_literal (text : String) :
    ReadsText (atom bound inner) (.string text) (Word.literal text).chars := by
  intro previous rest _
  have hchars : (Word.literal text).chars ++ rest =
      '"' :: (text.toList.flatMap writeChar ++ '"' :: rest) := by
    rw [Word.chars, List.cons_append, List.cons_append, List.append_assoc, List.singleton_append]
  have hskip : (⟨previous, '"' :: (text.toList.flatMap writeChar ++ '"' :: rest)⟩ : Cursor).skip =
      ⟨previous, '"' :: (text.toList.flatMap writeChar ++ '"' :: rest)⟩ := rfl
  have hread : literal ⟨previous, '"' :: (text.toList.flatMap writeChar ++ '"' :: rest)⟩ =
      some (text, ⟨some '"', rest⟩) := by
    simp only [literal, token, hskip, literalBody_writeChar, Option.map_some, unescape_writeChar,
      String.ofList_toList]
    rfl
  refine ⟨some '"', ?_⟩
  rw [hchars, atom_of_no_bracket (by decide) (by decide)]
  exact firstOf_of_some ((bind_of_some hread).trans rfl)

/-- A name with a capital is read where no further character of names follows. -/
theorem atom_of_constructorName {name : String} (h : IsCapital name) {rest : List Char}
    (hrest : ∀ d ∈ rest.head?, isNameChar d = false) (previous : Option Char) :
    ∃ last, atom bound inner ⟨previous, name.toList ++ rest⟩ =
      some (.constructor name, ⟨last, rest⟩) := by
  obtain ⟨last, hword⟩ := word_eq_of_beginsAs previous h hrest
  obtain ⟨c, others, hname, hc, -⟩ := h
  have hvisible := @Word.Kind.not_blank_of_opens .constructor c hc
  have differs {y : Char} (hy : y.isUpper = false) : c ≠ y := ne_of_test hc hy
  rw [hname, List.cons_append] at hword ⊢
  have hread : constructorName ⟨previous, c :: (others ++ rest)⟩ =
      some (name, ⟨some last, rest⟩) := by
    rw [constructorName, token, skip_cons_of_visible hvisible, hword]
  refine ⟨some last, ?_⟩
  rw [atom_of_no_bracket hvisible (by simp [differs])]
  rw [firstOf_of_none (literal_opens.bind.visible (beq_false_of_ne (differs rfl)) hvisible _ _),
    firstOf_of_none (number_opens.bind.visible (isDigit_eq_false_of_isUpper hc) hvisible _ _),
    firstOf_of_none ((keyword_opens (by decide)).bind.visible
      (begins_eq_false rfl (differs rfl)) hvisible _ _),
    firstOf_of_none ((keyword_opens (by decide)).bind.visible
      (begins_eq_false rfl (differs rfl)) hvisible _ _)]
  exact firstOf_of_some ((bind_of_some hread).trans rfl)

/-- A name is an atom. -/
theorem atom_of_name {c d : Cursor} {x : String} (h : name c = some (x, d)) :
    atom bound inner c = some (.identifier x, d) := by
  have plain : ∀ y ∈ c.skip.rest.head?, opensPlainAtom y = false := by
    intro y hy
    have hstart := name_opens.test h y hy
    simp only [opensPlainAtom, isDigit_eq_false_of_isNameStart hstart,
      isUpper_eq_false_of_isNameStart hstart, Bool.or_false, decide_eq_false_iff_not,
      List.mem_cons, List.not_mem_nil, or_false, not_or]
    exact ⟨ne_of_test hstart (by decide), ne_of_test hstart (by decide),
      ne_of_test hstart (by decide)⟩
  have noKeyword {w : String} (hw : w ∈ keywords) : keyword w c = none := by
    cases hk : keyword w c with
    | none => rfl
    | some r =>
        rw [name_of_keyword hw hk] at h
        cases h
  have htrue : (do keyword "true"; return .boolean true : Parser Term) c = none :=
    bind_eq_none (noKeyword (by decide))
  have hfalse : (do keyword "false"; return .boolean false : Parser Term) c = none :=
    bind_eq_none (noKeyword (by decide))
  have hconstructor : (do return .constructor (← constructorName) : Parser Term) c = none :=
    (word_opens _ _).bind c fun y hy =>
      isUpper_eq_false_of_isNameStart (name_opens.test h y hy)
  rw [atom_of_small_letter plain, firstOf_of_none htrue, firstOf_of_none hfalse,
    firstOf_of_none hconstructor]
  exact firstOf_of_some ((bind_of_some h).trans rfl)

theorem readsText_number (n : Nat) :
    ReadsText (atom bound inner) (.integer n) (Nat.toDigits 10 n) := by
  intro previous rest hrest
  have hbehind : ∀ d ∈ rest.head?, d.isDigit = false := by
    intro d hd
    rcases hrest d hd with rfl | rfl <;> rfl
  obtain ⟨last, hword⟩ := digits_word_eq previous n hbehind
  obtain ⟨c, others, hdigits⟩ := List.exists_cons_of_ne_nil (Nat.toDigits_ne_nil (n := n) (b := 10))
  have hc : c.isDigit := isDigit_of_mem_toDigits (hdigits ▸ List.mem_cons_self)
  have hvisible := @Word.Kind.not_blank_of_opens .number c hc
  have differs {y : Char} (hy : y.isDigit = false) : c ≠ y := ne_of_test hc hy
  have hvalue := Text.decimalValue_toDigits n
  rw [hdigits] at hword hvalue ⊢
  have hread : number ⟨previous, c :: (others ++ rest)⟩ = some (n, ⟨some last, rest⟩) := by
    unfold number token
    rw [skip_cons_of_visible hvisible, ← List.cons_append, bind_of_some hword, String.toList_ofList,
      hvalue]
    rfl
  refine ⟨some last, ?_⟩
  rw [List.cons_append, atom_of_no_bracket hvisible (by simp [differs]),
    firstOf_of_none (literal_opens.bind.visible (beq_false_of_ne (differs rfl)) hvisible _ _)]
  exact firstOf_of_some ((bind_of_some hread).trans rfl)

end Atoms

/-! ## Texts of tuples -/

/-- Texts with a comma and a blank between each two. -/
def commaSeparated : List (List Char) → List Char
  | [] => []
  | first :: others => first ++ others.flatMap fun text => ',' :: ' ' :: text

section Items

variable {ι : Type} {write : ι → List Char} {make : ι → Term} {items others : List ι} {first : ι}
  {bound : Nat} {inner : Parser Term}

/-- Behind a part of a tuple there is a comma with the next part or the closing parenthesis. -/
theorem closing_items (items : List ι) (write : ι → List Char) (rest : List Char) :
    Closing (items.flatMap (fun item => ',' :: ' ' :: write item) ++ ')' :: rest) := by
  cases items with
  | nil => exact closing_parenthesis rest
  | cons => exact closing_comma _

theorem collect_of_texts {inner : Parser α} {make : ι → α} (hskips : Skips inner)
    (h : ∀ item ∈ items, ReadsText inner (make item) (write item)) (hb : items.length ≤ bound)
    (previous : Option Char) (rest : List Char) :
    ∃ last, many (do symbol ","; inner) bound
      ⟨previous, items.flatMap (fun item => ',' :: ' ' :: write item) ++ ')' :: rest⟩ =
        some (items.map make, ⟨last, ')' :: rest⟩) := by
  induction items generalizing bound previous with
  | nil =>
      have hnone : (do symbol ","; inner : Parser α) ⟨previous, ')' :: rest⟩ = none :=
        (symbol_opens (by decide)).bind.visible (by decide) (by decide) _ _
      exact ⟨previous, many_of_none hnone bound⟩
  | cons item items ih =>
      obtain ⟨hitem, hitems⟩ := List.forall_mem_cons.1 h
      obtain ⟨bound, rfl⟩ : ∃ k, bound = k + 1 := ⟨bound - 1, by
        rw [List.length_cons] at hb
        omega⟩
      let more := items.flatMap (fun item => ',' :: ' ' :: write item) ++ ')' :: rest
      obtain ⟨mid, hmid⟩ := hitem (some ' ') more (closing_items items write rest)
      obtain ⟨last, hlast⟩ := ih hitems (Nat.le_of_succ_le_succ hb) mid
      have htext : (item :: items).flatMap (fun item => ',' :: ' ' :: write item) ++ ')' :: rest =
          ',' :: ' ' :: (write item ++ more) := by
        rw [List.flatMap_cons, List.append_assoc]
        rfl
      have hcomma : symbol "," ⟨previous, ',' :: ' ' :: (write item ++ more)⟩ =
          some ((), ⟨some ',', ' ' :: (write item ++ more)⟩) := rfl
      refine ⟨last, many_of_some ?_ hlast⟩
      rw [htext, bind_of_some hcomma, hskips.blank, hmid]

/-- Texts with commas between them are read up to the closing parenthesis. -/
theorem separated_of_texts {inner : Parser α} {make : ι → α} (hskips : Skips inner)
    (h : ∀ item ∈ first :: others, ReadsText inner (make item) (write item))
    (hb : others.length ≤ bound) (previous : Option Char) (rest : List Char) :
    ∃ last, separated inner (symbol ",") bound
      ⟨previous, commaSeparated ((first :: others).map write) ++ ')' :: rest⟩ =
        some ((first :: others).map make, ⟨last, ')' :: rest⟩) := by
  obtain ⟨hhead, hothers⟩ := List.forall_mem_cons.1 h
  let behind := others.flatMap (fun item => ',' :: ' ' :: write item) ++ ')' :: rest
  have htext : commaSeparated ((first :: others).map write) ++ ')' :: rest =
      write first ++ behind := by
    rw [List.map_cons, commaSeparated, List.flatMap_map, List.append_assoc]
  obtain ⟨mid, hmid⟩ := hhead previous behind (closing_items others write rest)
  obtain ⟨last, hlast⟩ := collect_of_texts hskips hothers hb mid rest
  refine ⟨last, ?_⟩
  rw [htext]
  exact (bind_of_some hmid).trans ((bind_of_some hlast).trans rfl)

/-- Expressions between parentheses, with commas between them, are an atom. -/
theorem readsText_parenthesized (hskips : Skips inner)
    (h : ∀ item ∈ first :: others, ReadsText inner (make item) (write item))
    (hb : others.length ≤ bound)
    (hfirst : ∀ x ∈ (write first).head?, x ∉ [' ', '\t', '\n', '\r', '#'] ∧ x ≠ ')')
    (hne : write first ≠ []) :
    ReadsText (atom bound inner) (parenthesized ((first :: others).map make))
      ('(' :: commaSeparated ((first :: others).map write) ++ [')']) := by
  intro previous rest _
  let inside := commaSeparated ((first :: others).map write) ++ ')' :: rest
  have htext : '(' :: commaSeparated ((first :: others).map write) ++ [')'] ++ rest =
      '(' :: inside := by
    rw [List.cons_append, List.cons_append, List.append_assoc, List.singleton_append]
  have hopen : symbol "(" ⟨previous, '(' :: inside⟩ = some ((), ⟨some '(', inside⟩) := rfl
  have hunit : unitTerm ⟨previous, '(' :: inside⟩ = none := by
    obtain ⟨x, more, hx⟩ := List.exists_cons_of_ne_nil hne
    have hinside : inside = x :: (more ++
        ((others.map write).flatMap (fun text => ',' :: ' ' :: text) ++ ')' :: rest)) := by
      show commaSeparated _ ++ _ = _
      rw [List.map_cons, commaSeparated, hx, List.append_assoc, List.cons_append]
    obtain ⟨hvisible, hclose⟩ := hfirst x (hx ▸ rfl)
    rw [hinside] at hopen ⊢
    exact (bind_of_some hopen).trans
      ((symbol_opens (by decide)).bind.visible (begins_eq_false rfl hclose) hvisible _ _)
  obtain ⟨last, hitems⟩ := separated_of_texts hskips h hb (some '(') rest
  have hclose : symbol ")" ⟨last, ')' :: rest⟩ = some ((), ⟨some ')', rest⟩) := rfl
  have htuple : tupleTerm bound inner ⟨previous, '(' :: inside⟩ =
      some (parenthesized ((first :: others).map make), ⟨some ')', rest⟩) :=
    (bind_of_some hopen).trans ((bind_of_some hitems).trans ((bind_of_some hclose).trans rfl))
  refine ⟨some ')', ?_⟩
  rw [htext, atom, firstOf_of_none hunit]
  exact firstOf_of_some htuple

end Items

/-! ## Texts of expressions -/

/-- The characters that the display of data begins with. -/
def opensData (x : Char) : Bool := x == '(' || x == '"' || x.isDigit || x.isUpper

/-- A text begins as the display of data does. -/
def BeginsData (text : List Char) : Prop := ∃ x more, text = x :: more ∧ opensData x

section Expressions

variable {bound : Nat} {t arg : Term} {text behind : List Char}

theorem BeginsData.visible (h : BeginsData text) :
    ∀ x ∈ text.head?, x ∉ [' ', '\t', '\n', '\r', '#'] ∧ x ≠ ')' := by
  obtain ⟨y, more, rfl, hy⟩ := h
  intro x hx
  cases hx
  simp only [List.mem_cons, List.not_mem_nil, or_false, not_or]
  refine ⟨⟨?_, ?_, ?_, ?_, ?_⟩, ?_⟩ <;> exact ne_of_test hy rfl

theorem BeginsData.ne_nil (h : BeginsData text) : text ≠ [] := by
  obtain ⟨y, more, rfl, -⟩ := h
  exact List.cons_ne_nil _ _

theorem ReadsText.term (h : ReadsText (atom (bound + 1) (term bound)) t text) :
    ReadsText (Syntax.term (bound + 1)) t text := by
  intro previous rest hrest
  obtain ⟨last, hlast⟩ := h previous rest hrest
  exact ⟨last, term_of_closing (application_of_atom hlast hrest) hrest⟩

/-- A constructor and its argument, with a blank between them. -/
theorem ReadsText.apply {name : String} (hname : IsCapital name)
    (harg : ReadsText (atom (bound + 1) (Syntax.term bound)) arg text) :
    ReadsText (Syntax.term (bound + 1)) (.apply (.constructor name) [arg])
      (name.toList ++ ' ' :: text) := by
  intro previous rest hrest
  have hblank : ∀ d ∈ (' ' :: (text ++ rest)).head?, isNameChar d = false := by
    intro d hd
    cases hd
    rfl
  obtain ⟨mid, hmid⟩ := atom_of_constructorName hname hblank previous
  obtain ⟨last, hlast⟩ := harg (some ' ') rest hrest
  have hskips : Skips (atom (bound + 1) (Syntax.term bound)) := atom_skips
  have hargument : atom (bound + 1) (Syntax.term bound) ⟨mid, ' ' :: (text ++ rest)⟩ =
      some (arg, ⟨last, rest⟩) := (hskips.blank _ _).trans hlast
  have hdot : ∀ x ∈ (' ' :: (text ++ rest)).head?, x ≠ '.' := by
    intro x hx
    cases hx
    decide
  refine ⟨last, ?_⟩
  rw [List.append_assoc, List.cons_append]
  exact term_of_closing (application_of_argument hmid hdot hargument hrest) hrest

end Expressions

end Fern.Parser
