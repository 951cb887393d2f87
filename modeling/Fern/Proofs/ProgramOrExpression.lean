import Fern.Proofs.DataReading
import Fern.Proofs.LineRequests

/-!
# Programs are no expressions

A text that begins with a declaration is no expression. A type declaration begins with a keyword that
no expression begins with. A function declaration does begin with an expression, the application of
its name to its parameters, and the reader of expressions takes just that: the equals sign behind it
is no operator, since the body that stands behind the sign does not begin with another one. So it
stops in front of the sign, where the text should have ended.

Main statement: a text is taken for a program exactly if it can be read as one and shows something,
and no text that can be read as a program can be read as an expression (`program_is_no_expression`).
-/

namespace Fern

open Syntax

namespace Parser

variable {bound : Nat} {inner : Parser Term} {c d : Cursor}

/-! ## What expressions begin with -/

/-- The characters that expressions begin with. -/
def opensTerm (x : Char) : Bool := opensPlainAtom x || isNameStart x || x == '\\'

/-- The keywords that expressions begin with. -/
def openingWords : List String := ["true", "false", "let", "if", "match"]

theorem term_eq_none (hplain : ∀ x ∈ c.skip.rest.head?, opensPlainAtom x = false)
    (hwords : ∀ w ∈ openingWords, keyword w c = none) (hname : name c = none)
    (hlambda : symbol "\\" c = none) : term bound c = none := by
  cases bound with
  | zero => rfl
  | succ bound =>
      have hatom : atom (bound + 1) (term bound) c = none :=
        atom_eq_none_of_words hplain (hwords _ (by decide)) (hwords _ (by decide)) hname
      have hselection : selection (bound + 1) (term bound) c = none := bind_eq_none hatom
      have hoperators : operatorTerm (bound + 1) (term bound) c = none :=
        operatorTerm_eq_none (bind_eq_none hselection)
      have hsimple : simpleTerm (bound + 1) (term bound) c = none :=
        (simpleTerm_of_no_form (hwords _ (by decide)) (hwords _ (by decide))
          (hwords _ (by decide)) hlambda).trans hoperators
      exact bind_eq_none hsimple

theorem term_opens (bound : Nat) : Opens (term bound) opensTerm := by
  intro c h
  have known : ∀ w ∈ openingWords, w.toList ≠ [] ∧ w.toList.head?.any opensTerm := by decide
  have others : ∀ x ∈ c.skip.rest.head?, opensPlainAtom x = false ∧ isNameStart x = false := by
    intro x hx
    obtain ⟨hfirst, -⟩ := Bool.or_eq_false_iff.1 (h x hx)
    exact Bool.or_eq_false_iff.1 hfirst
  refine term_eq_none (fun x hx => (others x hx).1) (fun w hw => ?_)
    (name_opens c fun x hx => (others x hx).2) (symbol_opens (by decide) c fun x hx => ?_)
  · obtain ⟨hne, hfirst⟩ := known w hw
    obtain ⟨y, hy, hopens⟩ := (Option.any_eq_true ..).1 hfirst
    exact keyword_opens hne c fun x hx => begins_eq_false hy (ne_of_test hopens (h x hx)).symm
  · have hbackslash : opensTerm '\\' := by decide
    exact begins_eq_false rfl (ne_of_test hbackslash (h x hx)).symm

/-- No expression begins with the keyword of type declarations. -/
theorem term_of_type {r : Unit × Cursor} (h : keyword "type" c = some r) : term bound c = none := by
  have known : ∀ w ∈ openingWords, w ∈ keywords ∧ w ≠ "type" := by decide
  have hopens : Opens (keyword "type") (begins "type") := keyword_opens (by decide)
  have letter : ∀ x ∈ c.skip.rest.head?, x = 't' := fun x hx =>
    (Option.some.inj (eq_of_beq (hopens.test h x hx))).symm
  refine term_eq_none (fun x hx => letter x hx ▸ by decide) (fun w hw => ?_)
    (name_of_keyword (by decide) h)
    (symbol_opens (by decide) c fun x hx => letter x hx ▸ by decide)
  obtain ⟨hkeyword, hne⟩ := known w hw
  exact keyword_of_other hkeyword (by decide) hne h

/-! ## Rows of names -/

/-- Where a reader reads, no visible character stands that it does not open with. -/
theorem Opens.ne_of_some {α : Type} {p : Parser α} {test : Char → Bool} (hp : Opens p test)
    {y : Char} (hy : test y = false) (hvisible : y ∉ [' ', '\t', '\n', '\r', '#'])
    {r : α × Cursor} (h : p c = some r) : ∀ x ∈ c.rest.head?, x ≠ y := by
  rintro x hx rfl
  obtain ⟨rest, hrest⟩ := List.head?_eq_some_iff.1 hx
  have hnone : p ⟨c.previous, x :: rest⟩ = none := hp.visible hy hvisible _ _
  rw [← hrest, h] at hnone
  cases hnone

section Names

variable {k : Nat} {xs : List String}

/-- No dot touches a name in a row if none touches the last one. -/
theorem ne_dot_of_names (h : collect name k c = (xs, d)) (hd : ∀ y ∈ d.rest.head?, y ≠ '.') :
    ∀ y ∈ c.rest.head?, y ≠ '.' := by
  cases k with
  | zero =>
      cases h
      exact hd
  | succ k =>
      rw [collect] at h
      cases hc : name c with
      | none =>
          rw [hc] at h
          cases h
          exact hd
      | some result => exact name_opens.ne_of_some (by decide) (by decide) hc

/-- A row of names is read as a row of variables. -/
theorem collect_selection_of_names (h : collect name k c = (xs, d))
    (hd : ∀ y ∈ d.rest.head?, y ≠ '.') (hnone : selection bound inner d = none) :
    collect (selection bound inner) k c = (xs.map .identifier, d) := by
  induction k generalizing c xs with
  | zero =>
      cases h
      rfl
  | succ k ih =>
      rw [collect] at h
      cases hc : name c with
      | none =>
          rw [hc] at h
          cases h
          exact collect_of_none hnone _
      | some result =>
          obtain ⟨x, mid⟩ := result
          rw [hc] at h
          obtain ⟨rfl, rfl⟩ := Prod.mk.inj h
          have hothers : collect name k mid = (_, _) := rfl
          have hfirst : selection bound inner c = some (.identifier x, mid) :=
            selection_of_atom (atom_of_name hc) (ne_dot_of_names hothers hd)
          rw [collect, hfirst]
          simp only [ih hothers, List.map_cons]

/-- A name with names behind it is read as an application. -/
theorem application_of_names {f : String} {mid : Cursor} (h : name c = some (f, mid))
    (hxs : many name bound mid = some (xs, d)) (hd : ∀ y ∈ d.rest.head?, y ≠ '.')
    (hnone : selection bound inner d = none) :
    application bound inner c = some (juxtaposed (.identifier f) (xs.map .identifier), d) := by
  have hnames : collect name bound mid = (xs, d) := Option.some.inj hxs
  have hcallee : selection bound inner c = some (.identifier f, mid) :=
    selection_of_atom (atom_of_name h) (ne_dot_of_names hnames hd)
  have hargs : many (selection bound inner) bound mid = some (xs.map .identifier, d) :=
    congrArg some (collect_selection_of_names hnames hd hnone)
  exact (bind_of_some hcallee).trans ((bind_of_some hargs).trans rfl)

end Names

/-! ## Declarations -/

/-- An equals sign that an expression follows is no operator. -/
theorem levelOperator_of_equals {level : List OperatorSign} (hlevel : level ∈ operatorLevels)
    {body : Term × Cursor} (h : symbol "=" c = some ((), d)) (hbody : term bound d = some body) :
    levelOperator level c = none := by
  have known : ∀ level ∈ operatorLevels, ∀ sign ∈ level,
      begins sign.sign '=' = false ∨ sign.isWord = false ∧ sign.sign = "==" := by
    decide
  obtain ⟨behind, haccept, hd⟩ := Option.map_eq_some_iff.1 h
  cases hd
  have hrest : c.skip.rest = '=' :: d.rest := Cursor.rest_of_accept haccept
  -- A second equals sign would begin the body.
  have hdouble : symbol "==" c = none := by
    refine Option.map_eq_none_iff.2 (if_neg fun hp => ?_)
    rw [hrest, List.isPrefixOf_iff_prefix] at hp
    obtain ⟨more, hmore⟩ := hp
    have hsecond : d.rest = '=' :: more := (List.cons.inj hmore).2.symm
    exact (term_opens bound).ne_of_some (by decide) (by decide) hbody '=' (by rw [hsecond]; rfl) rfl
  refine firstOf_eq_none fun p hp => ?_
  obtain ⟨sign, hsign, rfl⟩ := List.mem_map.1 hp
  obtain hbegins | ⟨hword, hequals⟩ := known level hlevel sign hsign
  · refine operatorSign_eq_none hlevel hsign fun x hx => ?_
    rw [hrest] at hx
    cases hx
    exact hbegins
  · unfold OperatorSign.read
    rw [if_neg (by rw [hword]; exact Bool.false_ne_true), hequals]
    exact bind_eq_none hdouble

/-- Where a declaration stands, an expression does not go up to the end of the text. -/
theorem term_of_declaration {decl : Declaration} (h : declaration (bound + 1) c = some (decl, d))
    {t : Term} {e : Cursor} (ht : term (bound + 1) c = some (t, e)) : e.skip.rest ≠ [] := by
  rcases orElse_eq_some.1 h with htype | ⟨-, hfunction⟩
  · obtain ⟨_, _, hkeyword, -⟩ := bind_eq_some.1 htype
    rw [term_of_type hkeyword] at ht
    cases ht
  · obtain ⟨f, mid, hname, hfunction⟩ := bind_eq_some.1 hfunction
    obtain ⟨params, last, hparams, hfunction⟩ := bind_eq_some.1 hfunction
    obtain ⟨_, behind, hequals, hfunction⟩ := bind_eq_some.1 hfunction
    obtain ⟨body, _, hbody, -⟩ := bind_eq_some.1 hfunction
    have hopens : Opens (symbol "=") (begins "=") := symbol_opens (by decide)
    have hhead : ∀ x ∈ last.skip.rest.head?, x = '=' := fun x hx =>
      (Option.some.inj (eq_of_beq (hopens.test hequals x hx))).symm
    have hatom : atom (bound + 1) (term bound) last = none :=
      atom_eq_none (fun x hx => hhead x hx ▸ by decide)
        (name_opens last fun x hx => hhead x hx ▸ by decide)
    have happlication := application_of_names hname hparams
      (hopens.ne_of_some (by decide) (by decide) hequals) (bind_eq_none hatom)
    have hread := term_of_application happlication
      (fun _ hlevel => levelOperator_of_equals hlevel hequals hbody)
      (symbol_opens (by decide) last fun x hx => hhead x hx ▸ by decide)
    rw [hread] at ht
    cases ht
    obtain ⟨_, haccept, -⟩ := Option.map_eq_some_iff.1 hequals
    rw [Cursor.rest_of_accept haccept]
    exact List.cons_ne_nil _ _

end Parser

namespace Syntax

open Fern.Parser

/-! ## Whole texts -/

/-- No text of declarations is one of an expression, not even without declarations. -/
theorem expressionOf_of_programOf {text : List Char} {decls : List Declaration}
    (h : programOf text = .ok decls) : ∃ fault, expressionOf text = .error fault := by
  obtain ⟨last, hrow, hlast⟩ := programOf_eq_ok.1 h
  unfold expressionOf
  split
  · exact ⟨_, rfl⟩
  · next t e ht =>
    suffices hleft : e.skip.rest ≠ [] from
      ⟨_, if_neg fun he => hleft (List.isEmpty_iff.1 he)⟩
    cases hrow with
    | done =>
        have hnone : term (boundFor text) (.start text) = none := by
          refine term_opens _ _ fun x hx => ?_
          rw [show (Cursor.start text).skip.rest = [] from hlast] at hx
          cases hx
        rw [hnone] at ht
        cases ht
    | item hdecl => exact term_of_declaration hdecl ht

theorem strip_eq_nil {text : List Char} : Text.strip text = [] ↔ ∀ c ∈ text, Text.isBlank c := by
  rw [← List.getLast?_eq_none_iff, Text.getLast?_strip, List.getLast?_eq_none_iff, Text.visible,
    List.filter_eq_nil_iff]
  simp only [Bool.not_eq_true', Bool.not_eq_false]

/-- A text is taken for a program exactly if it can be read as one and shows something. No text that
can be read as a program can be read as an expression. -/
theorem program_is_no_expression (source : String) :
    (isDeclaration source = true ↔
        (∃ decls, parseProgram source = .ok decls) ∧
          ∃ c ∈ source.toList, Text.isBlank c = false) ∧
      ∀ decls, parseProgram source = .ok decls → ∃ fault, parseExpression source = .error fault := by
  refine ⟨?_, fun decls h => expressionOf_of_programOf h⟩
  have hread : (parseProgram source).isOk ↔ ∃ decls, parseProgram source = .ok decls := by
    cases parseProgram source with
    | ok decls => exact iff_of_true rfl ⟨decls, rfl⟩
    | error fault =>
        refine iff_of_false Bool.false_ne_true ?_
        rintro ⟨decls, h⟩
        cases h
  have hshown : (!(Text.strip source.toList).isEmpty) = true ↔
      ∃ c ∈ source.toList, Text.isBlank c = false := by
    rw [Bool.not_eq_true', Bool.eq_false_iff, Ne, List.isEmpty_iff, strip_eq_nil]
    simp only [not_forall, exists_prop, Bool.not_eq_true]
  rw [isDeclaration, Bool.and_eq_true, hread, hshown]

/-- A body may hold two equals signs where an operator stands. -/
theorem program_is_no_expression_equals :
    isDeclaration "f x = x == 1." = true ∧
      ∃ fault, parseExpression "f x = x == 1." = .error fault := by
  obtain ⟨hshown, hdisjoint⟩ := program_is_no_expression "f x = x == 1."
  have hread : (parseProgram "f x = x == 1.").isOk := by decide +kernel
  cases h : parseProgram "f x = x == 1." with
  | error fault =>
      rw [h] at hread
      cases hread
  | ok decls => exact ⟨hshown.2 ⟨⟨decls, h⟩, 'f', by decide, by decide⟩, hdisjoint decls h⟩

end Syntax

end Fern
