import Fern.Proofs.JoinedText
import Fern.Proofs.LastCharacters
import Fern.Proofs.ResolveSteps
import Fern.Session

/-!
# What a line of a session is taken for

A session looks at the last visible character of a line that is no command: behind a full stop it
expects declarations, and else an expression. The grammar looks at all of the line. Both agree
unless the line ends in a comment: a text of declarations ends with a full stop, with at most blanks
behind it, and no expression does. A comment at the end of a line hides the character that counts,
and then a line that the grammar accepts may be answered with a parse error.

Main statement: a line without a comment at its end is handled as what the grammar reads it as
(`step_goes_by_grammar`).
-/

namespace Fern

open Syntax

/-! ## The last visible character -/

/-- The characters of a text that are no blanks. -/
def Text.visible (text : List Char) : List Char := text.filter (!Text.isBlank ·)

namespace Text

theorem visible_append (text more : List Char) :
    visible (text ++ more) = visible text ++ visible more :=
  List.filter_append ..

theorem visible_eq_nil {text : List Char} (h : ∀ c ∈ text, isBlank c) : visible text = [] :=
  List.filter_eq_nil_iff.2 fun c hc => by simp [h c hc]

theorem visible_expandTabsFrom (column : Nat) (text : List Char) :
    visible (expandTabsFrom column text) = visible text := by
  induction text generalizing column with
  | nil => rfl
  | cons c rest ih =>
      rw [expandTabsFrom]
      split
      · next ht =>
        have hblanks : visible (List.replicate (tabWidth - column % tabWidth) ' ') = [] :=
          visible_eq_nil fun x hx => List.eq_of_mem_replicate hx ▸ by decide
        have htab : visible (c :: rest) = visible rest :=
          List.filter_cons_of_neg (by subst ht; decide)
        simp only [visible_append, hblanks, ih, htab, List.nil_append]
      · have hcons (k : Nat) : visible (c :: expandTabsFrom k rest) = visible (c :: rest) := by
          change visible ([c] ++ expandTabsFrom k rest) = visible ([c] ++ rest)
          rw [visible_append, visible_append, ih]
        split
        · exact hcons 0
        · exact hcons (column + 1)

theorem visible_dropWhile (text : List Char) : visible (text.dropWhile isBlank) = visible text := by
  conv_rhs => rw [← List.takeWhile_append_dropWhile (p := isBlank) (l := text)]
  rw [visible_append, visible_eq_nil fun c hc => List.mem_takeWhile_imp hc, List.nil_append]

/-- The last character of a text without the blanks at its ends is the last visible one. -/
theorem getLast?_strip (text : List Char) : (strip text).getLast? = (visible text).getLast? := by
  have hfirst (l : List Char) : (l.dropWhile isBlank).head? = (visible l).head? := by
    rw [← List.find?_not_eq_head?_dropWhile, visible, List.head?_filter]
  rw [strip, List.getLast?_reverse, hfirst, visible, List.filter_reverse, List.head?_reverse]
  exact congrArg List.getLast? (visible_dropWhile text)

end Text

theorem stripText_of_visible_nil {line : String}
    (h : Text.visible (Text.expandTabs line.toList) = []) : Text.stripText line = "" := by
  rw [Text.expandTabs, Text.visible_expandTabsFrom] at h
  have hlast := Text.getLast?_strip line.toList
  rw [h, List.getLast?_nil, List.getLast?_eq_none_iff] at hlast
  rw [Text.stripText, hlast, String.ofList_nil]

/-! ## Texts that end in a comment -/

/-- A comment stands at the end of a text, with at most blanks and other comments behind it. -/
def EndsInComment (text : List Char) : Prop :=
  ∃ front rest, ClosedText front ∧ text = front ++ rest ∧ '#' ∈ rest ∧ Blank (.start rest)

theorem not_endsInComment_of_not_mem {text : List Char} (h : '#' ∉ text) : ¬EndsInComment text := by
  rintro ⟨front, rest, -, rfl, hmem, -⟩
  exact h (List.mem_append_right front hmem)

/-- Nothing but blanks. -/
def IsGap (gap : List Char) : Prop := ∀ c ∈ gap, c ∈ [' ', '\t', '\n', '\r']

/-- Without a comment there are only blanks to pass. -/
theorem isGap_of_skipFrom {previous : Option Char} {text : List Char} (h : '#' ∉ text)
    (hblank : (Cursor.skipFrom false previous text).rest = []) : IsGap text := by
  induction text generalizing previous with
  | nil => exact nofun
  | cons c rest ih =>
      obtain ⟨hc, hrest⟩ := not_or.1 fun hm => h (List.mem_cons.2 hm)
      unfold Cursor.skipFrom at hblank
      split at hblank
      · next hn => exact List.forall_mem_cons.2 ⟨by subst hn; decide, ih hrest hblank⟩
      · rw [if_neg Bool.false_ne_true] at hblank
        split at hblank
        · next hb =>
          simp only [Bool.or_eq_true, decide_eq_true_eq] at hb
          refine List.forall_mem_cons.2 ⟨?_, ih hrest hblank⟩
          rcases hb with (rfl | rfl) | rfl <;> decide
        · split at hblank
          · next hh => exact absurd hh.symm hc
          · cases hblank

theorem visible_of_isGap {gap : List Char} (h : IsGap gap) : Text.visible gap = [] := by
  have blanks : [' ', '\t', '\n', '\r'].all Text.isBlank := by decide
  exact List.filter_eq_nil_iff.2 fun c hc => by simp [List.all_eq_true.1 blanks c (h c hc)]

/-- What is left of such a text behind what has been read is blank. -/
theorem isGap_of_blank {text front : List Char} {c : Cursor} (h : ¬EndsInComment text)
    (hfront : ClosedText front) (htext : text = front ++ c.rest) (hblank : Blank c) :
    IsGap c.rest := by
  have hstart : Blank (.start c.rest) := hblank.of_rest_eq rfl
  have hhash : '#' ∉ c.rest := fun hmem => h ⟨front, c.rest, hfront, htext, hmem, hstart⟩
  exact isGap_of_skipFrom hhash hstart

theorem visible_of_blank {text front : List Char} {c : Cursor} (h : ¬EndsInComment text)
    (hfront : ClosedText front) (htext : text = front ++ c.rest) (hblank : Blank c) :
    Text.visible c.rest = [] :=
  visible_of_isGap (isGap_of_blank h hfront htext hblank)

section Texts

variable {text : List Char}

/-- A text of declarations ends with a full stop. -/
theorem getLast?_of_programOf {decls : List Declaration} (h : programOf text = .ok decls)
    (hne : decls ≠ []) (hcomment : ¬EndsInComment text) :
    (Text.visible text).getLast? = some '.' := by
  obtain ⟨last, hrow, hlast⟩ := programOf_eq_ok.1 h
  obtain ⟨u, hu, htext⟩ := full_stop_of_row hrow (Nat.le_succ _) hne
  have hfront : ClosedText (u ++ ['.']) := (hu.append (.bare (by decide) .nil)).closed
  have hread : text = u ++ ['.'] ++ last.rest := by
    rw [List.append_assoc]
    exact htext
  have hrest := visible_of_blank hcomment hfront hread hlast
  rw [hread, Text.visible_append, Text.visible_append, hrest, List.append_nil]
  exact List.getLast?_concat

/-- A text without declarations shows nothing. -/
theorem visible_of_programOf_nil (h : programOf text = .ok []) (hcomment : ¬EndsInComment text) :
    Text.visible text = [] := by
  obtain ⟨last, hrow, hlast⟩ := programOf_eq_ok.1 h
  cases hrow
  exact visible_of_blank (c := .start text) hcomment .nil rfl hlast

/-- A text of an expression ends with another character. -/
theorem getLast?_of_expressionOf {t : Term} (h : expressionOf text = .ok t)
    (hcomment : ¬EndsInComment text) :
    ∃ y, (Text.visible text).getLast? = some y ∧ y ≠ '.' := by
  unfold expressionOf at h
  split at h
  · cases h
  · next read last hread =>
    have hlast : Blank last := by
      simp only [atEnd] at h
      split at h
      · next hrest => exact List.isEmpty_iff.1 hrest
      · cases h
    have hsteps : Parser.Steps (Parser.Stop Parser.Unselected) 0 (term (boundFor text))
        (term (boundFor text)) :=
      Parser.term_steps (Nat.zero_le _) (Nat.zero_le _)
    obtain ⟨w, hw, htext⟩ := hsteps.takes _ _ _ hread
    obtain ⟨front, y, hend, hy⟩ := Parser.term_takesWord _ _ _ _ hread
    simp only [Parser.isLastChar, Bool.and_eq_true, bne_iff_ne] at hy
    have hrest := visible_of_blank hcomment hw.closed htext hlast
    have hfull : text = front ++ [y] ++ last.rest := by
      rw [List.append_assoc]
      exact hend
    refine ⟨y, ?_, hy.2⟩
    rw [hfull, Text.visible_append, Text.visible_append, hrest, List.append_nil]
    have hshown : Text.visible [y] = [y] := List.filter_cons_of_pos hy.1
    rw [hshown]
    exact List.getLast?_concat

end Texts

/-! ## Lines -/

namespace Session

/-- The lines that are commands or blank, without the blanks around them. -/
def commands : List String := ["", "exit.", ":help", ":env", ":types"]

/-- The fault of the reading that a line is given. -/
def readingFault? (line : String) : Option ParseFault :=
  match Request.ofLine line with
  | .declare => match parseProgram line with
    | .ok _ => none
    | .error fault => some fault
  | .evaluate => match parseExpression line with
    | .ok _ => none
    | .error fault => some fault
  | _ => none

/-- A line joins the session as some declarations, if all can be resolved together, and otherwise
changes nothing. -/
structure TakesDeclarations (settings : Settings) (session : Session) (line : String)
    (decls : List Declaration) : Prop where
  joins : ∀ program, Program.ofDeclarations (session.declarations ++ decls) = .ok program →
    (step settings session line).1 = ⟨session.declarations ++ decls, program⟩ ∧
      (step settings session line).2.output =
        settings.traced (parsedLine decls sessionFile ::
            Program.traceOf (session.declarations ++ decls)) ++
          textOfLines (decls.map fun decl => "Defined " ++ decl.sort ++ ": " ++ decl.name)
  refused : ∀ error, Program.ofDeclarations (session.declarations ++ decls) = .error error →
    (step settings session line).1 = session ∧
      (step settings session line).2.output =
        settings.traced (parsedLine decls sessionFile ::
            Program.traceOf (session.declarations ++ decls)) ++
          "Semantic error: " ++ error.text ++ "\n"

/-- A line is resolved and evaluated as an expression on top of a session. -/
structure TakesExpression (settings : Settings) (session : Session) (line : String)
    (t : Term) : Prop where
  unchanged : (step settings session line).1 = session
  refused : ∀ error, session.program.resolveTerm t = .error error →
    (step settings session line).2.output =
      settings.traced (t.trace { program := session.program }) ++
        "Semantic error: " ++ error.text ++ "\n"
  evaluated : ∀ expr value console, session.program.resolveTerm t = .ok expr →
    (settings.evaluator session.program [] expr).run {} = .ok value console →
    (step settings session line).2.output =
      settings.traced (t.trace { program := session.program }) ++ console.output ++
        "=> " ++ value.format session.program.types ++ "\n"
  faulted : ∀ expr fault console, session.program.resolveTerm t = .ok expr →
    (settings.evaluator session.program [] expr).run {} = .error fault console →
    (step settings session line).2.fault = some fault

section Step

variable {settings : Settings} {session : Session} {line : String}

theorem ofLine_of_not_command (h : Text.stripText line ∉ commands) :
    Request.ofLine line =
      if (Text.visible (Text.expandTabs line.toList)).getLast? = some '.' then .declare
      else .evaluate := by
  have other {w : String} (hw : w ∈ commands) : Text.strip line.toList ≠ w.toList := by
    intro he
    refine h ?_
    rw [Text.stripText, he, String.ofList_toList]
    exact hw
  have hempty : (Text.strip line.toList).isEmpty = false := by
    rw [List.isEmpty_eq_false_iff]
    exact other (w := "") (by decide)
  unfold Request.ofLine
  rw [Text.expandTabs, Text.visible_expandTabsFrom, ← Text.getLast?_strip]
  simp only [if_neg (other (w := "exit.") (by decide)), hempty, Bool.false_eq_true, if_false,
    if_neg (other (w := ":help") (by decide)), if_neg (other (w := ":env") (by decide)),
    if_neg (other (w := ":types") (by decide))]

theorem takesDeclarations_of_declare {decls : List Declaration}
    (hrequest : Request.ofLine line = .declare) (hread : parseProgram line = .ok decls) :
    TakesDeclarations settings session line decls where
  joins := by
    intro program hprogram
    simp only [step, hrequest, declare, hread, hprogram, and_self]
  refused := by
    intro error herror
    simp only [step, hrequest, declare, hread, herror, and_self]

theorem takesExpression_of_evaluate {t : Term} (hrequest : Request.ofLine line = .evaluate)
    (hread : parseExpression line = .ok t) : TakesExpression settings session line t where
  unchanged := by simp only [step, hrequest]
  refused := by
    intro error herror
    simp only [step, hrequest, evaluate, hread, herror]
  evaluated := by
    intro expr value console hexpr hrun
    simp only [step, hrequest, evaluate, hread, hexpr, hrun]
  faulted := by
    intro expr fault console hexpr hrun
    simp only [step, hrequest, evaluate, hread, hexpr, hrun]
    cases fault <;> rfl

/-- A fault of the reading is all that a line is answered with. -/
theorem step_of_readingFault {fault : ParseFault} (h : readingFault? line = some fault) :
    step settings session line = (session,
      { output := "Parse error: " ++ (Diagnostic.ofFault line fault).inFile sessionFile ++ "\n" }) := by
  unfold readingFault? at h
  split at h
  · next hrequest =>
    split at h
    · cases h
    · next hread =>
      cases h
      simp only [step, hrequest, declare, hread]
  · next hrequest =>
    split at h
    · cases h
    · next hread =>
      cases h
      simp only [step, hrequest, evaluate, hread]
  · cases h

end Step

/-- A line that is no command and does not end in a comment is handled as what it is read as: as
declarations if it holds some, as an expression if it is one, and with a parse error if and only if
it is neither. -/
theorem step_goes_by_grammar (settings : Settings) (session : Session) {line : String}
    (hcommand : Text.stripText line ∉ commands)
    (hcomment : ¬EndsInComment (Text.expandTabs line.toList)) :
    (∀ decls, parseProgram line = .ok decls → decls ≠ [] →
      TakesDeclarations settings session line decls) ∧
    (∀ t, parseExpression line = .ok t → TakesExpression settings session line t) ∧
    ((∃ fault, readingFault? line = some fault) ↔
      (∀ decls, parseProgram line ≠ .ok decls) ∧ ∀ t, parseExpression line ≠ .ok t) ∧
    ∀ fault, readingFault? line = some fault → step settings session line = (session,
      { output := "Parse error: " ++ (Diagnostic.ofFault line fault).inFile sessionFile ++
          "\n" }) := by
  have hline := ofLine_of_not_command hcommand
  have hdeclare {decls : List Declaration} (h : parseProgram line = .ok decls) :
      Request.ofLine line = .declare := by
    have hne : decls ≠ [] := by
      rintro rfl
      have hempty := stripText_of_visible_nil (visible_of_programOf_nil h hcomment)
      exact hcommand (hempty ▸ List.mem_cons_self)
    rw [hline, if_pos (getLast?_of_programOf h hne hcomment)]
  have hevaluate {t : Term} (h : parseExpression line = .ok t) :
      Request.ofLine line = .evaluate := by
    obtain ⟨y, hy, hdot⟩ := getLast?_of_expressionOf h hcomment
    rw [hline, hy, if_neg fun he => hdot (Option.some.inj he)]
  refine ⟨fun decls h _ => takesDeclarations_of_declare (hdeclare h) h,
    fun t h => takesExpression_of_evaluate (hevaluate h) h, ?_, fun fault => step_of_readingFault⟩
  constructor
  · rintro ⟨fault, hfault⟩
    unfold readingFault? at hfault
    refine ⟨fun decls h => ?_, fun t h => ?_⟩
    · simp only [hdeclare h, h] at hfault
      cases hfault
    · simp only [hevaluate h, h] at hfault
      cases hfault
  · rintro ⟨hprogram, hexpression⟩
    by_cases hlast : (Text.visible (Text.expandTabs line.toList)).getLast? = some '.'
    · rw [if_pos hlast] at hline
      cases hread : parseProgram line with
      | ok decls => exact absurd hread (hprogram decls)
      | error fault => exact ⟨fault, by simp only [readingFault?, hline, hread]⟩
    · rw [if_neg hlast] at hline
      cases hread : parseExpression line with
      | ok t => exact absurd hread (hexpression t)
      | error fault => exact ⟨fault, by simp only [readingFault?, hline, hread]⟩

/-- A line without a hash sign ends in no comment, whatever blanks stand at its end. -/
theorem step_goes_by_grammar_blanks :
    let settings : Settings := { files := .ofVisits [], nesting := .ok 10 }
    Text.stripText "half x = x / 2. four = half 8 .\t " ∉ commands ∧
      ¬EndsInComment (Text.expandTabs "half x = x / 2. four = half 8 .\t ".toList) ∧
      ∃ decls, parseProgram "half x = x / 2. four = half 8 .\t " = .ok decls ∧ decls ≠ [] ∧
        TakesDeclarations settings initial "half x = x / 2. four = half 8 .\t " decls := by
  intro settings
  have hcommand : Text.stripText "half x = x / 2. four = half 8 .\t " ∉ commands := by
    decide +kernel
  have hcomment : ¬EndsInComment (Text.expandTabs "half x = x / 2. four = half 8 .\t ".toList) :=
    not_endsInComment_of_not_mem (by decide +kernel)
  have hread : (parseProgram "half x = x / 2. four = half 8 .\t ").toOption.any (·.length = 2) := by
    decide +kernel
  obtain ⟨decls, hsome, hlength⟩ := (Option.any_eq_true ..).1 hread
  have hdecls : parseProgram "half x = x / 2. four = half 8 .\t " = .ok decls :=
    toOption_eq_some.1 hsome
  have hne : decls ≠ [] := by
    rintro rfl
    cases hlength
  obtain ⟨hdeclarations, -⟩ := step_goes_by_grammar settings initial hcommand hcomment
  exact ⟨hcommand, hcomment, decls, hdecls, hne, hdeclarations decls hdecls hne⟩

/-- A declaration with a comment behind it is taken for an expression, and refused. -/
theorem comment_hides_declaration :
    let settings : Settings := { files := .ofVisits [], nesting := .ok 10 }
    let line := "f x = x. # identity"
    Text.stripText line ∉ commands ∧
      (∃ decls, parseProgram line = .ok decls ∧ decls ≠ []) ∧
      (∃ fault, readingFault? line = some fault) ∧
      (step settings initial line).1 = initial ∧
      (step settings initial line).2.output.startsWith "Parse error: " := by
  intro settings line
  have hread : (parseProgram line).toOption.any (·.length = 1) := by decide +kernel
  obtain ⟨decls, hsome, hlength⟩ := (Option.any_eq_true ..).1 hread
  have hfault : (readingFault? line).isSome := by decide +kernel
  obtain ⟨fault, hfault⟩ := Option.isSome_iff_exists.1 hfault
  have hdecls : parseProgram line = .ok decls := toOption_eq_some.1 hsome
  refine ⟨by decide +kernel, ⟨decls, hdecls, ?_⟩, ⟨fault, hfault⟩, ?_, ?_⟩
  · rintro rfl
    cases hlength
  · rw [step_of_readingFault hfault]
  · decide +kernel

end Session

end Fern
