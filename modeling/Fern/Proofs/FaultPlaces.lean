import Fern.Proofs.JoinedFaults
import Mathlib.Data.List.TakeWhile

/-!
# The first declaration that cannot be read

A report on a text that is no program points at a declaration: what stands before the place is a
program, and no declaration begins there. That what stands before it is read in the same way when
the text is cut off there is a matter of what may stand behind a declaration.

The place is an offset for the grammar, and a line and a column for whoever reads the report. The
line is found again among the lines of the text, and what the report shows of it is cut out at the
column, so both have to be counted alike.

Main statement: `parseProgram_points_into`.
-/

namespace Fern

open Syntax Fern.Parser

/-! ## Texts that are cut off -/

namespace Syntax

theorem Blank.declaration_eq_none {c : Cursor} (h : Blank c) (bound : Nat) :
    declaration bound c = none := by
  have hnone {α : Type} {p : Parser α} {test : Char → Bool} (hp : Opens p test) : p c = none := by
    refine hp c fun x hx => ?_
    rw [show c.skip.rest = [] from h] at hx
    cases hx
  refine Option.eq_none_iff_forall_not_mem.2 fun r hr => ?_
  have htype : typeDecl bound c = none := bind_eq_none (hnone (keyword_opens (by decide)))
  have hfunction : functionDecl bound c = none := bind_eq_none (hnone name_opens)
  rcases orElse_eq_some.1 hr with h | ⟨-, h⟩
  · rw [htype] at h
    cases h
  · rw [hfunction] at h
    cases h

theorem blank_of_fill {c : Cursor} (h : Fill c.rest) : Blank c := by
  obtain ⟨passed, hskip, -⟩ := h.skipFrom_append (fun _ => rfl : Visible []) c.previous
  rw [List.append_nil] at hskip
  exact congrArg Cursor.rest hskip

/-- Nothing that can touch a keyword stands before the place that a row of declarations leads to. -/
theorem previous_of_row {bound : Nat} {c last : Cursor} {decls : List Declaration}
    (h : Row (declaration bound) c decls last) (hb : c.rest.length ≤ bound) :
    last.previous = c.previous ∨ last.previous = some '.' := by
  induction h with
  | done => exact .inl rfl
  | item hdecl _ ih =>
      have hlt := declaration_progresses _ _ _ _ hdecl
      rw [previous_of_declaration hdecl hb] at ih
      exact .inr ((ih (by omega)).elim id id)

/-- What stands where a row of declarations has ended begins with no declaration when it is read
alone either. -/
theorem declaration_eq_none_behind {text : List Char} {last : Cursor} {decls : List Declaration}
    (h : Row (declaration (boundFor text)) (.start text) decls last) (hne : last.skip.rest ≠ []) :
    declaration (boundFor last.skip.rest) (.start last.skip.rest) = none := by
  have hb : (Cursor.start text).rest.length ≤ boundFor text := Nat.le_succ _
  -- A keyword may stand at the start of a text, and so it may behind a full stop or a blank.
  have hprevious : last.skip.previous.any isKeywordChar = false := by
    rcases skip_settles last with hsame | hnil | hblank
    · rw [hsame]
      rcases previous_of_row h hb with hstart | hdot
      · rw [hstart]
        rfl
      · rw [hdot]
        rfl
    · exact absurd hnil hne
    · exact hblank
  have hle : last.skip.rest.length ≤ text.length :=
    Nat.le_trans (Cursor.rest_skip_suffix last).length_le (h.rest_le (declaration_progresses _))
  have hnone : declaration (boundFor text) last.skip = none :=
    (declaration_skips _ _).trans h.stops
  have hbehind : Behind last.skip (.start last.skip.rest) := ⟨rfl, hprevious⟩
  have hsame : declaration (boundFor text) last.skip =
      declaration (boundFor last.skip.rest) (.start last.skip.rest) :=
    declaration_eq hbehind (Nat.lt_succ_of_le hle) (Nat.lt_succ_self _)
  exact hsame.symm.trans hnone

/-- A text that is no program fails at its first declaration that cannot be read: what stands before
it is a program, and no declaration begins there. -/
theorem programOf_cut {text : List Char} {fault : ParseFault} (h : programOf text = .error fault) :
    ∃ before behind, fault = .leftover before.length ∧ text = before ++ behind ∧
      (∃ x ∈ behind.head?, x ∉ [' ', '\t', '\n', '\r', '#']) ∧
      (∃ decls, programOf before = .ok decls) ∧
      declaration (boundFor behind) (.start behind) = none := by
  obtain ⟨decls, rest, ⟨last, hrow, hrest⟩, hne, rfl⟩ := programOf_eq_error.1 h
  have hb : (Cursor.start text).rest.length ≤ boundFor text := Nat.le_succ _
  subst hrest
  obtain ⟨gap, hfill, hgap⟩ := fill_of_skip hne
  obtain ⟨u, hu, hfront⟩ := reaches_in_front hrow hb
  have htext : text = u ++ gap ++ last.skip.rest := by
    rw [List.append_assoc, ← hgap]
    exact hu
  have hlength := congrArg List.length htext
  rw [List.length_append] at hlength
  refine ⟨u ++ gap, last.skip.rest, by rw [hlength, Nat.add_sub_cancel], htext, ?_, ⟨decls, ?_⟩, ?_⟩
  · obtain ⟨x, more, hx⟩ := List.exists_cons_of_ne_nil hne
    have hhead : last.skip.rest.head? = some x := by rw [hx]; rfl
    exact ⟨x, hhead, not_blank_of_skipFrom _ _ _ x hhead⟩
  · -- Cutting the text off brings nothing to touch the last full stop.
    have hsame : SameFront u last.rest gap (.start text) (.start (u ++ gap)) := by
      refine ⟨hu, rfl, rfl, fun hs => ?_⟩
      rw [hgap] at hs
      have hcut := hs.append fun _ => noSelector_nil
      rwa [List.append_nil] at hcut
    have hreads := hfront (.start (u ++ gap)) gap (boundFor (u ++ gap)) [] [] hsame (Nat.le_succ _)
      fun e he => by
        have hblank : Blank e := blank_of_fill (he ▸ hfill)
        exact ⟨e, .done (hblank.declaration_eq_none _), hblank⟩
    rw [List.append_nil] at hreads
    exact programOf_eq_ok.2 hreads
  · exact declaration_eq_none_behind hrow hne

end Syntax

/-! ## Lines -/

namespace Text

theorem length_lines (text : List Char) : (lines text).length = text.count '\n' + 1 := by
  induction text with
  | nil => rfl
  | cons c rest ih =>
      rw [lines] at ih ⊢
      rw [List.splitOn_cons_eq_if_modifyHead, List.count_cons]
      split
      · rw [List.length_cons, ih]
      · rw [List.length_modifyHead, ih, Nat.add_zero]

theorem newline_not_mem_of_mem_lines {text line : List Char} (h : line ∈ lines text) :
    '\n' ∉ line := by
  induction text generalizing line with
  | nil =>
      cases List.mem_singleton.1 h
      exact List.not_mem_nil
  | cons c rest ih =>
      rw [lines, List.splitOn_cons_eq_if_modifyHead] at h
      split at h
      · rcases List.mem_cons.1 h with rfl | h
        · exact List.not_mem_nil
        · exact ih h
      · next hc =>
        obtain ⟨first, others, hlines⟩ := List.exists_cons_of_ne_nil (List.splitOn_ne_nil '\n' rest)
        rw [lines, hlines] at ih
        rw [hlines, List.modifyHead_cons] at h
        rcases List.mem_cons.1 h with rfl | h
        · intro hm
          rcases List.mem_cons.1 hm with rfl | hm
          · exact hc (by simp)
          · exact ih List.mem_cons_self hm
        · exact ih (List.mem_cons_of_mem _ h)

theorem lines_append_newline (text behind : String) :
    lines (text ++ "\n" ++ behind).toList = lines text.toList ++ lines behind.toList := by
  rw [String.toList_append, String.toList_append, List.append_assoc]
  exact List.splitOn_append_cons_self _ _

/-- Texts that are joined by line feeds give the lines of them all. -/
theorem lines_intercalate_all {texts : List String} (hne : texts ≠ []) :
    lines ("\n".intercalate texts).toList = texts.flatMap fun text => lines text.toList := by
  induction texts with
  | nil => exact absurd rfl hne
  | cons text rest ih =>
      cases rest with
      | nil => rw [String.intercalate_singleton, List.flatMap_singleton]
      | cons next rest =>
          rw [String.intercalate_cons_cons, List.flatMap_cons, lines_append_newline,
            ih (List.cons_ne_nil _ _)]

/-- Lines that are joined by line feeds are found again. -/
theorem lines_intercalate {shown : List String} (hne : shown ≠ [])
    (h : ∀ line ∈ shown.map String.toList, '\n' ∉ line) :
    lines ("\n".intercalate shown).toList = shown.map String.toList := by
  rw [lines, String.toList_intercalate]
  exact List.splitOn_intercalate '\n' h (by simpa using hne)

/-- The first line of a text goes on up to the first line feed. -/
theorem lines_zero {start : List Char} (h : '\n' ∉ start) (behind : List Char) :
    (lines (start ++ behind))[0]? = some (start ++ behind.takeWhile (· ≠ '\n')) := by
  by_cases hmem : '\n' ∈ behind
  · obtain ⟨shown, others, rfl, hshown⟩ := List.eq_append_cons_of_mem hmem
    have htake : (shown ++ '\n' :: others).takeWhile (· ≠ '\n') = shown := by
      rw [List.takeWhile_append_of_pos fun c hc => by simpa using ne_of_mem_of_not_mem hc hshown,
        List.takeWhile_cons_of_neg (by simp), List.append_nil]
    have hfree : '\n' ∉ start ++ shown := fun hm => (List.mem_append.1 hm).elim h hshown
    rw [lines, ← List.append_assoc, List.splitOn_append_cons_self_of_not_mem hfree, htake]
    rfl
  · have htake : behind.takeWhile (· ≠ '\n') = behind :=
      List.takeWhile_eq_self_iff.2 fun c hc => by simpa using ne_of_mem_of_not_mem hc hmem
    have hfree : '\n' ∉ start ++ behind := fun hm => (List.mem_append.1 hm).elim h hmem
    rw [lines, List.splitOn_eq_singleton hfree, htake]
    rfl

/-- The line that a place is in begins behind the last line feed before it. -/
theorem exists_line (before behind : List Char) :
    ∃ start, start.length = (before.reverse.takeWhile (· ≠ '\n')).length ∧
      (lines (before ++ behind))[before.count '\n']? =
        some (start ++ behind.takeWhile (· ≠ '\n')) := by
  by_cases hmem : '\n' ∈ before
  · -- The last line feed is the first one of the text backwards.
    obtain ⟨back, front, hback, hfree⟩ := List.eq_append_cons_of_mem (List.mem_reverse.2 hmem)
    have hbefore : before = front.reverse ++ '\n' :: back.reverse := by
      rw [← List.reverse_reverse before, hback]
      simp
    have hstart : '\n' ∉ back.reverse := fun hm => hfree (List.mem_reverse.1 hm)
    have htake : before.reverse.takeWhile (· ≠ '\n') = back := by
      rw [hback, List.takeWhile_append_of_pos fun c hc => by
        simpa using ne_of_mem_of_not_mem hc hfree, List.takeWhile_cons_of_neg (by simp),
        List.append_nil]
    have hcount : before.count '\n' = (lines front.reverse).length := by
      rw [length_lines, hbefore, List.count_append, List.count_cons_self,
        List.count_eq_zero.2 hstart]
    refine ⟨back.reverse, by rw [htake, List.length_reverse], ?_⟩
    have hlines :
        lines (before ++ behind) = lines front.reverse ++ lines (back.reverse ++ behind) := by
      rw [lines, hbefore, List.append_assoc, List.cons_append, List.splitOn_append_cons_self]
      rfl
    rw [hlines, hcount, List.getElem?_append_right (Nat.le_refl _), Nat.sub_self]
    exact lines_zero hstart behind
  · have htake : before.reverse.takeWhile (· ≠ '\n') = before.reverse :=
      List.takeWhile_eq_self_iff.2 fun c hc => by
        simpa using ne_of_mem_of_not_mem (List.mem_reverse.1 hc) hmem
    refine ⟨before, by rw [htake, List.length_reverse], ?_⟩
    rw [List.count_eq_zero.2 hmem]
    exact lines_zero hmem behind

end Text

/-! ## Reports -/

namespace Diagnostic

/-- What a report shows of a text that was found. -/
def shownAs (text : List Char) : String :=
  let shown := Text.strip text
  if shown.isEmpty then "end of line" else "'" ++ String.ofList shown ++ "'"

theorem shownAs_ne (text : List Char) : shownAs text ≠ "end of input" := by
  rw [shownAs]
  split
  · decide
  · intro h
    have hhead := congrArg (fun shown => shown.toList.head?) h
    rw [String.toList_append, String.toList_append] at hhead
    cases hhead

/-- Counting from the end does not matter for a place that is no less than zero. -/
theorem fromEnd_natCast (length n : Nat) : fromEnd length n = n := if_neg (by omega)

theorem cut_natCast {α : Type} (first last : Nat) (items : List α) :
    cut first last items = (items.take last).drop first := by
  rw [cut, fromEnd_natCast, fromEnd_natCast, Int.toNat_natCast, Int.toNat_natCast]

/-- Inside a line, a report shows what stands there. -/
theorem found?_eq {source : String} {row column : Nat} {shown : List Char}
    (hshown : (Text.lines source.toList)[row]? = some shown) (hcolumn : column < shown.length) :
    found? source (row + 1 : Nat) (column + 1 : Nat) =
      some (shownAs ((shown.drop column).take excerptLength)) := by
  have hrow : row < (Text.lines source.toList).length := (List.getElem?_eq_some_iff.1 hshown).1
  have hindex : ((row + 1 : Nat) : Int) - 1 = row := by omega
  have hfirst : max 0 (((column + 1 : Nat) : Int) - 1) = column := by omega
  have hlast : min (shown.length : Int) (((column + 1 : Nat) : Int) - 1 + excerptLength) =
      ((min shown.length (column + excerptLength) : Nat) : Int) := by omega
  have hexcerpt : (shown.take (min shown.length (column + excerptLength))).drop column =
      (shown.drop column).take excerptLength := by
    rw [Nat.min_comm, List.take_eq_take_min.symm, List.drop_take, Nat.add_sub_cancel_left]
  simp only [found?]
  rw [if_neg (by omega), hindex, fromEnd_natCast, if_neg (by omega), Int.toNat_natCast, hshown]
  simp only
  rw [if_neg (by omega), hfirst, hlast, cut_natCast, hexcerpt]
  rfl

/-- A place that is no line feed is reported by its line and column, with what stands there. -/
theorem report_place {source : String} {before others : List Char} {x : Char}
    (hsource : source.toList = before ++ x :: others) (hx : x ≠ '\n') (complaint : String) :
    ∃ (row column : Nat) (shown : List Char),
      (report source source.toList before.length complaint).line = row + 1 ∧
      (report source source.toList before.length complaint).column = column + 1 ∧
      before.count '\n' = row ∧ (Text.lines source.toList)[row]? = some shown ∧
      shown[column]? = some x ∧
      (report source source.toList before.length complaint).got =
        some (shownAs ((shown.drop column).take excerptLength)) := by
  obtain ⟨start, hlength, hshown⟩ := Text.exists_line before (x :: others)
  rw [← hsource, List.takeWhile_cons_of_pos (by simpa using hx)] at hshown
  have htake : source.toList.take before.length = before := by rw [hsource, List.take_left]
  have hline : Text.lineAt source.toList before.length = before.count '\n' + 1 := by
    rw [Text.lineAt, htake]
  have hcolumn : Text.columnAt source.toList before.length = start.length + 1 := by
    have hover : before.length - source.toList.length = 0 := by
      rw [hsource, List.length_append]
      omega
    rw [Text.columnAt, htake, hover, hlength, Nat.add_zero]
  have hfound := found?_eq hshown (show start.length < _ by simp)
  refine ⟨_, start.length, _, congrArg Int.ofNat hline, congrArg Int.ofNat hcolumn, rfl, hshown,
    by simp, ?_⟩
  rw [report, hline, hcolumn, hfound]
  rfl

end Diagnostic

/-! ## Reports on programs -/

/-- A report points at the first declaration of a text that cannot be read. -/
structure Diagnostic.PointsInto (source : String) (d : Diagnostic) : Prop where
  inside : d.location < source.toList.length
  /-- What stands before the place is a program. -/
  before : ∃ decls, parseProgram (String.ofList (source.toList.take d.location)) = .ok decls
  /-- No declaration begins there. -/
  behind : parseElement declaration false (String.ofList (source.toList.drop d.location)) = none
  /-- Line and column are those of the place, and what was found is what stands there. -/
  place : ∃ (row column : Nat) (shown : List Char), d.line = row + 1 ∧ d.column = column + 1 ∧
    (source.toList.take d.location).count '\n' = row ∧
    (Text.lines source.toList)[row]? = some shown ∧
    shown[column]? = source.toList[d.location]? ∧
    d.got = some (Diagnostic.shownAs ((shown.drop column).take 11))
  notEnd : d.got ≠ some "end of input"

namespace Syntax

theorem expandTabs_ofList {text : List Char} (h : '\t' ∉ text) :
    Text.expandTabs (String.ofList text).toList = text := by
  rw [String.toList_ofList]
  exact Text.expandTabsFrom_of_not_mem h 0

/-- A text without tabs that is no program is reported on at its first declaration that cannot be
read. -/
theorem parseProgram_points_into {source : String} (htab : '\t' ∉ source.toList)
    {fault : ParseFault} (h : parseProgram source = .error fault) :
    (Diagnostic.ofFault source fault).PointsInto source := by
  have hsame : Text.expandTabs source.toList = source.toList :=
    Text.expandTabsFrom_of_not_mem htab 0
  rw [parseProgram, hsame] at h
  obtain ⟨before, behind, rfl, hsource, ⟨x, hx, hvisible⟩, ⟨decls, hbefore⟩, hbehind⟩ :=
    programOf_cut h
  obtain ⟨others, rfl⟩ := List.head?_eq_some_iff.1 hx
  have hline : x ≠ '\n' := by
    rintro rfl
    exact hvisible (by decide)
  have hreport : Diagnostic.ofFault source (.leftover before.length) =
      Diagnostic.report source source.toList before.length "Expected end of text" := by
    rw [Diagnostic.ofFault, hsame]
  obtain ⟨row, column, shown, hrow, hcolumn, hcount, hshown, hchar, hgot⟩ :=
    Diagnostic.report_place hsource hline "Expected end of text"
  have htake : source.toList.take before.length = before := by rw [hsource, List.take_left]
  have hdrop : source.toList.drop before.length = x :: others := by rw [hsource, List.drop_left]
  have hlocation : (Diagnostic.report source source.toList before.length
      "Expected end of text").location = before.length := rfl
  rw [hsource, List.mem_append, not_or] at htab
  rw [hreport]
  refine ⟨?inside, ⟨decls, ?before⟩, ?behind,
    ⟨row, column, shown, hrow, hcolumn, ?count, hshown, ?shown, hgot⟩, ?notEnd⟩
  case inside =>
      rw [hlocation, hsource, List.length_append, List.length_cons]
      omega
  case before =>
      rw [hlocation, htake, parseProgram, expandTabs_ofList htab.1]
      exact hbefore
  case behind =>
      rw [hlocation, hdrop, parseElement, expandTabs_ofList htab.2]
      simp only [hbehind]
  case count =>
      rw [hlocation, htake]
      exact hcount
  case shown =>
      rw [hlocation, hchar, hsource, List.getElem?_append_right (Nat.le_refl _), Nat.sub_self]
      rfl
  case notEnd =>
      rw [hgot]
      exact fun h => Diagnostic.shownAs_ne _ (Option.some.inj h)

/-- Behind a function, a comment and an empty line there is a type whose full stop touches the
beginning of an unfinished function. -/
theorem parseProgram_points_into_unfinished :
    ∃ fault, '\t' ∉ "f x = x. # one\n\n type T = A | B.g y = f y".toList ∧
      parseProgram "f x = x. # one\n\n type T = A | B.g y = f y" = .error fault ∧
      (Diagnostic.ofFault "f x = x. # one\n\n type T = A | B.g y = f y" fault).PointsInto
        "f x = x. # one\n\n type T = A | B.g y = f y" ∧
      (Diagnostic.ofFault "f x = x. # one\n\n type T = A | B.g y = f y" fault).location = 32 ∧
      (Diagnostic.ofFault "f x = x. # one\n\n type T = A | B.g y = f y" fault).got =
        some "'g y = f y'" := by
  have htab : '\t' ∉ "f x = x. # one\n\n type T = A | B.g y = f y".toList := by decide
  have hread : (match parseProgram "f x = x. # one\n\n type T = A | B.g y = f y" with
      | .ok _ => none
      | .error fault => some fault) = some (.leftover 32) := by
    decide +kernel
  cases h : parseProgram "f x = x. # one\n\n type T = A | B.g y = f y" with
  | ok decls =>
      rw [h] at hread
      cases hread
  | error fault =>
      rw [h] at hread
      cases hread
      exact ⟨_, htab, rfl, parseProgram_points_into htab h, rfl, by decide +kernel⟩

end Syntax

end Fern
