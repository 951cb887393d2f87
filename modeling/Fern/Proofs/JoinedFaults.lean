import Fern.Diagnostic
import Fern.Proofs.JoinedText

/-!
# Where a joined text fails

A text that is no program is none behind a program and a line feed either, and it is blamed on the
same declaration. The report on it only moves: further on by what stands in front of it, down by the
lines of that, and not at all within its line, because the line feed starts a new one.

Main statement: whatever the second of two texts says when it is read alone, declarations or a
fault, the joined text says of it too (`parseProgram_joined`).
-/

namespace Fern

open Syntax

/-! ## Positions in joined texts -/

/-- A line feed is neither made nor lost by expanding tabs. -/
theorem count_expandTabsFrom (column : Nat) (text : List Char) :
    (Text.expandTabsFrom column text).count '\n' = text.count '\n' := by
  induction text generalizing column with
  | nil => rfl
  | cons c rest ih =>
      rw [Text.expandTabsFrom]
      split
      · next ht =>
        have hblanks : (List.replicate (Text.tabWidth - column % Text.tabWidth) ' ').count '\n' = 0 :=
          List.count_eq_zero.2 fun h => absurd (List.eq_of_mem_replicate h) (by decide)
        subst ht
        simp only [List.count_append, hblanks, ih, Nat.zero_add]
        exact (List.count_cons_of_ne (by decide)).symm
      · split
        · rw [List.count_cons, List.count_cons, ih]
        · rw [List.count_cons, List.count_cons, ih]

theorem count_expandTabs (text : List Char) :
    (Text.expandTabs text).count '\n' = text.count '\n' :=
  count_expandTabsFrom 0 text

theorem take_joined (before behind : List Char) (offset : Nat) :
    (before ++ '\n' :: behind).take (before.length + 1 + offset) =
      before ++ '\n' :: behind.take offset := by
  rw [Nat.add_assoc, List.take_length_add_append, Nat.add_comm 1, List.take_succ_cons]

theorem lineAt_joined (before behind : List Char) (offset : Nat) :
    Text.lineAt (before ++ '\n' :: behind) (before.length + 1 + offset) =
      Text.lineAt behind offset + 1 + before.count '\n' := by
  unfold Text.lineAt
  rw [take_joined, List.count_append, List.count_cons_self]
  omega

/-- Looking back for a line feed stops at the one that was put in. -/
theorem takeWhile_joined (taken before : List Char) :
    ((before ++ '\n' :: taken).reverse.takeWhile (· ≠ '\n')) =
      taken.reverse.takeWhile (· ≠ '\n') := by
  rw [List.reverse_append, List.reverse_cons, List.append_assoc]
  generalize taken.reverse = back
  induction back with
  | nil => rfl
  | cons c back ih =>
      rw [List.cons_append, List.takeWhile_cons, List.takeWhile_cons]
      split
      · rw [ih]
      · rfl

theorem columnAt_joined (before behind : List Char) (offset : Nat) :
    Text.columnAt (before ++ '\n' :: behind) (before.length + 1 + offset) =
      Text.columnAt behind offset := by
  have hlength : before.length + 1 + offset - (before ++ '\n' :: behind).length =
      offset - behind.length := by
    rw [List.length_append, List.length_cons]
    omega
  unfold Text.columnAt
  rw [take_joined, takeWhile_joined, hlength]

/-! ## Faults in joined texts -/

namespace Syntax

theorem Reaches.length_le {bound : Nat} {c : Cursor} {decls : List Declaration} {rest : List Char}
    (h : Reaches bound c decls rest) : rest.length ≤ c.rest.length := by
  obtain ⟨last, hrow, rfl⟩ := h
  exact Nat.le_trans (Cursor.rest_skip_suffix last).length_le
    (hrow.rest_le (declaration_progresses bound))

/-- Behind a program and a line feed, a text fails where it fails alone. -/
theorem programOf_append_error {before behind : List Char} {decls : List Declaration}
    {fault : ParseFault} (h : programOf before = .ok decls) (hf : programOf behind = .error fault) :
    ∃ offset, fault = .leftover offset ∧
      programOf (before ++ '\n' :: behind) = .error (.leftover (before.length + 1 + offset)) := by
  obtain ⟨others, rest, hr, hne, rfl⟩ := programOf_eq_error.1 hf
  refine ⟨_, rfl, programOf_eq_error.2 ⟨_, rest, reaches_append h hr, hne, ?_⟩⟩
  have hle : rest.length ≤ behind.length := hr.length_le
  rw [List.length_append, List.length_cons]
  congr 1
  omega

/-- Of two texts with a line feed between them, the first of which is a program, the second is read
as it is alone: its declarations come behind those of the first, and where it is no program the
report on it is moved to where it stands. -/
theorem parseProgram_joined {before behind : String} {decls : List Declaration}
    (h : parseProgram before = .ok decls) :
    (∀ others, parseProgram behind = .ok others →
      parseProgram (before ++ "\n" ++ behind) = .ok (decls ++ others)) ∧
    (∀ fault, parseProgram behind = .error fault →
      ∃ fault', parseProgram (before ++ "\n" ++ behind) = .error fault' ∧
        (Diagnostic.ofFault (before ++ "\n" ++ behind) fault').location =
          (Text.expandTabs before.toList).length + 1 +
            (Diagnostic.ofFault behind fault).location ∧
        (Diagnostic.ofFault (before ++ "\n" ++ behind) fault').line =
          (Diagnostic.ofFault behind fault).line + 1 + before.toList.count '\n' ∧
        (Diagnostic.ofFault (before ++ "\n" ++ behind) fault').column =
          (Diagnostic.ofFault behind fault).column) := by
  refine ⟨fun others ho => parseProgram_append h ho, fun fault hf => ?_⟩
  have hchars := expandTabs_line before behind
  obtain ⟨offset, rfl, hjoined⟩ := programOf_append_error h hf
  rw [← hchars] at hjoined
  refine ⟨_, hjoined, rfl, ?_, ?_⟩
  · simp only [Diagnostic.ofFault, Diagnostic.report, hchars, lineAt_joined, count_expandTabs]
    omega
  · simp only [Diagnostic.ofFault, Diagnostic.report, hchars, columnAt_joined]

/-- The first text ends in a comment and holds a tab, and the second lacks its last full stop. -/
theorem parseProgram_joined_unfinished :
    ∃ decls fault fault', parseProgram "f x = x.\n\tg = f 1. # one" = .ok decls ∧
      parseProgram "h = g.\n  k = h" = .error fault ∧
      parseProgram ("f x = x.\n\tg = f 1. # one" ++ "\n" ++ "h = g.\n  k = h") = .error fault' ∧
      (Diagnostic.ofFault ("f x = x.\n\tg = f 1. # one" ++ "\n" ++ "h = g.\n  k = h")
        fault').location = 41 ∧
      (Diagnostic.ofFault ("f x = x.\n\tg = f 1. # one" ++ "\n" ++ "h = g.\n  k = h")
        fault').line = 4 ∧
      (Diagnostic.ofFault ("f x = x.\n\tg = f 1. # one" ++ "\n" ++ "h = g.\n  k = h")
        fault').column = 3 := by
  have hbefore : (parseProgram "f x = x.\n\tg = f 1. # one").isOk := by decide +kernel
  have hbehind : (match parseProgram "h = g.\n  k = h" with
      | .ok _ => none
      | .error fault => some fault) = some (.leftover 9) := by
    decide +kernel
  cases hb : parseProgram "f x = x.\n\tg = f 1. # one" with
  | error fault =>
      rw [hb] at hbefore
      cases hbefore
  | ok decls =>
      cases hf : parseProgram "h = g.\n  k = h" with
      | ok others =>
          rw [hf] at hbehind
          cases hbehind
      | error fault =>
          rw [hf] at hbehind
          cases hbehind
          obtain ⟨fault', hfault, hlocation, hline, hcolumn⟩ := (parseProgram_joined hb).2 _ hf
          refine ⟨decls, _, fault', rfl, rfl, hfault, hlocation.trans ?_, hline.trans ?_,
            hcolumn.trans ?_⟩
          · decide +kernel
          · decide +kernel
          · decide +kernel

end Syntax

end Fern
