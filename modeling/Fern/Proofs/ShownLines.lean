import Fern.Diagnostic
import Fern.Proofs.FaultPlaces

/-!
# The lines around a place

A report shows the lines near the line of a fault, each behind its number, and a marker in a line of
its own. The numbers are padded to four places, and the marker is indented as if they took no more.
So it stands below its column in the first 9999 lines of a text, and to the left of it in all
others.

Main statement: `marker_below_column_iff`.
-/

namespace Fern.Diagnostic

/-! ## Shown lines -/

/-- The text in front of a shown line: blanks, the number of the line, a colon and a blank. -/
def IsNumbering (number : Nat) (front : List Char) : Prop :=
  ∃ pad, front = List.replicate pad ' ' ++ Nat.toDigits 10 number ++ [':', ' ']

/-- A line is shown behind its number, which counts from one. -/
def ShowsLine (source : String) (number : Nat) (shown : List Char) : Prop :=
  ∃ front text, IsNumbering number front ∧
    (Text.lines source.toList)[number - 1]? = some text ∧ shown = front ++ text

/-- Exactly the lines of a text that are no more than two lines away from a line are shown, in their
order. -/
def ShowsAround (source : String) (line : Nat) (shown : List (List Char)) : Prop :=
  ∃ numbers : List Nat, numbers.Pairwise (· < ·) ∧
    (∀ n, n ∈ numbers ↔
      1 ≤ n ∧ n ≤ (Text.lines source.toList).length ∧ n ≤ line + 2 ∧ line ≤ n + 2) ∧
    List.Forall₂ (ShowsLine source) numbers shown

/-- What stands in front of a line of a report. -/
def numbering (number : Nat) : List Char :=
  (Nat.toDigits 10 number).leftpad numberWidth ' ' ++ [':', ' ']

theorem isNumbering_numbering (number : Nat) : IsNumbering number (numbering number) :=
  ⟨_, rfl⟩

/-- Numbers take four places at least. -/
theorem length_numbering (number : Nat) :
    (numbering number).length = max 4 (Nat.toDigits 10 number).length + 2 := by
  rw [numbering, List.length_append, List.length_leftpad]
  rfl

theorem toList_numberedLine (number : Nat) (text : List Char) :
    (numberedLine number text).toList = numbering number ++ text := by
  rw [numberedLine, Text.padLeft, show toString number = number.repr from rfl, Nat.toList_repr]
  simp only [String.toList_append, String.toList_ofList]
  rfl

/-- Lines behind their numbers, from a number on. -/
def numberedLines : (number : Nat) → List (List Char) → List (List Char)
  | _, [] => []
  | number, text :: rest => (numbering number ++ text) :: numberedLines (number + 1) rest

theorem numberedLines_append (number : Nat) (texts texts' : List (List Char)) :
    numberedLines number (texts ++ texts') =
      numberedLines number texts ++ numberedLines (number + texts.length) texts' := by
  induction texts generalizing number with
  | nil => rfl
  | cons text rest ih =>
      rw [List.cons_append, numberedLines, ih, numberedLines, List.cons_append, List.length_cons,
        Nat.add_right_comm, Nat.add_assoc]

/-- Each line of a part of a text is shown behind its number. -/
theorem showsLine_numberedLines {source : String} {before shown behind : List (List Char)}
    (h : Text.lines source.toList = before ++ (shown ++ behind)) :
    List.Forall₂ (ShowsLine source) (List.range' (before.length + 1) shown.length)
      (numberedLines (before.length + 1) shown) := by
  induction shown generalizing before with
  | nil => exact .nil
  | cons text rest ih =>
      refine .cons ⟨_, text, isNumbering_numbering _, ?_, rfl⟩ ?_
      · rw [Nat.add_sub_cancel, h, List.getElem?_append_right (Nat.le_refl _), Nat.sub_self]
        rfl
      · have hrest := @ih (before ++ [text]) (by rw [h]; simp)
        rwa [List.length_append, List.length_singleton] at hrest

/-! ## The marker -/

theorem toList_marker (column : Nat) :
    (marker (column + 1 : Nat)).toList =
      List.replicate (6 + column) ' ' ++ '^' :: " Error here".toList := by
  have hcolumn : (((column + 1 : Nat) : Int) - 1).toNat = column := by omega
  rw [marker, hcolumn, Text.blankRun, Text.blankRun, String.toList_append, String.toList_append,
    String.toList_ofList, String.toList_ofList, ← List.replicate_add]
  rfl

/-- The marker points at one column only. -/
theorem getElem?_marker_iff (column offset : Nat) :
    (marker (column + 1 : Nat)).toList[offset]? = some '^' ↔ offset = 6 + column := by
  rw [toList_marker]
  constructor
  · intro h
    rcases Nat.lt_trichotomy offset (6 + column) with hlt | heq | hgt
    · rw [List.getElem?_append_left (by simpa using hlt)] at h
      exact absurd (List.eq_of_mem_replicate (List.mem_of_getElem? h)) (by decide)
    · exact heq
    · obtain ⟨k, rfl⟩ : ∃ k, offset = 6 + column + (k + 1) := ⟨offset - (6 + column) - 1, by omega⟩
      rw [List.getElem?_append_right (by simp), List.length_replicate,
        Nat.add_sub_cancel_left, List.getElem?_cons_succ] at h
      exact absurd (List.mem_of_getElem? h) (by decide)
  · rintro rfl
    rw [List.getElem?_append_right (by simp), List.length_replicate, Nat.sub_self]
    rfl

/-- Lines in front of the line of the fault, or behind it, are shown without a marker. -/
theorem markedLines_of_apart {line column : Int} {number : Nat} {shown : List (List Char)}
    (h : line < number ∨ number + shown.length ≤ line) :
    (markedLines line column number shown).map String.toList = numberedLines number shown := by
  induction shown generalizing number with
  | nil => rfl
  | cons text rest ih =>
      rw [List.length_cons] at h
      rw [markedLines, if_neg (by omega), List.map_cons, toList_numberedLine, ih (by omega)]
      rfl

/-- The marker stands behind the line of the fault. -/
theorem markedLines_append (column : Int) (number : Nat) (above below : List (List Char))
    (text : List Char) :
    (markedLines (number + above.length : Nat) column number (above ++ text :: below)).map
        String.toList =
      numberedLines number above ++ (numbering (number + above.length) ++ text) ::
        (marker column).toList :: numberedLines (number + above.length + 1) below := by
  induction above generalizing number with
  | nil =>
      rw [List.length_nil, Nat.add_zero, List.nil_append, markedLines, if_pos rfl, List.map_cons,
        List.map_cons, toList_numberedLine, markedLines_of_apart (.inl (by omega))]
      rfl
  | cons shown rest ih =>
      have hnumber : number + (shown :: rest).length = number + 1 + rest.length := by
        rw [List.length_cons, Nat.add_right_comm, Nat.add_assoc]
      rw [List.cons_append, markedLines, if_neg (by simp; omega), List.map_cons,
        toList_numberedLine, hnumber, ih]
      rfl

/-! ## Reports -/

theorem newline_not_mem_numbering (number : Nat) : '\n' ∉ numbering number := by
  intro hm
  rw [numbering, List.leftpad, List.append_assoc] at hm
  rcases List.mem_append.1 hm with hm | hm
  · exact absurd (List.eq_of_mem_replicate hm) (by decide)
  rcases List.mem_append.1 hm with hm | hm
  · exact absurd (Nat.isDigit_of_mem_toDigits (by decide) (by decide) hm) (by decide)
  · exact absurd hm (by decide)

theorem newline_not_mem_marker (column : Nat) : '\n' ∉ (marker (column + 1 : Nat)).toList := by
  rw [toList_marker]
  intro hm
  rcases List.mem_append.1 hm with hm | hm
  · exact absurd (List.eq_of_mem_replicate hm) (by decide)
  · exact absurd hm (by decide)

/-- What is shown of lines are lines. -/
theorem newline_not_mem_markedLines {line : Int} {column number : Nat} {texts : List (List Char)}
    (h : ∀ text ∈ texts, '\n' ∉ text) :
    ∀ shown ∈ (markedLines line (column + 1 : Nat) number texts).map String.toList,
      '\n' ∉ shown := by
  induction texts generalizing number with
  | nil => exact fun _ hm => absurd hm List.not_mem_nil
  | cons text rest ih =>
      obtain ⟨htext, hrest⟩ := List.forall_mem_cons.1 h
      have hshown : '\n' ∉ (numberedLine number text).toList := by
        rw [toList_numberedLine]
        exact fun hm => (List.mem_append.1 hm).elim (newline_not_mem_numbering number) htext
      rw [markedLines]
      split
      · exact List.forall_mem_cons.2
          ⟨hshown, List.forall_mem_cons.2 ⟨newline_not_mem_marker column, ih hrest⟩⟩
      · exact List.forall_mem_cons.2 ⟨hshown, ih hrest⟩

/-- A report is made of the lines at most two lines away. -/
theorem contextLines_eq {source : String} {before behind : List (List Char)} {text : List Char}
    (column : Int) (h : Text.lines source.toList = before ++ text :: behind) :
    contextLines source (before.length + 1 : Nat) column contextReach =
      "\n".intercalate (markedLines (before.length + 1 : Nat) column (before.length - 2 + 1)
        (before.drop (before.length - 2) ++ text :: behind.take 2)) := by
  have hfirst :
      (((before.length + 1 : Nat) : Int) - contextReach - 1).toNat = before.length - 2 := by
    rw [contextReach]
    omega
  have hlast : (((before.length + 1 : Nat) : Int) + contextReach).toNat = before.length + 3 := by
    rw [contextReach]
    omega
  have hwindow : ((before ++ text :: behind).take (before.length + 3)).drop (before.length - 2) =
      before.drop (before.length - 2) ++ text :: behind.take 2 := by
    rw [List.take_append, List.take_of_length_le (by omega), Nat.add_sub_cancel_left,
      List.take_succ_cons, List.drop_append_of_le_length (by omega)]
  simp only [contextLines]
  rw [hfirst, hlast, h, hwindow]

/-- In a report the lines stand behind their numbers, and the marker behind one of them. -/
theorem lines_contextLines {source : String} {before behind : List (List Char)}
    {text : List Char} (column : Nat) (h : Text.lines source.toList = before ++ text :: behind) :
    Text.lines (contextLines source (before.length + 1 : Nat) (column + 1 : Nat)
        contextReach).toList =
      numberedLines (before.length - 2 + 1) (before.drop (before.length - 2)) ++
        (numbering (before.length + 1) ++ text) :: (marker (column + 1 : Nat)).toList ::
          numberedLines (before.length + 2) (behind.take 2) := by
  have hnumber : before.length - 2 + 1 + (before.drop (before.length - 2)).length =
      before.length + 1 := by
    rw [List.length_drop]
    omega
  have hmarked := markedLines_append (column + 1 : Nat) (before.length - 2 + 1)
    (before.drop (before.length - 2)) (behind.take 2) text
  rw [hnumber] at hmarked
  have hplain : ∀ shown ∈ before.drop (before.length - 2) ++ text :: behind.take 2,
      '\n' ∉ shown := by
    intro shown hm
    suffices hm : shown ∈ Text.lines source.toList from Text.newline_not_mem_of_mem_lines hm
    rw [h]
    rcases List.mem_append.1 hm with hm | hm
    · exact List.mem_append_left _ (List.mem_of_mem_drop hm)
    · refine List.mem_append_right _ ?_
      exact (List.mem_cons.1 hm).elim (· ▸ List.mem_cons_self)
        fun hm => List.mem_cons_of_mem _ (List.mem_of_mem_take hm)
  rw [contextLines_eq _ h,
    Text.lines_intercalate (fun hnil => ?_) (newline_not_mem_markedLines hplain), hmarked]
  rw [hnil] at hmarked
  exact List.append_ne_nil_of_right_ne_nil _ (List.cons_ne_nil _ _) hmarked.symm

/-- What is shown around a line are the lines at most two lines away from it. -/
theorem showsAround_numberedLines {source : String} {before behind : List (List Char)}
    {text : List Char} (h : Text.lines source.toList = before ++ text :: behind) :
    ShowsAround source (before.length + 1)
      (numberedLines (before.length - 2 + 1) (before.drop (before.length - 2)) ++
        (numbering (before.length + 1) ++ text) ::
          numberedLines (before.length + 2) (behind.take 2)) := by
  have hlines : Text.lines source.toList = before.take (before.length - 2) ++
      ((before.drop (before.length - 2) ++ text :: behind.take 2) ++ behind.drop 2) := by
    rw [h, List.append_assoc, List.cons_append, List.take_append_drop, ← List.append_assoc,
      List.take_append_drop]
  have hshows := showsLine_numberedLines hlines
  have htaken : (before.take (before.length - 2)).length = before.length - 2 := by
    rw [List.length_take]
    omega
  have hnumber : before.length - 2 + 1 + (before.drop (before.length - 2)).length =
      before.length + 1 := by
    rw [List.length_drop]
    omega
  rw [htaken, numberedLines_append, numberedLines, hnumber] at hshows
  refine ⟨_, List.pairwise_lt_range', fun n => ?_, hshows⟩
  rw [List.mem_range'_1, h]
  simp only [List.length_append, List.length_drop, List.length_cons, List.length_take]
  omega

/-- Around a place in a text exactly the lines at most two lines away are shown, in order and each
behind its number, and the line behind the line of the place has its marker below the place exactly
if the number of the line has four digits at most. -/
theorem marker_below_column_iff {source : String} {row : Nat} {text : List Char}
    (htext : (Text.lines source.toList)[row]? = some text) (column : Nat) :
    ∃ above front mark below,
      Text.lines (contextLines source (row + 1 : Nat) (column + 1 : Nat) contextReach).toList =
        above ++ (front ++ text) :: mark :: below ∧
      ShowsAround source (row + 1) (above ++ (front ++ text) :: below) ∧
      IsNumbering (row + 1) front ∧ mark.count '^' = 1 ∧
      (front ++ text)[front.length + column]? = text[column]? ∧
      (mark[front.length + column]? = some '^' ↔ row + 1 < 10000) := by
  obtain ⟨hrow, rfl⟩ := List.getElem?_eq_some_iff.1 htext
  have hlines : Text.lines source.toList = (Text.lines source.toList).take row ++
      (Text.lines source.toList)[row] :: (Text.lines source.toList).drop (row + 1) := by
    rw [List.getElem_cons_drop, List.take_append_drop]
  have hlength : ((Text.lines source.toList).take row).length = row := by
    rw [List.length_take]
    omega
  have hshown := lines_contextLines column hlines
  have haround := showsAround_numberedLines hlines
  rw [hlength] at hshown haround
  refine ⟨_, _, _, _, hshown, haround, isNumbering_numbering _, ?count, ?place, ?below⟩
  case count =>
      rw [toList_marker, List.count_append, List.count_replicate, if_neg (by decide),
        List.count_cons_self]
      decide
  case place => rw [List.getElem?_append_right (by omega), Nat.add_sub_cancel_left]
  case below =>
      have hdigits : (Nat.toDigits 10 (row + 1)).length ≤ 4 ↔ row + 1 < 10 ^ 4 :=
        Nat.length_toDigits_le_iff (by decide) (by decide)
      rw [getElem?_marker_iff, length_numbering]
      omega

/-- The lines near the third of seven lines, of which the last is empty. -/
theorem marker_below_column_iff_third :
    let source := "a = 1.\nb = 2.\nmain u = (a.\n\nc = 3.\nd = 4.\n"
    (Text.lines source.toList)[2]? = some "main u = (a.".toList ∧
      ∃ above front mark below,
        Text.lines (contextLines source 3 10 contextReach).toList =
          above ++ (front ++ "main u = (a.".toList) :: mark :: below ∧
        ShowsAround source 3 (above ++ (front ++ "main u = (a.".toList) :: below) ∧
        (front ++ "main u = (a.".toList)[front.length + 9]? = some '(' ∧
        mark[front.length + 9]? = some '^' := by
  intro source
  have htext : (Text.lines source.toList)[2]? = some "main u = (a.".toList := by decide
  obtain ⟨above, front, mark, below, hshown, haround, -, -, hplace, hbelow⟩ :=
    marker_below_column_iff htext 9
  exact ⟨htext, above, front, mark, below, hshown, haround, hplace, hbelow.2 (by decide)⟩

/-- The number of the ten thousandth line takes one place more than the marker allows for. -/
theorem marker_left_of_column :
    let source := String.ofList (List.replicate 9999 '\n' ++ ['x'])
    (Text.lines source.toList)[9999]? = some ['x'] ∧
      contextLines source 10000 1 contextReach =
        "9998: \n9999: \n10000: x\n      ^ Error here" ∧
      "10000: x".toList[7]? = some 'x' ∧ "      ^ Error here".toList[6]? = some '^' := by
  have hlines (n : Nat) : Text.lines (List.replicate n '\n' ++ ['x']) =
      List.replicate n [] ++ [['x']] := by
    induction n with
    | zero => rfl
    | succ n ih =>
        rw [List.replicate_succ, List.cons_append, Text.lines, ← List.nil_append ('\n' :: _),
          List.splitOn_append_cons_self_of_not_mem List.not_mem_nil, ← Text.lines, ih]
        rfl
  intro source
  have hsource : Text.lines source.toList = List.replicate 9999 [] ++ ['x'] :: [] := by
    rw [String.toList_ofList, hlines]
  have hcontext := contextLines_eq 1 hsource
  rw [List.length_replicate, List.drop_replicate] at hcontext
  refine ⟨?_, hcontext.trans (by decide +kernel), rfl, rfl⟩
  rw [hsource, List.getElem?_append_right (Nat.le_of_eq List.length_replicate),
    List.length_replicate]
  rfl

end Fern.Diagnostic
