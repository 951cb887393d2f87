import Fern.Proofs.MarkedTrees
import Fern.Proofs.QuotedTexts
import Fern.Proofs.WordReading

/-!
# Display by marks

How a tree is shown if nothing has to be guessed: names are quoted, and only tags stand without
quotes in capitals. All names are there, in their order, and no name has a part in the layout, so a
tree without its names has the same lines without their names.

Main statements: `Piece.isTag_text`, `Marked.names_lines`, `Marked.lines_unnamed`.
-/

namespace Fern

/-- What stands on a line of a display. -/
inductive Piece
  | tag (tag : NodeTag)
  | key (key : Key)
  | leaf (leaf : Leaf)
  /-- There are no parts. -/
  | nothing
  deriving DecidableEq, Repr

namespace Piece

def text : Piece → String
  | .tag t => t.text
  | .key k => k.text ++ ":"
  | .leaf l => l.toDatum.inline
  | .nothing => "[]"

def name? : Piece → Option String
  | .leaf l => l.name?
  | .tag _ | .key _ | .nothing => none

def unnamed : Piece → Piece
  | .leaf l => .leaf l.unnamed
  | piece => piece

end Piece

/-- A line of a display: how deep it is indented, and what stands on it. -/
structure Line where
  depth : Nat
  pieces : List Piece
  deriving DecidableEq, Repr

namespace Line

def text (line : Line) : String :=
  Datum.indentation line.depth ++ " ".intercalate (line.pieces.map Piece.text)

def names (line : Line) : List String := line.pieces.filterMap Piece.name?

def unnamed (line : Line) : Line := ⟨line.depth, line.pieces.map Piece.unnamed⟩

end Line

namespace Marked

mutual

/-- The display of a tree whose names are known. -/
def lines (depth : Nat) : Marked → List Line
  | .leaf l => [⟨depth, [.leaf l]⟩]
  | .node tag content =>
    match content.leaf? with
    | some l => [⟨depth, [.tag tag, .leaf l]⟩]
    | none => ⟨depth, [.tag tag]⟩ :: content.lines (depth + 1)
  | .group items | .list items =>
    if items.isEmpty then [⟨depth, [.nothing]⟩] else allLines depth items
  | .record key value rest =>
    ⟨depth, [.key key]⟩ :: (value.lines (depth + 1) ++ entryLines depth rest)

def allLines (depth : Nat) : List Marked → List Line
  | [] => []
  | item :: rest => item.lines depth ++ allLines depth rest

def entryLines (depth : Nat) : List (Key × Marked) → List Line
  | [] => []
  | (key, value) :: rest =>
    ⟨depth, [.key key]⟩ :: (value.lines (depth + 1) ++ entryLines depth rest)

end

end Marked

/-! ## What stands on a line -/

theorem newline_not_mem_indentation (depth : Nat) : '\n' ∉ (Datum.indentation depth).toList := by
  rw [Datum.indentation, String.toList_ofList]
  exact fun hm => absurd (List.eq_of_mem_replicate hm) (by decide)

/-- A number is shown by a sign and digits. -/
theorem of_mem_toString_int {n : Int} {c : Char} (h : c ∈ (toString n).toList) :
    c = '-' ∨ c.isDigit := by
  have hdigits {n : Nat} (h : c ∈ n.repr.toList) : c.isDigit := by
    rw [Nat.toList_repr] at h
    exact isDigit_of_mem_toDigits h
  cases n with
  | ofNat n => exact .inr (hdigits h)
  | negSucc n =>
      rw [show toString (Int.negSucc n) = "-" ++ (n + 1).repr from rfl, String.toList_append] at h
      exact (List.mem_append.1 h).imp List.mem_singleton.1 hdigits

namespace Leaf

theorem newline_not_mem_inline (l : Leaf) : '\n' ∉ l.toDatum.inline.toList := by
  cases l with
  | name text | word text => exact Text.newline_not_mem_quoted text
  | int n => exact fun hm => (of_mem_toString_int hm).elim (by decide) (by decide)
  | bool b => cases b <;> decide
  | none => decide

theorem inline_of_text? {l : Leaf} {text : String} (h : l.text? = some text) :
    l.toDatum.inline = Text.quoted text := by
  cases l with
  | name | word =>
      cases h
      rfl
  | int | bool | none => cases h

end Leaf

namespace Piece

theorem newline_not_mem_text (piece : Piece) : '\n' ∉ piece.text.toList := by
  cases piece with
  | tag t => cases t <;> decide
  | key k => cases k <;> decide
  | leaf l => exact l.newline_not_mem_inline
  | nothing => decide

/-- Without quotes, only tags are in capitals. -/
theorem isTag_text {piece : Piece} (h : Datum.isTag piece.text) :
    (∃ t, piece = .tag t) ∨ ∃ word, piece.text = Text.quoted word := by
  cases piece with
  | tag t => exact .inl ⟨t, rfl⟩
  | key k => cases k <;> exact absurd h (by decide)
  | leaf l =>
      cases l with
      | name text | word text => exact .inr ⟨text, rfl⟩
      | int n =>
          have hcapital := (Bool.and_eq_true_iff.1 h).1
          obtain ⟨c, hc, hupper⟩ := List.any_eq_true.1 hcapital
          rcases of_mem_toString_int hc with rfl | hdigit
          · exact absurd hupper (by decide)
          · exact absurd hupper (Bool.eq_false_iff.1 (isUpper_eq_false_of_isDigit hdigit))
      | bool b => cases b <;> exact absurd h (by decide)
      | none => exact absurd h (by decide)
  | nothing => exact absurd h (by decide)

theorem text_of_name? {piece : Piece} {name : String} (h : name ∈ piece.name?) :
    piece.text = Text.quoted name := by
  cases piece with
  | leaf l =>
      cases l with
      | name =>
          cases h
          rfl
      | word | int | bool | none => cases h
  | tag | key | nothing => cases h

end Piece

namespace Line

theorem text_singleton (depth : Nat) (piece : Piece) :
    text ⟨depth, [piece]⟩ = Datum.indentation depth ++ piece.text := by
  rw [text, List.map_singleton, String.intercalate_singleton]

theorem text_pair (depth : Nat) (first second : Piece) :
    text ⟨depth, [first, second]⟩ =
      Datum.indentation depth ++ first.text ++ " " ++ second.text := by
  rw [text, List.map_cons, List.map_singleton, String.intercalate_cons_cons,
    String.intercalate_singleton]
  simp only [String.append_assoc]

/-- What is shown as a line is a line. -/
theorem lines_text (line : Line) : Text.lines line.text.toList = [line.text.toList] := by
  obtain ⟨depth, pieces⟩ := line
  have hpieces : '\n' ∉ (" ".intercalate (pieces.map Piece.text)).toList := by
    induction pieces with
    | nil => exact List.not_mem_nil
    | cons piece rest ih =>
        cases rest with
        | nil =>
            rw [List.map_singleton, String.intercalate_singleton]
            exact piece.newline_not_mem_text
        | cons next rest =>
            rw [List.map_cons, List.map_cons, String.intercalate_cons_cons, ← List.map_cons,
              String.toList_append, String.toList_append, List.mem_append, List.mem_append]
            exact not_or.2 ⟨not_or.2 ⟨piece.newline_not_mem_text, by decide⟩, ih⟩
  refine List.splitOn_eq_singleton ?_
  rw [text, String.toList_append, List.mem_append]
  exact not_or.2 ⟨newline_not_mem_indentation depth, hpieces⟩

/-- What is shown of lines. -/
def texts (lines : List Line) : List (List Char) := lines.map fun line => line.text.toList

theorem texts_cons (line : Line) (rest : List Line) :
    texts (line :: rest) = texts [line] ++ texts rest := rfl

theorem lines_singleton (depth : Nat) (piece : Piece) :
    Text.lines (Datum.indentation depth ++ piece.text).toList = texts [⟨depth, [piece]⟩] := by
  rw [← text_singleton]
  exact lines_text _

theorem lines_pair (depth : Nat) (first second : Piece) :
    Text.lines (Datum.indentation depth ++ first.text ++ " " ++ second.text).toList =
      texts [⟨depth, [first, second]⟩] := by
  rw [← text_pair]
  exact lines_text _

end Line

/-! ## Lines of a tree -/

namespace Marked

theorem leaf?_eq_some {m : Marked} {l : Leaf} (h : m.leaf? = some l) : m = .leaf l := by
  cases m with
  | leaf => cases h; rfl
  | node | group | list | record => cases h

theorem allLines_eq_flatMap (depth : Nat) (items : List Marked) :
    allLines depth items = items.flatMap (lines depth) := by
  induction items with
  | nil => rfl
  | cons item rest ih => rw [allLines, List.flatMap_cons, ih]

theorem entryLines_eq_flatMap (depth : Nat) (entries : List (Key × Marked)) :
    entryLines depth entries =
      entries.flatMap fun entry => ⟨depth, [.key entry.1]⟩ :: entry.2.lines (depth + 1) := by
  induction entries with
  | nil => rfl
  | cons entry rest ih => rw [entryLines, List.flatMap_cons, ih, List.cons_append]

theorem lines_node {content : Marked} (h : content.leaf? = none) (tag : NodeTag) (depth : Nat) :
    (node tag content).lines depth = ⟨depth, [.tag tag]⟩ :: content.lines (depth + 1) := by
  rw [lines, h]

theorem lines_record (depth : Nat) (key : Key) (value : Marked) (rest : List (Key × Marked)) :
    (record key value rest).lines depth = ((key, value) :: rest).flatMap fun entry =>
      ⟨depth, [.key entry.1]⟩ :: entry.2.lines (depth + 1) :=
  entryLines_eq_flatMap depth ((key, value) :: rest)

theorem names_eq (m : Marked) :
    m.names = (m.leaf?.bind Leaf.name?).toList ++ m.parts.flatMap names := collect_eq _ m

/-- A display by marks has all names, in their order. -/
theorem names_lines (m : Marked) (depth : Nat) : (m.lines depth).flatMap Line.names = m.names := by
  induction m using induct generalizing depth with
  | whole m ih =>
    rw [names_eq]
    cases m with
    | leaf l =>
        rw [lines, List.flatMap_singleton, parts, List.flatMap_nil, List.append_nil, Line.names]
        cases l <;> rfl
    | node tag content =>
        have hcontent := ih content (List.mem_singleton.2 rfl) (depth + 1)
        rw [parts, List.flatMap_singleton, ← hcontent]
        cases hl : content.leaf? with
        | none =>
            rw [lines_node hl, List.flatMap_cons]
            rfl
        | some l =>
            cases leaf?_eq_some hl
            cases l <;> rfl
    | group items | list items =>
        have hitems : ∀ item ∈ items, (item.lines depth).flatMap Line.names = item.names :=
          fun item hm => ih item hm depth
        rw [lines, parts, ← List.flatMap_congr hitems, ← List.flatMap_assoc, ← allLines_eq_flatMap]
        cases items <;> rfl
    | record key value rest =>
        have hentries : ∀ entry ∈ (key, value) :: rest,
            (entry.2.lines (depth + 1)).flatMap Line.names = entry.2.names :=
          fun entry hm => ih entry.2 (List.mem_map_of_mem hm) (depth + 1)
        have hparts : (record key value rest).parts = ((key, value) :: rest).map (·.2) := rfl
        rw [lines_record, hparts, List.flatMap_map, ← List.flatMap_congr hentries,
          List.flatMap_assoc]
        rfl

theorem leaf?_unnamed (m : Marked) : m.unnamed.leaf? = m.leaf?.map Leaf.unnamed := by
  cases m <;> rfl

theorem allUnnamed_eq_map (items : List Marked) : allUnnamed items = items.map unnamed := by
  induction items with
  | nil => rfl
  | cons item rest ih => rw [allUnnamed, List.map_cons, ih]

theorem entriesUnnamed_eq_map (entries : List (Key × Marked)) :
    entriesUnnamed entries = entries.map fun entry => (entry.1, entry.2.unnamed) := by
  induction entries with
  | nil => rfl
  | cons entry rest ih => rw [entriesUnnamed, List.map_cons, ih]

/-- The lines of a tree without its names are its lines without their names. -/
theorem lines_unnamed (m : Marked) (depth : Nat) :
    m.unnamed.lines depth = (m.lines depth).map Line.unnamed := by
  induction m using induct generalizing depth with
  | whole m ih =>
    cases m with
    | leaf l => rfl
    | node tag content =>
        have hcontent := ih content (List.mem_singleton.2 rfl) (depth + 1)
        cases hl : content.leaf? with
        | none =>
            have hunnamed : content.unnamed.leaf? = none := by rw [leaf?_unnamed, hl]; rfl
            rw [lines_node hl, unnamed, lines_node hunnamed, hcontent, List.map_cons]
            rfl
        | some l =>
            cases leaf?_eq_some hl
            rfl
    | group items | list items =>
        have hitems : ∀ item ∈ items,
            item.unnamed.lines depth = (item.lines depth).map Line.unnamed :=
          fun item hm => ih item hm depth
        rw [lines, allLines_eq_flatMap, unnamed, lines, allUnnamed_eq_map, allLines_eq_flatMap,
          List.isEmpty_map, List.flatMap_map, List.flatMap_congr hitems, ← List.map_flatMap]
        cases items <;> rfl
    | record key value rest =>
        have hentries : ∀ entry ∈ (key, value) :: rest,
            entry.2.unnamed.lines (depth + 1) = (entry.2.lines (depth + 1)).map Line.unnamed :=
          fun entry hm => ih entry.2 (List.mem_map_of_mem hm) (depth + 1)
        have hunnamed : (record key value rest).unnamed.lines depth =
            (((key, value) :: rest).map fun entry => (entry.1, entry.2.unnamed)).flatMap
              fun entry => ⟨depth, [.key entry.1]⟩ :: entry.2.lines (depth + 1) := by
          rw [unnamed, lines_record, entriesUnnamed_eq_map]
          rfl
        rw [hunnamed, lines_record, List.flatMap_map, List.map_flatMap]
        refine List.flatMap_congr fun entry hm => ?_
        rw [hentries entry hm]
        rfl

end Marked

end Fern
