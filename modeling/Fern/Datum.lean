import Fern.Text.Quoted

/-!
# Plain data

Trees are shown through a small language of data: words, numbers, lists, fixed groups and records.
A group of two whose first member is a word in capitals is taken for a tagged node, and its tag
goes before its content; everything else is laid out member by member. The display looks at nothing
but this shape, so the producers of trees decide what it finds there.
-/

namespace Fern

/-- Data as trees are made of it. -/
inductive Datum
  | none
  | bool (b : Bool)
  | int (n : Int)
  | text (s : String)
  | group (items : List Datum)
  | list (items : List Datum)
  | record (entries : List (String × Datum))
  deriving Inhabited, Repr

namespace Datum

/-- A node: a tag together with its content. -/
def node (tag : String) (content : Datum) : Datum := .group [.text tag, content]

mutual

/-- Data on one line. -/
def inline : Datum → String
  | .none => "None"
  | .bool b => if b then "True" else "False"
  | .int n => toString n
  | .text s => Text.quoted s
  | .group [item] => "(" ++ item.inline ++ ",)"
  | .group items => "(" ++ ", ".intercalate (inlineAll items) ++ ")"
  | .list items => "[" ++ ", ".intercalate (inlineAll items) ++ "]"
  | .record entries => "\x7b" ++ ", ".intercalate (inlineEntries entries) ++ "\x7d"

def inlineAll : List Datum → List String
  | [] => []
  | item :: rest => item.inline :: inlineAll rest

def inlineEntries : List (String × Datum) → List String
  | [] => []
  | (key, value) :: rest => (Text.quoted key ++ ": " ++ value.inline) :: inlineEntries rest

end

/-- Whether a word reads as a tag: it has a capital letter and no small one. Words in trees are
ASCII. -/
def isTag (word : String) : Bool :=
  word.toList.any Char.isUpper && !word.toList.any Char.isLower

/-- The blanks in front of a line at a depth of nesting. -/
def indentation (depth : Nat) : String := String.ofList (List.replicate (2 * depth) ' ')

/-- Whether data are made of other data. -/
def isCompound : Datum → Bool
  | .group _ | .list _ | .record _ => true
  | _ => false

mutual

/-- The display of data at a depth of nesting. -/
def outline (depth : Nat) : Datum → String
  | .group [.text tag, content] =>
    if isTag tag then
      if content.isCompound then indentation depth ++ tag ++ "\n" ++ content.outline (depth + 1)
      else indentation depth ++ tag ++ " " ++ content.inline
    else indentation depth ++ Text.quoted tag ++ "\n" ++ content.outline depth
  | .group items | .list items =>
    if items.isEmpty then indentation depth ++ "[]"
    else "\n".intercalate (outlineAll depth items)
  | .record entries => "\n".intercalate (outlineEntries depth entries)
  | .none => indentation depth ++ Datum.none.inline
  | .bool b => indentation depth ++ (Datum.bool b).inline
  | .int n => indentation depth ++ (Datum.int n).inline
  | .text s => indentation depth ++ (Datum.text s).inline

def outlineAll (depth : Nat) : List Datum → List String
  | [] => []
  | item :: rest => item.outline depth :: outlineAll depth rest

/-- The displays of the entries of a record, each value below its key. -/
def outlineEntries (depth : Nat) : List (String × Datum) → List String
  | [] => []
  | (key, value) :: rest =>
    (indentation depth ++ key ++ ":\n" ++ value.outline (depth + 1)) :: outlineEntries depth rest

end

end Datum

end Fern
