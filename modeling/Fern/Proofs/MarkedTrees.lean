import Fern.Datum

/-!
# Trees with their names marked

Trees are shown through data, in which a name is a word like any other and a node is a pair that
begins with a word. A marked tree is the same data with what is lost there: which words somebody has
chosen as names, and which are the tags of nodes.

What has to be found in a tree, such as its names, is found node by node, so it is all the same way
of collecting.
-/

namespace Fern

/-! ## Marks -/

/-- The kinds of nodes that the grammar builds. -/
inductive NodeTag
  | integer | string | boolean | unit | identifier | constructor
  | tuple | record | fieldInit | field | apply | binary | sequence
  | letIn | conditional | caseOf | arm | lambda
  | typeName | typeTuple | typeFunction
  | variantDecl | fieldDecl | sumType | recordType | typeDef | functionDef
  deriving DecidableEq, Repr

def NodeTag.text : NodeTag → String
  | .integer => "INTEGER"
  | .string => "STRING"
  | .boolean => "BOOLEAN"
  | .unit => "UNIT"
  | .identifier => "IDENTIFIER"
  | .constructor => "CONSTRUCTOR"
  | .tuple => "TUPLE"
  | .record => "RECORD"
  | .fieldInit => "FIELD_INIT"
  | .field => "FIELD"
  | .apply => "APPLY"
  | .binary => "BINARY_OP"
  | .sequence => "SEQ"
  | .letIn => "LET"
  | .conditional => "IF"
  | .caseOf => "MATCH"
  | .arm => "ARM"
  | .lambda => "LAMBDA"
  | .typeName => "TYPE_NAME"
  | .typeTuple => "TYPE_TUPLE"
  | .typeFunction => "TYPE_FUNCTION"
  | .variantDecl => "VARIANT_DECL"
  | .fieldDecl => "FIELD_DECL"
  | .sumType => "SUM_TYPE"
  | .recordType => "RECORD_TYPE"
  | .typeDef => "TYPE_DEF"
  | .functionDef => "FUNCTION_DEF"

theorem NodeTag.isTag_text (tag : NodeTag) : Datum.isTag tag.text := by
  cases tag <;> decide

/-- A node of the tag is a pair of a name and something else: a variant, a field that is declared,
or a field of a record literal. -/
def NodeTag.isMember : NodeTag → Bool
  | .variantDecl | .fieldDecl | .fieldInit => true
  | _ => false

/-- The parts of a declaration. -/
inductive Key
  | name | params | body
  deriving DecidableEq, Repr

def Key.text : Key → String
  | .name => "name"
  | .params => "params"
  | .body => "body"

/-- A part of a tree that has no parts. -/
inductive Leaf
  /-- A name that somebody chose. -/
  | name (name : String)
  /-- Another word: what a text literal denotes, or an operator. -/
  | word (word : String)
  | int (n : Int)
  | bool (b : Bool)
  | none
  deriving DecidableEq, Repr

namespace Leaf

def toDatum : Leaf → Datum
  | .name text | .word text => .text text
  | .int n => .int n
  | .bool b => .bool b
  | .none => .none

def text? : Leaf → Option String
  | .name text | .word text => some text
  | .int _ | .bool _ | .none => Option.none

def name? : Leaf → Option String
  | .name text => some text
  | .word _ | .int _ | .bool _ | .none => Option.none

/-- The same without the name. -/
def unnamed : Leaf → Leaf
  | .name _ => .name ""
  | l => l

end Leaf

/-- Data with names and tags told apart from other words. -/
inductive Marked
  | leaf (leaf : Leaf)
  | node (tag : NodeTag) (content : Marked)
  | group (items : List Marked)
  | list (items : List Marked)
  | record (key : Key) (value : Marked) (rest : List (Key × Marked))

namespace Marked

def leaf? : Marked → Option Leaf
  | .leaf l => some l
  | _ => none

mutual

/-- The data without the marks. -/
def toDatum : Marked → Datum
  | .leaf l => l.toDatum
  | .node tag content => .node tag.text content.toDatum
  | .group items => .group (allToDatum items)
  | .list items => .list (allToDatum items)
  | .record key value rest => .record ((key.text, value.toDatum) :: entriesToDatum rest)

def allToDatum : List Marked → List Datum
  | [] => []
  | item :: rest => item.toDatum :: allToDatum rest

def entriesToDatum : List (Key × Marked) → List (String × Datum)
  | [] => []
  | (key, value) :: rest => (key.text, value.toDatum) :: entriesToDatum rest

end

mutual

/-- All parts of a tree, each in front of its own parts. -/
def nodes : Marked → List Marked
  | .leaf l => [.leaf l]
  | .node tag content => .node tag content :: content.nodes
  | .group items => .group items :: allNodes items
  | .list items => .list items :: allNodes items
  | .record key value rest => .record key value rest :: (value.nodes ++ entryNodes rest)

def allNodes : List Marked → List Marked
  | [] => []
  | item :: rest => item.nodes ++ allNodes rest

def entryNodes : List (Key × Marked) → List Marked
  | [] => []
  | (_, value) :: rest => value.nodes ++ entryNodes rest

end

/-- The parts directly below a node. -/
def parts : Marked → List Marked
  | .leaf _ => []
  | .node _ content => [content]
  | .group items | .list items => items
  | .record _ value rest => value :: rest.map (·.2)

/-- What a function finds at the nodes of a tree. -/
def collect (f : Marked → Option String) (m : Marked) : List String := m.nodes.filterMap f

/-- The names in a tree, as they stand in it. -/
def names : Marked → List String := collect fun node => node.leaf?.bind Leaf.name?

/-- The word that a pair begins with. -/
def head? : Marked → Option String
  | .group [.leaf l, _] => l.text?
  | _ => none

/-- The words that pairs begin with. -/
def heads : Marked → List String := collect head?

/-- The name of a variant or of a field at its node. -/
def memberName? : Marked → Option String
  | .node tag content => if tag.isMember then content.head? else none
  | _ => none

/-- The names of variants and fields where they are declared, and of fields where a record is
written. -/
def memberNames : Marked → List String := collect memberName?

mutual

/-- The tree without its names. -/
def unnamed : Marked → Marked
  | .leaf l => .leaf l.unnamed
  | .node tag content => .node tag content.unnamed
  | .group items => .group (allUnnamed items)
  | .list items => .list (allUnnamed items)
  | .record key value rest => .record key value.unnamed (entriesUnnamed rest)

def allUnnamed : List Marked → List Marked
  | [] => []
  | item :: rest => item.unnamed :: allUnnamed rest

def entriesUnnamed : List (Key × Marked) → List (Key × Marked)
  | [] => []
  | (key, value) :: rest => (key, value.unnamed) :: entriesUnnamed rest

end

/-! ## Nodes and parts -/

theorem sizeOf_lt_of_mem_parts {m part : Marked} (h : part ∈ m.parts) : sizeOf part < sizeOf m := by
  cases m with
  | leaf l => cases h
  | node tag content =>
      cases List.mem_singleton.1 h
      simp only [node.sizeOf_spec]
      omega
  | group items =>
      have := List.sizeOf_lt_of_mem (show part ∈ items from h)
      simp only [group.sizeOf_spec]
      omega
  | list items =>
      have := List.sizeOf_lt_of_mem (show part ∈ items from h)
      simp only [list.sizeOf_spec]
      omega
  | record key value rest =>
      simp only [record.sizeOf_spec]
      rcases List.mem_cons.1 h with rfl | h
      · omega
      · obtain ⟨⟨key, part⟩, hm, rfl⟩ := List.mem_map.1 h
        have := List.sizeOf_lt_of_mem hm
        simp only [Prod.mk.sizeOf_spec] at this ⊢
        omega

/-- What passes from the parts of a tree to the tree holds of all trees. -/
@[elab_as_elim]
theorem induct {motive : Marked → Prop}
    (whole : ∀ m, (∀ part ∈ m.parts, motive part) → motive m) (m : Marked) : motive m :=
  whole m fun part _ => induct whole part
termination_by sizeOf m
decreasing_by exact sizeOf_lt_of_mem_parts ‹_›

theorem allToDatum_eq_map (items : List Marked) : allToDatum items = items.map toDatum := by
  induction items with
  | nil => rfl
  | cons item rest ih => rw [allToDatum, List.map_cons, ih]

theorem allNodes_eq_flatMap (items : List Marked) : allNodes items = items.flatMap nodes := by
  induction items with
  | nil => rfl
  | cons item rest ih => rw [allNodes, List.flatMap_cons, ih]

theorem entryNodes_eq_flatMap (entries : List (Key × Marked)) :
    entryNodes entries = (entries.map (·.2)).flatMap nodes := by
  induction entries with
  | nil => rfl
  | cons entry rest ih => rw [entryNodes, List.map_cons, List.flatMap_cons, ih]

theorem nodes_eq (m : Marked) : m.nodes = m :: m.parts.flatMap nodes := by
  cases m with
  | leaf l => rfl
  | node tag content => simp [nodes, parts]
  | group items | list items => rw [nodes, parts, allNodes_eq_flatMap]
  | record key value rest =>
      rw [nodes, parts, List.flatMap_cons, entryNodes_eq_flatMap]

theorem collect_eq (f : Marked → Option String) (m : Marked) :
    m.collect f = (f m).toList ++ m.parts.flatMap (collect f) := by
  rw [collect, nodes_eq, List.filterMap_cons, List.filterMap_flatMap]
  cases f m <;> rfl

section Collect

variable (f : Marked → Option String)

theorem collect_leaf (l : Leaf) : (leaf l).collect f = (f (.leaf l)).toList := by
  rw [collect_eq, parts, List.flatMap_nil, List.append_nil]

theorem collect_node (tag : NodeTag) (content : Marked) :
    (node tag content).collect f = (f (.node tag content)).toList ++ content.collect f := by
  rw [collect_eq, parts, List.flatMap_singleton]

theorem collect_group (items : List Marked) :
    (group items).collect f = (f (.group items)).toList ++ items.flatMap (collect f) :=
  collect_eq f _

end Collect

end Marked

end Fern
