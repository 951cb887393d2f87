import Fern.Proofs.TermShape
import Fern.Syntax.Token

/-!
# Programs as words

How trees are written down: as a row of words, in which every compound part of an
expression or a type stands in parentheses. A `Style` says where there are
parentheses besides, so that the row does not depend on whether a tuple or a
record counts as compound. What stands between the words is left open here.

Not every tree can be written. `WellFormed` says what is needed: nodes of the
shape that the grammar builds, and names that read as names.
-/

namespace Fern

open Syntax

/-! ## Words -/

/-- A word of a written program. -/
inductive Word
  | sign (text : String)
  | keyword (text : String)
  | name (text : String)
  | constructor (text : String)
  | number (n : Nat)
  | literal (text : String)
  | field (text : String)
  | item (index : Nat)
  deriving DecidableEq, Repr

/-- A character inside a text literal. -/
def writeChar : Char → List Char
  | '\\' => ['\\', '\\']
  | '"' => ['\\', '"']
  | '\n' => ['\\', 'n']
  | '\r' => ['\\', 'r']
  | '\t' => ['\\', 't']
  | c => [c]

namespace Word

def chars : Word → List Char
  | .sign text | .keyword text | .name text | .constructor text => text.toList
  | .number n => Nat.toDigits 10 n
  | .literal text => '"' :: text.toList.flatMap writeChar ++ ['"']
  | .field text => '.' :: text.toList
  | .item index => '.' :: Nat.toDigits 10 index

/-- Whether a word has to touch the word before it. -/
def touches : Word → Bool
  | .field _ | .item _ => true
  | _ => false

end Word

def Operator.word : Operator → Word
  | .mul => .sign "*"
  | .div => .sign "/"
  | .mod => .sign "%"
  | .add => .sign "+"
  | .sub => .sign "-"
  | .less => .sign "<"
  | .lessEq => .sign "<="
  | .greater => .sign ">"
  | .greaterEq => .sign ">="
  | .equals => .sign "=="
  | .and => .keyword "and"
  | .or => .keyword "or"
  | .other name => .sign name

/-- Rows of words with a word between each two. -/
def joined (separator : Word) : List (List Word) → List Word
  | [] => []
  | first :: others => first ++ others.flatMap (separator :: ·)

section Lengths

variable {α β : Type} {write : α → List β} {items : List α}

theorem length_le_flatMap {item : α} (h : item ∈ items) :
    (write item).length ≤ (items.flatMap write).length := by
  obtain ⟨before, after, rfl⟩ := List.append_of_mem h
  rw [List.flatMap_append, List.flatMap_cons, List.length_append, List.length_append]
  omega

/-- A row is at least as long as there are parts, if no part is empty. -/
theorem length_le_flatMap_of_ne_nil (h : ∀ item ∈ items, write item ≠ []) :
    items.length ≤ (items.flatMap write).length := by
  induction items with
  | nil => exact Nat.zero_le _
  | cons item items ih =>
      obtain ⟨hitem, hitems⟩ := List.forall_mem_cons.1 h
      have hpos := List.length_pos_iff.2 hitem
      have hle := ih hitems
      rw [List.flatMap_cons, List.length_append, List.length_cons]
      omega

end Lengths

/-- Words, in parentheses or not. -/
def enclose (wrap : Bool) (words : List Word) : List Word :=
  if wrap then .sign "(" :: words ++ [.sign ")"] else words

/-! ## Styles -/

/-- Where an expression or a type stands: as all of something, as a part of
another one, or before a selector. -/
inductive Place
  | whole
  | part
  | target
  deriving DecidableEq

/-- Where there are parentheses that the grammar does not ask for. -/
structure Style where
  term : Place → Term → Bool
  type : Place → TypeTerm → Bool

/-- Whether an expression is made of others without brackets around them. -/
def Term.isCompound : Term → Bool
  | .integer _ | .string _ | .boolean _ | .unit | .identifier _ | .constructor _ | .tuple _
  | .record _ => false
  | _ => true

/-- Whether a type is made of others without brackets around them. -/
def TypeTerm.isCompound : TypeTerm → Bool
  | .name _ | .tuple _ => false
  | _ => true

/-- Whether something stands in parentheses at a place. As all of something it
never has to. -/
def Place.wraps (compound optional : Bool) : Place → Bool
  | .whole => optional
  | .part | .target => compound || optional

def Style.wraps (style : Style) (place : Place) (t : Term) : Bool :=
  place.wraps t.isCompound (style.term place t)

def Style.wrapsType (style : Style) (place : Place) (t : TypeTerm) : Bool :=
  place.wraps t.isCompound (style.type place t)

/-! ## Expressions -/

mutual

/-- The words of an expression. -/
def Term.words (style : Style) : Term → List Word
  | .integer n => [.number n.toNat]
  | .string text => [.literal text]
  | .boolean b => [.keyword (if b then "true" else "false")]
  | .unit => [.sign "(", .sign ")"]
  | .identifier text => [.name text]
  | .constructor text => [.constructor text]
  | .tuple items => .sign "(" :: joined (.sign ",") (Term.wordsAll style items) ++ [.sign ")"]
  | .record fields =>
    .sign "\x7b" :: joined (.sign ",") (Term.wordsFields style fields) ++ [.sign "\x7d"]
  | .field target name =>
    enclose (style.wraps .target target) (target.words style) ++ [.field name]
  | .item target index =>
    enclose (style.wraps .target target) (target.words style) ++ [.item index.toNat]
  | .apply callee args =>
    enclose (style.wraps .part callee) (callee.words style) ++ (Term.wordsAll style args).flatten
  | .binary op lhs rhs =>
    enclose (style.wraps .part lhs) (lhs.words style) ++
      op.word :: enclose (style.wraps .part rhs) (rhs.words style)
  | .sequence first rest =>
    enclose (style.wraps .part first) (first.words style) ++
      .sign ";" :: enclose (style.wraps .part rest) (rest.words style)
  | .letIn name rhs body =>
    [.keyword "let", .name name, .sign "="] ++
      enclose (style.wraps .part rhs) (rhs.words style) ++
      .keyword "in" :: enclose (style.wraps .part body) (body.words style)
  | .conditional cond cons alt =>
    .keyword "if" :: enclose (style.wraps .part cond) (cond.words style) ++
      .keyword "then" :: enclose (style.wraps .part cons) (cons.words style) ++
      .keyword "else" :: enclose (style.wraps .part alt) (alt.words style)
  | .caseOf matchee arms =>
    .keyword "match" :: enclose (style.wraps .part matchee) (matchee.words style) ++
      .keyword "with" :: (Term.wordsArms style arms).flatten
  | .lambda params body =>
    .sign "\\" :: params.map .name ++
      .sign "->" :: enclose (style.wraps .part body) (body.words style)
  | .other .. => []

def Term.wordsAll (style : Style) : List Term → List (List Word)
  | [] => []
  | t :: rest =>
    enclose (style.wraps .part t) (t.words style) :: Term.wordsAll style rest

def Term.wordsFields (style : Style) : List (String × Term) → List (List Word)
  | [] => []
  | (name, t) :: rest =>
    (.name name :: .sign "=" :: enclose (style.wraps .part t) (t.words style)) ::
      Term.wordsFields style rest

def Term.wordsArms (style : Style) : List (Arm Term) → List (List Word)
  | [] => []
  | ⟨head, binding, body⟩ :: rest =>
    (.sign "|" :: .constructor head :: binding.toList.map .name ++
      .sign "->" :: enclose (style.wraps .part body) (body.words style)) ::
      Term.wordsArms style rest

end

/-- The words of an expression at a place, in parentheses where it needs them. -/
def Term.wordsAt (style : Style) (place : Place) (t : Term) : List Word :=
  enclose (style.wraps place t) (t.words style)

/-! ## Types and declarations -/

mutual

def TypeTerm.words (style : Style) : TypeTerm → List Word
  | .name text => [.constructor text]
  | .tuple items => .sign "(" :: joined (.sign ",") (TypeTerm.wordsAll style items) ++ [.sign ")"]
  | .function param result =>
    enclose (style.wrapsType .part param) (param.words style) ++
      .sign "->" :: enclose (style.wrapsType .part result) (result.words style)
  | .other .. => []

def TypeTerm.wordsAll (style : Style) : List TypeTerm → List (List Word)
  | [] => []
  | t :: rest =>
    enclose (style.wrapsType .part t) (t.words style) :: TypeTerm.wordsAll style rest

end

def TypeTerm.wordsAt (style : Style) (place : Place) (t : TypeTerm) : List Word :=
  enclose (style.wrapsType place t) (t.words style)

def VariantDecl.words (style : Style) (decl : VariantDecl) : List Word :=
  .constructor decl.name :: decl.payload.toList.flatMap (TypeTerm.wordsAt style .part)

def FieldDecl.words (style : Style) (decl : FieldDecl) : List Word :=
  .name decl.name :: .sign ":" :: decl.type.wordsAt style .whole

def TypeDeclBody.words (style : Style) : TypeDeclBody → List Word
  | .sum variants => joined (.sign "|") (variants.map (VariantDecl.words style))
  | .record fields =>
    .sign "\x7b" :: joined (.sign ",") (fields.map (FieldDecl.words style)) ++ [.sign "\x7d"]

/-- The words of a declaration, with the full stop. -/
def Declaration.words (style : Style) : Declaration → List Word
  | .type decl =>
    [.keyword "type", .constructor decl.name, .sign "="] ++ decl.body.words style ++ [.sign "."]
  | .function decl =>
    .name decl.name :: decl.params.map .name ++
      .sign "=" :: decl.body.wordsAt style .whole ++ [.sign "."]

/-! ## Trees that can be written -/

/-- A text begins with a character of one class and goes on with characters of
names. -/
def BeginsAs (start : Char → Bool) (text : String) : Prop :=
  ∃ c rest, text.toList = c :: rest ∧ start c ∧ ∀ d ∈ rest, isNameChar d

/-- A text can be the name of a variable: it does not begin with a keyword that
ends there or that an apostrophe follows. -/
structure IsVariable (text : String) : Prop where
  begins : BeginsAs isNameStart text
  unreserved : ∀ keyword ∈ keywords, ∀ behind, text.toList = keyword.toList ++ behind →
    ∃ c, behind.head? = some c ∧ c ≠ '\''

/-- A text can be the name of a constructor or a type. -/
def IsCapital (text : String) : Prop := BeginsAs Char.isUpper text

/-- The names at a node can be written. -/
def Term.WellNamed : Term → Prop
  | .identifier name => IsVariable name
  | .constructor name => IsCapital name
  | .record fields => ∀ field ∈ fields, IsVariable field.1
  | .field _ name => BeginsAs isNameStart name
  | .letIn name _ _ => IsVariable name
  | .caseOf _ arms => ∀ arm ∈ arms, IsCapital arm.constructor ∧ ∀ name ∈ arm.binding, IsVariable name
  | .lambda params _ => ∀ param ∈ params, IsVariable param
  | .integer _ | .string _ | .boolean _ | .unit | .tuple _ | .item .. | .apply .. | .binary ..
  | .sequence .. | .conditional .. | .other .. => True

/-- An expression can be written: its nodes are ones that the grammar builds, and
its names read as names. -/
def Term.WellFormed (t : Term) : Prop := t.All fun node => node.HasShape ∧ node.WellNamed

inductive TypeTerm.WellFormed : TypeTerm → Prop
  | name {name : String} (hname : IsCapital name) : WellFormed (.name name)
  | tuple {items : List TypeTerm} (hsize : 2 ≤ items.length)
      (hitems : ∀ item ∈ items, WellFormed item) : WellFormed (.tuple items)
  | function {param result : TypeTerm} (hparam : WellFormed param) (hresult : WellFormed result) :
      WellFormed (.function param result)

def TypeDeclBody.WellFormed : TypeDeclBody → Prop
  | .sum variants => variants ≠ [] ∧ ∀ variant ∈ variants, IsCapital variant.name ∧
      ∀ payload ∈ variant.payload, payload.WellFormed
  | .record fields => fields ≠ [] ∧ ∀ field ∈ fields, IsVariable field.name ∧ field.type.WellFormed

/-- A declaration can be written. -/
def Declaration.WellFormed : Declaration → Prop
  | .type decl => IsCapital decl.name ∧ decl.body.WellFormed
  | .function decl =>
    IsVariable decl.name ∧ (∀ param ∈ decl.params, IsVariable param) ∧ decl.body.WellFormed

end Fern
