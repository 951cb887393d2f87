import Fern.Syntax.Term

/-!
# Trees as data

The form in which trees are shown and handed out: every node is a tag with its content, the parts of
a node are a group, and a declaration is a record of its parts.
-/

namespace Fern

mutual

/-- An expression as data. -/
def Term.toDatum : Term → Datum
  | .integer n => .node "INTEGER" (.int n)
  | .string text => .node "STRING" (.text text)
  | .boolean b => .node "BOOLEAN" (.bool b)
  | .unit => .node "UNIT" .none
  | .identifier name => .node "IDENTIFIER" (.text name)
  | .constructor name => .node "CONSTRUCTOR" (.text name)
  | .tuple items => .node "TUPLE" (.list (Term.allToDatum items))
  | .record fields => .node "RECORD" (.list (Term.fieldsToDatum fields))
  | .field target name => .node "FIELD" (.group [target.toDatum, .text name])
  | .item target index => .node "FIELD" (.group [target.toDatum, .int index])
  | .apply callee args => .node "APPLY" (.group [callee.toDatum, .list (Term.allToDatum args)])
  | .binary op lhs rhs => .node "BINARY_OP" (.group [.text op.name, lhs.toDatum, rhs.toDatum])
  | .sequence first rest => .node "SEQ" (.group [first.toDatum, rest.toDatum])
  | .letIn name rhs body => .node "LET" (.group [.text name, rhs.toDatum, body.toDatum])
  | .conditional cond cons alt =>
    .node "IF" (.group [cond.toDatum, cons.toDatum, alt.toDatum])
  | .caseOf matchee arms =>
    .node "MATCH" (.group [matchee.toDatum, .list (Term.armsToDatum arms)])
  | .lambda params body =>
    .node "LAMBDA" (.group [.list (params.map .text), body.toDatum])
  | .other tag content => .node tag content

def Term.allToDatum : List Term → List Datum
  | [] => []
  | t :: rest => t.toDatum :: Term.allToDatum rest

def Term.fieldsToDatum : List (String × Term) → List Datum
  | [] => []
  | (name, t) :: rest =>
    .node "FIELD_INIT" (.group [.text name, t.toDatum]) :: Term.fieldsToDatum rest

def Term.armsToDatum : List (Arm Term) → List Datum
  | [] => []
  | ⟨head, binding, body⟩ :: rest =>
    .node "ARM" (.group [.text head, (binding.map .text).getD .none, body.toDatum]) ::
      Term.armsToDatum rest

end

mutual

def TypeTerm.toDatum : TypeTerm → Datum
  | .name n => .node "TYPE_NAME" (.text n)
  | .tuple items => .node "TYPE_TUPLE" (.list (TypeTerm.allToDatum items))
  | .function param result => .node "TYPE_FUNCTION" (.group [param.toDatum, result.toDatum])
  | .other tag content => .node tag content

def TypeTerm.allToDatum : List TypeTerm → List Datum
  | [] => []
  | t :: rest => t.toDatum :: TypeTerm.allToDatum rest

end

def VariantDecl.toDatum (decl : VariantDecl) : Datum :=
  .node "VARIANT_DECL" (.group [.text decl.name, (decl.payload.map TypeTerm.toDatum).getD .none])

def FieldDecl.toDatum (decl : FieldDecl) : Datum :=
  .node "FIELD_DECL" (.group [.text decl.name, decl.type.toDatum])

def TypeDeclBody.toDatum : TypeDeclBody → Datum
  | .sum variants => .node "SUM_TYPE" (.list (variants.map VariantDecl.toDatum))
  | .record fields => .node "RECORD_TYPE" (.list (fields.map FieldDecl.toDatum))

def Declaration.toDatum : Declaration → Datum
  | .type decl =>
    .node "TYPE_DEF" (.record [("name", .text decl.name), ("body", decl.body.toDatum)])
  | .function decl =>
    .node "FUNCTION_DEF" (.record [("name", .text decl.name),
      ("params", .list (decl.params.map .text)), ("body", decl.body.toDatum)])

end Fern
