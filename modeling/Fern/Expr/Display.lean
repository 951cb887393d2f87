import Fern.Expr

/-!
# The display of resolved expressions

A node is one line that gives its kind and what is particular to it; its parts follow below, one
step further in. Types are shown behind leaves, tuples, records and functions.
-/

namespace Fern.Expr

/-- The line of a leaf: its kind, its content and its type. -/
def leafLine (depth : Nat) (kind : String) (content : Datum) (type : TypeInfo) : String :=
  Datum.indentation depth ++ kind ++ " " ++ content.inline ++ type.suffix

mutual

/-- The lines of an expression at a depth of nesting. -/
def format (depth : Nat) : Expr → String
  | .tuple items type =>
    "\n".intercalate ((Datum.indentation depth ++ "TUPLE" ++ type.suffix) ::
      formatAll (depth + 1) items)
  | .record items type =>
    "\n".intercalate ((Datum.indentation depth ++ "RECORD" ++ type.suffix) ::
      formatAll (depth + 1) items)
  | .field target index _ =>
    Datum.indentation depth ++ "FIELD_ACCESS ." ++ toString index ++ "\n" ++
      target.format (depth + 1)
  | .letIn name rhs body _ =>
    Datum.indentation depth ++ "LET_BINDING " ++ name ++ "\n" ++ rhs.format (depth + 1) ++ "\n" ++
      body.format (depth + 1)
  | .caseOf matchee branches _ =>
    "\n".intercalate ((Datum.indentation depth ++ "MATCH_SUM") :: matchee.format (depth + 1) ::
      formatBranches depth branches)
  | .apply callee args _ =>
    "\n".intercalate ((Datum.indentation depth ++ "APPLICATION") :: callee.format (depth + 1) ::
      formatAll (depth + 1) args)
  | .lambda param body type =>
    Datum.indentation depth ++ "LAMBDA " ++ param ++ type.suffix ++ "\n" ++ body.format (depth + 1)
  | .conditional cond cons alt _ =>
    Datum.indentation depth ++ "CONDITIONAL\n" ++ cond.format (depth + 1) ++ "\n" ++
      cons.format (depth + 1) ++ "\n" ++ alt.format (depth + 1)
  | .binary op lhs rhs _ =>
    Datum.indentation depth ++ "BINARY_OP " ++ op.name ++ "\n" ++ lhs.format (depth + 1) ++ "\n" ++
      rhs.format (depth + 1)
  | .constructor handle index _ =>
    Datum.indentation depth ++ "VARIANT_CONSTRUCTOR " ++ handle.format ++ " #" ++ toString index
  | .symbol name type => leafLine depth "SYMBOL" (.text name) type
  | .boolean value type => leafLine depth "BOOLEAN_LITERAL" (.bool value) type
  | .builtin id type => leafLine depth "BUILTIN_FN" (.text id) type
  | .string value type => leafLine depth "STRING_LITERAL" (.text value) type
  | .integer value type => leafLine depth "INTEGER_LITERAL" (.int value) type
  | .unit type => leafLine depth "UNIT" .none type
  | .other kind content type => leafLine depth kind content type

def formatAll (depth : Nat) : List Expr → List String
  | [] => []
  | e :: rest => e.format depth :: formatAll depth rest

/-- The lines of the branches of a match: a head with the variant and the capture, and the body two
steps further in. -/
def formatBranches (depth : Nat) : List (Branch Expr) → List String
  | [] => []
  | ⟨index, binding, body⟩ :: rest =>
    let capture := match binding with
      | some name => if name.isEmpty then "" else " " ++ name
      | none => ""
    (Datum.indentation depth ++ "  | #" ++ toString index ++ capture ++ " ->") ::
      body.format (depth + 2) :: formatBranches depth rest

end

end Fern.Expr
