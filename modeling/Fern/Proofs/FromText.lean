import Fern.Proofs.GrammarShape
import Fern.Proofs.ResolvedProgram

/-!
# Programs and expressions from texts

Reading and resolution in one step. Declarations from texts, of one or of several
as in a session, give a program whose definitions are resolved, and on top of a
program another text gives a resolved expression, since the grammar builds only
trees of the shape that resolution relies on.
-/

namespace Fern

/-- Some text has been read as declarations with this one among them. -/
def Declaration.IsRead (decl : Declaration) : Prop :=
  ∃ source decls, Syntax.parseProgram source = .ok decls ∧ decl ∈ decls

/-- The program that a text stands for, if it can be read and resolved. -/
def Program.ofText? (source : String) : Option Program :=
  (Syntax.parseProgram source).toOption.bind fun decls => (Program.ofDeclarations decls).toOption

/-- The expression that a text stands for on top of a program, if it can be read
and resolved. -/
def Program.exprOfText? (program : Program) (text : String) : Option Expr :=
  (Syntax.parseExpression text).toOption.bind fun t => (program.resolveTerm t).toOption

theorem exists_of_any {α : Type} {x : Option α} {p : α → Bool} (h : x.any p) :
    ∃ a, x = some a ∧ p a := by
  cases x with
  | none => cases h
  | some a => exact ⟨a, rfl, h⟩

theorem Declaration.IsRead.shaped {decl : Declaration} (h : decl.IsRead) :
    decl.All Term.HasShape := by
  obtain ⟨source, decls, hread, hm⟩ := h
  exact Syntax.parseProgram_shaped hread decl hm

theorem Program.ofText?_eq_some {source : String} {program : Program}
    (h : Program.ofText? source = some program) :
    ∃ decls : List Declaration, (∀ decl ∈ decls, decl.IsRead) ∧
      Program.ofDeclarations decls = .ok program := by
  obtain ⟨decls, hread, hprogram⟩ := Option.bind_eq_some_iff.1 h
  exact ⟨decls, fun decl hm => ⟨source, decls, toOption_eq_some.1 hread, hm⟩,
    toOption_eq_some.1 hprogram⟩

/-- A program from declarations that were read is resolved. -/
theorem Program.ofDeclarations_resolved_of_read {decls : List Declaration} {program : Program}
    (hread : ∀ decl ∈ decls, decl.IsRead) (h : Program.ofDeclarations decls = .ok program) :
    program.Resolved :=
  Program.ofDeclarations_resolved (fun decl hm => (hread decl hm).shaped) h

/-- An expression from a text is resolved, with no local names. -/
theorem Program.exprOfText?_resolved {program : Program} {text : String} {e : Expr}
    (h : program.exprOfText? text = some e) : e.Resolved program [] := by
  obtain ⟨t, hread, hexpr⟩ := Option.bind_eq_some_iff.1 h
  have hshape := Syntax.parseExpression_shaped (toOption_eq_some.1 hread)
  exact Term.resolve_resolved hshape (toOption_eq_some.1 hexpr)

end Fern
