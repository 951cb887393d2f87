import Fern.Proofs.EvalPairs

/-!
# Expressions up to the names they bind

Two expressions are alike if they differ only in names that they bind. Which
name on one side stands for which on the other is a relation between names, and
a pair of binders changes it: the two names now stand for each other and for
nothing else. Two programs are alike if they define alike functions.
-/

namespace Fern

/-- Which names on one side stand for which on the other. -/
abbrev NameMatch := String → String → Prop

namespace NameMatch

/-- What names stand for below a pair of binders. -/
def bind (m : NameMatch) (name name' : String) : NameMatch := fun x x' =>
  x = name ∧ x' = name' ∨ x ≠ name ∧ x' ≠ name' ∧ m x x'

end NameMatch

section Alike

variable (binder : String → String → Prop)

/-- Two expressions differ at most in the names that they bind, which are
related, and in the occurrences of these. -/
inductive Expr.Alike : NameMatch → Expr → Expr → Prop
  | intro {m : NameMatch} {e e' : Expr} {inner : Expr → Expr → Prop}
      {under : String → String → Expr → Expr → Prop}
      (hinner : ∀ {part part' : Expr}, inner part part' → Alike m part part')
      (hbinder : ∀ {name name' : String} {part part' : Expr}, under name name' part part' →
        binder name name')
      (hunder : ∀ {name name' : String} {part part' : Expr}, under name name' part part' →
        Alike (m.bind name name') part part')
      (type : e.type = e'.type)
      (node : e.Paired inner under m (fun handle index handle' index' =>
        handle = handle' ∧ index = index') e') : Alike m e e'

/-- Two programs have the same types, and the same names defined as alike
functions. -/
structure Program.Alike (m : NameMatch) (program program' : Program) : Prop where
  types : program.types = program'.types
  defined (name : String) : Option.Rel (fun definition definition' =>
    definition.expr.Alike binder m definition'.expr) (program.find? name) (program'.find? name)

end Alike

variable {binder : String → String → Prop}

namespace Expr.Alike

variable {m : NameMatch} {e e' : Expr}

theorem type (h : e.Alike binder m e') : e.type = e'.type := by
  cases h with
  | intro _ _ _ type _ => exact type

/-- Alike expressions are of one form, and their parts are alike. -/
theorem node (h : e.Alike binder m e') :
    e.Paired (Alike binder m)
      (fun name name' part part' => binder name name' ∧ Alike binder (m.bind name name') part part')
      m (fun handle index handle' index' => handle = handle' ∧ index = index') e' := by
  cases h with
  | intro hinner hbinder hunder _ node =>
      exact node.mono hinner (fun h => ⟨hbinder h, hunder h⟩) id id

theorem of_node (type : e.type = e'.type)
    (node : e.Paired (Alike binder m)
      (fun name name' part part' => binder name name' ∧ Alike binder (m.bind name name') part part')
      m (fun handle index handle' index' => handle = handle' ∧ index = index') e') :
    e.Alike binder m e' :=
  .intro id (·.1) (·.2) type node

end Expr.Alike

end Fern
