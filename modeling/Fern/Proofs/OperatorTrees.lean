import Fern.Proofs.Writing

/-!
# Trees of operators

An expression of operands and operators is a tree of operators with the operands at its leaves. The
grouping that the levels of the operators call for is a property of each operator in it and the two
below it: to the left of an operator there is none that binds looser, to the right none that binds
as loosely. What a row of operands and operators leaves open is then settled: the operator at the
root is the last of the loosest ones, so there is at most one such tree with that row.
-/

namespace Fern

/-- How loosely an operator binds. -/
def Operator.level : Operator → Nat
  | .mul | .div | .mod => 0
  | .add | .sub => 1
  | .less | .lessEq | .greater | .greaterEq | .equals => 2
  | .and => 3
  | .or => 4
  | .other _ => 5

/-- A tree of operators over operands. -/
inductive OperatorTree
  | leaf (operand : Term)
  | node (op : Operator) (lhs rhs : OperatorTree)

namespace OperatorTree

/-- The expression that a tree stands for. -/
def toTerm : OperatorTree → Term
  | .leaf operand => operand
  | .node op lhs rhs => .binary op lhs.toTerm rhs.toTerm

/-- The operands and the operators of a tree, from left to right. -/
def row : OperatorTree → List (Term ⊕ Operator)
  | .leaf operand => [.inl operand]
  | .node op lhs rhs => lhs.row ++ .inr op :: rhs.row

/-- The operator at the root. -/
def root? : OperatorTree → Option Operator
  | .leaf _ => none
  | .node op _ _ => some op

/-- Operators of one level are grouped to the left, and those of looser levels stand above. -/
inductive Grouped : OperatorTree → Prop
  | leaf (operand : Term) : Grouped (.leaf operand)
  | node {op : Operator} {lhs rhs : OperatorTree} (hlhs : Grouped lhs) (hrhs : Grouped rhs)
      (hleft : ∀ o ∈ lhs.root?, o.level ≤ op.level) (hright : ∀ o ∈ rhs.root?, o.level < op.level) :
      Grouped (.node op lhs rhs)

theorem grouped_node_iff {op : Operator} {lhs rhs : OperatorTree} :
    Grouped (.node op lhs rhs) ↔ (lhs.Grouped ∧ rhs.Grouped) ∧
      (∀ o ∈ lhs.root?, o.level ≤ op.level) ∧ ∀ o ∈ rhs.root?, o.level < op.level := by
  constructor
  · intro h
    cases h with
    | node hlhs hrhs hleft hright => exact ⟨⟨hlhs, hrhs⟩, hleft, hright⟩
  · rintro ⟨⟨hlhs, hrhs⟩, hleft, hright⟩
    exact .node hlhs hrhs hleft hright

instance decidableGrouped : (tree : OperatorTree) → Decidable tree.Grouped
  | .leaf operand => isTrue (.leaf operand)
  | .node _ lhs rhs =>
    have := decidableGrouped lhs
    have := decidableGrouped rhs
    decidable_of_iff _ grouped_node_iff.symm

variable {tree other : OperatorTree}

theorem row_ne_nil (tree : OperatorTree) : tree.row ≠ [] := by
  cases tree with
  | leaf => exact List.cons_ne_nil _ _
  | node => exact List.append_ne_nil_of_right_ne_nil _ (List.cons_ne_nil _ _)

/-- No operator binds looser than the one at the root. -/
theorem Grouped.level_le (h : tree.Grouped) {op : Operator} (hop : .inr op ∈ tree.row) :
    ∃ root ∈ tree.root?, op.level ≤ root.level := by
  induction h with
  | leaf => simp [row] at hop
  | @node root lhs rhs _ _ hleft hright ihl ihr =>
      refine ⟨root, rfl, ?_⟩
      rcases List.mem_append.1 hop with hmem | hmem
      · obtain ⟨below, hbelow, hle⟩ := ihl hmem
        exact Nat.le_trans hle (hleft below hbelow)
      · rcases List.mem_cons.1 hmem with he | hmem
        · cases he
          exact Nat.le_refl _
        · obtain ⟨below, hbelow, hle⟩ := ihr hmem
          exact Nat.le_trans hle (Nat.le_of_lt (hright below hbelow))

section Node

variable {op op' : Operator} {lhs rhs lhs' rhs' : OperatorTree}

theorem Grouped.level_le_of_left (h : Grouped (.node op lhs rhs)) (hop : .inr op' ∈ lhs.row) :
    op'.level ≤ op.level := by
  cases h with
  | node hlhs _ hleft =>
      obtain ⟨root, hroot, hle⟩ := hlhs.level_le hop
      exact Nat.le_trans hle (hleft root hroot)

theorem Grouped.level_lt_of_right (h : Grouped (.node op lhs rhs)) (hop : .inr op' ∈ rhs.row) :
    op'.level < op.level := by
  cases h with
  | node _ hrhs _ hright =>
      obtain ⟨root, hroot, hle⟩ := hrhs.level_le hop
      exact Nat.lt_of_le_of_lt hle (hright root hroot)

/-- The roots of two such trees with one row do not stand at different places of it: the one
further to the left would have to bind looser than the other, and not looser. -/
theorem Grouped.root_not_before (h : Grouped (.node op lhs rhs))
    (h' : Grouped (.node op' lhs' rhs')) {between : List (Term ⊕ Operator)}
    (hlhs : lhs'.row = lhs.row ++ .inr op :: between)
    (hrhs : rhs.row = between ++ .inr op' :: rhs'.row) : False := by
  have hop : .inr op ∈ lhs'.row := hlhs ▸ List.mem_append_right _ List.mem_cons_self
  have hop' : .inr op' ∈ rhs.row := hrhs ▸ List.mem_append_right _ List.mem_cons_self
  exact Nat.not_lt.2 (h'.level_le_of_left hop) (h.level_lt_of_right hop')

end Node

/-- A row has at most one tree that is grouped by the levels. -/
theorem Grouped.eq_of_row_eq (h : tree.Grouped) (h' : other.Grouped) (hrow : tree.row = other.row) :
    tree = other := by
  have alone {operand : Term} {op : Operator} {lhs rhs : OperatorTree} :
      (OperatorTree.leaf operand).row ≠ (OperatorTree.node op lhs rhs).row := by
    intro he
    have hlength := congrArg List.length he
    have hlhs := List.length_pos_iff.2 lhs.row_ne_nil
    have hrhs := List.length_pos_iff.2 rhs.row_ne_nil
    simp only [row, List.length_append, List.length_cons, List.length_nil] at hlength
    omega
  induction h generalizing other with
  | leaf operand =>
      cases h' with
      | leaf => simpa [row] using hrow
      | node => exact absurd hrow alone
  | @node op lhs rhs hlhs hrhs hleft hright ihl ihr =>
      cases h' with
      | leaf => exact absurd hrow.symm alone
      | @node op' lhs' rhs' hlhs' hrhs' hleft' hright' =>
          have hnode : Grouped (.node op lhs rhs) := .node hlhs hrhs hleft hright
          have hnode' : Grouped (.node op' lhs' rhs') := .node hlhs' hrhs' hleft' hright'
          rcases List.append_eq_append_iff.1 hrow with ⟨between, hl, hr⟩ | ⟨between, hl, hr⟩
          · cases between with
            | nil =>
                obtain ⟨hop, hrest⟩ := List.cons.inj hr
                cases hop
                rw [ihl hlhs' (hl.trans (List.append_nil _)).symm, ihr hrhs' hrest]
            | cons x between =>
                obtain ⟨rfl, hrest⟩ := List.cons.inj hr
                exact (hnode.root_not_before hnode' hl hrest).elim
          · cases between with
            | nil =>
                obtain ⟨hop, hrest⟩ := List.cons.inj hr
                cases hop
                rw [ihl hlhs' (hl.trans (List.append_nil _)), ihr hrhs' hrest.symm]
            | cons x between =>
                obtain ⟨rfl, hrest⟩ := List.cons.inj hr
                exact (hnode'.root_not_before hnode hl hrest).elim

end OperatorTree

end Fern
