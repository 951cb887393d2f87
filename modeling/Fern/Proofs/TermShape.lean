import Fern.Syntax.Term

/-!
# The shape of trees

Trees can be built by hand in ways in which the grammar never builds them: a
tuple of one item, a match without arms, an operator that the language does not
have. `HasShape` says what the grammar guarantees of a single node, and `All`
carries a property of nodes to all of a tree.
-/

namespace Fern

namespace Term

/-- The expressions directly below an expression. -/
def parts : Term → List Term
  | .tuple items => items
  | .record fields => fields.map (·.2)
  | .field target _ | .item target _ => [target]
  | .apply callee args => callee :: args
  | .binary _ lhs rhs => [lhs, rhs]
  | .sequence first rest => [first, rest]
  | .letIn _ rhs body => [rhs, body]
  | .conditional cond cons alt => [cond, cons, alt]
  | .caseOf matchee arms => matchee :: arms.map (·.body)
  | .lambda _ body => [body]
  | .integer _ | .string _ | .boolean _ | .unit | .identifier _ | .constructor _ | .other .. => []

/-- Every node of an expression has a property. -/
inductive All (p : Term → Prop) : Term → Prop
  | intro {t : Term} (here : p t) (below : ∀ part ∈ t.parts, All p part) : All p t

/-- A node is one that the grammar builds. -/
def HasShape : Term → Prop
  | .integer n => 0 ≤ n
  | .tuple items => 2 ≤ items.length
  | .record fields => fields ≠ []
  | .item _ index => 0 ≤ index
  | .apply _ args => args ≠ []
  | .binary op _ _ => op ∈ Operator.all
  | .caseOf _ arms => arms ≠ []
  | .lambda params _ => params ≠ []
  | .other .. => False
  | .string _ | .boolean _ | .unit | .identifier _ | .constructor _ | .field .. | .sequence ..
  | .letIn .. | .conditional .. => True

variable {p : Term → Prop} {t : Term}

theorem All.here (h : t.All p) : p t := by
  cases h with
  | intro here _ => exact here

theorem All.part (h : t.All p) {part : Term} (hm : part ∈ t.parts) : part.All p := by
  cases h with
  | intro _ below => exact below _ hm

theorem All.imp {q : Term → Prop} (h : t.All p) (hpq : ∀ t, p t → q t) : t.All q := by
  induction h with
  | intro here _ ih => exact .intro (hpq _ here) ih

/-- A node without parts has to be looked at alone. -/
theorem All.leaf (hp : t.parts = []) (h : p t) : t.All p :=
  .intro h fun _ hm => absurd (hp ▸ hm) List.not_mem_nil

theorem sizeOf_lt_of_mem_parts {part : Term} (h : part ∈ t.parts) : sizeOf part < sizeOf t := by
  cases t with
  | tuple items =>
      have := List.sizeOf_lt_of_mem (show part ∈ items from h)
      simp only [tuple.sizeOf_spec]
      omega
  | record fields =>
      obtain ⟨⟨name, part⟩, hf, rfl⟩ := List.mem_map.1 h
      have := List.sizeOf_lt_of_mem hf
      simp only [Prod.mk.sizeOf_spec, record.sizeOf_spec] at this ⊢
      omega
  | apply callee args =>
      simp only [apply.sizeOf_spec]
      rcases List.mem_cons.1 h with rfl | h
      · omega
      · have := List.sizeOf_lt_of_mem h
        omega
  | caseOf matchee arms =>
      simp only [caseOf.sizeOf_spec]
      rcases List.mem_cons.1 h with rfl | h
      · omega
      · obtain ⟨⟨head, binding, body⟩, ha, rfl⟩ := List.mem_map.1 h
        have := List.sizeOf_lt_of_mem ha
        simp only [Arm.mk.sizeOf_spec] at this ⊢
        omega
  | field | item | lambda =>
      cases List.mem_singleton.1 h
      simp <;> omega
  | binary | sequence | letIn | conditional =>
      simp only [parts, List.mem_cons, List.not_mem_nil, or_false] at h
      rcases h with rfl | rfl | rfl <;> simp <;> omega
  | integer | string | boolean | unit | identifier | constructor | other => cases h

/-- What holds of every expression holds of every node of an expression. -/
theorem All.of_forall (h : ∀ t, p t) (t : Term) : t.All p :=
  .intro (h t) fun part _ => of_forall h part
termination_by sizeOf t
decreasing_by exact sizeOf_lt_of_mem_parts ‹_›

end Term

/-- Every node of the body of a function declaration has a property; a type
declaration has no body. -/
def Declaration.All (p : Term → Prop) : Declaration → Prop
  | .type _ => True
  | .function decl => decl.body.All p

end Fern
