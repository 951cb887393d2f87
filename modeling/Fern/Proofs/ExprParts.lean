import Fern.Eval.Eval

/-!
# The parts of an expression

One list gives the expressions that an expression is made of, each with the
name that it binds for that part. What holds of every node, and which names
occur free, are read off this list, so no form of expression needs a rule of
its own.
-/

namespace Fern.Expr

/-- The expressions directly below an expression, each with the name that is
bound for it. -/
def parts : Expr → List (Option String × Expr)
  | .tuple items _ | .record items _ => items.map (none, ·)
  | .field target _ _ => [(none, target)]
  | .letIn name rhs body _ => [(none, rhs), (some name, body)]
  | .caseOf matchee branches _ =>
    (none, matchee) :: branches.map fun branch => (branch.binding, branch.body)
  | .apply callee args _ => (none, callee) :: args.map (none, ·)
  | .lambda param body _ => [(some param, body)]
  | .conditional cond cons alt _ => [(none, cond), (none, cons), (none, alt)]
  | .binary _ lhs rhs _ => [(none, lhs), (none, rhs)]
  | .symbol .. | .boolean .. | .constructor .. | .builtin .. | .string .. | .integer .. | .unit ..
  | .other .. => []

/-- Every node of an expression has a property. -/
inductive All (p : Expr → Prop) : Expr → Prop
  | intro {e : Expr} (here : p e) (below : ∀ part ∈ e.parts, All p part.2) : All p e

/-- A name occurs in an expression and is not bound there. -/
inductive Free (name : String) : Expr → Prop
  | symbol (type : TypeInfo) : Free name (.symbol name type)
  | inside {e : Expr} {binder : Option String} {part : Expr} (mem : (binder, part) ∈ e.parts)
      (unbound : binder ≠ some name) (free : Free name part) : Free name e

variable {p : Expr → Prop} {e : Expr}

theorem All.here (h : e.All p) : p e := by
  cases h with
  | intro here _ => exact here

theorem All.part (h : e.All p) {binder : Option String} {part : Expr}
    (hm : (binder, part) ∈ e.parts) : part.All p := by
  cases h with
  | intro _ below => exact below _ hm

theorem All.mono {q : Expr → Prop} (h : e.All p) (hpq : ∀ e, p e → q e) : e.All q := by
  induction h with
  | intro here _ ih => exact .intro (hpq _ here) ih

/-- A node without parts has to be looked at alone. -/
theorem All.leaf (hp : e.parts = []) (h : p e) : e.All p :=
  .intro h fun _ hm => absurd (hp ▸ hm) List.not_mem_nil

theorem eq_of_free_symbol {name other : String} {type : TypeInfo}
    (h : (Expr.symbol other type).Free name) : other = name := by
  generalize he : Expr.symbol other type = e at h
  cases h with
  | symbol _ => exact (Expr.symbol.inj he).1
  | inside hm _ _ =>
      subst he
      cases hm

/-- Nothing is free in a node without parts other than a symbol. -/
theorem not_free_of_leaf {name : String} (hp : e.parts = []) (hs : ∀ type, e ≠ .symbol name type) :
    ¬e.Free name := by
  intro h
  cases h with
  | symbol type => exact hs type rfl
  | inside hm _ _ => exact absurd (hp ▸ hm) List.not_mem_nil

end Fern.Expr
