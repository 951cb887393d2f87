import Fern.Proofs.EvalPairs

/-!
# Expressions without annotations

What is known of the type of an expression is written on its node, and on the
definition that it belongs to, for display alone. `bare` takes all of it away, from
a value also inside the functions that it carries. A context is bare if, besides,
its tracing is off.

Evaluation does the same with bare expressions as with annotated ones. So of two
evaluations that are the same when bare, neither can be told from the other: each
is like the bare one, and that one is the same for both.
-/

namespace Fern

mutual

/-- The expression with nothing known of any type. -/
def Expr.bare : Expr → Expr
  | .tuple items _ => .tuple (Expr.bareAll items) .unknown
  | .record items _ => .record (Expr.bareAll items) .unknown
  | .field target index _ => .field target.bare index .unknown
  | .letIn name rhs body _ => .letIn name rhs.bare body.bare .unknown
  | .caseOf matchee branches _ => .caseOf matchee.bare (Expr.bareBranches branches) .unknown
  | .apply callee args _ => .apply callee.bare (Expr.bareAll args) .unknown
  | .lambda param body _ => .lambda param body.bare .unknown
  | .symbol name _ => .symbol name .unknown
  | .boolean value _ => .boolean value .unknown
  | .conditional cond cons alt _ => .conditional cond.bare cons.bare alt.bare .unknown
  | .binary op lhs rhs _ => .binary op lhs.bare rhs.bare .unknown
  | .constructor handle index _ => .constructor handle index .unknown
  | .builtin id _ => .builtin id .unknown
  | .string value _ => .string value .unknown
  | .integer value _ => .integer value .unknown
  | .unit _ => .unit .unknown
  | .other kind content _ => .other kind content .unknown

def Expr.bareAll : List Expr → List Expr
  | [] => []
  | e :: rest => e.bare :: Expr.bareAll rest

def Expr.bareBranches : List (Branch Expr) → List (Branch Expr)
  | [] => []
  | ⟨index, binding, body⟩ :: rest => ⟨index, binding, body.bare⟩ :: Expr.bareBranches rest

end

mutual

/-- The value with bare expressions inside the functions that it carries. -/
def Value.bare : Value → Value
  | .tuple items => .tuple (Value.bareAll items)
  | .function param captured body => .function param (Value.bareBindings captured) body.bare
  | .variant handle index payload => .variant handle index payload.bare
  | .unit => .unit
  | .integer n => .integer n
  | .string text => .string text
  | .constructor handle index => .constructor handle index
  | .builtin id => .builtin id
  | .other typeName content => .other typeName content

def Value.bareAll : List Value → List Value
  | [] => []
  | v :: rest => v.bare :: Value.bareAll rest

def Value.bareBindings : List (String × Value) → List (String × Value)
  | [] => []
  | (name, v) :: rest => (name, v.bare) :: Value.bareBindings rest

end

/-- The scope with its values bare. -/
def Scope.bare (scope : Scope) : Scope := scope.map fun binding => (binding.1, binding.2.bare)

/-- The definition without its type and with its expression bare. -/
def Definition.bare (definition : Definition) : Definition := ⟨definition.expr.bare, .unknown⟩

/-- The program with its definitions bare. -/
def Program.bare (program : Program) : Program :=
  { program with
    definitions := program.definitions.map fun entry => (entry.1, entry.2.bare) }

/-- The context with its program bare and its tracing off. -/
def Context.bare (context : Context) : Context := ⟨context.program.bare, context.files, false⟩

theorem Expr.bareAll_eq_map (items : List Expr) : Expr.bareAll items = items.map Expr.bare := by
  induction items with
  | nil => rfl
  | cons e rest ih => rw [Expr.bareAll, ih, List.map_cons]

theorem Expr.bareBranches_eq_map (branches : List (Branch Expr)) :
    Expr.bareBranches branches =
      branches.map fun branch => ⟨branch.index, branch.binding, branch.body.bare⟩ := by
  induction branches with
  | nil => rfl
  | cons branch rest ih => rw [Expr.bareBranches, ih, List.map_cons]

theorem Value.bareAll_eq_map (items : List Value) : Value.bareAll items = items.map Value.bare := by
  induction items with
  | nil => rfl
  | cons v rest ih => rw [Value.bareAll, ih, List.map_cons]

theorem Value.bareBindings_eq (scope : Scope) : Value.bareBindings scope = scope.bare := by
  induction scope with
  | nil => rfl
  | cons binding rest ih =>
      rw [Value.bareBindings, ih]
      rfl

/-! ## One side of evaluation -/

section Pairs

variable {inner : Expr → Expr → Prop} {under : String → String → Expr → Expr → Prop}
  {names : String → String → Prop} {constructors : TypeHandle → Int → TypeHandle → Int → Prop}

/-- A node and the bare one are of one form, and so are their parts. -/
theorem Expr.paired_bare (e : Expr) (hinner : ∀ part : Expr, inner part part.bare)
    (hunder : ∀ (name : String) (part : Expr), under name name part part.bare)
    (hnames : ∀ name, names name name)
    (hconstructors : ∀ handle index, constructors handle index handle index) :
    e.Paired inner under names constructors e.bare := by
  have hall (items : List Expr) : List.Forall₂ inner items (Expr.bareAll items) := by
    rw [Expr.bareAll_eq_map, List.forall₂_map_right_iff]
    exact List.forall₂_same.2 fun part _ => hinner part
  cases e with
  | tuple items type => exact .tuple (hall items)
  | record items type => exact .record (hall items)
  | field target index type => exact .field (hinner target)
  | letIn name rhs body type => exact .letIn (hinner rhs) (hunder name body)
  | caseOf matchee branches type =>
      refine .caseOf (hinner matchee) ?_
      rw [Expr.bareBranches_eq_map, List.forall₂_map_right_iff]
      refine List.forall₂_same.2 fun branch _ => ?_
      obtain ⟨index, _ | name, body⟩ := branch
      · exact .plain (hinner body)
      · exact .capture (hunder name body)
  | apply callee args type => exact .apply (hinner callee) (hall args)
  | lambda param body type => exact .lambda (hunder param body)
  | symbol name type => exact .symbol (hnames name)
  | boolean value type => exact .boolean
  | conditional cond cons alt type => exact .conditional (hinner cond) (hinner cons) (hinner alt)
  | binary op lhs rhs type => exact .binary (hinner lhs) (hinner rhs)
  | constructor handle index type => exact .constructor (hconstructors handle index)
  | builtin id type => exact .builtin
  | string value type => exact .string
  | integer value type => exact .integer
  | unit type => exact .unit
  | other kind content type => exact .other

theorem Expr.paired_of_eq_bare {e e' : Expr} (he : e' = e.bare) :
    e.Paired (fun part part' => part' = part.bare)
      (fun name name' part part' => name' = name ∧ part' = part.bare) Eq (fun _ _ _ _ => True)
      e' := by
  subst he
  exact e.paired_bare (fun _ => rfl) (fun _ _ => ⟨rfl, rfl⟩) (fun _ => rfl) fun _ _ => trivial

/-- A value and the bare one are of one form, and so is what they carry. -/
theorem Value.paired_bare {inner : Value → Value → Prop}
    {functions : String → Scope → Expr → String → Scope → Expr → Prop} (v : Value)
    (hinner : ∀ part : Value, inner part part.bare)
    (hfunctions : ∀ param captured body,
      functions param captured body param (Scope.bare captured) body.bare) :
    v.Paired Eq inner functions v.bare := by
  cases v with
  | unit => exact .unit
  | integer n => exact .integer n
  | string text => exact .string text
  | tuple items =>
      refine .tuple ?_
      rw [Value.bareAll_eq_map, List.forall₂_map_right_iff]
      exact List.forall₂_same.2 fun part _ => hinner part
  | function param captured body =>
      refine .function ?_
      rw [Value.bareBindings_eq]
      exact hfunctions param captured body
  | variant handle index payload => exact .variant rfl (hinner payload)
  | constructor handle index => exact .constructor rfl
  | builtin id => exact .builtin id
  | other typeName content => exact .other typeName content

end Pairs

theorem Scope.find?_bare (scope : Scope) (name : String) :
    scope.bare.find? name = (scope.find? name).map Value.bare := by
  induction scope with
  | nil => rfl
  | cons binding rest ih =>
      obtain ⟨key, v⟩ := binding
      rw [Scope.find?, Scope.bare, List.map_cons, Scope.find?, List.lookup_cons, List.lookup_cons]
      cases name == key with
      | true => rfl
      | false => exact ih

theorem Program.find?_bare (program : Program) (name : String) :
    program.bare.find? name = (program.find? name).map Definition.bare := by
  obtain ⟨definitions, types⟩ := program
  induction definitions with
  | nil => rfl
  | cons entry rest ih =>
      obtain ⟨key, definition⟩ := entry
      rw [Program.find?, Program.bare, List.map_cons, Program.find?, List.lookup_cons,
        List.lookup_cons]
      cases name == key with
      | true => rfl
      | false => exact ih

/-- A name is defined by an expression of one form or not at all. -/
theorem Program.rel_find?_bare (program : Program) (name : String) :
    Option.Rel (fun definition definition' => definition'.expr = definition.expr.bare)
      (program.find? name) (program.bare.find? name) := by
  rw [Program.find?_bare]
  cases program.find? name with
  | none => exact .none
  | some definition => exact .some rfl

theorem lookup_bare (context : Context) (scope : Scope) (name : String) :
    (context.lookup scope name).Alike (fun v v' => v' = v.bare) Eq
      (context.bare.lookup scope.bare name) := by
  have hlocal := scope.find?_bare name
  cases hv : scope.find? name with
  | some v =>
      rw [hv, Option.map_some] at hlocal
      rw [Context.lookup, Context.lookup, hv, hlocal]
      exact Run.Alike.pure rfl
  | none =>
      rw [hv, Option.map_none] at hlocal
      refine @Context.alike_lookup_of_defined _ context.bare _ _ (fun e e' => e' = e.bare)
        _ _ _ _ _ _ _ hv hlocal (context.program.rel_find?_bare name) Expr.paired_of_eq_bare
        (fun hbody => ?_) (fun _ => rfl) fun _ => rfl
      obtain ⟨rfl, rfl⟩ := hbody
      rfl

/-- Evaluation does with bare expressions what it does with annotated ones. -/
theorem relates_bare (context : Context) :
    context.Relates context.bare Eq
      (fun scope scope' e e' => scope' = scope.bare ∧ e' = e.bare) (fun v v' => v' = v.bare)
      Eq where
  files := rfl
  node h := by
    obtain ⟨rfl, rfl⟩ := h
    refine Expr.paired_bare _ (fun _ => ⟨rfl, rfl⟩) (fun name part v v' hv => ?_)
      (lookup_bare context _) fun handle index => ?_
    · subst hv
      exact ⟨rfl, rfl⟩
    · exact @Context.alike_makeConstructor context context.bare (fun v v' => v' = v.bare) Eq rfl
        (fun _ _ => rfl) (fun _ => rfl) handle index
  closure h := by
    obtain ⟨rfl, hbody⟩ := h
    obtain ⟨rfl, rfl, _⟩ := Expr.lambda.inj hbody
    rw [Value.bare, Value.bareBindings_eq]
  value h := by
    subst h
    refine Value.paired_bare _ (fun _ => rfl) fun param captured body w w' hw => ?_
    subst hw
    exact ⟨rfl, rfl⟩
  unit := rfl
  integer _ := rfl
  string _ := rfl
  builtin _ := rfl
  tuple hitems := by
    rw [Value.bare, Value.bareAll_eq_map]
    congr 1
    induction hitems with
    | nil => rfl
    | cons hv _ ih => rw [hv, ih, List.map_cons]
  variant hh hv := by rw [hh, hv, Value.bare]
  noBranch _ hh := by rw [hh]
  fault _ := rfl

/-- A run does with a bare program what it does with an annotated one. -/
theorem runWith_bare (context : Context) (nesting : Except LimitFault Nat) (entry : String) :
    (context.runWith (context.evalWithin nesting) entry).Alike (fun v v' => v' = v.bare) Eq
      (context.bare.runWith (context.bare.evalWithin nesting) entry) := by
  refine (@Context.runWith_unless context context.bare _ _ _ _ (fun e e' => e' = e.bare)
    _ _ _ _ _ _ _ (context.program.rel_find?_bare entry) Expr.paired_of_eq_bare
    (fun _ _ hbody => ?_) fun _ => rfl).alike
  exact ((relates_bare context).evalWithin nesting [] [] _ _ ⟨rfl, hbody.2⟩).unless

/-! ## Two evaluations -/

theorem Run.Alike.of_bare {run run' third : Run Value}
    (h : run.Alike (fun v v' => v' = v.bare) Eq third)
    (h' : run'.Alike (fun v v' => v' = v.bare) Eq third) :
    run.Alike (fun v v' => v.bare = v'.bare) Eq run' := by
  refine (h.meet h').mono (fun v v' hv => ?_) fun f f' hf => ?_
  · obtain ⟨w, hw, hw'⟩ := hv
    exact hw.symm.trans hw'
  · obtain ⟨g, hg, hg'⟩ := hf
    exact hg.trans hg'.symm

/-- Two evaluations that are the same when bare write the same and end in the same
way, whatever their annotations say, whether they are traced or not, and whatever
had been written before them: with the same fault, or with values that are the same
when bare. -/
theorem alike_of_bare {context context' : Context} (hcontext : context.bare = context'.bare)
    {scope scope' : Scope} (hscope : scope.bare = scope'.bare) {e e' : Expr}
    (he : e.bare = e'.bare) (nesting : Except LimitFault Nat) :
    (context.evalWithin nesting scope e).Alike (fun v v' => v.bare = v'.bare) Eq
      (context'.evalWithin nesting scope' e') := by
  have h := (relates_bare context).evalWithin nesting scope _ e _ ⟨rfl, rfl⟩
  have h' := (relates_bare context').evalWithin nesting scope' _ e' _ ⟨rfl, rfl⟩
  rw [← hcontext, ← hscope, ← he] at h'
  exact h.of_bare h'

/-- A traced application in an annotated program, to an argument and of a function
from outside that are annotated as well, beside the same without annotations and
without a trace. -/
theorem alike_of_bare_closure :
    (Context.evalWithin
      ⟨⟨[("double", ⟨.lambda "n" (.binary .add (.symbol "n" .int) (.symbol "n" .int) .int)
        (.function .int .int), .function .int .int⟩)], []⟩, .ofEntries [], true⟩ (.ok 9)
      [("f", .function "x" [("u", .unit)]
        (.apply (.symbol "double" .anyFunction) [.symbol "x" .int] .int))]
      (.apply (.symbol "f" (.function .int .int)) [.integer 4 .int] .int)).Alike
      (fun v v' => v.bare = v'.bare) Eq
      (Context.evalWithin
        ⟨⟨[("double", ⟨.lambda "n" (.binary .add (.symbol "n" .unknown) (.symbol "n" .unknown)
          .unknown) .unknown, .unknown⟩)], []⟩, .ofEntries [], false⟩ (.ok 9)
        [("f", .function "x" [("u", .unit)]
          (.apply (.symbol "double" .unknown) [.symbol "x" .unknown] .unknown))]
        (.apply (.symbol "f" .unknown) [.integer 4 .unknown] .unknown)) := by
  refine alike_of_bare ?_ ?_ ?_ (.ok 9)
  · rfl
  · rfl
  · rfl

/-- Two runs of programs that are the same when bare write the same and end in the
same way, from every entry. -/
theorem alike_runWith_of_bare {context context' : Context}
    (hcontext : context.bare = context'.bare) (nesting : Except LimitFault Nat) (entry : String) :
    (context.runWith (context.evalWithin nesting) entry).Alike (fun v v' => v.bare = v'.bare) Eq
      (context'.runWith (context'.evalWithin nesting) entry) := by
  have h := runWith_bare context nesting entry
  have h' := runWith_bare context' nesting entry
  rw [← hcontext] at h'
  exact h.of_bare h'

end Fern
