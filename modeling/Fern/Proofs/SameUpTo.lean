import Fern.Proofs.EvalPairs

/-!
# Expressions up to handles and types

A program numbers its types by their places, and an annotation says what was
known of a type when the program was resolved. Two expressions may be the same
but for these two: `Tolerance` says which handles and which annotations go
together, and which names have a meaning outside. Handles that go together refer
to the same definition, so evaluation cannot tell such expressions apart, and
what it gives is the same up to the same differences.
-/

namespace Fern

/-- What expressions and values may differ in, and the names that they may use
without binding them. -/
structure Tolerance where
  handles : TypeHandle → TypeHandle → Prop
  types : TypeInfo → TypeInfo → Prop
  known : String → Prop

/-- Whatever one tolerance allows, another one does as well. -/
structure Tolerance.Within (tol tol' : Tolerance) : Prop where
  handles {handle handle' : TypeHandle} : tol.handles handle handle' → tol'.handles handle handle'
  types {type type' : TypeInfo} : tol.types type type' → tol'.types type type'
  known {name : String} : tol.known name → tol'.known name

section SameUpTo

variable (tol : Tolerance)

/-- Two expressions differ in handles and annotations at most. Some names are
local to them; all others are known. -/
inductive Expr.SameUpTo : List String → Expr → Expr → Prop
  | intro {locals : List String} {e e' : Expr} {inner : Expr → Expr → Prop}
      {under : String → String → Expr → Expr → Prop}
      (hinner : ∀ {part part' : Expr}, inner part part' → SameUpTo locals part part')
      (hname : ∀ {name name' : String} {part part' : Expr}, under name name' part part' →
        name = name')
      (hunder : ∀ {name name' : String} {part part' : Expr}, under name name' part part' →
        SameUpTo (name :: locals) part part')
      (type : tol.types e.type e'.type)
      (node : e.Paired inner under
        (fun name name' => name = name' ∧ (name ∈ locals ∨ tol.known name))
        (fun handle index handle' index' => tol.handles handle handle' ∧ index = index') e') :
      SameUpTo locals e e'

/-- Two values differ in handles, and in handles and annotations inside functions,
at most. -/
inductive Value.SameUpTo : Value → Value → Prop
  | intro {v v' : Value} {inner : Value → Value → Prop}
      (hinner : ∀ {part part' : Value}, inner part part' → SameUpTo part part')
      (node : v.Paired tol.handles inner (fun param captured body param' captured' body' =>
        param = param' ∧ captured.map (·.1) = captured'.map (·.1) ∧
          List.Forall₂ (fun binding binding' => inner binding.2 binding'.2) captured captured' ∧
          body.SameUpTo tol (param :: captured.map (·.1)) body') v') : SameUpTo v v'

/-- Two scopes bind the same names, in the same order, to values that are the
same. -/
structure Scope.SameUpTo (scope scope' : Scope) : Prop where
  names : scope.map (·.1) = scope'.map (·.1)
  values : List.Forall₂ (fun binding binding' => binding.2.SameUpTo tol binding'.2) scope scope'

/-- Two faults differ in the handle that they report at most. -/
inductive Fault.SameUpTo : Fault → Fault → Prop
  | same (f : Fault) : SameUpTo f f
  | noBranch (index : Int) {handle handle' : TypeHandle} (hhandle : tol.handles handle handle') :
      SameUpTo (.failed (.noBranch index handle)) (.failed (.noBranch index handle'))
  | notSumType {handle handle' : TypeHandle} (hhandle : tol.handles handle handle') :
      SameUpTo (.failed (.notSumType handle)) (.failed (.notSumType handle'))

/-- Two programs give handles that go together the same meaning, and known names
definitions that are the same. -/
structure Program.SameUpTo (program program' : Program) : Prop where
  typeDef {handle handle' : TypeHandle} : tol.handles handle handle' →
    program.typeDef? handle = program'.typeDef? handle'
  name {handle handle' : TypeHandle} : tol.handles handle handle' → handle.name = handle'.name
  defined {name : String} : tol.known name →
    Option.Rel (fun definition definition' => definition.expr.SameUpTo tol [] definition'.expr)
      (program.find? name) (program'.find? name)

end SameUpTo

variable {tol tol' : Tolerance}

namespace Expr.SameUpTo

variable {locals : List String} {e e' : Expr}

theorem type (h : e.SameUpTo tol locals e') : tol.types e.type e'.type := by
  cases h with
  | intro _ _ _ type _ => exact type

/-- Expressions that are the same are of one form, and their parts are the
same. -/
theorem node (h : e.SameUpTo tol locals e') :
    e.Paired (SameUpTo tol locals)
      (fun name name' part part' => name = name' ∧ SameUpTo tol (name :: locals) part part')
      (fun name name' => name = name' ∧ (name ∈ locals ∨ tol.known name))
      (fun handle index handle' index' => tol.handles handle handle' ∧ index = index') e' := by
  cases h with
  | intro hinner hname hunder _ node =>
      exact node.mono hinner (fun h => ⟨hname h, hunder h⟩) id id

theorem of_node (type : tol.types e.type e'.type)
    (node : e.Paired (SameUpTo tol locals)
      (fun name name' part part' => name = name' ∧ SameUpTo tol (name :: locals) part part')
      (fun name name' => name = name' ∧ (name ∈ locals ∨ tol.known name))
      (fun handle index handle' index' => tol.handles handle handle' ∧ index = index') e') :
    e.SameUpTo tol locals e' :=
  .intro id (·.1) (·.2) type node

theorem mono (h : e.SameUpTo tol locals e') (htol : tol.Within tol') :
    e.SameUpTo tol' locals e' := by
  induction h with
  | intro _ hname _ type node hinner hunder =>
      exact .of_node (htol.types type) (node.mono hinner (fun h => ⟨hname h, hunder h⟩)
        (fun hn => ⟨hn.1, hn.2.imp_right htol.known⟩) fun hc => ⟨htol.handles hc.1, hc.2⟩)

/-- Where all names are known it does not matter which ones are local. -/
theorem of_known (h : e.SameUpTo tol locals e') (hknown : ∀ name, tol.known name)
    (others : List String) : e.SameUpTo tol others e' := by
  induction h generalizing others with
  | intro _ hname _ type node hinner hunder =>
      exact .of_node type (node.mono (hinner · others) (fun h => ⟨hname h, hunder h _⟩)
        (fun hn => ⟨hn.1, .inr (hknown _)⟩) id)

theorem isLambda (h : e.SameUpTo tol locals e') : e.isLambda = e'.isLambda := by
  cases h.node <;> rfl

end Expr.SameUpTo

namespace Value.SameUpTo

variable {v v' : Value}

theorem node (h : v.SameUpTo tol v') :
    v.Paired tol.handles (SameUpTo tol) (fun param captured body param' captured' body' =>
      param = param' ∧ Scope.SameUpTo tol captured captured' ∧
        body.SameUpTo tol (param :: captured.map (·.1)) body') v' := by
  cases h with
  | intro hinner node =>
      exact node.mono id hinner fun hf =>
        ⟨hf.1, ⟨hf.2.1, hf.2.2.1.imp fun _ _ => hinner⟩, hf.2.2.2⟩

theorem of_node
    (node : v.Paired tol.handles (SameUpTo tol) (fun param captured body param' captured' body' =>
      param = param' ∧ Scope.SameUpTo tol captured captured' ∧
        body.SameUpTo tol (param :: captured.map (·.1)) body') v') : v.SameUpTo tol v' :=
  .intro id (node.mono id id fun hf => ⟨hf.1, hf.2.1.names, hf.2.1.values, hf.2.2⟩)

theorem mono (h : v.SameUpTo tol v') (htol : tol.Within tol') : v.SameUpTo tol' v' := by
  induction h with
  | intro _ node ih =>
      exact .intro id (node.mono htol.handles ih fun hf =>
        ⟨hf.1, hf.2.1, hf.2.2.1.imp fun _ _ => ih, hf.2.2.2.mono htol⟩)

/-- Values that are the same are displayed in the same way if the handles in them
name the same variants. -/
theorem format_eq (h : v.SameUpTo tol v') {types types' : List TypeDef}
    (hnames : ∀ {handle handle'}, tol.handles handle handle' → ∀ index,
      variantName types handle index = variantName types' handle' index) :
    v.format types = v'.format types' := by
  induction h with
  | intro hinner node ih =>
  have hunit : ∀ {w w' : Value}, w.SameUpTo tol w' → w.isUnit = w'.isUnit := fun hw => by
    cases hw.node <;> rfl
  cases node with
  | unit | integer | string | builtin | other => rfl
  | tuple hitems =>
      rw [Value.format, Value.format]
      congr 3
      induction hitems with
      | nil => rfl
      | cons hitem _ ihitems => rw [Value.formatAll, Value.formatAll, ih hitem, ihitems]
  | function hf => rw [Value.format, Value.format, hf.1]
  | constructor hhandle => rw [Value.format, Value.format, hnames hhandle]
  | variant hhandle hpayload =>
      have hloaded : ∀ {w w' : Value}, w.SameUpTo tol w' →
          w.isLoadedVariant = w'.isLoadedVariant := fun hw => by
        cases hw.node with
        | variant _ hp => rw [Value.isLoadedVariant, Value.isLoadedVariant, hunit hp]
        | _ => rfl
      rw [Value.format, Value.format, hnames hhandle, hunit (hinner hpayload),
        hloaded (hinner hpayload), ih hpayload]

end Value.SameUpTo

theorem Program.SameUpTo.variantName {program program' : Program}
    (h : program.SameUpTo tol program') {handle handle' : TypeHandle}
    (hh : tol.handles handle handle') (index : Int) :
    variantName program.types handle index = variantName program'.types handle' index := by
  have hdef := h.typeDef hh
  rw [Program.typeDef?, Program.typeDef?] at hdef
  rw [Fern.variantName, Fern.variantName, hdef, h.name hh]

/-! ## Evaluation -/

theorem Scope.SameUpTo.nil : Scope.SameUpTo tol [] [] := ⟨rfl, .nil⟩

theorem Scope.SameUpTo.bind {scope scope' : Scope} (h : scope.SameUpTo tol scope') (name : String)
    {v v' : Value} (hv : v.SameUpTo tol v') :
    (scope.bind name v).SameUpTo tol (scope'.bind name v') :=
  ⟨congrArg (name :: ·) h.names, .cons hv h.values⟩

/-- A name is bound to values that are the same, or on neither side and not
local. -/
theorem Scope.SameUpTo.find? {scope scope' : Scope} (h : scope.SameUpTo tol scope')
    (name : String) :
    Option.Rel (Value.SameUpTo tol) (scope.find? name) (scope'.find? name) ∧
      (scope.find? name = none → name ∉ scope.map (·.1)) := by
  obtain ⟨hnames, hvalues⟩ := h
  induction hvalues with
  | nil => exact ⟨.none, fun _ => List.not_mem_nil⟩
  | @cons binding binding' rest rest' hv _ ih =>
      obtain ⟨key, v⟩ := binding
      obtain ⟨key', v'⟩ := binding'
      obtain ⟨rfl, hrest⟩ := List.cons.inj hnames
      rw [← Scope.bind, ← Scope.bind]
      by_cases hk : name = key
      · subst hk
        rw [Scope.find?_bind_self, Scope.find?_bind_self]
        exact ⟨.some hv, fun h => by cases h⟩
      · rw [Scope.find?_bind_of_ne _ _ hk, Scope.find?_bind_of_ne _ _ hk]
        exact ⟨(ih hrest).1, fun hn => List.not_mem_cons_of_ne_of_not_mem hk ((ih hrest).2 hn)⟩

variable {context context' : Context}

theorem sameUpTo_lookup (hp : context.program.SameUpTo tol context'.program)
    {scope scope' : Scope} (hs : scope.SameUpTo tol scope') {name : String}
    (hn : name ∈ scope.map (·.1) ∨ tol.known name) :
    (context.lookup scope name).Alike (Value.SameUpTo tol) (Fault.SameUpTo tol)
      (context'.lookup scope' name) := by
  obtain ⟨hfound, hlocal⟩ := hs.find? name
  generalize hv : scope.find? name = found at hfound hlocal
  generalize hv' : scope'.find? name = found' at hfound
  cases hfound with
  | some hrel =>
      rw [Context.lookup, Context.lookup, hv, hv']
      exact Run.Alike.pure hrel
  | none =>
      refine Context.alike_lookup_of_defined hv hv' (hp.defined (hn.resolve_left (hlocal rfl)))
        Expr.SameUpTo.node (fun hbody => ?_) (fun id => .of_node (.builtin id)) Fault.SameUpTo.same
      obtain ⟨rfl, hbody⟩ := hbody
      exact .of_node (.function ⟨rfl, .nil, hbody⟩)

theorem sameUpTo_makeConstructor (hp : context.program.SameUpTo tol context'.program)
    {handle handle' : TypeHandle} (hh : tol.handles handle handle') (index : Int) :
    (context.makeConstructor handle index).Alike (Value.SameUpTo tol) (Fault.SameUpTo tol)
      (context'.makeConstructor handle' index) := by
  rw [Context.makeConstructor, Context.makeConstructor, hp.typeDef hh]
  split
  · split
    · exact Run.Alike.pure (.of_node (.constructor hh))
    · exact Run.Alike.fail (.same _)
  · exact Run.Alike.fail (.notSumType hh)

/-- Expressions that are the same, in scopes that are, are evaluated alike in
programs that are. -/
theorem relates_sameUpTo (hp : context.program.SameUpTo tol context'.program)
    (hf : context.files = context'.files) :
    context.Relates context' tol.handles
      (fun scope scope' e e' => scope.SameUpTo tol scope' ∧
        e.SameUpTo tol (scope.map (·.1)) e')
      (Value.SameUpTo tol) (Fault.SameUpTo tol) where
  files := hf
  node h := by
    refine h.2.node.mono (fun ha => ⟨h.1, ha⟩) (fun ha v v' hv => ?_) (fun hn => ?_) fun hc => ?_
    · obtain ⟨rfl, ha⟩ := ha
      exact ⟨h.1.bind _ hv, ha⟩
    · obtain ⟨rfl, hn⟩ := hn
      exact sameUpTo_lookup hp h.1 hn
    · obtain ⟨hh, rfl⟩ := hc
      exact sameUpTo_makeConstructor hp hh _
  closure h := by
    cases h.2.node with
    | lambda body => exact .of_node (.function ⟨body.1, h.1, body.2⟩)
  value h := h.node.mono id id fun hf w w' hw => by
    obtain ⟨rfl, hs, hbody⟩ := hf
    exact ⟨hs.bind _ hw, hbody⟩
  unit := .of_node .unit
  integer n := .of_node (.integer n)
  string text := .of_node (.string text)
  builtin id := .of_node (.builtin id)
  tuple hitems := .of_node (.tuple hitems)
  variant hh hv := .of_node (.variant hh hv)
  noBranch index hh := .noBranch index hh
  fault f := .same f

/-- Programs that are the same run alike from every entry. The parameter of the
entry is not bound, so it has to be looked up like any other name. -/
theorem sameUpTo_runWith (context context' : Context)
    (hp : context.program.SameUpTo tol context'.program) (hf : context.files = context'.files)
    (hknown : ∀ name, tol.known name) (nesting : Except LimitFault Nat) (entry : String) :
    (context.runWith (context.evalWithin nesting) entry).Alike (Value.SameUpTo tol)
      (Fault.SameUpTo tol) (context'.runWith (context'.evalWithin nesting) entry) := by
  refine (Context.runWith_unless (hp.defined (hknown entry)) Expr.SameUpTo.node
    (fun _ _ hbody => ?_) Fault.SameUpTo.same).alike
  exact ((relates_sameUpTo hp hf).evalWithin nesting [] [] _ _
    ⟨.nil, hbody.2.of_known hknown []⟩).unless

end Fern
