import Fern.Proofs.ExprParts
import Fern.Proofs.RunPairs

/-!
# Two evaluations side by side

What has to be shown of a relation between expressions, each in a scope of its
own, for their evaluations to write the same and to end in ways that go together.
`Expr.Paired` says that two nodes are of one form and leaves to its parameters
how their names, their constructors and their parts are related. As with
invariants of one evaluation, `Context.Relates` is the list of what has to be
shown, none of which mentions the evaluator, and the walk over the forms of
expressions is done here once.

Most of the list is about values, and does not ask that related expressions are
of one form. A relation that also takes an expression for another that does the
same has that part of it, `Context.RelatesValues`, and the step for two nodes
that are of one form.
-/

namespace Fern

/-! ## Pairs of nodes and of values -/

section Nodes

variable (inner : Expr → Expr → Prop) (under : String → String → Expr → Expr → Prop)

/-- Two branches of one variant, both with a capture or both without. -/
inductive Branch.Paired : Branch Expr → Branch Expr → Prop
  | plain {index : Int} {body body' : Expr} (hbody : inner body body') :
      Paired ⟨index, none, body⟩ ⟨index, none, body'⟩
  | capture {index : Int} {name name' : String} {body body' : Expr}
      (hbody : under name name' body body') :
      Paired ⟨index, some name, body⟩ ⟨index, some name', body'⟩

variable (names : String → String → Prop)
  (constructors : TypeHandle → Int → TypeHandle → Int → Prop)

/-- Two nodes of one form with the same data, whatever their types are. The
parameters relate the parts in the scope of the nodes, the parts under a pair of
names that the nodes bind, names, and constructors. -/
inductive Expr.Paired : Expr → Expr → Prop
  | tuple {items items' : List Expr} {type type' : TypeInfo}
      (hitems : List.Forall₂ inner items items') : Paired (.tuple items type) (.tuple items' type')
  | record {items items' : List Expr} {type type' : TypeInfo}
      (hitems : List.Forall₂ inner items items') :
      Paired (.record items type) (.record items' type')
  | field {target target' : Expr} {index : Int} {type type' : TypeInfo}
      (htarget : inner target target') :
      Paired (.field target index type) (.field target' index type')
  | letIn {name name' : String} {rhs rhs' body body' : Expr} {type type' : TypeInfo}
      (hrhs : inner rhs rhs') (hbody : under name name' body body') :
      Paired (.letIn name rhs body type) (.letIn name' rhs' body' type')
  | caseOf {matchee matchee' : Expr} {branches branches' : List (Branch Expr)}
      {type type' : TypeInfo} (hmatchee : inner matchee matchee')
      (hbranches : List.Forall₂ (Branch.Paired inner under) branches branches') :
      Paired (.caseOf matchee branches type) (.caseOf matchee' branches' type')
  | apply {callee callee' : Expr} {args args' : List Expr} {type type' : TypeInfo}
      (hcallee : inner callee callee') (hargs : List.Forall₂ inner args args') :
      Paired (.apply callee args type) (.apply callee' args' type')
  | lambda {param param' : String} {body body' : Expr} {type type' : TypeInfo}
      (hbody : under param param' body body') :
      Paired (.lambda param body type) (.lambda param' body' type')
  | symbol {name name' : String} {type type' : TypeInfo} (related : names name name') :
      Paired (.symbol name type) (.symbol name' type')
  | boolean {value : Bool} {type type' : TypeInfo} :
      Paired (.boolean value type) (.boolean value type')
  | conditional {cond cond' cons cons' alt alt' : Expr} {type type' : TypeInfo}
      (hcond : inner cond cond') (hcons : inner cons cons') (halt : inner alt alt') :
      Paired (.conditional cond cons alt type) (.conditional cond' cons' alt' type')
  | binary {op : Operator} {lhs lhs' rhs rhs' : Expr} {type type' : TypeInfo}
      (hlhs : inner lhs lhs') (hrhs : inner rhs rhs') :
      Paired (.binary op lhs rhs type) (.binary op lhs' rhs' type')
  | constructor {handle handle' : TypeHandle} {index index' : Int} {type type' : TypeInfo}
      (related : constructors handle index handle' index') :
      Paired (.constructor handle index type) (.constructor handle' index' type')
  | builtin {id : String} {type type' : TypeInfo} : Paired (.builtin id type) (.builtin id type')
  | string {text : String} {type type' : TypeInfo} :
      Paired (.string text type) (.string text type')
  | integer {n : Int} {type type' : TypeInfo} : Paired (.integer n type) (.integer n type')
  | unit {type type' : TypeInfo} : Paired (.unit type) (.unit type')
  | other {kind : String} {content : Datum} {type type' : TypeInfo} :
      Paired (.other kind content type) (.other kind content type')

end Nodes

theorem forall₂_imp_mem {α α' : Type} {pair pair' : α → α' → Prop} {l : List α} {l' : List α'}
    (h : List.Forall₂ pair l l')
    (himp : ∀ a a', a ∈ l → a' ∈ l' → pair a a' → pair' a a') : List.Forall₂ pair' l l' := by
  induction h with
  | nil => exact .nil
  | cons ha _ ih =>
      refine .cons (himp _ _ List.mem_cons_self List.mem_cons_self ha) (ih fun a a' hm hm' => ?_)
      exact himp a a' (List.mem_cons_of_mem _ hm) (List.mem_cons_of_mem _ hm')

/-- What is known of pairs of parts may use that they are parts, and which names
are bound for them. -/
theorem Expr.Paired.imp {inner inner' : Expr → Expr → Prop}
    {under under' : String → String → Expr → Expr → Prop} {names names' : String → String → Prop}
    {constructors constructors' : TypeHandle → Int → TypeHandle → Int → Prop} {e e' : Expr}
    (h : e.Paired inner under names constructors e')
    (hi : ∀ {a a'}, (none, a) ∈ e.parts → (none, a') ∈ e'.parts → inner a a' → inner' a a')
    (hu : ∀ {n n' a a'}, (some n, a) ∈ e.parts → (some n', a') ∈ e'.parts → under n n' a a' →
      under' n n' a a')
    (hn : ∀ {n n' type}, e = .symbol n type → names n n' → names' n n')
    (hc : ∀ {c i c' i'}, constructors c i c' i' → constructors' c i c' i') :
    e.Paired inner' under' names' constructors' e' := by
  have hitems {items items' : List Expr} (h : List.Forall₂ inner items items')
      (hm : ∀ item ∈ items, (none, item) ∈ e.parts)
      (hm' : ∀ item ∈ items', (none, item) ∈ e'.parts) : List.Forall₂ inner' items items' :=
    forall₂_imp_mem h fun a a' ha ha' => hi (hm a ha) (hm' a' ha')
  cases h with
  | tuple items =>
      exact .tuple (hitems items (fun _ => List.mem_map_of_mem) fun _ => List.mem_map_of_mem)
  | record items =>
      exact .record (hitems items (fun _ => List.mem_map_of_mem) fun _ => List.mem_map_of_mem)
  | field target => exact .field (hi (by simp [Expr.parts]) (by simp [Expr.parts]) target)
  | letIn rhs body =>
      exact .letIn (hi (by simp [Expr.parts]) (by simp [Expr.parts]) rhs)
        (hu (by simp [Expr.parts]) (by simp [Expr.parts]) body)
  | caseOf hmatchee hbranches =>
      refine .caseOf (hi (by simp [Expr.parts]) (by simp [Expr.parts]) hmatchee)
        (forall₂_imp_mem hbranches fun branch branch' hb hb' hpair => ?_)
      have hm := List.mem_map_of_mem (f := fun branch => (branch.binding, branch.body)) hb
      have hm' := List.mem_map_of_mem (f := fun branch => (branch.binding, branch.body)) hb'
      cases hpair with
      | plain hbody =>
          exact .plain (hi (List.mem_cons_of_mem _ hm) (List.mem_cons_of_mem _ hm') hbody)
      | capture hbody =>
          exact .capture (hu (List.mem_cons_of_mem _ hm) (List.mem_cons_of_mem _ hm') hbody)
  | apply callee args =>
      exact .apply (hi (by simp [Expr.parts]) (by simp [Expr.parts]) callee)
        (hitems args (fun _ hm => List.mem_cons_of_mem _ (List.mem_map_of_mem hm))
          fun _ hm => List.mem_cons_of_mem _ (List.mem_map_of_mem hm))
  | lambda body => exact .lambda (hu (by simp [Expr.parts]) (by simp [Expr.parts]) body)
  | symbol related => exact .symbol (hn rfl related)
  | boolean => exact .boolean
  | conditional cond cons alt =>
      exact .conditional (hi (by simp [Expr.parts]) (by simp [Expr.parts]) cond)
        (hi (by simp [Expr.parts]) (by simp [Expr.parts]) cons)
        (hi (by simp [Expr.parts]) (by simp [Expr.parts]) alt)
  | binary lhs rhs =>
      exact .binary (hi (by simp [Expr.parts]) (by simp [Expr.parts]) lhs)
        (hi (by simp [Expr.parts]) (by simp [Expr.parts]) rhs)
  | constructor related => exact .constructor (hc related)
  | builtin => exact .builtin
  | string => exact .string
  | integer => exact .integer
  | unit => exact .unit
  | other => exact .other

theorem Expr.Paired.mono {inner inner' : Expr → Expr → Prop}
    {under under' : String → String → Expr → Expr → Prop} {names names' : String → String → Prop}
    {constructors constructors' : TypeHandle → Int → TypeHandle → Int → Prop} {e e' : Expr}
    (h : e.Paired inner under names constructors e') (hi : ∀ {a a'}, inner a a' → inner' a a')
    (hu : ∀ {n n' a a'}, under n n' a a' → under' n n' a a')
    (hn : ∀ {n n'}, names n n' → names' n n')
    (hc : ∀ {c i c' i'}, constructors c i c' i' → constructors' c i c' i') :
    e.Paired inner' under' names' constructors' e' :=
  h.imp (fun _ _ => hi) (fun _ _ => hu) (fun _ => hn) hc

/-- Two values of one form with the same data. The parameters relate handles, the
values inside, and functions. -/
inductive Value.Paired (handles : TypeHandle → TypeHandle → Prop) (inner : Value → Value → Prop)
    (functions : String → Scope → Expr → String → Scope → Expr → Prop) : Value → Value → Prop
  | unit : Paired handles inner functions .unit .unit
  | integer (n : Int) : Paired handles inner functions (.integer n) (.integer n)
  | string (text : String) : Paired handles inner functions (.string text) (.string text)
  | tuple {items items' : List Value} (hitems : List.Forall₂ inner items items') :
      Paired handles inner functions (.tuple items) (.tuple items')
  | function {param param' : String} {captured captured' : Scope} {body body' : Expr}
      (related : functions param captured body param' captured' body') :
      Paired handles inner functions (.function param captured body)
        (.function param' captured' body')
  | variant {handle handle' : TypeHandle} {index : Int} {payload payload' : Value}
      (hhandle : handles handle handle') (hpayload : inner payload payload') :
      Paired handles inner functions (.variant handle index payload)
        (.variant handle' index payload')
  | constructor {handle handle' : TypeHandle} {index : Int} (hhandle : handles handle handle') :
      Paired handles inner functions (.constructor handle index) (.constructor handle' index)
  | builtin (id : String) : Paired handles inner functions (.builtin id) (.builtin id)
  | other (typeName : String) (content : Datum) :
      Paired handles inner functions (.other typeName content) (.other typeName content)

theorem Value.Paired.typeName {handles : TypeHandle → TypeHandle → Prop}
    {inner : Value → Value → Prop}
    {functions : String → Scope → Expr → String → Scope → Expr → Prop} {v v' : Value}
    (h : v.Paired handles inner functions v') : v.typeName = v'.typeName := by
  cases h <;> rfl

theorem Value.Paired.mono {handles handles' : TypeHandle → TypeHandle → Prop}
    {inner inner' : Value → Value → Prop}
    {functions functions' : String → Scope → Expr → String → Scope → Expr → Prop} {v v' : Value}
    (h : v.Paired handles inner functions v')
    (hh : ∀ {handle handle'}, handles handle handle' → handles' handle handle')
    (hi : ∀ {w w'}, inner w w' → inner' w w')
    (hf : ∀ {param captured body param' captured' body'},
      functions param captured body param' captured' body' →
      functions' param captured body param' captured' body') :
    v.Paired handles' inner' functions' v' := by
  cases h with
  | unit => exact .unit
  | integer n => exact .integer n
  | string text => exact .string text
  | tuple hitems => exact .tuple (hitems.imp fun _ _ => hi)
  | function related => exact .function (hf related)
  | variant hhandle hpayload => exact .variant (hh hhandle) (hi hpayload)
  | constructor hhandle => exact .constructor (hh hhandle)
  | builtin id => exact .builtin id
  | other typeName content => exact .other typeName content

/-- What has to be shown of related values, and of functions as they come to be
values, for related values to be used alike. -/
structure Context.RelatesValues (context context' : Context)
    (handles : TypeHandle → TypeHandle → Prop) (exprs : Scope → Scope → Expr → Expr → Prop)
    (values : Value → Value → Prop) (faults : Fault → Fault → Prop) : Prop where
  files : context.files = context'.files
  closure {scope scope' : Scope} {param param' : String} {body body' : Expr}
    {type type' : TypeInfo} :
    exprs scope scope' (.lambda param body type) (.lambda param' body' type') →
      values (.function param scope body) (.function param' scope' body')
  value {v v' : Value} : values v v' →
    v.Paired handles values
      (fun param captured body param' captured' body' => ∀ w w', values w w' →
        exprs (captured.bind param w) (captured'.bind param' w') body body') v'
  unit : values .unit .unit
  integer (n : Int) : values (.integer n) (.integer n)
  string (text : String) : values (.string text) (.string text)
  builtin (id : String) : values (.builtin id) (.builtin id)
  tuple {items items' : List Value} : List.Forall₂ values items items' →
    values (.tuple items) (.tuple items')
  variant {handle handle' : TypeHandle} {index : Int} {v v' : Value} : handles handle handle' →
    values v v' → values (.variant handle index v) (.variant handle' index v')
  noBranch {handle handle' : TypeHandle} (index : Int) : handles handle handle' →
    faults (.failed (.noBranch index handle)) (.failed (.noBranch index handle'))
  fault (f : Fault) : faults f f

/-- What has to be shown of related expressions for their evaluations to be alike:
besides, that they are of one form. -/
structure Context.Relates (context context' : Context) (handles : TypeHandle → TypeHandle → Prop)
    (exprs : Scope → Scope → Expr → Expr → Prop) (values : Value → Value → Prop)
    (faults : Fault → Fault → Prop) : Prop
    extends context.RelatesValues context' handles exprs values faults where
  node {scope scope' : Scope} {e e' : Expr} : exprs scope scope' e e' →
    e.Paired (exprs scope scope')
      (fun name name' body body' => ∀ v v', values v v' →
        exprs (scope.bind name v) (scope'.bind name' v') body body')
      (fun name name' =>
        (context.lookup scope name).Alike values faults (context'.lookup scope' name'))
      (fun handle index handle' index' =>
        (context.makeConstructor handle index).Alike values faults
          (context'.makeConstructor handle' index')) e'

/-! ## Pairs of lists -/

theorem rel_getElem? {α α' : Type} {pair : α → α' → Prop} {l : List α} {l' : List α'}
    (h : List.Forall₂ pair l l') (i : Nat) : Option.Rel pair l[i]? l'[i]? := by
  induction h generalizing i with
  | nil => exact .none
  | cons ha _ ih =>
      cases i with
      | zero => exact .some ha
      | succ i => exact ih i

/-- Of paired branches the same ones are found by a number. -/
theorem rel_findBranch {inner : Expr → Expr → Prop} {under : String → String → Expr → Expr → Prop}
    {branches branches' : List (Branch Expr)}
    (h : List.Forall₂ (Branch.Paired inner under) branches branches') (index : Int) :
    Option.Rel (Branch.Paired inner under) (branches.find? (·.index == index))
      (branches'.find? (·.index == index)) := by
  induction h with
  | nil => exact .none
  | @cons branch branch' _ _ hb _ ih =>
      have hindex : branch.index = branch'.index := by cases hb <;> rfl
      rw [List.find?_cons, List.find?_cons, hindex]
      cases branch'.index == index with
      | true => exact .some hb
      | false => exact ih

namespace Context.RelatesValues

variable {context context' : Context} {handles : TypeHandle → TypeHandle → Prop}
  {exprs : Scope → Scope → Expr → Expr → Prop} {values : Value → Value → Prop}
  {faults : Fault → Fault → Prop}

theorem typeName (h : context.RelatesValues context' handles exprs values faults) {v v' : Value}
    (hv : values v v') : v.typeName = v'.typeName :=
  (h.value hv).typeName

/-- The same failure on both sides. -/
theorem fail {α α' : Type} {result : α → α' → Prop}
    (h : context.RelatesValues context' handles exprs values faults) (error : EvalError) :
    (Run.fail error : Run α).Alike result faults (Run.fail error : Run α') :=
  Run.Alike.fail (h.fault _)

/-! ## Built-in functions -/

theorem texts (h : context.RelatesValues context' handles exprs values faults) (first second : String) :
    values (.tuple [.string first, .string second]) (.tuple [.string first, .string second]) :=
  h.tuple (.cons (h.string first) (.cons (h.string second) .nil))

section Builtins

variable (h : context.RelatesValues context' handles exprs values faults)
include h

theorem wantText (builtin : Builtin) {v v' : Value} (hv : values v v') :
    (builtin.wantText v).Alike Eq faults (builtin.wantText v') := by
  cases h.value hv with
  | string text => exact Run.Alike.pure rfl
  | unit | integer | tuple | function | variant | constructor | builtin | other =>
      exact h.fail (.argument _ _ _)

theorem wantInteger (builtin : Builtin) {v v' : Value} (hv : values v v') :
    (builtin.wantInteger v).Alike Eq faults (builtin.wantInteger v') := by
  cases h.value hv with
  | integer n => exact Run.Alike.pure rfl
  | unit | string | tuple | function | variant | constructor | builtin | other =>
      exact h.fail (.argument _ _ _)

theorem wantTexts (builtin : Builtin) {v v' : Value} (hv : values v v') :
    (builtin.wantTexts v).Alike Eq faults (builtin.wantTexts v') := by
  cases h.value hv with
  | tuple items =>
      have hlength := items.length_eq
      cases items with
      | nil => exact h.fail (.argumentSize _ _ 0)
      | cons hfirst rest =>
          cases rest with
          | nil => exact h.fail (.argumentSize _ _ 1)
          | cons hsecond rest =>
              cases rest with
              | nil =>
                  refine (h.wantText builtin hfirst).bind fun first _ hf => ?_
                  subst hf
                  refine (h.wantText builtin hsecond).bind fun second _ hs => ?_
                  subst hs
                  exact Run.Alike.pure rfl
              | cons _ _ => exact Run.Alike.fail (by rw [hlength]; exact h.fault _)
  | unit | string | integer | function | variant | constructor | builtin | other =>
      exact h.fail (.argument _ _ _)

/-- A built-in function cannot tell related arguments apart. -/
theorem callBuiltin (id : String) {v v' : Value} (hv : values v v') :
    (callBuiltin context.files id v).Alike values faults
      (Fern.callBuiltin context'.files id v') := by
  rw [Fern.callBuiltin, Fern.callBuiltin, ← h.files]
  cases Builtin.ofId? id with
  | none => exact h.fail _
  | some builtin =>
      cases builtin with
      | readFile =>
          refine (h.wantText _ hv).bind fun path _ hp => ?_
          subst hp
          rw [readPath]
          split
          · exact Run.Alike.throw (h.fault _)
          · split
            · exact Run.Alike.pure (h.string _)
            · exact h.fail _
      | print =>
          refine (h.wantText _ hv).bind fun text _ ht => ?_
          subst ht
          exact (Run.Alike.write trivial).bind fun _ _ (_ : True) => Run.Alike.pure h.unit
      | printInt =>
          refine (h.wantInteger _ hv).bind fun n _ hn => ?_
          subst hn
          exact (Run.Alike.write trivial).bind fun _ _ (_ : True) => Run.Alike.pure h.unit
      | parseInt =>
          refine (h.wantText _ hv).bind fun text _ ht => ?_
          subst ht
          rw [parseInteger]
          split
          · exact h.fail _
          · split
            · exact Run.Alike.pure (h.integer _)
            · exact h.fail _
      | firstChar =>
          refine (h.wantText _ hv).bind fun text _ ht => ?_
          subst ht
          rw [firstAndRest]
          split
          · exact h.fail _
          · exact Run.Alike.pure (h.texts _ _)
      | split =>
          refine (h.wantTexts _ hv).bind fun texts _ ht => ?_
          subst ht
          exact Run.Alike.pure (h.texts _ _)

end Builtins

/-! ## The pieces of a step -/

theorem operate (h : context.RelatesValues context' handles exprs values faults) (op : Operator)
    {v v' w w' : Value} (hv : values v v') (hw : values w w') :
    (Context.operate op v w).Alike values faults (Context.operate op v' w') := by
  have hmixed : ∀ {u u' x x' : Value}, values u u' → values x x' →
      (Run.fail (.mixedOperator op u.typeName x.typeName) : Run Value).Alike values faults
        (Run.fail (.mixedOperator op u'.typeName x'.typeName) : Run Value) := by
    intro u u' x x' hu hx
    rw [h.typeName hu, h.typeName hx]
    exact h.fail _
  have hpv := h.value hv
  have hpw := h.value hw
  rw [Context.operate.eq_def, Context.operate.eq_def]
  split
  · next lhs rhs =>
    cases hpv
    cases hpw
    dsimp only
    cases op.onIntegers lhs rhs with
    | ok result => exact Run.Alike.pure (h.integer result)
    | error error => exact h.fail _
  · next lhs rhs =>
    cases hpv
    cases hpw
    dsimp only
    split
    · exact Run.Alike.pure (h.integer _)
    · exact h.fail _
  · next hints htexts =>
    split
    · cases hpv
      cases hpw
      exact absurd rfl (hints _ _ rfl)
    · cases hpv
      cases hpw
      exact absurd rfl (htexts _ _ rfl)
    · exact hmixed hv hw

theorem project (h : context.RelatesValues context' handles exprs values faults) {v v' : Value}
    (hv : values v v') (index : Int) :
    (Context.project v index).Alike values faults (Context.project v' index) := by
  cases h.value hv with
  | tuple items =>
      rw [Context.project, Context.project, items.length_eq]
      split
      · next item hi =>
        split at hi
        · next hindex =>
          rw [if_pos hindex]
          have hrel := rel_getElem? items index.toNat
          rw [hi] at hrel
          generalize (_ : List Value)[index.toNat]? = found at hrel ⊢
          cases hrel with
          | some hitem => exact Run.Alike.pure hitem
        · cases hi
      · next hi =>
        split at hi
        · next hindex =>
          rw [if_pos hindex]
          have hrel := rel_getElem? items index.toNat
          rw [hi] at hrel
          generalize (_ : List Value)[index.toNat]? = found at hrel ⊢
          cases hrel with
          | none => exact h.fail _
        · next hindex =>
          rw [if_neg hindex]
          exact h.fail _
  | unit | integer | string | function | variant | constructor | builtin | other =>
      exact h.fail (.fieldOf _)

section Step

variable {cut cut' : Fault → Prop} {eval eval' : Evaluator}
  (h : context.RelatesValues context' handles exprs values faults)
  (heval : ∀ scope scope' e e', exprs scope scope' e e' →
    (eval scope e).AlikeUnless cut cut' values faults (eval' scope' e'))
include h heval

theorem applyWith {callee callee' argument argument' : Value} (hc : values callee callee')
    (ha : values argument argument') :
    (context.applyWith eval callee argument).AlikeUnless cut cut' values faults
      (context'.applyWith eval' callee' argument') := by
  cases h.value hc with
  | function called => exact (heval _ _ _ _ (called _ _ ha)).note
  | constructor hhandle => exact (Run.Alike.pure (h.variant hhandle ha)).unless
  | builtin id => exact (Run.Alike.note (h.callBuiltin id ha)).unless
  | unit | integer | string | tuple | variant | other => exact (h.fail (.notCallable _)).unless

/-- Applying functions to arguments one by one. -/
theorem applyAll {scope scope' : Scope} {args args' : List Expr}
    (ha : List.Forall₂ (exprs scope scope') args args') {callee callee' : Value}
    (hc : values callee callee') :
    (args.foldlM (fun current arg => do context.applyWith eval current (← eval scope arg))
      callee).AlikeUnless cut cut' values faults
      (args'.foldlM (fun current arg => do context'.applyWith eval' current (← eval' scope' arg))
        callee') := by
  refine Run.AlikeUnless.foldlM ha (fun arg arg' harg current current' hcur => ?_) hc
  exact (heval _ _ _ _ harg).bind fun w w' hw => h.applyWith heval hcur hw

theorem chooseWith {scope scope' : Scope} {cons cons' alt alt' : Expr}
    (hc : exprs scope scope' cons cons') (ha : exprs scope scope' alt alt') {v v' : Value}
    (hv : values v v') :
    (Context.chooseWith eval scope cons alt v).AlikeUnless cut cut' values faults
      (Context.chooseWith eval' scope' cons' alt' v') := by
  cases h.value hv with
  | integer n =>
      rw [Context.chooseWith, Context.chooseWith]
      by_cases hn : n ≠ 0
      · rw [if_pos hn, if_pos hn]
        exact heval _ _ _ _ hc
      · rw [if_neg hn, if_neg hn]
        exact heval _ _ _ _ ha
  | unit | string | tuple | function | variant | constructor | builtin | other =>
      exact (h.fail (.conditionOf _)).unless

theorem selectWith {scope scope' : Scope} {branches branches' : List (Branch Expr)}
    (hb : List.Forall₂ (Branch.Paired (exprs scope scope') fun name name' body body' =>
      ∀ v v', values v v' → exprs (scope.bind name v) (scope'.bind name' v') body body')
      branches branches') {v v' : Value} (hv : values v v') :
    (Context.selectWith eval scope branches v).AlikeUnless cut cut' values faults
      (Context.selectWith eval' scope' branches' v') := by
  cases h.value hv with
  | @variant _ _ index _ _ hhandle hpayload =>
      rw [Context.selectWith, Context.selectWith]
      have hfound := rel_findBranch hb index
      generalize branches.find? _ = found at hfound ⊢
      generalize branches'.find? _ = found' at hfound ⊢
      cases hfound with
      | none => exact (Run.Alike.fail (h.noBranch index hhandle)).unless
      | some hbranch =>
          cases hbranch with
          | plain hbody => exact heval _ _ _ _ hbody
          | capture hbody => exact heval _ _ _ _ (hbody _ _ hpayload)
  | unit | integer | string | tuple | function | constructor | builtin | other =>
      exact (h.fail (.matchOf _)).unless

/-- One step on related expressions of one form is alike if the evaluators for
what lies inside are. -/
theorem step {scope scope' : Scope} {e e' : Expr} (he : exprs scope scope' e e')
    (node : e.Paired (exprs scope scope')
      (fun name name' body body' => ∀ v v', values v v' →
        exprs (scope.bind name v) (scope'.bind name' v') body body')
      (fun name name' =>
        (context.lookup scope name).Alike values faults (context'.lookup scope' name'))
      (fun handle index handle' index' =>
        (context.makeConstructor handle index).Alike values faults
          (context'.makeConstructor handle' index')) e') :
    (context.step eval scope e).AlikeUnless cut cut' values faults
      (context'.step eval' scope' e') := by
  refine Run.AlikeUnless.note ?_
  cases node with
  | tuple items =>
      exact (Run.AlikeUnless.passesThrough.mapM items (heval _ _)).bind fun vs vs' hvs =>
        (Run.Alike.pure (h.tuple hvs)).unless
  | record items =>
      exact (Run.AlikeUnless.passesThrough.mapM items (heval _ _)).bind fun vs vs' hvs =>
        (Run.Alike.pure (h.tuple hvs)).unless
  | field target => exact (heval _ _ _ _ target).bind fun v v' hv => (h.project hv _).unless
  | letIn rhs body =>
      exact (heval _ _ _ _ rhs).bind fun v v' hv => heval _ _ _ _ (body v v' hv)
  | caseOf matchee branches =>
      exact (heval _ _ _ _ matchee).bind fun v v' hv => h.selectWith heval branches hv
  | apply callee args => exact (heval _ _ _ _ callee).bind fun v v' hv => h.applyAll heval args hv
  | lambda body => exact (Run.Alike.pure (h.closure he)).unless
  | symbol related => exact related.unless
  | boolean => exact (Run.Alike.pure (h.integer _)).unless
  | conditional cond cons alt =>
      exact (heval _ _ _ _ cond).bind fun v v' hv => h.chooseWith heval cons alt hv
  | binary lhs rhs =>
      refine (heval _ _ _ _ lhs).bind fun v v' hv => ?_
      exact (heval _ _ _ _ rhs).bind fun w w' hw => (h.operate _ hv hw).unless
  | constructor related => exact related.unless
  | builtin => exact (Run.Alike.pure (h.builtin _)).unless
  | string => exact (Run.Alike.pure (h.string _)).unless
  | integer => exact (Run.Alike.pure (h.integer _)).unless
  | unit => exact (Run.Alike.pure h.unit).unless
  | other => exact (h.fail _).unless

end Step

end Context.RelatesValues

/-- A name that is not local gives related values if it has related definitions of
one form. -/
theorem Context.alike_lookup_of_defined {context context' : Context}
    {values : Value → Value → Prop} {faults : Fault → Fault → Prop} {related : Expr → Expr → Prop}
    {inner : Expr → Expr → Prop} {under : String → String → Expr → Expr → Prop}
    {names : String → String → Prop}
    {constructors : TypeHandle → Int → TypeHandle → Int → Prop} {scope scope' : Scope}
    {name : String} (hlocal : scope.find? name = none) (hlocal' : scope'.find? name = none)
    (hdefined : Option.Rel (fun definition definition' =>
      related definition.expr definition'.expr) (context.program.find? name)
      (context'.program.find? name))
    (hnode : ∀ {e e'}, related e e' → e.Paired inner under names constructors e')
    (hfunction : ∀ {param param' body body'}, under param param' body body' →
      values (.function param [] body) (.function param' [] body'))
    (hbuiltin : ∀ id, values (.builtin id) (.builtin id)) (hfaults : ∀ f, faults f f) :
    (context.lookup scope name).Alike values faults (context'.lookup scope' name) := by
  rw [lookup, lookup, hlocal, hlocal']
  dsimp only
  generalize context.program.find? name = found at hdefined ⊢
  generalize context'.program.find? name = found' at hdefined ⊢
  cases hdefined with
  | none => exact Run.Alike.fail (hfaults _)
  | @some definition definition' hd =>
      obtain ⟨expr, _⟩ := definition
      obtain ⟨expr', _⟩ := definition'
      cases hnode hd with
      | lambda hbody => exact Run.Alike.pure (hfunction hbody)
      | builtin => exact Run.Alike.pure (hbuiltin _)
      | _ => exact Run.Alike.fail (hfaults _)

/-- Where the types are the same, so are the constructors. -/
theorem Context.alike_makeConstructor {context context' : Context} {values : Value → Value → Prop}
    {faults : Fault → Fault → Prop} (htypes : context.program.types = context'.program.types)
    (hvalues : ∀ handle index, values (.constructor handle index) (.constructor handle index))
    (hfaults : ∀ f, faults f f) (handle : TypeHandle) (index : Int) :
    (context.makeConstructor handle index).Alike values faults
      (context'.makeConstructor handle index) := by
  rw [makeConstructor, makeConstructor, Program.typeDef?, Program.typeDef?, ← htypes]
  split
  · split
    · exact Run.Alike.pure (hvalues _ _)
    · exact Run.Alike.fail (hfaults _)
  · exact Run.Alike.fail (hfaults _)

/-! ## Whole runs -/

/-- Runs of an entry are alike if the evaluations of its bodies are. -/
theorem Context.runWith_unless {context context' : Context} {values : Value → Value → Prop}
    {faults : Fault → Fault → Prop} {cut cut' : Fault → Prop} {related : Expr → Expr → Prop}
    {inner : Expr → Expr → Prop} {under : String → String → Expr → Expr → Prop}
    {names : String → String → Prop}
    {constructors : TypeHandle → Int → TypeHandle → Int → Prop} {eval eval' : Evaluator}
    {entry : String} (hdefined : Option.Rel (fun definition definition' =>
      related definition.expr definition'.expr) (context.program.find? entry)
      (context'.program.find? entry))
    (hnode : ∀ {e e'}, related e e' → e.Paired inner under names constructors e')
    (hbody : ∀ {param body type definition param' body' type' definition'},
      context.program.find? entry = some ⟨.lambda param body type, definition⟩ →
      context'.program.find? entry = some ⟨.lambda param' body' type', definition'⟩ →
      under param param' body body' →
        (eval [] body).AlikeUnless cut cut' values faults (eval' [] body'))
    (hfaults : ∀ f, faults f f) :
    (context.runWith eval entry).AlikeUnless cut cut' values faults
      (context'.runWith eval' entry) := by
  rw [runWith, runWith]
  generalize context.program.find? entry = found at hdefined hbody
  generalize context'.program.find? entry = found' at hdefined hbody
  cases hdefined with
  | none => exact (Run.Alike.fail (hfaults _)).unless
  | @some definition definition' hd =>
      obtain ⟨expr, _⟩ := definition
      obtain ⟨expr', _⟩ := definition'
      cases hnode hd with
      | lambda hunder =>
          refine Run.AlikeUnless.note ?_
          refine (hbody rfl rfl hunder).bind fun v v' hv => ?_
          exact (Run.Alike.pure hv).unless.note
      | _ => exact (Run.Alike.fail (hfaults _)).unless

namespace Context.Relates

variable {context context' : Context} {handles : TypeHandle → TypeHandle → Prop}
  {exprs : Scope → Scope → Expr → Expr → Prop} {values : Value → Value → Prop}
  {faults : Fault → Fault → Prop}

/-- One step on related expressions is alike if the evaluators for what lies
inside are. -/
theorem step {eval eval' : Evaluator} (h : context.Relates context' handles exprs values faults)
    (heval : ∀ scope scope' e e', exprs scope scope' e e' →
      (eval scope e).Alike values faults (eval' scope' e'))
    (scope scope' : Scope) (e e' : Expr) (he : exprs scope scope' e e') :
    (context.step eval scope e).Alike values faults (context'.step eval' scope' e') :=
  (h.toRelatesValues.step (fun _ _ _ _ hi => (heval _ _ _ _ hi).unless) he (h.node he)).alike

/-- Evaluations of related expressions are alike, however deep they go. -/
theorem eval (h : context.Relates context' handles exprs values faults) (limit : Nat)
    (scope scope' : Scope) (e e' : Expr) (he : exprs scope scope' e e') :
    (context.eval limit scope e).Alike values faults (context'.eval limit scope' e') := by
  induction limit generalizing scope scope' e e' with
  | zero => exact h.toRelatesValues.fail .nesting
  | succ limit ih => exact h.step ih scope scope' e e' he

theorem evalWithin (h : context.Relates context' handles exprs values faults)
    (nesting : Except LimitFault Nat) (scope scope' : Scope) (e e' : Expr)
    (he : exprs scope scope' e e') :
    (context.evalWithin nesting scope e).Alike values faults
      (context'.evalWithin nesting scope' e') := by
  cases nesting with
  | ok limit => exact h.eval limit scope scope' e e' he
  | error refused => exact Run.Alike.throw (h.fault _)

end Context.Relates

end Fern
