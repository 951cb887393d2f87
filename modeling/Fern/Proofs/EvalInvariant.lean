import Fern.Proofs.ExprParts
import Fern.Proofs.RunEndings

/-!
# Invariants of evaluation

An invariant speaks of expressions in a scope, of values, and of faults.
`Context.KeepsWithin` lists what has to be shown of it: that it passes from an
expression to its parts, that the leaves give values it holds of, and that it
survives each way of making values from values. Nothing in that list mentions
the evaluator. From it follows that evaluation keeps the invariant to any depth,
and so do application and the run of an entry function; the walk over the forms
of expressions is done here once.

What a name, a constructor or an operator evaluates to does not depend on the
evaluator. These endings are stated first, for any sort of values.

An evaluation also ends if the host refuses the limit on its nesting. An invariant
that allows for that is one that `Context.Keeps` is about.
-/

namespace Fern

/-! ## Where values come from -/

section Sources

variable {context : Context} {value : Value → Prop} {fault : Fault → Prop}
  (failed : ∀ error, fault (.failed error))
include failed

/-- A name stands for a value of the scope, for a function of the program, which
captures nothing, or for a built-in function. -/
theorem Context.lookup_ends {scope : Scope} {name : String}
    (bound : ∀ binding ∈ scope, value binding.2)
    (function : ∀ param body type definition,
      context.program.find? name = some ⟨.lambda param body type, definition⟩ →
        value (.function param [] body))
    (builtin : ∀ id, value (.builtin id)) : (context.lookup scope name).Ends value fault := by
  rw [Context.lookup]
  split
  · next v hv => exact Run.Ends.pure (bound _ (mem_of_lookup hv))
  · split
    · exact Run.Ends.fail (failed _)
    · next param body type definition hf => exact Run.Ends.pure (function _ _ _ _ hf)
    · exact Run.Ends.pure (builtin _)
    · exact Run.Ends.fail (failed _)

/-- A constructor is one of a variant that the program defines. -/
theorem Context.makeConstructor_ends {handle : TypeHandle} {index : Int}
    (defined : ∀ name variants, context.program.typeDef? handle = some ⟨name, .sum variants⟩ →
      0 ≤ index ∧ index < variants.length → value (.constructor handle index)) :
    (context.makeConstructor handle index).Ends value fault := by
  rw [Context.makeConstructor]
  split
  · next name variants hdef =>
    split
    · next hindex => exact Run.Ends.pure (defined name variants hdef hindex)
    · exact Run.Ends.fail (failed _)
  · exact Run.Ends.fail (failed _)

/-- An operator gives what it gives on numbers, or a truth about texts. -/
theorem Context.operate_ends {op : Operator} {v w : Value}
    (integer : ∀ lhs rhs result, v = .integer lhs → w = .integer rhs →
      op.onIntegers lhs rhs = .ok result → value (.integer result))
    (truth : ∀ b, value (.ofBool b)) : (Context.operate op v w).Ends value fault := by
  rw [Context.operate.eq_def]
  split
  · split
    · next result hresult => exact Run.Ends.pure (integer _ _ result rfl rfl hresult)
    · exact Run.Ends.fail (failed _)
  · split
    · exact Run.Ends.pure (truth _)
    · exact Run.Ends.fail (failed _)
  · exact Run.Ends.fail (failed _)

end Sources

/-! ## Invariants -/

/-- What has to be shown of an invariant for evaluation under a limit to keep it. -/
structure Context.KeepsWithin (context : Context) (expr : Scope → Expr → Prop)
    (value : Value → Prop) (fault : Fault → Prop) : Prop where
  part {scope : Scope} {e part : Expr} :
    expr scope e → (none, part) ∈ e.parts → expr scope part
  body {scope : Scope} {e part : Expr} {name : String} {v : Value} :
    expr scope e → (some name, part) ∈ e.parts → value v → expr (scope.bind name v) part
  closure {scope : Scope} {param : String} {body : Expr} {type : TypeInfo} :
    expr scope (.lambda param body type) → value (.function param scope body)
  called {captured : Scope} {param : String} {body : Expr} {v : Value} :
    value (.function param captured body) → value v → expr (captured.bind param v) body
  unit : value .unit
  truth (b : Bool) : value (.ofBool b)
  string {scope : Scope} {text : String} {type : TypeInfo} :
    expr scope (.string text type) → value (.string text)
  integer {scope : Scope} {n : Int} {type : TypeInfo} :
    expr scope (.integer n type) → value (.integer n)
  builtin {scope : Scope} {id : String} {type : TypeInfo} :
    expr scope (.builtin id type) → value (.builtin id)
  tuple {items : List Value} : (∀ item ∈ items, value item) → value (.tuple items)
  item {items : List Value} : value (.tuple items) → ∀ item ∈ items, value item
  variant {handle : TypeHandle} {index : Int} {v : Value} :
    value (.constructor handle index) → value v → value (.variant handle index v)
  payload {handle : TypeHandle} {index : Int} {v : Value} :
    value (.variant handle index v) → value v
  symbol {scope : Scope} {name : String} {type : TypeInfo} :
    expr scope (.symbol name type) → (context.lookup scope name).Ends value fault
  constructor {scope : Scope} {handle : TypeHandle} {index : Int} {type : TypeInfo} :
    expr scope (.constructor handle index type) →
      (context.makeConstructor handle index).Ends value fault
  operator {scope : Scope} {op : Operator} {lhs rhs : Expr} {type : TypeInfo} {v w : Value} :
    expr scope (.binary op lhs rhs type) → value v → value w →
      (Context.operate op v w).Ends value fault
  native {id : String} {v : Value} :
    value (.builtin id) → value v → (callBuiltin context.files id v).Ends value fault
  other {scope : Scope} {kind : String} {content : Datum} {type : TypeInfo} :
    expr scope (.other kind content type) → fault (.failed (.unknownKind kind))
  failed {error : EvalError} : ¬error.IsUnresolved → fault (.failed error)

/-- What has to be shown of an invariant for evaluation to keep it: besides, that it
allows for a limit that the host refuses. -/
structure Context.Keeps (context : Context) (expr : Scope → Expr → Prop) (value : Value → Prop)
    (fault : Fault → Prop) : Prop
    extends context.KeepsWithin expr value fault where
  refused (limit : LimitFault) : fault (.refusedLimit limit)

namespace Context.KeepsWithin

variable {context : Context} {expr : Scope → Expr → Prop} {value : Value → Prop}
  {fault : Fault → Prop}

/-- A failure that no resolution could prevent may always happen. -/
theorem fail {α : Type} {result : α → Prop} (h : context.KeepsWithin expr value fault)
    {error : EvalError} (he : ¬error.IsUnresolved) :
    (Run.fail error : Run α).Ends result fault :=
  Run.Ends.fail (h.failed he)

/-! ## The pieces of a step

What a step does with values, over an evaluator of which the invariant is known. -/

section Step

variable {eval : Evaluator}

theorem applyWith (h : context.KeepsWithin expr value fault)
    (heval : ∀ scope e, expr scope e → (eval scope e).Ends value fault) {callee argument : Value}
    (hc : value callee) (ha : value argument) :
    (context.applyWith eval callee argument).Ends value fault := by
  cases callee with
  | function param captured body => exact Run.Ends.note (heval _ _ (h.called hc ha))
  | constructor handle index => exact Run.Ends.pure (h.variant hc ha)
  | builtin id => exact Run.Ends.note (h.native hc ha)
  | unit | integer | string | tuple | variant | other => exact h.fail id

theorem project (h : context.KeepsWithin expr value fault) {target : Value} (ht : value target)
    (index : Int) : (Context.project target index).Ends value fault := by
  cases target with
  | tuple items =>
      rw [Context.project]
      split
      · next item hi =>
        refine Run.Ends.pure (h.item ht item ?_)
        split at hi
        · exact List.mem_of_getElem? hi
        · cases hi
      · exact h.fail id
  | unit | integer | string | function | variant | constructor | builtin | other => exact h.fail id

theorem chooseWith (h : context.KeepsWithin expr value fault)
    (heval : ∀ scope e, expr scope e → (eval scope e).Ends value fault) {scope : Scope}
    {cons alt : Expr} (hc : expr scope cons) (ha : expr scope alt) (v : Value) :
    (Context.chooseWith eval scope cons alt v).Ends value fault := by
  cases v with
  | integer n =>
      rw [Context.chooseWith]
      split
      · exact heval _ _ hc
      · exact heval _ _ ha
  | unit | string | tuple | function | variant | constructor | builtin | other => exact h.fail id

theorem selectWith (h : context.KeepsWithin expr value fault)
    (heval : ∀ scope e, expr scope e → (eval scope e).Ends value fault) {scope : Scope}
    {matchee : Expr} {branches : List (Branch Expr)} {type : TypeInfo}
    (he : expr scope (.caseOf matchee branches type)) {v : Value} (hv : value v) :
    (Context.selectWith eval scope branches v).Ends value fault := by
  cases v with
  | variant handle index payload =>
      rw [Context.selectWith]
      split
      · exact h.fail id
      · next n body hf =>
        refine heval _ _ (h.part he (List.mem_cons_of_mem _ ?_))
        exact List.mem_map.2 ⟨_, List.mem_of_find?_eq_some hf, rfl⟩
      · next n name body hf =>
        refine heval _ _ (h.body he (List.mem_cons_of_mem _ ?_) (h.payload hv))
        exact List.mem_map.2 ⟨_, List.mem_of_find?_eq_some hf, rfl⟩
  | unit | integer | string | tuple | function | constructor | builtin | other => exact h.fail id

theorem applyWith_congr (h : context.KeepsWithin expr value fault) {eval' : Evaluator}
    (hsame : ∀ scope e, expr scope e → eval scope e = eval' scope e) {callee argument : Value}
    (hc : value callee) (ha : value argument) :
    context.applyWith eval callee argument = context.applyWith eval' callee argument := by
  cases callee with
  | function param captured body =>
      rw [Context.applyWith, Context.applyWith, hsame _ _ (h.called hc ha)]
  | _ => rfl

theorem selectWith_congr (h : context.KeepsWithin expr value fault) {eval' : Evaluator}
    (hsame : ∀ scope e, expr scope e → eval scope e = eval' scope e) {scope : Scope}
    {matchee : Expr} {branches : List (Branch Expr)} {type : TypeInfo}
    (he : expr scope (.caseOf matchee branches type)) {v : Value} (hv : value v) :
    Context.selectWith eval scope branches v = Context.selectWith eval' scope branches v := by
  cases v with
  | variant handle index payload =>
      rw [Context.selectWith, Context.selectWith]
      split
      · rfl
      · next n body hf =>
        refine hsame _ _ (h.part he (List.mem_cons_of_mem _ ?_))
        exact List.mem_map.2 ⟨_, List.mem_of_find?_eq_some hf, rfl⟩
      · next n name body hf =>
        refine hsame _ _ (h.body he (List.mem_cons_of_mem _ ?_) (h.payload hv))
        exact List.mem_map.2 ⟨_, List.mem_of_find?_eq_some hf, rfl⟩
  | _ => rfl

/-- One step keeps the invariant if the evaluator for what lies inside does. -/
theorem step (h : context.KeepsWithin expr value fault)
    (heval : ∀ scope e, expr scope e → (eval scope e).Ends value fault) (scope : Scope) (e : Expr)
    (he : expr scope e) : (context.step eval scope e).Ends value fault := by
  have hpart : ∀ part, (none, part) ∈ e.parts → (eval scope part).Ends value fault :=
    fun part hm => heval _ _ (h.part he hm)
  have hitems : ∀ items : List Expr, e.parts = items.map (none, ·) →
      Run.Ends (fun all => ∀ v ∈ all, value v) fault (items.mapM (eval scope)) := fun items hp =>
    Run.Ends.mapM fun item hi => hpart item (hp ▸ List.mem_map.2 ⟨item, hi, rfl⟩)
  refine Run.Ends.note ?_
  cases e with
  | tuple items type => exact (hitems items rfl).bind fun vs hvs => Run.Ends.pure (h.tuple hvs)
  | record items type => exact (hitems items rfl).bind fun vs hvs => Run.Ends.pure (h.tuple hvs)
  | field target index type =>
      exact (hpart target (by simp [Expr.parts])).bind fun v hv => h.project hv index
  | letIn name rhs body type =>
      refine (hpart rhs (by simp [Expr.parts])).bind fun v hv => ?_
      exact heval _ _ (h.body he (by simp [Expr.parts]) hv)
  | caseOf matchee branches type =>
      exact (hpart matchee (by simp [Expr.parts])).bind fun v hv => h.selectWith heval he hv
  | apply callee args type =>
      refine (hpart callee (by simp [Expr.parts])).bind fun v hv => ?_
      refine Run.Ends.foldlM (fun arg hm current hcur => ?_) hv
      have harg : (none, arg) ∈ (Expr.apply callee args type).parts :=
        List.mem_cons_of_mem _ (List.mem_map.2 ⟨arg, hm, rfl⟩)
      exact (hpart arg harg).bind fun w hw => h.applyWith heval hcur hw
  | lambda param body type => exact Run.Ends.pure (h.closure he)
  | symbol name type => exact h.symbol he
  | boolean b type => exact Run.Ends.pure (h.truth b)
  | conditional cond cons alt type =>
      refine (hpart cond (by simp [Expr.parts])).bind fun v hv => ?_
      exact h.chooseWith heval (h.part he (by simp [Expr.parts])) (h.part he (by simp [Expr.parts]))
        v
  | binary op lhs rhs type =>
      refine (hpart lhs (by simp [Expr.parts])).bind fun v hv => ?_
      refine (hpart rhs (by simp [Expr.parts])).bind fun w hw => ?_
      exact h.operator he hv hw
  | constructor handle index type => exact h.constructor he
  | builtin id type => exact Run.Ends.pure (h.builtin he)
  | string text type => exact Run.Ends.pure (h.string he)
  | integer n type => exact Run.Ends.pure (h.integer he)
  | unit type => exact Run.Ends.pure h.unit
  | other kind content type => exact Run.Ends.fail (h.other he)

/-- A step asks the evaluator for what lies inside only about expressions that the
invariant holds of. -/
theorem step_congr (h : context.KeepsWithin expr value fault) {eval' : Evaluator}
    (heval : ∀ scope e, expr scope e → (eval scope e).Ends value fault)
    (hsame : ∀ scope e, expr scope e → eval scope e = eval' scope e) (scope : Scope) (e : Expr)
    (he : expr scope e) : context.step eval scope e = context.step eval' scope e := by
  have hpart : ∀ part, (none, part) ∈ e.parts → eval scope part = eval' scope part :=
    fun part hm => hsame _ _ (h.part he hm)
  have hends : ∀ part, (none, part) ∈ e.parts → (eval scope part).Ends value fault :=
    fun part hm => heval _ _ (h.part he hm)
  have hitems : ∀ items : List Expr, e.parts = items.map (none, ·) →
      items.mapM (eval scope) = items.mapM (eval' scope) := fun items hp =>
    Run.mapM_congr fun item hi => hpart item (hp ▸ List.mem_map.2 ⟨item, hi, rfl⟩)
  cases e with
  | tuple items type => simp only [Context.step, hitems items rfl]
  | record items type => simp only [Context.step, hitems items rfl]
  | field target index type => simp only [Context.step, hpart target (by simp [Expr.parts])]
  | letIn name rhs body type =>
      simp only [Context.step, ← hpart rhs (by simp [Expr.parts])]
      refine congrArg _ (funext fun _ => ?_)
      refine (hends rhs (by simp [Expr.parts])).bind_congr fun v hv => ?_
      exact hsame _ _ (h.body he (by simp [Expr.parts]) hv)
  | caseOf matchee branches type =>
      simp only [Context.step, ← hpart matchee (by simp [Expr.parts])]
      refine congrArg _ (funext fun _ => ?_)
      refine (hends matchee (by simp [Expr.parts])).bind_congr fun v hv => ?_
      exact h.selectWith_congr hsame he hv
  | apply callee args type =>
      simp only [Context.step, ← hpart callee (by simp [Expr.parts])]
      refine congrArg _ (funext fun _ => ?_)
      refine (hends callee (by simp [Expr.parts])).bind_congr fun v hv => ?_
      have harg : ∀ arg ∈ args, (none, arg) ∈ (Expr.apply callee args type).parts :=
        fun arg hm => List.mem_cons_of_mem _ (List.mem_map.2 ⟨arg, hm, rfl⟩)
      have hkeeps : ∀ arg ∈ args, ∀ current, value current →
          (eval scope arg >>= context.applyWith eval current).Ends value fault :=
        fun arg hm current hcur =>
          (hends arg (harg arg hm)).bind fun w hw => h.applyWith heval hcur hw
      refine Run.Ends.foldlM_congr hkeeps (fun arg hm current hcur => ?_) hv
      rw [← hpart arg (harg arg hm)]
      exact (hends arg (harg arg hm)).bind_congr fun w hw => h.applyWith_congr hsame hcur hw
  | conditional cond cons alt type =>
      simp only [Context.step, ← hpart cond (by simp [Expr.parts])]
      refine congrArg _ (funext fun _ => ?_)
      refine (hends cond (by simp [Expr.parts])).bind_congr fun v _ => ?_
      cases v with
      | integer n =>
          simp only [Context.chooseWith]
          split
          · exact hpart cons (by simp [Expr.parts])
          · exact hpart alt (by simp [Expr.parts])
      | _ => rfl
  | binary op lhs rhs type =>
      simp only [Context.step, hpart lhs (by simp [Expr.parts]), hpart rhs (by simp [Expr.parts])]
  | _ => rfl

end Step

/-! ## Whole runs -/

/-- Evaluation keeps an invariant, however deep it goes. -/
theorem eval (h : context.KeepsWithin expr value fault) (limit : Nat) (scope : Scope) (e : Expr)
    (he : expr scope e) : (context.eval limit scope e).Ends value fault := by
  induction limit generalizing scope e with
  | zero => exact h.fail id
  | succ limit ih => exact h.step ih scope e he

end Context.KeepsWithin

namespace Context.Keeps

variable {context : Context} {expr : Scope → Expr → Prop} {value : Value → Prop}
  {fault : Fault → Prop}

/-- So does evaluation under a limit that the host may have refused. -/
theorem evalWithin (h : context.Keeps expr value fault) (nesting : Except LimitFault Nat)
    (scope : Scope) (e : Expr) (he : expr scope e) :
    (context.evalWithin nesting scope e).Ends value fault := by
  cases nesting with
  | ok limit => exact h.eval limit scope e he
  | error refused => exact Run.Ends.throw (h.refused refused)

/-- Running an entry keeps an invariant that holds of its body with nothing
bound. -/
theorem runWith (h : context.Keeps expr value fault) (nesting : Except LimitFault Nat)
    {entry : String}
    (he : ∀ param body type definition,
      context.program.find? entry = some ⟨.lambda param body type, definition⟩ → expr [] body) :
    (context.runWith (context.evalWithin nesting) entry).Ends value fault := by
  rw [Context.runWith]
  split
  · exact h.fail id
  · next param body type definition hf =>
    refine Run.Ends.note ((h.evalWithin nesting [] body (he _ _ _ _ hf)).bind fun v hv => ?_)
    exact Run.Ends.note (Run.Ends.pure hv)
  · exact h.fail id

end Context.Keeps

end Fern
