import Fern.Proofs.LocalChanges

/-!
# Bindings and applications spelled in other ways

`let x = a in b` does what `(\x -> b) a` does, and an application to several
arguments does what it does if the first of them are given in an application of
their own. `Respelled` is about an expression in which this has been done in any
number of places. The two spellings are not of one form, and one of them nests
deeper, so it may reach the limit on nesting where the other does not; unless one
does, both write the same and end in the same way.

The induction of the evaluation is on the limit for the new spelling. That is the
one that nests deeper, so it still has something left where an application has been
taken apart and the other side has used up nothing.
-/

namespace Fern

/-- A fault of the limit on nesting, and not of what is evaluated. -/
inductive Fault.OfLimit : Fault → Prop
  | nesting : OfLimit (.failed .nesting)
  | refused (fault : LimitFault) : OfLimit (.refusedLimit fault)

/-- An expression and one that differs in the spelling of bindings and applications
in any number of places. -/
inductive Expr.Respelled : Expr → Expr → Prop
  | inside {e e' : Expr} {inner : Expr → Expr → Prop}
      {under : String → String → Expr → Expr → Prop}
      (hinner : ∀ {part part' : Expr}, inner part part' → Respelled part part')
      (hname : ∀ {name name' : String} {part part' : Expr}, under name name' part part' →
        name = name')
      (hunder : ∀ {name name' : String} {part part' : Expr}, under name name' part part' →
        Respelled part part')
      (type : e.type = e'.type)
      (node : e.Paired inner under Eq
        (fun handle index handle' index' => handle = handle' ∧ index = index') e') :
      Respelled e e'
  | binding {name : String} {rhs rhs' body body' : Expr} {type lambdaType : TypeInfo}
      (hrhs : Respelled rhs rhs') (hbody : Respelled body body') :
      Respelled (.letIn name rhs body type) (.apply (.lambda name body' lambdaType) [rhs'] type)
  | split {callee callee' : Expr} {front rest rest' : List Expr} {type frontType : TypeInfo}
      {inner : Expr → Expr → Prop} (hcallee : Respelled (.apply callee front frontType) callee')
      (hinner : ∀ {part part' : Expr}, inner part part' → Respelled part part')
      (hrest : List.Forall₂ inner rest rest') :
      Respelled (.apply callee (front ++ rest) type) (.apply callee' rest' type)

/-- Two values differ in the spelling of what is inside functions at most. -/
inductive Value.Respelled : Value → Value → Prop
  | intro {v v' : Value} {inner : Value → Value → Prop}
      (hinner : ∀ {part part' : Value}, inner part part' → Respelled part part')
      (node : v.Paired Eq inner (fun param captured body param' captured' body' =>
        param = param' ∧ List.Forall₂ (fun binding binding' =>
          binding.1 = binding'.1 ∧ inner binding.2 binding'.2) captured captured' ∧
          body.Respelled body') v') : Respelled v v'

/-- How an expression is spelled changes it in places. -/
theorem Expr.local_respelled : Expr.Local Expr.Respelled where
  type h := by
    cases h with
    | inside _ _ _ type _ => exact type
    | binding _ _ => rfl
    | split _ _ _ => rfl
  node type node := .inside id (·.1) (·.2) type node
  isLambda h := by
    cases h with
    | inside _ _ _ _ node => cases node <;> rfl
    | binding _ _ => rfl
    | split _ _ _ => rfl
  function h he := by
    cases h with
    | inside hinner hname hunder _ node =>
        exact node.mono hinner (fun hp => ⟨hname hp, hunder hp⟩) id id
    | binding _ _ => cases he
    | split _ _ _ => cases he

/-- Values that are the same but for the spelling of bodies differ in nothing else. -/
theorem Value.Respelled.of_sameBut {v v' : Value} (h : v.SameBut Expr.Respelled v') :
    v.Respelled v' := by
  induction h with
  | intro _ node ih => exact .intro ih node

/-! ## Evaluation -/

variable {context context' : Context}

/-- Two runs write the same and end in the same way, with results that differ in
spelling at most, unless one of them reaches the limit on nesting. -/
abbrev Run.AlikeWithin (run run' : Run Value) : Prop :=
  run.AlikeUnless Fault.OfLimit Fault.OfLimit (Value.SameBut Expr.Respelled) Eq run'

/-- Where a function is written, nothing happens. -/
theorem eval_lambda (limit : Nat) (scope : Scope) (param : String) (body : Expr)
    (type : TypeInfo) :
    Run.AlikeUnless Fault.OfLimit Fault.OfLimit
      (fun _ v => v = Value.function param scope body) Eq (pure () : Run Unit)
      (context.eval limit scope (.lambda param body type)) := by
  cases limit with
  | zero => exact .cut_right .nesting
  | succ limit =>
      refine Run.AlikeUnless.note_right (Run.Alike.unless ?_)
      exact Run.Alike.pure rfl

theorem eval_apply_single (limit : Nat) (scope : Scope) (callee arg : Expr) (type : TypeInfo) :
    context.eval (limit + 1) scope (.apply callee [arg] type) =
      (do
        context.note ("Evaluating: " ++ (Expr.apply callee [arg] type).kind)
        let current ← context.eval limit scope callee
        let v ← context.eval limit scope arg
        context.applyWith (context.eval limit) current v) := by
  simp only [Context.eval, Context.step, List.foldlM_cons, List.foldlM_nil, bind_pure]

/-- Taking the first arguments of an application on their own changes nothing for
the rest. -/
theorem eval_apply_append (limit : Nat) (scope : Scope) (callee : Expr) (front rest : List Expr)
    (type frontType : TypeInfo) :
    context.eval (limit + 1) scope (.apply callee (front ++ rest) type) =
      (do
        let current ← context.eval (limit + 1) scope (.apply callee front frontType)
        rest.foldlM (fun current arg => do
          context.applyWith (context.eval limit) current (← context.eval limit scope arg))
          current) := by
  simp only [Context.eval, Context.step, List.foldlM_append, bind_assoc]
  rfl

/-- Expressions that differ in spelling are evaluated alike within the limit. -/
theorem respelled_eval
    (hp : Program.Paired (Expr.Inside Expr.Respelled) context.program context'.program)
    (hf : context.files = context'.files) (limit limit' : Nat) {scope scope' : Scope}
    (hs : scope.SameBut Expr.Respelled scope') {e e' : Expr} (he : e.Respelled e') :
    (context.eval limit scope e).AlikeWithin (context'.eval limit' scope' e') := by
  induction limit' generalizing limit scope scope' e e' with
  | zero => exact .cut_right .nesting
  | succ limit' ih =>
  cases limit with
  | zero => exact .cut_left .nesting
  | succ limit =>
  have hparts : ∀ scope scope' e e', Scope.SameBut Expr.Respelled scope scope' ∧
      Expr.Respelled e e' →
      (context.eval limit scope e).AlikeWithin (context'.eval limit' scope' e') :=
    fun _ _ _ _ h => ih limit h.1 h.2
  cases he with
  | inside hinner hname hunder type node =>
      exact Expr.local_respelled.step hp hs hf hparts (.inside hinner hname hunder type node)
        (node.mono hinner (fun hb => ⟨hname hb, hunder hb⟩) id id)
  | @binding name rhs rhs' body body' type lambdaType hrhs hbody =>
      -- The new spelling first makes the function, which the old one has no need of.
      rw [eval_apply_single]
      show Run.AlikeWithin
        (do
          context.note _
          pure () >>= fun _ => do
            let v ← context.eval limit scope rhs
            context.eval limit (scope.bind name v) body) _
      refine Run.AlikeUnless.note ?_
      refine (eval_lambda limit' scope' name body' lambdaType).bind fun _ callee' hcallee => ?_
      subst hcallee
      refine (ih limit hs hrhs).bind fun v v' hv => Run.AlikeUnless.note_right ?_
      exact ih limit (hs.bind name hv) hbody
  | split hcallee hinner hrest =>
      rw [eval_apply_append]
      refine Run.AlikeUnless.note_right ?_
      refine (ih (limit + 1) hs hcallee).bind fun current current' hcurrent => ?_
      exact (Expr.local_respelled.relatesValues hf).applyAll hparts
        (hrest.imp fun _ _ ha => ⟨hs, hinner ha⟩) hcurrent

/-- Programs that differ in spelling run alike from every entry within the limits. -/
theorem respelled_runWith (context context' : Context)
    (hp : Program.Paired (Expr.Inside Expr.Respelled) context.program context'.program)
    (hf : context.files = context'.files) (nesting nesting' : Except LimitFault Nat)
    (entry : String) :
    (context.runWith (context.evalWithin nesting) entry).AlikeUnless Fault.OfLimit Fault.OfLimit
      Value.Respelled Eq (context'.runWith (context'.evalWithin nesting') entry) := by
  have hrun : (context.runWith (context.evalWithin nesting) entry).AlikeWithin
      (context'.runWith (context'.evalWithin nesting') entry) := by
    refine Context.runWith_unless (hp.defined entry) id (fun _ _ hbody => ?_) fun _ => rfl
    cases nesting with
    | error refused => exact .cut_left (.refused refused)
    | ok limit =>
    cases nesting' with
    | error refused => exact .cut_right (.refused refused)
    | ok limit' => exact respelled_eval hp hf limit limit' .nil hbody.2
  exact hrun.mono (fun _ _ => .of_sameBut) fun _ _ => id

end Fern
