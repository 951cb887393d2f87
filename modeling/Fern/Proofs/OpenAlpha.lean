import Fern.Proofs.AlphaExpr

/-!
# Names without a meaning, up to what they are called

A name that is bound nowhere and is not defined fails as unbound, and the failure says which name
it was. So two expressions that differ in such a name, and in the names that they bind, are
evaluated alike but for that. The values that come of them may be functions which have the name in
their bodies, so to which names this applies has to be said of values as well: `base` relates the
names that stand for each other where nothing binds them.
-/

namespace Fern

/-- Only what names stand for that are free on the left matters. -/
theorem Expr.Alike.of_free {binder : String → String → Prop} {m m' : NameMatch} {e e' : Expr}
    (h : e.Alike binder m e') (hm : ∀ x x', e.Free x → m x x' → m' x x') :
    e.Alike binder m' e' := by
  induction h generalizing m' with
  | intro _ hbinder _ htype node hinner hunder =>
      refine .of_node htype (node.imp (fun hp _ h => ?_) (fun {n n' a a'} hp _ h => ?_)
        (fun {n n' type} he hn => ?_) id)
      · exact hinner h fun x x' hfree => hm x x' (.inside hp nofun hfree)
      · refine ⟨hbinder h, hunder h fun x x' hfree hx => ?_⟩
        rcases hx with hx | ⟨hne, hne', hx⟩
        · exact .inl hx
        · exact .inr ⟨hne, hne', hm x x' (.inside hp (fun heq => hne (Option.some.inj heq).symm)
            hfree) hx⟩
      · subst he
        exact hm n n' (.symbol type) hn

/-! ## Values -/

/-- What names stand for in two scopes that bind pairs of names, where names that neither scope
binds may stand for others. -/
def NameMatch.overScopes (base : NameMatch) : Scope → Scope → NameMatch
  | (name, _) :: rest, (name', _) :: rest' => (overScopes base rest rest').bind name name'
  | _, _ => base

section AlikeOver

variable (binder : String → String → Prop) (base : NameMatch)

/-- Two values differ at most in names that functions inside them bind, and in names that these
leave unbound and that stand for each other. -/
inductive Value.AlikeOver : Value → Value → Prop
  | intro {v v' : Value} {inner : Value → Value → Prop}
      (hinner : ∀ {part part' : Value}, inner part part' → AlikeOver part part')
      (node : v.Paired Eq inner (fun param captured body param' captured' body' =>
        binder param param' ∧
        List.Forall₂ (fun binding binding' => binder binding.1 binding'.1 ∧
          inner binding.2 binding'.2) captured captured' ∧
        body.Alike binder ((base.overScopes captured captured').bind param param') body') v') :
      AlikeOver v v'

/-- Two scopes bind related names to such values, in the same order. -/
def Scope.AlikeOver (scope scope' : Scope) : Prop :=
  List.Forall₂ (fun binding binding' => binder binding.1 binding'.1 ∧
    binding.2.AlikeOver binder base binding'.2) scope scope'

end AlikeOver

variable {binder : String → String → Prop} {base : NameMatch}

theorem Value.AlikeOver.node {v v' : Value} (h : v.AlikeOver binder base v') :
    v.Paired Eq (Value.AlikeOver binder base)
      (fun param captured body param' captured' body' =>
        binder param param' ∧ Scope.AlikeOver binder base captured captured' ∧
        body.Alike binder ((base.overScopes captured captured').bind param param') body') v' := by
  cases h with
  | intro hinner node =>
      exact node.mono id hinner fun hf =>
        ⟨hf.1, hf.2.1.imp fun _ _ hb => ⟨hb.1, hinner hb.2⟩, hf.2.2⟩

theorem Value.AlikeOver.of_node {v v' : Value} (node : v.Paired Eq (Value.AlikeOver binder base)
      (fun param captured body param' captured' body' =>
        binder param param' ∧ Scope.AlikeOver binder base captured captured' ∧
        body.Alike binder ((base.overScopes captured captured').bind param param') body') v') :
    v.AlikeOver binder base v' :=
  .intro id node

/-! ## Evaluation -/

/-- Names that stand for each other are bound to related values, or on neither side. -/
theorem Scope.find?_of_overScopes {values : Value → Value → Prop} {scope scope' : Scope}
    (h : List.Forall₂ (fun binding binding' => values binding.2 binding'.2) scope scope')
    {name name' : String} (hn : base.overScopes scope scope' name name') :
    (∃ v v', scope.find? name = some v ∧ scope'.find? name' = some v' ∧ values v v') ∨
      scope.find? name = none ∧ scope'.find? name' = none ∧ base name name' := by
  induction h with
  | nil => exact .inr ⟨rfl, rfl, hn⟩
  | @cons binding binding' rest rest' hv _ ih =>
      obtain ⟨key, v⟩ := binding
      obtain ⟨key', v'⟩ := binding'
      rcases hn with ⟨rfl, rfl⟩ | ⟨hk, hk', hn⟩
      · exact .inl ⟨v, v', List.lookup_cons_self, List.lookup_cons_self, hv⟩
      · rw [← Scope.bind, ← Scope.bind, Scope.find?_bind_of_ne _ _ hk,
          Scope.find?_bind_of_ne _ _ hk']
        exact ih hn

/-- Names that stand for each other where nothing binds them are the same, or both mean nothing and
their failures go together. -/
structure Context.Unbinds (context context' : Context) (base : NameMatch)
    (faults : Fault → Fault → Prop) : Prop where
  same (name : String) : base name name
  other {name name' : String} : base name name' → name = name' ∨
    context.program.find? name = none ∧ context'.program.find? name' = none ∧
      faults (.failed (.unbound name)) (.failed (.unbound name'))
  fault (f : Fault) : faults f f

section Evaluation

variable {context context' : Context} {faults : Fault → Fault → Prop}

theorem alikeOver_lookup (hp : context.program.Alike binder Eq context'.program)
    (hb : context.Unbinds context' base faults) {scope scope' : Scope}
    (hs : Scope.AlikeOver binder base scope scope') {name name' : String}
    (hn : base.overScopes scope scope' name name') :
    (context.lookup scope name).Alike (Value.AlikeOver binder base) faults
      (context'.lookup scope' name') := by
  have hvalues := hs.imp fun _ _ hbinding => hbinding.2
  rcases Scope.find?_of_overScopes hvalues hn with ⟨v, v', hv, hv', hrel⟩ | ⟨hv, hv', hbase⟩
  · rw [Context.lookup, Context.lookup, hv, hv']
    exact Run.Alike.pure hrel
  · rcases hb.other hbase with rfl | ⟨hnone, hnone', hfault⟩
    · refine Context.alike_lookup_of_defined hv hv' (hp.defined name) Expr.Alike.node
        (fun hbody => .of_node (.function ⟨hbody.1, .nil, hbody.2.of_free fun x x' _ hx => ?_⟩))
        (fun id => .of_node (.builtin id)) hb.fault
      rcases hx with hx | ⟨hne, hne', rfl⟩
      · exact .inl hx
      · exact .inr ⟨hne, hne', hb.same x⟩
    · rw [Context.lookup, Context.lookup, hv, hv', hnone, hnone']
      exact Run.Alike.fail hfault

/-- Expressions that are alike over names that mean nothing are evaluated alike, but for the
failures of these names. -/
theorem relates_alikeOver (hp : context.program.Alike binder Eq context'.program)
    (hf : context.files = context'.files) (hb : context.Unbinds context' base faults) :
    context.Relates context' Eq
      (fun scope scope' e e' => Scope.AlikeOver binder base scope scope' ∧
        e.Alike binder (base.overScopes scope scope') e')
      (Value.AlikeOver binder base) faults where
  files := hf
  node h := h.2.node.mono (fun ha => ⟨h.1, ha⟩) (fun ha _ _ hv => ⟨.cons ⟨ha.1, hv⟩ h.1, ha.2⟩)
    (alikeOver_lookup hp hb h.1) fun hc => by
      obtain ⟨rfl, rfl⟩ := hc
      exact Context.alike_makeConstructor hp.types (fun _ _ => .of_node (.constructor rfl)) hb.fault
        _ _
  closure h := by
    cases h.2.node with
    | lambda body => exact .of_node (.function ⟨body.1, h.1, body.2⟩)
  value h := h.node.mono id id fun hfunction _ _ hw =>
    ⟨.cons ⟨hfunction.1, hw⟩ hfunction.2.1, hfunction.2.2⟩
  unit := .of_node .unit
  integer n := .of_node (.integer n)
  string text := .of_node (.string text)
  builtin id := .of_node (.builtin id)
  tuple hitems := .of_node (.tuple hitems)
  variant hh hv := .of_node (.variant hh hv)
  noBranch _ hh := hh ▸ hb.fault _
  fault := hb.fault

/-- Alike programs run alike from an entry whose bodies are alike where nothing is bound. -/
theorem alikeOver_runWith (context context' : Context)
    (hp : context.program.Alike binder Eq context'.program)
    (hf : context.files = context'.files) (hb : context.Unbinds context' base faults)
    (nesting : Except LimitFault Nat) {entry : String}
    (hentry : ∀ {param body type definition param' body' type' definition'},
      context.program.find? entry = some ⟨.lambda param body type, definition⟩ →
      context'.program.find? entry = some ⟨.lambda param' body' type', definition'⟩ →
      body.Alike binder (NameMatch.bind Eq param param') body' → body.Alike binder base body') :
    (context.runWith (context.evalWithin nesting) entry).Alike (Value.AlikeOver binder base) faults
      (context'.runWith (context'.evalWithin nesting) entry) := by
  refine (Context.runWith_unless (hp.defined entry) Expr.Alike.node (fun hfound hfound' hbody => ?_)
    hb.fault).alike
  exact ((relates_alikeOver hp hf hb).evalWithin nesting [] [] _ _
    ⟨.nil, hentry hfound hfound' hbody.2⟩).unless

end Evaluation

end Fern
