import Fern.Proofs.EvalPairs
import Fern.Proofs.ExprParts

/-!
# Names that an expression does not use

A function remembers the whole scope of its place, also the bindings that nothing in
it asks for. So two evaluations of one expression, in scopes that bind its free names
alike and differ in others, give functions that are not equal. `SameFree` says what
can be said of them: they have captured the same for every name that is free in them.
That is all that matters when they are applied in turn, and so the relation is kept
by every step of evaluation.

An entry whose body does not use its own parameter is a case of this: it makes no
difference whether the parameter is bound.
-/

namespace Fern

/-- Two values differ at most in what functions inside them have captured for names
that are not free in these functions. -/
inductive Value.SameFree : Value → Value → Prop
  | intro {v v' : Value} {inner : Value → Value → Prop}
      (hinner : ∀ {part part' : Value}, inner part part' → SameFree part part')
      (node : v.Paired Eq inner (fun param captured body param' captured' body' =>
        param = param' ∧ body = body' ∧ ∀ name, name ≠ param → body.Free name →
          Option.Rel inner (captured.find? name) (captured'.find? name)) v') : SameFree v v'

/-- Two scopes bind the free names of an expression alike. -/
def Scope.SameFor (e : Expr) (scope scope' : Scope) : Prop :=
  ∀ name, e.Free name → Option.Rel Value.SameFree (scope.find? name) (scope'.find? name)

/-- Two scopes bind the free names of a function with some parameter and body
alike. -/
def Scope.SameUnder (param : String) (body : Expr) (scope scope' : Scope) : Prop :=
  ∀ name, name ≠ param → body.Free name →
    Option.Rel Value.SameFree (scope.find? name) (scope'.find? name)

theorem rel_option_mono {α α' : Type} {pair pair' : α → α' → Prop} {a : Option α}
    {a' : Option α'} (h : Option.Rel pair a a') (hp : ∀ b b', pair b b' → pair' b b') :
    Option.Rel pair' a a' := by
  cases h with
  | some h => exact .some (hp _ _ h)
  | none => exact .none

theorem Scope.sizeOf_find?_lt {scope : Scope} {name : String} {v : Value}
    (h : scope.find? name = some v) : sizeOf v < sizeOf scope := by
  induction scope with
  | nil => cases h
  | cons binding rest ih =>
      obtain ⟨key, w⟩ := binding
      rw [List.cons.sizeOf_spec, Prod.mk.sizeOf_spec]
      rw [Scope.find?, List.lookup_cons] at h
      cases hk : name == key with
      | true =>
          rw [hk] at h
          cases Option.some.inj h
          omega
      | false =>
          rw [hk] at h
          have := ih h
          omega

namespace Value.SameFree

variable {v v' : Value}

theorem node (h : v.SameFree v') :
    v.Paired Eq SameFree (fun param captured body param' captured' body' =>
      param = param' ∧ body = body' ∧ Scope.SameUnder param body captured captured') v' := by
  cases h with
  | intro hinner node =>
      refine node.mono id hinner fun hf => ⟨hf.1, hf.2.1, fun name hn hfree => ?_⟩
      exact rel_option_mono (hf.2.2 name hn hfree) fun _ _ => hinner

theorem of_node
    (node : v.Paired Eq SameFree (fun param captured body param' captured' body' =>
      param = param' ∧ body = body' ∧ Scope.SameUnder param body captured captured') v') :
    v.SameFree v' :=
  .intro id node

/-- Every value differs in nothing from itself. -/
theorem refl (v : Value) : v.SameFree v := by
  match v with
  | .unit => exact .of_node .unit
  | .integer n => exact .of_node (.integer n)
  | .string text => exact .of_node (.string text)
  | .tuple items =>
      refine .of_node (.tuple (List.forall₂_same.2 fun item hitem => ?_))
      have := List.sizeOf_lt_of_mem hitem
      exact refl item
  | .function param captured body =>
      refine .of_node (.function ⟨rfl, rfl, fun name _ _ => ?_⟩)
      cases hfound : Scope.find? captured name with
      | none => exact .none
      | some w =>
          have := Scope.sizeOf_find?_lt hfound
          exact .some (refl w)
  | .variant handle index payload => exact .of_node (.variant rfl (refl payload))
  | .constructor handle index => exact .of_node (.constructor rfl)
  | .builtin id => exact .of_node (.builtin id)
  | .other typeName content => exact .of_node (.other typeName content)
termination_by sizeOf v

end Value.SameFree

namespace Scope.SameFor

variable {scope scope' : Scope} {e part : Expr}

/-- Scopes that bind the same as the free names of an expression. -/
theorem of_eq (h : ∀ name, e.Free name → scope.find? name = scope'.find? name) :
    Scope.SameFor e scope scope' := by
  intro name hfree
  rw [h name hfree]
  cases scope'.find? name with
  | none => exact .none
  | some v => exact .some (.refl v)

/-- What is free in a part that binds nothing is free in the whole. -/
theorem inner (h : Scope.SameFor e scope scope') (hm : (none, part) ∈ e.parts) :
    Scope.SameFor part scope scope' :=
  fun name hfree => h name (.inside hm nofun hfree)

/-- A binder binds itself, and all else that is free below it is free in the
whole. -/
theorem under (h : Scope.SameFor e scope scope') {name : String}
    (hm : (some name, part) ∈ e.parts) : Scope.SameUnder name part scope scope' :=
  fun _ hn hfree => h _ (.inside hm (fun heq => hn (Option.some.inj heq).symm) hfree)

end Scope.SameFor

theorem Scope.SameUnder.bind {scope scope' : Scope} {param : String} {body : Expr}
    (h : Scope.SameUnder param body scope scope') {v v' : Value} (hv : v.SameFree v') :
    Scope.SameFor body (scope.bind param v) (scope'.bind param v') := by
  intro name hfree
  by_cases hn : name = param
  · subst hn
    rw [Scope.find?_bind_self, Scope.find?_bind_self]
    exact .some hv
  · rw [Scope.find?_bind_of_ne _ _ hn, Scope.find?_bind_of_ne _ _ hn]
    exact h name hn hfree

/-! ## Evaluation -/

/-- A node is of one form with itself, and what is asked of its parts may rely on
where they stand. -/
theorem Expr.paired_self {inner : Expr → Expr → Prop}
    {under : String → String → Expr → Expr → Prop} {names : String → String → Prop}
    {constructors : TypeHandle → Int → TypeHandle → Int → Prop} (e : Expr)
    (hinner : ∀ part, (none, part) ∈ e.parts → inner part part)
    (hunder : ∀ name part, (some name, part) ∈ e.parts → under name name part part)
    (hnames : ∀ name type, e = .symbol name type → names name name)
    (hconstructors : ∀ handle index, constructors handle index handle index) :
    e.Paired inner under names constructors e := by
  have hitems (items : List Expr) (hm : ∀ item ∈ items, (none, item) ∈ e.parts) :
      List.Forall₂ inner items items :=
    List.forall₂_same.2 fun item hitem => hinner item (hm item hitem)
  cases e with
  | tuple items type => exact .tuple (hitems items fun _ hm => List.mem_map_of_mem hm)
  | record items type => exact .record (hitems items fun _ hm => List.mem_map_of_mem hm)
  | field target index type => exact .field (hinner target (by simp [Expr.parts]))
  | letIn name rhs body type =>
      exact .letIn (hinner rhs (by simp [Expr.parts])) (hunder name body (by simp [Expr.parts]))
  | caseOf matchee branches type =>
      refine .caseOf (hinner matchee (by simp [Expr.parts]))
        (List.forall₂_same.2 fun branch hb => ?_)
      have hm : (branch.binding, branch.body) ∈ (Expr.caseOf matchee branches type).parts :=
        List.mem_cons_of_mem _ (List.mem_map.2 ⟨branch, hb, rfl⟩)
      obtain ⟨index, _ | name, body⟩ := branch
      · exact .plain (hinner body hm)
      · exact .capture (hunder name body hm)
  | apply callee args type =>
      exact .apply (hinner callee (by simp [Expr.parts]))
        (hitems args fun _ hm => List.mem_cons_of_mem _ (List.mem_map_of_mem hm))
  | lambda param body type => exact .lambda (hunder param body (by simp [Expr.parts]))
  | symbol name type => exact .symbol (hnames name type rfl)
  | boolean value type => exact .boolean
  | conditional cond cons alt type =>
      exact .conditional (hinner cond (by simp [Expr.parts])) (hinner cons (by simp [Expr.parts]))
        (hinner alt (by simp [Expr.parts]))
  | binary op lhs rhs type =>
      exact .binary (hinner lhs (by simp [Expr.parts])) (hinner rhs (by simp [Expr.parts]))
  | constructor handle index type => exact .constructor (hconstructors handle index)
  | builtin id type => exact .builtin
  | string value type => exact .string
  | integer value type => exact .integer
  | unit type => exact .unit
  | other kind content type => exact .other

variable {context : Context}

/-- A name that two scopes bind alike means the same in both. -/
theorem Context.alike_lookup_of_rel {values : Value → Value → Prop}
    (hfunction : ∀ param body, values (.function param [] body) (.function param [] body))
    (hbuiltin : ∀ id, values (.builtin id) (.builtin id)) {scope scope' : Scope} {name : String}
    (h : Option.Rel values (scope.find? name) (scope'.find? name)) :
    (context.lookup scope name).Alike values Eq (context.lookup scope' name) := by
  rw [Context.lookup, Context.lookup]
  generalize scope.find? name = found at h ⊢
  generalize scope'.find? name = found' at h ⊢
  cases h with
  | some hv => exact Run.Alike.pure hv
  | none =>
      -- Nothing is bound, so both sides ask the program, which is the same.
      dsimp only
      split
      · exact Run.Alike.fail rfl
      · exact Run.Alike.pure (hfunction _ _)
      · exact Run.Alike.pure (hbuiltin _)
      · exact Run.Alike.fail rfl

theorem sameFree_lookup {scope scope' : Scope} {name : String}
    (h : Option.Rel Value.SameFree (scope.find? name) (scope'.find? name)) :
    (context.lookup scope name).Alike Value.SameFree Eq (context.lookup scope' name) :=
  Context.alike_lookup_of_rel (fun _ _ => .refl _) (fun _ => .refl _) h

/-- An expression is evaluated alike in scopes that bind its free names alike. -/
theorem relates_sameFree (context : Context) :
    context.Relates context Eq
      (fun scope scope' e e' => e = e' ∧ Scope.SameFor e scope scope') Value.SameFree Eq where
  files := rfl
  node h := by
    obtain ⟨rfl, h⟩ := h
    refine Expr.paired_self _ (fun part hm => ⟨rfl, h.inner hm⟩) (fun name part hm v v' hv => ?_)
      (fun name type he => sameFree_lookup (h name (he ▸ .symbol type))) fun handle index => ?_
    · exact ⟨rfl, (h.under hm).bind hv⟩
    · exact Context.alike_makeConstructor rfl (fun _ _ => .refl _) (fun _ => rfl) handle index
  closure h := by
    obtain ⟨heq, h⟩ := h
    obtain ⟨rfl, rfl, rfl⟩ := Expr.lambda.inj heq
    exact .of_node (.function ⟨rfl, rfl, h.under (by simp [Expr.parts])⟩)
  value h := h.node.mono id id fun hf w w' hw => by
    obtain ⟨rfl, rfl, hs⟩ := hf
    exact ⟨rfl, hs.bind hw⟩
  unit := .refl _
  integer n := .refl _
  string text := .refl _
  builtin id := .refl _
  tuple hitems := .of_node (.tuple hitems)
  variant hh hv := .of_node (.variant hh hv)
  noBranch _ hh := by rw [hh]
  fault _ := rfl

/-- Running an entry that does not use its parameter is like applying it to the unit
value. -/
theorem runWith_alike_applyWith {entry param : String} {body : Expr}
    {type definition : TypeInfo}
    (hentry : context.program.find? entry = some ⟨.lambda param body type, definition⟩)
    (hunused : ¬body.Free param) (nesting : Except LimitFault Nat) :
    (context.runWith (context.evalWithin nesting) entry).Alike Value.SameFree Eq
      (do
        let callee ← context.lookup [] entry
        context.applyWith (context.evalWithin nesting) callee .unit) := by
  have hlookup : context.lookup [] entry = pure (.function param [] body) := by
    rw [Context.lookup, hentry]
    rfl
  have hscope : Scope.SameFor body [] (Scope.bind [] param .unit) := by
    refine .of_eq fun name hfree => (Scope.find?_bind_of_ne [] .unit fun heq => ?_).symm
    exact hunused (heq ▸ hfree)
  have hbody := (relates_sameFree context).evalWithin nesting _ _ body body ⟨rfl, hscope⟩
  rw [Context.runWith, hentry, hlookup, pure_bind, Context.applyWith,
    ← bind_pure (context.evalWithin nesting (Scope.bind [] param .unit) body)]
  refine Run.AlikeUnless.alike (.note (hbody.unless.bind fun v v' hv => ?_))
  exact (Run.Alike.pure hv).unless.note_left

/-- Only free names matter. An expression, evaluated in two scopes that have the same
for each of its free names, writes the same and ends in the same way: with the same
fault, or with values that differ at most in what functions inside them have captured
for names that are not free in them. So an entry that does not use its parameter does
the same when it is run, which leaves the parameter without a value, and when it is
looked up and applied to the unit value. -/
theorem alike_of_free_names (context : Context) (nesting : Except LimitFault Nat) :
    (∀ (scope scope' : Scope) (e : Expr),
      (∀ name, e.Free name → scope.find? name = scope'.find? name) →
        (context.evalWithin nesting scope e).Alike Value.SameFree Eq
          (context.evalWithin nesting scope' e)) ∧
    ∀ (entry param : String) (body : Expr) (type definition : TypeInfo),
      context.program.find? entry = some ⟨.lambda param body type, definition⟩ →
        ¬body.Free param →
          (context.runWith (context.evalWithin nesting) entry).Alike Value.SameFree Eq
            (do
              let callee ← context.lookup [] entry
              context.applyWith (context.evalWithin nesting) callee .unit) := by
  refine ⟨fun scope scope' e h => ?_, fun entry param body type definition hentry hunused => ?_⟩
  · exact (relates_sameFree context).evalWithin nesting scope scope' e e ⟨rfl, .of_eq h⟩
  · exact runWith_alike_applyWith hentry hunused nesting

/-- A program whose entry gives a function without using its own parameter. -/
def idleEntry : Context :=
  ⟨⟨[("main", ⟨.lambda "u" (.lambda "y" (.symbol "y" .int) .anyFunction) .anyFunction,
    .anyFunction⟩)], []⟩, .ofEntries [], false⟩

/-- A function that uses one of two bindings, and the entry above. -/
theorem alike_of_free_names_idle :
    (idleEntry.evalWithin (.ok 9) [("z", .integer 2), ("x", .integer 1)]
      (.lambda "y" (.symbol "x" .int) .anyFunction)).Alike Value.SameFree Eq
      (idleEntry.evalWithin (.ok 9) [("x", .integer 1)]
        (.lambda "y" (.symbol "x" .int) .anyFunction)) ∧
    (idleEntry.runWith (idleEntry.evalWithin (.ok 9)) "main").Alike Value.SameFree Eq
      (do
        let callee ← idleEntry.lookup [] "main"
        idleEntry.applyWith (idleEntry.evalWithin (.ok 9)) callee .unit) := by
  have honly {param used name : String}
      (h : (Expr.lambda param (.symbol used .int) .anyFunction).Free name) :
      name = used ∧ param ≠ name := by
    cases h with
    | inside hm hunbound hfree =>
        cases List.mem_singleton.1 hm
        exact ⟨(Expr.eq_of_free_symbol hfree).symm, fun heq => hunbound (congrArg some heq)⟩
  have hboth := alike_of_free_names idleEntry (.ok 9)
  refine ⟨hboth.1 _ _ _ fun name hfree => ?_, hboth.2 "main" "u" _ _ _ rfl fun hfree => ?_⟩
  · obtain ⟨rfl, _⟩ := honly hfree
    rfl
  · exact absurd (honly hfree).1 (by decide)

end Fern
