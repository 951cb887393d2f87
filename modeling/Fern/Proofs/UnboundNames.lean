import Fern.Proofs.EvalLimits
import Fern.Proofs.MatchSelection

/-!
# A name that no evaluation may read

`evalUnbound` is evaluation in which one name stands for nothing: a reference to it fails as
unbound, whatever is bound. Until that happens nothing is different. Here it is compared with
evaluation when the only binder of the name is the parameter of one function, and the body of that
function is what is evaluated, with nothing bound.

That function can be called on the way, and then its parameter has a value. But up to the first
reference to the parameter the call does what the whole evaluation does, so it comes to a call of
the same function in turn, and it ends by exceeding the limit and in no other way. So where the
evaluation ends with a reference to the name, there has been no such call.
-/

namespace Fern

/-! ## Evaluation without a name -/

namespace Context

/-- One step of evaluation in which a reference to a name fails. -/
def stepUnbound (context : Context) (name : String) (eval : Evaluator) : Evaluator
  | scope, .symbol other type =>
    if other = name then do
      context.note ("Evaluating: " ++ (Expr.symbol other type).kind)
      Run.fail (.unbound other)
    else context.step eval scope (.symbol other type)
  | scope, e => context.step eval scope e

/-- Evaluation within a limit in which a reference to a name fails. -/
def evalUnbound (context : Context) (name : String) : (limit : Nat) → Evaluator :=
  evalBy (context.stepUnbound name)

def evalUnboundWithin (context : Context) (name : String) : Except LimitFault Nat → Evaluator
  | .ok limit => context.evalUnbound name limit
  | .error fault => fun _ _ => throw (.refusedLimit fault)

variable {context : Context} {name : String} {eval : Evaluator} {scope : Scope} {e : Expr}

theorem stepUnbound_of_ne (h : ∀ type, e ≠ .symbol name type) :
    context.stepUnbound name eval scope e = context.step eval scope e := by
  cases e with
  | symbol other type =>
      refine if_neg fun heq => h type ?_
      rw [heq]
  | _ => rfl

theorem stepUnbound_symbol (type : TypeInfo) :
    context.stepUnbound name eval scope (.symbol name type) = (do
      context.note ("Evaluating: " ++ (Expr.symbol name type).kind)
      Run.fail (.unbound name)) := if_pos rfl

theorem steady_stepUnbound (context : Context) (name : String) :
    Steady (context.stepUnbound name) := by
  intro cut cut' eval eval' heval scope e
  by_cases h : ∃ type, e = .symbol name type
  · obtain ⟨type, rfl⟩ := h
    rw [stepUnbound_symbol, stepUnbound_symbol]
    exact (Run.Alike.note (Run.Alike.fail rfl)).unless
  · rw [stepUnbound_of_ne (not_exists.1 h), stepUnbound_of_ne (not_exists.1 h)]
    exact context.steady_step heval scope e

/-- Nothing is different until the name is referred to. -/
theorem eval_unless_unbound (context : Context) (name : String) (limit : Nat) (scope : Scope)
    (e : Expr) : (context.eval limit scope e).AlikeUnless (fun _ => False)
      (· = .failed (.unbound name)) Eq Eq (context.evalUnbound name limit scope e) := by
  rw [eval_eq_evalBy]
  refine evalBy_unless (fun scope scope' e e' => scope = scope' ∧ e = e') (fun _ => rfl)
    (fun heval scope scope' e e' he => ?_) limit scope scope e e ⟨rfl, rfl⟩
  obtain ⟨rfl, rfl⟩ := he
  by_cases h : ∃ type, e = .symbol name type
  · obtain ⟨type, rfl⟩ := h
    rw [stepUnbound_symbol]
    exact Run.AlikeUnless.note_right (Run.AlikeUnless.cut_right rfl)
  · rw [stepUnbound_of_ne (not_exists.1 h)]
    exact context.steady_step (fun scope e => heval scope scope e e ⟨rfl, rfl⟩) scope e

end Context

/-! ## What the name is bound to -/

/-- Two values differ at most in what functions inside them have captured for a name. -/
inductive Value.SameBesides (name : String) : Value → Value → Prop
  | intro {v v' : Value} {inner : Value → Value → Prop}
      (hinner : ∀ {part part' : Value}, inner part part' → SameBesides name part part')
      (node : v.Paired Eq inner (fun param captured body param' captured' body' =>
        param = param' ∧ body = body' ∧ ∀ other, other ≠ name →
          Option.Rel inner (captured.find? other) (captured'.find? other)) v') :
      SameBesides name v v'

/-- Two scopes differ at most in what a name is bound to. -/
def Scope.SameBesides (name : String) (scope scope' : Scope) : Prop :=
  ∀ other, other ≠ name →
    Option.Rel (Value.SameBesides name) (scope.find? other) (scope'.find? other)

section SameBesides

variable {name : String}

theorem Value.SameBesides.node {v v' : Value} (h : v.SameBesides name v') :
    v.Paired Eq (SameBesides name) (fun param captured body param' captured' body' =>
      param = param' ∧ body = body' ∧ Scope.SameBesides name captured captured') v' := by
  cases h with
  | intro hinner node =>
      refine node.mono id hinner fun hf => ⟨hf.1, hf.2.1, fun other hne => ?_⟩
      exact rel_option_mono (hf.2.2 other hne) fun _ _ => hinner

theorem Value.SameBesides.of_node {v v' : Value}
    (node : v.Paired Eq (SameBesides name) (fun param captured body param' captured' body' =>
      param = param' ∧ body = body' ∧ Scope.SameBesides name captured captured') v') :
    v.SameBesides name v' :=
  .intro id node

theorem Scope.SameBesides.nil : Scope.SameBesides name [] [] := fun _ _ => .none

theorem Scope.SameBesides.bind {scope scope' : Scope} (h : Scope.SameBesides name scope scope')
    (param : String) {v v' : Value} (hv : v.SameBesides name v') :
    Scope.SameBesides name (scope.bind param v) (scope'.bind param v') := by
  intro other hne
  by_cases hp : other = param
  · subst hp
    rw [Scope.find?_bind_self, Scope.find?_bind_self]
    exact .some hv
  · rw [Scope.find?_bind_of_ne _ _ hp, Scope.find?_bind_of_ne _ _ hp]
    exact h other hne

theorem relatesValues_sameBesides (context : Context) (name : String) :
    context.RelatesValues context Eq
      (fun scope scope' e e' => e = e' ∧ Scope.SameBesides name scope scope')
      (Value.SameBesides name) Eq where
  files := rfl
  closure h := by
    obtain ⟨heq, h⟩ := h
    obtain ⟨rfl, rfl, rfl⟩ := Expr.lambda.inj heq
    exact .of_node (.function ⟨rfl, rfl, h⟩)
  value h := h.node.mono id id fun hf w w' hw => by
    obtain ⟨rfl, rfl, hs⟩ := hf
    exact ⟨rfl, hs.bind _ hw⟩
  unit := .of_node .unit
  integer n := .of_node (.integer n)
  string text := .of_node (.string text)
  builtin id := .of_node (.builtin id)
  tuple hitems := .of_node (.tuple hitems)
  variant hh hv := .of_node (.variant hh hv)
  noBranch _ hh := by rw [hh]
  fault _ := rfl

/-- A binding of the name does not matter where it may not be read. -/
theorem Context.evalUnbound_alike (context : Context) (limit : Nat) (scope scope' : Scope)
    (e : Expr) (h : Scope.SameBesides name scope scope') :
    (context.evalUnbound name limit scope e).Alike (Value.SameBesides name) Eq
      (context.evalUnbound name limit scope' e) := by
  have hvalues := relatesValues_sameBesides context name
  refine (evalBy_unless (fun scope scope' e e' => e = e' ∧ Scope.SameBesides name scope scope')
    (fun _ => rfl) (fun heval scope scope' e e' he => ?_) limit scope scope' e e ⟨rfl, h⟩).alike
  obtain ⟨rfl, hs⟩ := id he
  by_cases hsymbol : ∃ type, e = .symbol name type
  · obtain ⟨type, rfl⟩ := hsymbol
    rw [stepUnbound_symbol, stepUnbound_symbol]
    exact (Run.Alike.note (Run.Alike.fail rfl)).unless
  · rw [stepUnbound_of_ne (not_exists.1 hsymbol), stepUnbound_of_ne (not_exists.1 hsymbol)]
    refine hvalues.step heval he (Expr.paired_self e (fun _ _ => ⟨rfl, hs⟩)
      (fun param _ _ v v' hv => ⟨rfl, hs.bind param hv⟩) (fun other type heq => ?_)
      fun handle index => ?_)
    · refine alike_lookup_of_rel (fun _ _ => .of_node (.function ⟨rfl, rfl, .nil⟩)) hvalues.builtin
        (hs other fun hother => hsymbol ⟨type, hother ▸ heq⟩)
    · exact alike_makeConstructor rfl (fun _ _ => .of_node (.constructor rfl)) (fun _ => rfl) _ _

end SameBesides

/-! ## The only binder of the name -/

/-- No part of an expression binds a name. -/
def Expr.NeverBinds (name : String) (e : Expr) : Prop :=
  e.All fun node => ∀ part ∈ node.parts, part.1 ≠ some name

/-- What may be known of a function when the name is the parameter of one function only: it is that
function, which has captured nothing, or the name is nowhere bound in it. -/
inductive BindsOnlyIn (name : String) (entry : Expr) : String → Scope → Expr → Prop
  | entry : BindsOnlyIn name entry name [] entry
  | other {param : String} {captured : Scope} {body : Expr} (hparam : param ≠ name)
      (hcaptured : name ∉ captured.map (·.1)) (hbody : body.NeverBinds name) :
      BindsOnlyIn name entry param captured body

/-- So it is of every function inside a value. -/
inductive Value.BindsOnlyIn (name : String) (entry : Expr) : Value → Prop
  | intro {v : Value}
      (here : ∀ {param captured body}, v = .function param captured body →
        Fern.BindsOnlyIn name entry param captured body)
      (below : ∀ part ∈ v.parts, BindsOnlyIn name entry part) : BindsOnlyIn name entry v

/-- The name is not bound, and in the values that are it is bound in one function only. -/
structure Scope.Lacks (name : String) (entry : Expr) (scope : Scope) : Prop where
  names : name ∉ scope.map (·.1)
  values : ∀ v ∈ scope.map (·.2), v.BindsOnlyIn name entry

/-- The name is undefined, and in the definitions it is the parameter of one function only. -/
structure Program.BindsOnlyIn (name : String) (entry : Expr) (program : Program) : Prop where
  undefined : program.find? name = none
  body : entry.NeverBinds name
  functions {f param : String} {body : Expr} {type definition : TypeInfo} :
    program.find? f = some ⟨.lambda param body type, definition⟩ →
      Fern.BindsOnlyIn name entry param [] body

section BindsOnlyIn

variable {name : String} {entry : Expr}

namespace Value.BindsOnlyIn

theorem part {v part : Value} (h : v.BindsOnlyIn name entry) (hm : part ∈ v.parts) :
    part.BindsOnlyIn name entry := by
  cases h with
  | intro _ below => exact below _ hm

theorem leaf {v : Value} (hf : ∀ param captured body, v ≠ .function param captured body)
    (hp : v.parts = []) : v.BindsOnlyIn name entry :=
  .intro (fun h => absurd h (hf _ _ _)) fun _ hm => absurd (hp ▸ hm) List.not_mem_nil

theorem function {param : String} {captured : Scope} {body : Expr}
    (h : Fern.BindsOnlyIn name entry param captured body)
    (hc : ∀ v ∈ captured.map (·.2), v.BindsOnlyIn name entry) :
    (Value.function param captured body).BindsOnlyIn name entry := by
  refine .intro (fun heq => ?_) hc
  cases heq
  exact h

theorem constructor (handle : TypeHandle) (index : Int) :
    (Value.constructor handle index).BindsOnlyIn name entry :=
  .leaf (fun _ _ _ => nofun) rfl

theorem builtin (id : String) : (Value.builtin id).BindsOnlyIn name entry :=
  .leaf (fun _ _ _ => nofun) rfl

end Value.BindsOnlyIn

theorem Scope.Lacks.nil : Scope.Lacks name entry [] :=
  ⟨List.not_mem_nil, fun _ hm => absurd hm List.not_mem_nil⟩

theorem Scope.Lacks.bind {scope : Scope} (h : Scope.Lacks name entry scope) {param : String}
    (hparam : param ≠ name) {v : Value} (hv : v.BindsOnlyIn name entry) :
    Scope.Lacks name entry (scope.bind param v) := by
  refine ⟨fun hm => ?_, List.forall_mem_cons.2 ⟨hv, h.values⟩⟩
  exact (List.mem_cons.1 hm).elim (fun heq => hparam heq.symm) h.names

theorem Scope.find?_of_not_mem {scope : Scope} (h : name ∉ scope.map (·.1)) :
    scope.find? name = none := by
  cases hfound : scope.find? name with
  | none => rfl
  | some v => exact absurd (List.mem_map_of_mem (mem_of_lookup hfound)) h

/-- The two ways in which an expression comes to be evaluated: the name is not bound where it is
evaluated, or the expression is the entry in a call of it. -/
inductive Reached (name : String) (entry : Expr) : Scope → Expr → Prop
  | unbound {scope : Scope} {e : Expr} (hscope : Scope.Lacks name entry scope)
      (he : e.NeverBinds name) : Reached name entry scope e
  | called (w : Value) : Reached name entry (Scope.bind [] name w) entry

theorem relatesValues_bindsOnlyIn (context : Context) (hentry : ¬entry.isLambda) :
    context.RelatesValues context Eq
      (fun scope scope' e e' => scope = scope' ∧ e = e' ∧ Reached name entry scope e)
      (fun v v' => v = v' ∧ v.BindsOnlyIn name entry) Eq where
  files := rfl
  closure h := by
    obtain ⟨rfl, heq, h⟩ := h
    obtain ⟨rfl, rfl, rfl⟩ := Expr.lambda.inj heq
    refine ⟨rfl, ?_⟩
    cases h with
    | unbound hscope he =>
        refine .function (.other (fun hparam => ?_) hscope.names (he.part List.mem_cons_self))
          hscope.values
        exact he.here _ List.mem_cons_self (congrArg some hparam)
    | called w => exact absurd rfl hentry
  value {v v'} h := by
    obtain ⟨rfl, h⟩ := h
    cases v with
    | unit => exact .unit
    | integer n => exact .integer n
    | string text => exact .string text
    | tuple items => exact .tuple (List.forall₂_same.2 fun item hm => ⟨rfl, h.part hm⟩)
    | function param captured body =>
        refine .function fun w w' hw => ?_
        obtain ⟨rfl, hw⟩ := hw
        refine ⟨rfl, rfl, ?_⟩
        cases h with
        | intro here below =>
            cases here rfl with
            | entry => exact .called w
            | other hparam hcaptured hbody =>
                exact .unbound (Scope.Lacks.bind ⟨hcaptured, below⟩ hparam hw) hbody
    | variant handle index payload => exact .variant rfl ⟨rfl, h.part List.mem_cons_self⟩
    | constructor handle index => exact .constructor rfl
    | builtin id => exact .builtin id
    | other typeName content => exact .other typeName content
  unit := ⟨rfl, .leaf (fun _ _ _ => nofun) rfl⟩
  integer _ := ⟨rfl, .leaf (fun _ _ _ => nofun) rfl⟩
  string _ := ⟨rfl, .leaf (fun _ _ _ => nofun) rfl⟩
  builtin id := ⟨rfl, .builtin id⟩
  tuple {items items'} hitems := by
    have hsame : items = items' := by
      rw [← List.forall₂_eq_eq_eq]
      exact hitems.imp fun _ _ h => h.1
    refine ⟨congrArg _ hsame, .intro nofun fun item hm => ?_⟩
    subst hsame
    exact (List.forall₂_same.1 hitems item hm).2
  variant hh hv := by
    obtain ⟨rfl, hv⟩ := hv
    refine ⟨congrArg (Value.variant · _ _) hh, .intro nofun fun part hm => ?_⟩
    obtain rfl := List.mem_singleton.1 hm
    exact hv
  noBranch _ hh := by rw [hh]
  fault _ := rfl

/-- One step where the name is not bound. A reference to it fails with and without a rule for it,
because nothing else gives it a meaning. -/
theorem step_unless_called {context : Context} (hp : context.program.BindsOnlyIn name entry)
    (hentry : ¬entry.isLambda) {cut : Fault → Prop} {eval eval' : Evaluator}
    (heval : ∀ scope scope' e e', scope = scope' ∧ e = e' ∧ Reached name entry scope e →
      (eval scope e).AlikeUnless (fun _ => False) cut
        (fun v v' => v = v' ∧ v.BindsOnlyIn name entry) Eq (eval' scope' e'))
    {scope : Scope} {e : Expr} (hscope : Scope.Lacks name entry scope) (he : e.NeverBinds name) :
    (context.step eval scope e).AlikeUnless (fun _ => False) cut
      (fun v v' => v = v' ∧ v.BindsOnlyIn name entry) Eq
      (context.stepUnbound name eval' scope e) := by
  by_cases hsymbol : ∃ type, e = .symbol name type
  · obtain ⟨type, rfl⟩ := hsymbol
    have hlookup : (context.lookup scope name).Alike
        (fun v v' => v = v' ∧ v.BindsOnlyIn name entry) Eq (Run.fail (.unbound name)) := by
      rw [Context.lookup, Scope.find?_of_not_mem hscope.names, hp.undefined]
      exact Run.Alike.fail rfl
    rw [Context.stepUnbound_symbol]
    exact hlookup.note.unless
  · rw [Context.stepUnbound_of_ne (not_exists.1 hsymbol)]
    refine (relatesValues_bindsOnlyIn context hentry).step heval ⟨rfl, rfl, .unbound hscope he⟩
      (Expr.paired_self e (fun part hm => ⟨rfl, rfl, .unbound hscope (he.part hm)⟩)
        (fun param part hm v v' hv => ?_) (fun other _ _ => ?_) fun handle index => ?_)
    · obtain ⟨rfl, hv⟩ := hv
      refine ⟨rfl, rfl, .unbound (hscope.bind (fun heq => ?_) hv) (he.part hm)⟩
      exact he.here _ hm (congrArg some heq)
    · have hends : (context.lookup scope other).Ends (Value.BindsOnlyIn name entry)
          fun _ => True :=
        Context.lookup_ends (fun _ => trivial)
          (fun binding hm => hscope.values _ (List.mem_map_of_mem hm))
          (fun _ _ _ _ hfound =>
            .function (hp.functions hfound) fun _ hm => absurd hm List.not_mem_nil) .builtin
      exact (context.lookup_alike_self scope other).and_ends hends
    · exact Context.alike_makeConstructor rfl (fun _ _ => ⟨rfl, .constructor _ _⟩) (fun _ => rfl)
        handle index

/-- Below a limit within which the entry always exceeds it, a call of the entry does so too. -/
theorem eval_unless_called {context : Context} (hp : context.program.BindsOnlyIn name entry)
    (hentry : ¬entry.isLambda) {bound : Nat}
    (hbound : ∀ limit < bound,
      (context.evalUnbound name limit [] entry).Ends (fun _ => False) (· = .failed .nesting))
    {limit : Nat} (hlimit : limit ≤ bound) {scope : Scope} {e : Expr}
    (hscope : Scope.Lacks name entry scope) (he : e.NeverBinds name) :
    (context.eval limit scope e).AlikeUnless (fun _ => False) (· = .failed .nesting)
      (fun v v' => v = v' ∧ v.BindsOnlyIn name entry) Eq
      (context.evalUnbound name limit scope e) := by
  induction limit generalizing scope e with
  | zero => exact (Run.Alike.fail rfl).unless
  | succ limit ih =>
      refine step_unless_called hp hentry (fun scope scope' e e' h => ?_) hscope he
      obtain ⟨rfl, rfl, h⟩ := h
      cases h with
      | unbound hscope he => exact ih (by omega) hscope he
      | called w =>
          -- The parameter has a value here, but nothing reads it before the limit is exceeded.
          have hsame : Scope.SameBesides name (Scope.bind [] name w) [] := fun other hother => by
            rw [Scope.find?_bind_of_ne _ _ hother]
            exact .none
          have hcall := context.evalUnbound_alike limit _ _ entry hsame
          exact Run.AlikeUnless.of_cut_right (hcall.ends_left (hbound limit (by omega)))

/-- An entry, evaluated with nothing bound, does what it does if its parameter may not be read. -/
theorem eval_alike_evalUnbound {context : Context}
    (hp : context.program.BindsOnlyIn name entry) (limit : Nat) :
    (context.eval limit [] entry).Alike Eq Eq (context.evalUnbound name limit [] entry) := by
  have hsteady : Steady (context.stepUnbound name) := context.steady_stepUnbound name
  induction limit using Nat.strongRecOn with
  | ind limit ih =>
  by_cases hlambda : entry.isLambda
  · -- Nothing is evaluated inside.
    cases limit with
    | zero => exact Run.Alike.fail rfl
    | succ limit =>
        cases entry with
        | lambda param body type => exact Run.Alike.note (Run.Alike.pure rfl)
        | _ => cases hlambda
  rcases (hsteady.self limit [] entry).ends_or (· = .failed (.unbound name)) with hread | hunread
  · by_cases hdeep : ∀ limit' < limit,
      (context.evalUnbound name limit' [] entry).Ends (fun _ => False) (· = .failed .nesting)
    · -- No call of the entry has come back, so the parameter has not had a value.
      have hends : (context.evalUnbound name limit [] entry).Ends (fun _ => True)
          (¬ · = .failed .nesting) := by
        refine hread.mono (fun _ => False.elim) ?_
        rintro f rfl
        exact nofun
      have hcalls := eval_unless_called hp hlambda hdeep (Nat.le_refl _) .nil hp.body
      exact (hcalls.uncut (Run.ends_uncut _) hends).mono (fun _ _ h => h.1) fun _ _ => id
    · -- The evaluation ends in the same way within a smaller limit.
      obtain ⟨limit', h⟩ := not_forall.1 hdeep
      obtain ⟨hlt, hnot⟩ := Classical.not_imp.1 h
      have hends := ((hsteady.self limit' [] entry).ends_or _).resolve_left hnot
      have hsmall := ih limit' hlt
      have hlarger := Steady.within_larger context.steady_step (Nat.le_of_lt hlt) [] entry
      rw [← Context.eval_eq_evalBy, ← Context.eval_eq_evalBy] at hlarger
      refine (hlarger.uncut (hsmall.ends_left hends) (Run.ends_uncut _)).symm.trans
        (hsmall.trans ?_)
      exact (hsteady.within_larger (Nat.le_of_lt hlt) [] entry).uncut hends (Run.ends_uncut _)
  · exact (context.eval_unless_unbound name limit [] entry).uncut (Run.ends_uncut _) hunread

/-- An entry runs as if a name could not be read, if the name is bound as its parameter only. -/
theorem runWith_alike_evalUnbound {context : Context} {f : String}
    (hp : ∀ {param body type definition},
      context.program.find? f = some ⟨.lambda param body type, definition⟩ →
        context.program.BindsOnlyIn name body) (nesting : Except LimitFault Nat) :
    (context.runWith (context.evalWithin nesting) f).Alike Eq Eq
      (context.runWith (context.evalUnboundWithin name nesting) f) := by
  rw [Context.runWith, Context.runWith]
  split
  · exact Run.Alike.fail rfl
  · next param body type definition hf =>
    have hbody : (context.evalWithin nesting [] body).Alike Eq Eq
        (context.evalUnboundWithin name nesting [] body) := by
      cases nesting with
      | ok limit => exact eval_alike_evalUnbound (hp hf) limit
      | error fault => exact Run.Alike.throw rfl
    refine Run.Alike.note (hbody.bind fun v v' hv => ?_)
    subst hv
    exact Run.Alike.note (Run.Alike.pure rfl)
  · exact Run.Alike.fail rfl

end BindsOnlyIn

end Fern
