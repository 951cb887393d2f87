import Fern.Proofs.AlphaExpr

/-!
# Runs in which a local name is called something else

In the renamed program a binder of an old name has a new one, and so have the
occurrences that it binds. Scopes are compared by looking names up: what is found
under the old name is found there under the old or under the new name, and which
of the two it is depends on the binder that is meant. A binder hides one of its
own name, so where a renamed binder and one of the old name are both in force, the
renamed program keeps apart what is one name in the other program. A function
captures both, though it reads only the one that is meant. For which functions this
is so is said by the names that are bound where they are written.
-/

namespace Fern

/-- An expression stands in a definition below binders of these names, the
innermost first. -/
inductive Program.Writes (program : Program) : List String → Expr → Prop
  | definition {name : String} {definition : Definition}
      (found : program.find? name = some definition) : Writes program [] definition.expr
  | part {names : List String} {e part : Expr} {binding : Option String}
      (whole : Writes program names e) (mem : (binding, part) ∈ e.parts) :
      Writes program (binding.toList ++ names) part

/-- The binders of renamed trees: they are the same, or the old name on one side
and the new one on the other. -/
def Renamed (old new : String) (name name' : String) : Prop :=
  name = name' ∨ name = old ∧ name' = new

/-- The same, where the new name is not in use before. -/
def FreshlyRenamed (old new : String) (name name' : String) : Prop :=
  name ≠ new ∧ Renamed old new name name'

/-- The old name stands for what it is sent to, other names but the new one for
themselves. -/
def NameMatch.sending (old new sent : String) : NameMatch := fun x x' =>
  x ≠ new ∧ x' = if x = old then sent else x

theorem NameMatch.eq_of_sending_old {old new x x' : String}
    (h : NameMatch.sending old new old x x') : x = x' :=
  (h.2.trans (ite_eq_right_iff.2 Eq.symm)).symm

/-- Below a binder of the old name this is sent to what the binder is called. -/
theorem NameMatch.sending_bind {old new sent name name' : String}
    (hname : FreshlyRenamed old new name name') (hsent : sent = old ∨ sent = new) :
    (NameMatch.sending old new sent).bind name name' =
      NameMatch.sending old new (if name = old then name' else sent) := by
  obtain ⟨hnew, hname⟩ := hname
  funext x x'
  simp only [bind, sending]
  by_cases hold : name = old
  · subst hold
    have hname' : name' = name ∨ name' = new := hname.imp Eq.symm (·.2)
    grind
  · obtain rfl : name = name' := hname.resolve_right fun h => hold h.1
    grind

section Renamed

variable (old new : String)

/-- Two scopes, of which the second belongs to the renamed program and binds these
names. What the names of the first stand for is bound to related values, and the
second binds nothing else, unless it has both the old name and the new one. -/
structure Scope.RenamedBy (values : Value → Value → Prop) (names : List String) (sent : String)
    (scope scope' : Scope) : Prop where
  sent_eq : sent = old ∨ sent = new ∧ (scope.find? old).isSome
  fresh : scope.find? new = none
  found {x x' : String} : NameMatch.sending old new sent x x' →
    Option.Rel values (scope.find? x) (scope'.find? x')
  bound {x' : String} : (scope'.find? x').isSome ↔ x' ∈ names
  only {x' : String} : x' ∈ names → (∃ x, NameMatch.sending old new sent x x') ∨
    old ∈ names ∧ new ∈ names

variable (program : Program)

/-- Two expressions differ by the renaming, and the second one stands in the renamed
program below binders of these names. The parameter of an entry, which has no value,
is not among them. -/
structure Expr.RenamedAt (names : List String) (unbound : Option String) (sent : String)
    (e e' : Expr) : Prop where
  alike : e.Alike (FreshlyRenamed old new) (NameMatch.sending old new sent) e'
  written : program.Writes (names ++ unbound.toList) e'

/-- Two functions differ by the renaming: in their parameters, in their bodies, and
in what they have captured, which is all that is bound where they are written. -/
def RenamedFunctions (values : Value → Value → Prop) (param : String) (captured : Scope)
    (body : Expr) (param' : String) (captured' : Scope) (body' : Expr) : Prop :=
  ∃ names unbound sent, FreshlyRenamed old new param param' ∧
    captured.RenamedBy old new values names sent captured' ∧
    body.RenamedAt old new program (param' :: names) unbound
      (if param = old then param' else sent) body'

/-- Two values differ at most in functions inside them, and these by the renaming. -/
inductive Value.RenamedTo : Value → Value → Prop
  | intro {v v' : Value} {inner : Value → Value → Prop}
      (hinner : ∀ {part part' : Value}, inner part part' → RenamedTo part part')
      (node : v.Paired Eq inner (RenamedFunctions old new program inner) v') : RenamedTo v v'

end Renamed

variable {old new : String} {program : Program}

/-! ## Places -/

theorem Expr.RenamedAt.node {names : List String} {unbound : Option String} {sent : String}
    {e e' : Expr} (h : e.RenamedAt old new program names unbound sent e')
    (hsent : sent = old ∨ sent = new) :
    e.Paired (Expr.RenamedAt old new program names unbound sent)
      (fun name name' part part' => FreshlyRenamed old new name name' ∧
        part.RenamedAt old new program (name' :: names) unbound
          (if name = old then name' else sent) part')
      (NameMatch.sending old new sent)
      (fun handle index handle' index' => handle = handle' ∧ index = index') e' := by
  refine h.alike.node.imp (fun _ hm ha => ⟨ha, h.written.part hm⟩) (fun _ hm ha => ?_)
    (fun _ => id) id
  refine ⟨ha.1, ?_, h.written.part hm⟩
  rw [← NameMatch.sending_bind ha.1 hsent]
  exact ha.2

/-! ## Scopes -/

namespace Scope.RenamedBy

variable {values : Value → Value → Prop} {names : List String} {sent : String}
  {scope scope' : Scope}

theorem mono {values' : Value → Value → Prop} (h : scope.RenamedBy old new values names sent scope')
    (hv : ∀ {v v'}, values v v' → values' v v') :
    scope.RenamedBy old new values' names sent scope' where
  sent_eq := h.sent_eq
  fresh := h.fresh
  found {x x'} hx := by
    have hfound := h.found hx
    generalize scope.find? x = found at hfound ⊢
    generalize scope'.find? x' = found' at hfound ⊢
    cases hfound with
    | none => exact .none
    | some hvalue => exact .some (hv hvalue)
  bound := h.bound
  only := h.only

theorem nil : Scope.RenamedBy old new values [] old [] [] where
  sent_eq := .inl rfl
  fresh := rfl
  found _ := .none
  bound := iff_of_false (fun h => by cases h) List.not_mem_nil
  only hx := absurd hx List.not_mem_nil

theorem sent_cases (h : scope.RenamedBy old new values names sent scope') :
    sent = old ∨ sent = new :=
  h.sent_eq.imp_right (·.1)

/-- A name that is bound on neither side is a name of the program, and the same. -/
theorem eq_of_unbound (h : scope.RenamedBy old new values names sent scope') {name name' : String}
    (hn : NameMatch.sending old new sent name name') (hnone : scope.find? name = none) :
    name = name' := by
  obtain ⟨_, rfl⟩ := hn
  by_cases hold : name = old
  · subst hold
    rcases h.sent_eq with rfl | ⟨_, hsome⟩
    · exact (if_pos rfl).symm
    · rw [hnone] at hsome
      cases hsome
  · exact (if_neg hold).symm

/-- If a name is bound again and what stood for it is not, this has the other one of
the old name and the new one. -/
theorem both_of_hidden (h : scope.RenamedBy old new values names sent scope') {x name' x' : String}
    (hname : FreshlyRenamed old new x name') (hx : NameMatch.sending old new sent x x')
    (hne : x' ≠ name') (hmem : x' ∈ names) : old ∈ name' :: names ∧ new ∈ name' :: names := by
  obtain ⟨_, rfl⟩ := hx
  rcases hname.2 with rfl | ⟨rfl, rfl⟩
  · by_cases hold : x = old
    · subst hold
      rw [if_pos rfl] at hne hmem
      obtain rfl := h.sent_cases.resolve_left hne
      exact ⟨List.mem_cons_self, List.mem_cons_of_mem _ hmem⟩
    · exact absurd (if_neg hold) hne
  · rw [if_pos rfl] at hne hmem
    obtain rfl := h.sent_cases.resolve_right hne
    exact ⟨List.mem_cons_of_mem _ hmem, List.mem_cons_self⟩

/-- One more binding, of which both sides may hide others. -/
theorem bind (h : scope.RenamedBy old new values names sent scope') {name name' : String}
    (hname : FreshlyRenamed old new name name') {v v' : Value} (hv : values v v') :
    (scope.bind name v).RenamedBy old new values (name' :: names)
      (if name = old then name' else sent) (scope'.bind name' v') where
  sent_eq := by
    by_cases hold : name = old
    · subst hold
      rw [if_pos rfl, find?_bind_self]
      rcases hname.2 with heq | ⟨_, heq⟩
      · exact .inl heq.symm
      · exact .inr ⟨heq, rfl⟩
    · rw [if_neg hold, find?_bind_of_ne _ _ (Ne.symm hold)]
      exact h.sent_eq
  fresh := by
    rw [find?_bind_of_ne _ _ hname.1.symm]
    exact h.fresh
  found {x x'} hx := by
    rw [← NameMatch.sending_bind hname h.sent_cases] at hx
    rcases hx with ⟨rfl, rfl⟩ | ⟨hne, hne', hx⟩
    · rw [find?_bind_self, find?_bind_self]
      exact .some hv
    · rw [find?_bind_of_ne _ _ hne, find?_bind_of_ne _ _ hne']
      exact h.found hx
  bound {x'} := by
    by_cases heq : x' = name'
    · subst heq
      rw [find?_bind_self]
      exact iff_of_true rfl List.mem_cons_self
    · rw [find?_bind_of_ne _ _ heq, List.mem_cons, or_iff_right heq]
      exact h.bound
  only {x'} hx := by
    rw [← NameMatch.sending_bind hname h.sent_cases]
    by_cases heq : x' = name'
    · exact .inl ⟨name, .inl ⟨rfl, heq⟩⟩
    have hmem : x' ∈ names := (List.mem_cons.1 hx).resolve_left heq
    rcases h.only hmem with ⟨x, hsent⟩ | ⟨hold, hnew⟩
    · by_cases hx' : x = name
      · subst hx'
        exact .inr (h.both_of_hidden hname hsent heq hmem)
      · exact .inl ⟨x, .inr ⟨hx', heq, hsent⟩⟩
    · exact .inr ⟨List.mem_cons_of_mem _ hold, List.mem_cons_of_mem _ hnew⟩

end Scope.RenamedBy

/-! ## Evaluation -/

theorem Value.RenamedTo.node {v v' : Value} (h : v.RenamedTo old new program v') :
    v.Paired Eq (Value.RenamedTo old new program)
      (RenamedFunctions old new program (Value.RenamedTo old new program)) v' := by
  cases h with
  | intro hinner node =>
      refine node.mono id hinner fun hfunctions => ?_
      obtain ⟨names, unbound, sent, hparam, hscopes, hbody⟩ := hfunctions
      exact ⟨names, unbound, sent, hparam, hscopes.mono hinner, hbody⟩

theorem Value.RenamedTo.of_node {v v' : Value}
    (node : v.Paired Eq (Value.RenamedTo old new program)
      (RenamedFunctions old new program (Value.RenamedTo old new program)) v') :
    v.RenamedTo old new program v' :=
  .intro id node

/-- Where no local name is bound, definitions differ by the renaming. -/
theorem Program.Alike.renamedAt {program' : Program}
    (h : program.Alike (FreshlyRenamed old new) (NameMatch.sending old new old) program')
    (name : String) :
    Option.Rel (fun definition definition' =>
      definition.expr.RenamedAt old new program' [] none old definition'.expr)
      (program.find? name) (program'.find? name) := by
  have hdefined := h.defined name
  generalize program.find? name = found at hdefined ⊢
  generalize hfound' : program'.find? name = found' at hdefined ⊢
  cases hdefined with
  | none => exact .none
  | some halike => exact .some ⟨halike, .definition hfound'⟩

section Evaluation

variable {context context' : Context}
  (hp : context.program.Alike (FreshlyRenamed old new) (NameMatch.sending old new old)
    context'.program)
include hp

theorem renamed_lookup {names : List String} {sent : String} {scope scope' : Scope}
    (hs : scope.RenamedBy old new (Value.RenamedTo old new context'.program) names sent scope')
    {name name' : String} (hn : NameMatch.sending old new sent name name') :
    (context.lookup scope name).Alike (Value.RenamedTo old new context'.program) Eq
      (context'.lookup scope' name') := by
  have hfound := hs.found hn
  generalize hv : scope.find? name = found at hfound
  generalize hv' : scope'.find? name' = found' at hfound
  cases hfound with
  | some hvalue =>
      rw [Context.lookup, Context.lookup, hv, hv']
      exact Run.Alike.pure hvalue
  | none =>
      obtain rfl := hs.eq_of_unbound hn hv
      exact Context.alike_lookup_of_defined hv hv' (hp.renamedAt name) (fun h => h.node (.inl rfl))
        (fun hbody => .of_node (.function ⟨[], none, old, hbody.1, .nil, hbody.2⟩))
        (fun id => .of_node (.builtin id)) fun _ => rfl

/-- Expressions that differ by the renaming are evaluated alike in scopes that do. -/
theorem relates_renamed (hf : context.files = context'.files) :
    context.Relates context' Eq
      (fun scope scope' e e' => ∃ names unbound sent,
        scope.RenamedBy old new (Value.RenamedTo old new context'.program) names sent scope' ∧
        e.RenamedAt old new context'.program names unbound sent e')
      (Value.RenamedTo old new context'.program) Eq where
  files := hf
  node h := by
    obtain ⟨names, unbound, sent, hs, he⟩ := h
    refine (he.node hs.sent_cases).mono (fun hpart => ⟨names, unbound, sent, hs, hpart⟩)
      (fun hpart v v' hv => ⟨_, _, _, hs.bind hpart.1 hv, hpart.2⟩) (renamed_lookup hp hs)
      fun hc => ?_
    obtain ⟨rfl, rfl⟩ := hc
    exact Context.alike_makeConstructor hp.types (fun _ _ => .of_node (.constructor rfl))
      (fun _ => rfl) _ _
  closure h := by
    obtain ⟨names, unbound, sent, hs, he⟩ := h
    cases he.node hs.sent_cases with
    | lambda hbody => exact .of_node (.function ⟨names, unbound, sent, hbody.1, hs, hbody.2⟩)
  value h := h.node.mono id id fun hfunctions w w' hw => by
    obtain ⟨names, unbound, sent, hparam, hs, hbody⟩ := hfunctions
    exact ⟨_, _, _, hs.bind hparam hw, hbody⟩
  unit := .of_node .unit
  integer n := .of_node (.integer n)
  string text := .of_node (.string text)
  builtin id := .of_node (.builtin id)
  tuple hitems := .of_node (.tuple hitems)
  variant hh hv := .of_node (.variant hh hv)
  noBranch _ hh := by rw [hh]
  fault _ := rfl

end Evaluation

/-- A program and the renamed one run alike from an entry whose parameter has kept
its name. -/
theorem renamed_runWith (context context' : Context)
    (hp : context.program.Alike (FreshlyRenamed old new) (NameMatch.sending old new old)
      context'.program)
    (hf : context.files = context'.files) (nesting : Except LimitFault Nat) {entry : String}
    (he : ∀ param body type definition param' body' type' definition',
      context.program.find? entry = some ⟨.lambda param body type, definition⟩ →
      context'.program.find? entry = some ⟨.lambda param' body' type', definition'⟩ →
      param = param') :
    (context.runWith (context.evalWithin nesting) entry).Alike
      (Value.RenamedTo old new context'.program) Eq
      (context'.runWith (context'.evalWithin nesting) entry) := by
  refine (Context.runWith_unless (hp.renamedAt entry) (fun h => h.node (.inl rfl))
    (fun {param body _ _ _ body' _ _} hfound hfound' hbody => ?_) fun _ => rfl).alike
  obtain rfl := he _ _ _ _ _ _ _ _ hfound hfound'
  have hsent : (if param = old then param else old) = old := ite_eq_right_iff.2 id
  rw [hsent] at hbody
  exact ((relates_renamed hp hf).evalWithin nesting [] [] body body'
    ⟨[], some param, old, .nil, hbody.2.alike, hbody.2.written⟩).unless

end Fern
