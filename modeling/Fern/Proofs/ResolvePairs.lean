import Fern.Proofs.EvalPairs
import Fern.Proofs.ResolvedProgram

/-!
# Two resolutions side by side

`Matches` says of two steps of resolution that both accept, with results that go
together, or that both refuse. It passes through the ways in which steps are put
together. `Term.Paired` is to trees as they are written what
`Expr.Paired` is to resolved ones: two nodes of one form, with the names that
they bind for each part. What a node means apart from its parts is a matter of
the types that a program knows.
-/

namespace Fern

section Matches

variable {ε ε' α α' β β' : Type}

/-- If the first step accepts then the second does, and the results are
related. -/
def Follows (result : α → α' → Prop) (x : Except ε α) (x' : Except ε' α') : Prop :=
  ∀ a, x = .ok a → ∃ a', x' = .ok a' ∧ result a a'

/-- Both steps accept with related results, or both refuse. -/
inductive Matches (result : α → α' → Prop) : Except ε α → Except ε' α' → Prop
  | ok {a : α} {a' : α'} (h : result a a') : Matches result (.ok a) (.ok a')
  | error {e : ε} {e' : ε'} : Matches result (.error e) (.error e')

variable {result : α → α' → Prop}

theorem Matches.follows {x : Except ε α} {x' : Except ε' α'} (h : Matches result x x') :
    Follows result x x' := by
  intro a ha
  cases h with
  | ok h =>
      cases ha
      exact ⟨_, rfl, h⟩
  | error => cases ha

/-- Either both steps accept or none. -/
theorem Matches.accepts_iff {x : Except ε α} {x' : Except ε' α'} (h : Matches result x x') :
    (∃ a, x = .ok a) ↔ ∃ a', x' = .ok a' := by
  cases h with
  | ok => exact ⟨fun _ => ⟨_, rfl⟩, fun _ => ⟨_, rfl⟩⟩
  | error =>
      constructor
      · rintro ⟨_, ha⟩
        cases ha
      · rintro ⟨_, ha⟩
        cases ha

/-- Two steps match if the second follows the first and accepts nothing else. -/
theorem Matches.of_follows {x : Except ε α} {x' : Except ε' α'} (h : Follows result x x')
    (haccepts : ∀ a', x' = .ok a' → ∃ a, x = .ok a) : Matches result x x' := by
  cases x with
  | ok a =>
      obtain ⟨a', rfl, ha⟩ := h a rfl
      exact .ok ha
  | error e =>
      cases x' with
      | ok a' =>
          obtain ⟨a, ha⟩ := haccepts a' rfl
          cases ha
      | error e' => exact .error

theorem Matches.trans {ε'' α'' : Type} {result' : α' → α'' → Prop} {x : Except ε α}
    {x' : Except ε' α'} {x'' : Except ε'' α''} (h : Matches result x x')
    (h' : Matches result' x' x'') :
    Matches (fun a a'' => ∃ a', result a a' ∧ result' a' a'') x x'' := by
  cases h with
  | ok ha =>
      cases h' with
      | ok ha' => exact .ok ⟨_, ha, ha'⟩
  | error =>
      cases h' with
      | error => exact .error

theorem Matches.bind {mid : β → β' → Prop} {x : Except ε β} {x' : Except ε' β'}
    {next : β → Except ε α} {next' : β' → Except ε' α'} (h : Matches mid x x')
    (hnext : ∀ b b', mid b b' → Matches result (next b) (next' b')) :
    Matches result (x >>= next) (x' >>= next') := by
  cases h with
  | ok h => exact hnext _ _ h
  | error => exact .error

theorem Matches.mono {result' : α → α' → Prop} {x : Except ε α} {x' : Except ε' α'}
    (h : Matches result x x') (hr : ∀ a a', result a a' → result' a a') :
    Matches result' x x' := by
  cases h with
  | ok h => exact .ok (hr _ _ h)
  | error => exact .error

/-- The same step on both sides. -/
theorem Matches.same {x : Except ε α} : Matches Eq x x := by
  cases x with
  | ok a => exact .ok rfl
  | error e => exact .error

theorem Matches.passesThrough :
    @PassesThrough (Except ε) (Except ε') _ _ fun _ _ => Matches where
  result := .ok
  sequence := .bind

end Matches

/-! ## Pairs of nodes -/

section Nodes

variable (inner : Term → Term → Prop) (under : List (String × String) → Term → Term → Prop)

/-- Two arms for one constructor: both capture, or neither does and their
bindings are the same. -/
inductive Arm.Paired : Arm Term → Arm Term → Prop
  | plain {constructor : String} {binding : Option String} {body body' : Term}
      (hnone : captureOf binding = none) (hbody : under [] body body') :
      Paired ⟨constructor, binding, body⟩ ⟨constructor, binding, body'⟩
  | capture {constructor name name' : String} {body body' : Term} (hname : name ≠ "_")
      (hname' : name' ≠ "_") (hbody : under [(name, name')] body body') :
      Paired ⟨constructor, some name, body⟩ ⟨constructor, some name', body'⟩

variable (names : String → String → Prop)

/-- Two nodes of one form with the same data. The parameters relate the parts in
the scope of the nodes, the parts under pairs of names that the nodes bind, and
identifiers. -/
inductive Term.Paired : Term → Term → Prop
  | integer (n : Int) : Paired (.integer n) (.integer n)
  | string (text : String) : Paired (.string text) (.string text)
  | boolean (b : Bool) : Paired (.boolean b) (.boolean b)
  | unit : Paired .unit .unit
  | identifier {name name' : String} (hname : names name name') :
      Paired (.identifier name) (.identifier name')
  | constructor (name : String) : Paired (.constructor name) (.constructor name)
  | tuple {items items' : List Term} (hitems : List.Forall₂ inner items items') :
      Paired (.tuple items) (.tuple items')
  | record {fields fields' : List (String × Term)}
      (hfields : List.Forall₂ (fun field field' => field.1 = field'.1 ∧ inner field.2 field'.2)
        fields fields') : Paired (.record fields) (.record fields')
  | field {target target' : Term} {name : String} (htarget : inner target target') :
      Paired (.field target name) (.field target' name)
  | item {target target' : Term} {index : Int} (htarget : inner target target') :
      Paired (.item target index) (.item target' index)
  | apply {callee callee' : Term} {args args' : List Term} (hcallee : inner callee callee')
      (hargs : List.Forall₂ inner args args') : Paired (.apply callee args) (.apply callee' args')
  | binary {op : Operator} {lhs lhs' rhs rhs' : Term} (hlhs : inner lhs lhs')
      (hrhs : inner rhs rhs') : Paired (.binary op lhs rhs) (.binary op lhs' rhs')
  | sequence {first first' rest rest' : Term} (hfirst : inner first first')
      (hrest : under [(sequenceName, sequenceName)] rest rest') :
      Paired (.sequence first rest) (.sequence first' rest')
  | letIn {name name' : String} {rhs rhs' body body' : Term} (hrhs : inner rhs rhs')
      (hbody : under [(name, name')] body body') :
      Paired (.letIn name rhs body) (.letIn name' rhs' body')
  | conditional {cond cond' cons cons' alt alt' : Term} (hcond : inner cond cond')
      (hcons : inner cons cons') (halt : inner alt alt') :
      Paired (.conditional cond cons alt) (.conditional cond' cons' alt')
  | caseOf {matchee matchee' : Term} {arms arms' : List (Arm Term)}
      (hmatchee : inner matchee matchee')
      (harms : List.Forall₂ (Arm.Paired under) arms arms') :
      Paired (.caseOf matchee arms) (.caseOf matchee' arms')
  | lambda {pairs : List (String × String)} {body body' : Term}
      (hbody : under pairs body body') :
      Paired (.lambda (pairs.map (·.1)) body) (.lambda (pairs.map (·.2)) body')
  | other (tag : String) (content : Datum) : Paired (.other tag content) (.other tag content)

end Nodes

/-- The names that a node binds for some of its parts. -/
def Term.binders : Term → List String
  | .letIn name _ _ => [name]
  | .lambda params _ => params
  | .caseOf _ arms => arms.filterMap fun arm => captureOf arm.binding
  | .sequence .. => [sequenceName]
  | _ => []

theorem captureOf_some {name : String} (h : name ≠ "_") : captureOf (some name) = some name := by
  rw [captureOf, Option.filter_some_pos]
  exact bne_iff_ne.2 h

/-- An arm captures a name other than the underscore, or nothing. -/
theorem captureOf_cases (binding : Option String) :
    captureOf binding = none ∨ ∃ name, name ≠ "_" ∧ binding = some name := by
  cases binding with
  | none => exact .inl rfl
  | some name =>
      by_cases h : name = "_"
      · subst h
        exact .inl rfl
      · exact .inr ⟨name, h, rfl⟩

/-- What is known of pairs of parts may use that they are parts, and that the
names bound for them are names that the nodes bind. -/
theorem Term.Paired.imp {inner inner' : Term → Term → Prop}
    {under under' : List (String × String) → Term → Term → Prop}
    {names names' : String → String → Prop} {t t' : Term} (h : t.Paired inner under names t')
    (hi : ∀ {a a'}, a ∈ t.parts → inner a a' → inner' a a')
    (hu : ∀ {pairs a a'}, a ∈ t.parts → (∀ pair ∈ pairs, pair.1 ∈ t.binders) →
      under pairs a a' → under' pairs a a')
    (hn : ∀ {n n'}, t = .identifier n → names n n' → names' n n') :
    t.Paired inner' under' names' t' := by
  cases h with
  | integer n => exact .integer n
  | string text => exact .string text
  | boolean b => exact .boolean b
  | unit => exact .unit
  | identifier hname => exact .identifier (hn rfl hname)
  | constructor name => exact .constructor name
  | tuple hitems => exact .tuple (forall₂_imp_mem hitems fun _ _ hm _ => hi hm)
  | record hfields =>
      refine .record (forall₂_imp_mem hfields fun field _ hm _ hf => ⟨hf.1, hi ?_ hf.2⟩)
      exact List.mem_map.2 ⟨field, hm, rfl⟩
  | field htarget => exact .field (hi List.mem_cons_self htarget)
  | item htarget => exact .item (hi List.mem_cons_self htarget)
  | apply hcallee hargs =>
      refine .apply (hi List.mem_cons_self hcallee) (forall₂_imp_mem hargs fun _ _ hm _ => hi ?_)
      exact List.mem_cons_of_mem _ hm
  | binary hlhs hrhs => exact .binary (hi (by simp [parts]) hlhs) (hi (by simp [parts]) hrhs)
  | sequence hfirst hrest =>
      refine .sequence (hi (by simp [parts]) hfirst) (hu (by simp [parts]) ?_ hrest)
      exact List.forall_mem_singleton.2 List.mem_cons_self
  | letIn hrhs hbody =>
      refine .letIn (hi (by simp [parts]) hrhs) (hu (by simp [parts]) ?_ hbody)
      exact List.forall_mem_singleton.2 List.mem_cons_self
  | conditional hcond hcons halt =>
      exact .conditional (hi (by simp [parts]) hcond) (hi (by simp [parts]) hcons)
        (hi (by simp [parts]) halt)
  | @caseOf matchee _ arms _ hmatchee harms =>
      refine .caseOf (hi List.mem_cons_self hmatchee)
        (forall₂_imp_mem harms fun arm _ hm _ ha => ?_)
      have hpart : arm.body ∈ (Term.caseOf matchee arms).parts :=
        List.mem_cons_of_mem _ (List.mem_map.2 ⟨arm, hm, rfl⟩)
      cases ha with
      | plain hnone hbody =>
          exact .plain hnone (hu hpart (fun _ hp => absurd hp List.not_mem_nil) hbody)
      | capture hname hname' hbody =>
          refine .capture hname hname' (hu hpart (List.forall_mem_singleton.2 ?_) hbody)
          exact List.mem_filterMap.2 ⟨_, hm, captureOf_some hname⟩
  | lambda hbody =>
      exact .lambda (hu List.mem_cons_self (fun pair hp => List.mem_map.2 ⟨pair, hp, rfl⟩) hbody)
  | other tag content => exact .other tag content

/-- Names paired with themselves. -/
def samePairs (names : List String) : List (String × String) := names.map fun name => (name, name)

@[simp] theorem samePairs_fst (names : List String) : (samePairs names).map (·.1) = names := by
  rw [samePairs, List.map_map]
  exact List.map_id names

@[simp] theorem samePairs_snd (names : List String) : (samePairs names).map (·.2) = names := by
  rw [samePairs, List.map_map]
  exact List.map_id names

theorem eq_of_mem_samePairs {names : List String} :
    ∀ pair ∈ samePairs names, pair.1 = pair.2 := by
  intro pair hp
  obtain ⟨name, _, rfl⟩ := List.mem_map.1 hp
  rfl

theorem Term.Paired.lambda_same {inner : Term → Term → Prop}
    {under : List (String × String) → Term → Term → Prop} {names : String → String → Prop}
    {params : List String} {body body' : Term}
    (h : under (samePairs params) body body') :
    (Term.lambda params body).Paired inner under names (.lambda params body') := by
  have hpaired : (Term.lambda ((samePairs params).map (·.1)) body).Paired inner under names
      (.lambda ((samePairs params).map (·.2)) body') := .lambda h
  rwa [samePairs_fst, samePairs_snd] at hpaired

/-- A node is paired with itself. -/
theorem Term.Paired.same (t : Term) :
    t.Paired Eq (fun pairs a a' => (∀ pair ∈ pairs, pair.1 = pair.2) ∧ a = a') Eq t := by
  have hone : ∀ name : String, ∀ pair ∈ [(name, name)], pair.1 = pair.2 := fun name =>
    List.forall_mem_singleton.2 rfl
  have harm : ∀ arm : Arm Term, Arm.Paired (fun pairs a a' =>
      (∀ pair ∈ pairs, pair.1 = pair.2) ∧ a = a') arm arm := by
    intro arm
    obtain ⟨head, binding, body⟩ := arm
    rcases captureOf_cases binding with hnone | ⟨name, hname, rfl⟩
    · exact .plain hnone ⟨fun _ hp => absurd hp List.not_mem_nil, rfl⟩
    · exact .capture hname hname ⟨hone name, rfl⟩
  cases t with
  | integer n => exact .integer n
  | string text => exact .string text
  | boolean b => exact .boolean b
  | unit => exact .unit
  | identifier name => exact .identifier rfl
  | constructor name => exact .constructor name
  | tuple items => exact .tuple (List.forall₂_same.2 fun _ _ => rfl)
  | record fields => exact .record (List.forall₂_same.2 fun _ _ => ⟨rfl, rfl⟩)
  | field target name => exact .field rfl
  | item target index => exact .item rfl
  | apply callee args => exact .apply rfl (List.forall₂_same.2 fun _ _ => rfl)
  | binary op lhs rhs => exact .binary rfl rfl
  | sequence first rest => exact .sequence rfl ⟨hone _, rfl⟩
  | letIn name rhs body => exact .letIn rfl ⟨hone name, rfl⟩
  | conditional cond cons alt => exact .conditional rfl rfl rfl
  | caseOf matchee arms => exact .caseOf rfl (List.forall₂_same.2 fun arm _ => harm arm)
  | lambda params body => exact .lambda_same ⟨eq_of_mem_samePairs, rfl⟩
  | other tag content => exact .other tag content

/-! ## What a node means apart from its parts -/

section Congr

variable {program program' : Program} (htypes : program.types = program'.types)
include htypes

theorem constructor?_congr (name : String) :
    program.constructor? name = program'.constructor? name := by
  simp only [Program.constructor?, Program.constructors, Program.handledTypes, htypes]

theorem records_congr : program.records = program'.records := by
  simp only [Program.records, htypes]

end Congr

/-- Two tables with the same keys give related entries, or no entry. -/
theorem rel_lookup {α α' : Type} {pair : α → α' → Prop} {table : List (String × α)}
    {table' : List (String × α')}
    (h : List.Forall₂ (fun entry entry' => entry.1 = entry'.1 ∧ pair entry.2 entry'.2)
      table table') (key : String) : Option.Rel pair (table.lookup key) (table'.lookup key) := by
  induction h with
  | nil => exact .none
  | cons hentry _ ih =>
      rw [List.lookup_cons, List.lookup_cons, hentry.1]
      split
      · exact .some hentry.2
      · exact ih

/-! ## What is done in order -/

/-- Two matches have named the same variants of related types so far. -/
structure ArmsSoFar.Paired (handles : TypeHandle → TypeHandle → Prop)
    (soFar soFar' : ArmsSoFar) : Prop where
  handle : Option.Rel handles soFar.handle soFar'.handle
  seen : soFar.seen = soFar'.seen

theorem ArmsSoFar.Paired.eq {soFar soFar' : ArmsSoFar} (h : soFar.Paired Eq soFar') :
    soFar = soFar' := by
  obtain ⟨handle, seen⟩ := soFar
  obtain ⟨handle', seen'⟩ := soFar'
  obtain ⟨hhandle, rfl⟩ := h
  cases hhandle with
  | none => rfl
  | some hh => rw [hh]

section PassesThrough

variable {steps : (α α' : Type) → (α → α' → Prop) → Except ResolveError α →
  Except ResolveError α' → Prop} (hsteps : PassesThrough steps)
include hsteps

/-- Values of a literal that go together do so in any order in which a record type
puts them. -/
theorem PassesThrough.inRecordOrder {result : Expr → Expr → Prop}
    {values values' : List (String × Except ResolveError Expr)}
    (h : List.Forall₂ (fun value value' => value.1 = value'.1 ∧
      steps Expr Expr result value.2 value'.2) values values') (record : RecordType) :
    steps (List Expr) (List Expr) (List.Forall₂ result) (inRecordOrder record values)
      (inRecordOrder record values') := by
  have hlisted : List.Forall₂ (steps Expr Expr result)
      (record.fieldNames.filterMap fun name => values.lookup name)
      (record.fieldNames.filterMap fun name => values'.lookup name) := by
    have hsame : List.Forall₂ (· = ·) record.fieldNames record.fieldNames := List.forall₂_refl _
    refine List.rel_filterMap (fun name name' hn => ?_) hsame
    subst hn
    exact rel_lookup h name
  exact hsteps.mapM hlisted fun _ _ hv => hv

/-- Arms for the same constructors, with bodies that go together, give branches for
the same variants, if what is found for their constructors goes together. -/
theorem PassesThrough.branchesFrom {env env' : Env} {handles : TypeHandle → TypeHandle → Prop}
    (harm : ∀ {soFar soFar'}, soFar.Paired handles soFar' → ∀ head,
      steps _ _ (fun info info' => handles info.handle info'.handle ∧ info.index = info'.index)
        (armFor env soFar head) (armFor env' soFar' head))
    {branch : Branch Expr → Branch Expr → Prop} {arms arms' : List ResolvedArm}
    (harms : List.Forall₂ (fun arm arm' => arm.constructor = arm'.constructor ∧
      ∀ index, steps _ _ (fun body body' => branch ⟨index, captureOf arm.binding, body⟩
        ⟨index, captureOf arm'.binding, body'⟩) arm.body arm'.body) arms arms')
    {soFar soFar' : ArmsSoFar} (hs : soFar.Paired handles soFar') :
    steps _ _ (fun found found' => found.1.Paired handles found'.1 ∧
        List.Forall₂ branch found.2 found'.2)
      (Fern.branchesFrom env soFar arms) (Fern.branchesFrom env' soFar' arms') := by
  induction harms generalizing soFar soFar' with
  | nil => exact hsteps.result ⟨hs, .nil⟩
  | cons ha _ ih =>
      rw [Fern.branchesFrom, Fern.branchesFrom, ← ha.1]
      refine hsteps.sequence (harm hs _) fun info info' hinfo => ?_
      refine hsteps.sequence (ha.2 info.index) fun body body' hbody => ?_
      refine hsteps.sequence (ih ⟨.some hinfo.1, ?_⟩) fun found found' hfound => ?_
      · dsimp only
        rw [hs.seen, hinfo.2]
      · exact hsteps.result ⟨hfound.1, .cons (hinfo.2 ▸ hbody) hfound.2⟩

end PassesThrough

section Environments

variable {env env' : Env} (htypes : env.program.types = env'.program.types)
include htypes

theorem recordFor_matches (names : List String) :
    Matches Eq (recordFor env names) (recordFor env' names) := by
  rw [recordFor, recordFor, records_congr htypes]
  split
  · exact .error
  · split
    · exact .same
    · exact .error
    · exact .error

theorem fieldFor_matches (target : TypeInfo) (name : String) :
    Matches Eq (fieldFor env target name) (fieldFor env' target name) := by
  simp only [fieldFor, records_congr htypes]
  split
  · exact .same
  · split
    · exact .error
    · exact .same
    · split
      · exact .same
      · exact .error

theorem armFor_matches {soFar soFar' : ArmsSoFar} (hs : soFar.Paired Eq soFar') (head : String) :
    Matches (fun info info' => info.handle = info'.handle ∧ info.index = info'.index)
      (armFor env soFar head) (armFor env' soFar' head) := by
  obtain rfl := hs.eq
  rw [armFor, armFor, constructor?_congr htypes]
  split
  · exact .error
  · split
    · exact .error
    · split
      · exact .error
      · exact .ok ⟨rfl, rfl⟩

/-- Arms for the same constructors, with matching bodies, give branches for the
same variants. -/
theorem branchesFor_matches {branch : Branch Expr → Branch Expr → Prop}
    {arms arms' : List ResolvedArm}
    (h : List.Forall₂ (fun arm arm' => arm.constructor = arm'.constructor ∧
      ∀ index, Matches (fun body body' => branch ⟨index, captureOf arm.binding, body⟩
        ⟨index, captureOf arm'.binding, body'⟩) arm.body arm'.body) arms arms') :
    Matches (List.Forall₂ branch) (branchesFor env arms) (branchesFor env' arms') := by
  refine (Matches.passesThrough.branchesFrom (armFor_matches htypes) h ⟨.none, rfl⟩).bind
    fun found found' hfound => ?_
  obtain ⟨all, branches⟩ := found
  obtain ⟨all', branches'⟩ := found'
  obtain ⟨hall, hbranches⟩ := hfound
  obtain rfl := hall.eq
  have hmissing : ∀ handle, missingVariants env handle all.seen =
      missingVariants env' handle all.seen := fun handle => by
    simp only [missingVariants, Program.typeDef?, htypes]
  dsimp only
  split
  · exact .error
  · rw [hmissing]
    split
    · exact .ok hbranches
    · exact .error

end Environments

end Fern
