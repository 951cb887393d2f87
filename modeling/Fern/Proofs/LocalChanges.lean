import Fern.Proofs.ProgramPairs

/-!
# Changes inside programs

Two programs may differ in places anywhere inside their expressions and still have the
same names in the same places. Whatever the change is, it is a relation between
expressions of one type that also holds of two expressions of one form if it holds of
their parts (`Expr.Local`). Such a relation comes out of resolution if it goes into it
everywhere below, and values that are the same but for the bodies of functions cannot
be told apart by one step of evaluation. What is left for each kind of change is the
place where it is made.
-/

namespace Fern

/-- Two expressions of one form, with the same names and related parts. -/
def Expr.Inside (related : Expr → Expr → Prop) (e e' : Expr) : Prop :=
  e.Paired related (fun name name' part part' => name = name' ∧ related part part') Eq
    (fun handle index handle' index' => handle = handle' ∧ index = index') e'

/-- A relation between expressions of one type that holds of two expressions of one
form if it holds of their parts, and of two functions only then. -/
structure Expr.Local (related : Expr → Expr → Prop) : Prop where
  type {e e' : Expr} : related e e' → e.type = e'.type
  node {e e' : Expr} : e.type = e'.type → e.Inside related e' → related e e'
  isLambda {e e' : Expr} : related e e' → e.isLambda = e'.isLambda
  function {e e' : Expr} : related e e' → e.isLambda = true → e.Inside related e'

/-- Two values are the same but for the bodies of functions, which are related. -/
inductive Value.SameBut (bodies : Expr → Expr → Prop) : Value → Value → Prop
  | intro {v v' : Value} {inner : Value → Value → Prop}
      (hinner : ∀ {part part' : Value}, inner part part' → SameBut bodies part part')
      (node : v.Paired Eq inner (fun param captured body param' captured' body' =>
        param = param' ∧ List.Forall₂ (fun binding binding' =>
          binding.1 = binding'.1 ∧ inner binding.2 binding'.2) captured captured' ∧
          bodies body body') v') : SameBut bodies v v'

/-- Two scopes bind the same names, in the same order, to values that are the same but
for bodies. -/
def Scope.SameBut (bodies : Expr → Expr → Prop) (scope scope' : Scope) : Prop :=
  List.Forall₂ (fun binding binding' =>
    binding.1 = binding'.1 ∧ binding.2.SameBut bodies binding'.2) scope scope'

/-- Two functions have the same name and parameters, and bodies that are related. -/
structure FunctionDecl.Changed (bodies : Term → Term → Prop) (decl decl' : FunctionDecl) :
    Prop where
  name : decl.name = decl'.name
  params : decl.params = decl'.params
  body : bodies decl.body decl'.body

/-- Two places in programs that know the same, with the same local names. -/
structure Env.Same (env env' : Env) : Prop where
  known : env.program.KnowsSame env'.program
  locals : env.locals = env'.locals

theorem Program.Paired.mono {related related' : Expr → Expr → Prop} {program program' : Program}
    (h : program.Paired related program') (hr : ∀ {e e'}, related e e' → related' e e') :
    program.Paired related' program' := by
  refine ⟨h.types, fun name => ?_⟩
  have hdefined := h.defined name
  generalize program.find? name = found at hdefined ⊢
  generalize program'.find? name = found' at hdefined ⊢
  cases hdefined with
  | none => exact .none
  | some he => exact .some (hr he)

section Values

variable {bodies : Expr → Expr → Prop} {v v' : Value}

theorem Value.SameBut.node (h : v.SameBut bodies v') :
    v.Paired Eq (Value.SameBut bodies) (fun param captured body param' captured' body' =>
      param = param' ∧ captured.SameBut bodies captured' ∧ bodies body body') v' := by
  cases h with
  | intro hinner node =>
      refine node.mono id hinner fun hf => ⟨hf.1, hf.2.1.imp fun _ _ hb => ?_, hf.2.2⟩
      exact ⟨hb.1, hinner hb.2⟩

theorem Value.SameBut.of_node
    (node : v.Paired Eq (Value.SameBut bodies) (fun param captured body param' captured' body' =>
      param = param' ∧ captured.SameBut bodies captured' ∧ bodies body body') v') :
    v.SameBut bodies v' :=
  .intro id node

theorem Scope.SameBut.bind {scope scope' : Scope} (h : scope.SameBut bodies scope') (name : String)
    (hv : v.SameBut bodies v') : (scope.bind name v).SameBut bodies (scope'.bind name v') :=
  .cons ⟨rfl, hv⟩ h

end Values

section Environments

variable {env env' : Env}

theorem Env.Same.withLocal (h : env.Same env') (name : String) :
    (env.withLocal name).Same (env'.withLocal name) :=
  ⟨h.known, congrArg (name :: ·) h.locals⟩

theorem Env.Same.withLocals (h : env.Same env') {pairs : List (String × String)}
    (hpairs : ∀ pair ∈ pairs, pair.1 = pair.2) :
    (env.withLocals (pairs.map (·.1))).Same (env'.withLocals (pairs.map (·.2))) := by
  have hnames : pairs.map (·.1) = pairs.map (·.2) := List.map_congr_left hpairs
  rw [hnames, Env.withLocals_eq, Env.withLocals_eq]
  exact ⟨h.known, congrArg ((pairs.map (·.2)).reverse ++ ·) h.locals⟩

end Environments

namespace Expr.Local

variable {related : Expr → Expr → Prop} (h : Expr.Local related)
include h

/-! ## Resolution -/

section Resolution

variable {env env' : Env}

theorem curry {pairs : List (String × String)} (hpairs : ∀ pair ∈ pairs, pair.1 = pair.2)
    {body body' : Expr} (hbody : related body body') :
    related (Fern.curry (pairs.map (·.1)) body) (Fern.curry (pairs.map (·.2)) body') := by
  induction pairs with
  | nil => exact hbody
  | cons pair rest ih =>
      obtain ⟨hpair, hrest⟩ := List.forall_mem_cons.1 hpairs
      exact h.node rfl (.lambda ⟨hpair, ih hrest⟩)

theorem congruent : Expr.Congruent related fun pairs e e' =>
    (∀ pair ∈ pairs, pair.1 = pair.2) ∧ related e e' where
  type := h.type
  node htype hnode :=
    h.node htype (hnode.mono id (fun hb => ⟨hb.1 _ List.mem_cons_self, hb.2⟩) False.elim id)
  curry hb := h.curry hb.1 hb.2

theorem resolveIdentifier (henv : env.Same env') (name : String) :
    Matches related (resolveIdentifier env name) (resolveIdentifier env' name) := by
  rw [Fern.resolveIdentifier, Fern.resolveIdentifier, henv.locals, henv.known.defined name]
  split
  · exact .ok (h.node rfl (.symbol rfl))
  · exact .error

/-- Trees of one form with the same names mean related expressions if their parts do. -/
theorem resolve {inner : Term → Term → Prop} {under : List (String × String) → Term → Term → Prop}
    {t t' : Term} (node : t.Paired inner under Eq t') (henv : env.Same env')
    (hinner : ∀ {part part' : Term}, inner part part' →
      Matches related (part.resolve env) (part'.resolve env'))
    (hpairs : ∀ {pairs : List (String × String)} {part part' : Term}, under pairs part part' →
      ∀ pair ∈ pairs, pair.1 = pair.2)
    (hunder : ∀ {pairs : List (String × String)} {part part' : Term}, under pairs part part' →
      Matches related (part.resolve (env.withLocals (pairs.map (·.1))))
        (part'.resolve (env'.withLocals (pairs.map (·.2))))) :
    Matches related (t.resolve env) (t'.resolve env') := by
  refine node.resolve h.congruent henv.known.types hinner (fun hp => ?_) fun hn => ?_
  · exact (hunder hp).mono fun _ _ hb => ⟨hpairs hp, hb⟩
  · exact hn ▸ h.resolveIdentifier henv _

variable {bodies : Term → Term → Prop}
  (hresolve : ∀ {t t' : Term} {env env' : Env}, bodies t t' → env.Same env' →
    Matches related (t.resolve env) (t'.resolve env'))
include hresolve

theorem resolveFunction {decl decl' : FunctionDecl} (hd : decl.Changed bodies decl')
    {program program' : Program} (hsame : program.KnowsSame program') :
    Matches (fun e e' => related e e' ∧ e.Inside related e') (decl.resolve program)
      (decl'.resolve program') := by
  obtain ⟨name, params, body⟩ := decl
  obtain ⟨name', params', body'⟩ := decl'
  obtain ⟨rfl, rfl, hbody⟩ := hd
  have henv : Env.Same { program, definition := some name }
      { program := program', definition := some name } := ⟨hsame, rfl⟩
  have hpairs := @eq_of_mem_samePairs params
  have hmeans := (hresolve hbody (henv.withLocals hpairs)).mono fun _ _ he => And.intro hpairs he
  have hmatches := FunctionDecl.resolve_matches h.congruent h.isLambda hmeans
  rw [samePairs_fst, samePairs_snd] at hmatches
  exact hmatches.mono fun _ _ he => ⟨he.1, h.function he.1 he.2⟩

/-- Declarations of functions with related bodies stand for paired programs, or
neither for one. -/
theorem ofDeclarations {decls decls' : List Declaration}
    (hd : List.Forall₂ (Declaration.Paired (FunctionDecl.Changed bodies)) decls decls') :
    Matches (Program.Paired fun e e' => related e e' ∧ e.Inside related e')
      (Program.ofDeclarations decls) (Program.ofDeclarations decls') :=
  Program.ofDeclarations_matches FunctionDecl.Changed.name
    (fun hd hsame => h.resolveFunction hresolve hd hsame)
    (fun _ _ => ⟨h.node rfl .builtin, .builtin⟩) hd

end Resolution

/-! ## Evaluation -/

section Evaluation

variable {context context' : Context}

theorem relatesValues (hf : context.files = context'.files) :
    context.RelatesValues context' Eq
      (fun scope scope' e e' => scope.SameBut related scope' ∧ related e e')
      (Value.SameBut related) Eq where
  files := hf
  closure he := by
    cases h.function he.2 rfl with
    | lambda hbody => exact .of_node (.function ⟨hbody.1, he.1, hbody.2⟩)
  value hv := hv.node.mono id id fun hf w w' hw => by
    obtain ⟨rfl, hs, hbody⟩ := hf
    exact ⟨hs.bind _ hw, hbody⟩
  unit := .of_node .unit
  integer n := .of_node (.integer n)
  string text := .of_node (.string text)
  builtin id := .of_node (.builtin id)
  tuple hitems := .of_node (.tuple hitems)
  variant hh hv := .of_node (.variant hh hv)
  noBranch _ hh := by rw [hh]
  fault _ := rfl

variable (hp : Program.Paired (Expr.Inside related) context.program context'.program)
  {scope scope' : Scope} (hs : scope.SameBut related scope')
include hp hs

omit h in
theorem lookup (name : String) :
    (context.lookup scope name).Alike (Value.SameBut related) Eq
      (context'.lookup scope' name) := by
  have hlocal := rel_lookup hs name
  rw [← Scope.find?, ← Scope.find?] at hlocal
  generalize hv : scope.find? name = found at hlocal
  generalize hv' : scope'.find? name = found' at hlocal
  cases hlocal with
  | some hrel =>
      rw [Context.lookup, Context.lookup, hv, hv']
      exact Run.Alike.pure hrel
  | none =>
      exact Context.alike_lookup_of_defined hv hv' (hp.defined name) id
        (fun hbody => .of_node (.function ⟨hbody.1, .nil, hbody.2⟩))
        (fun id => .of_node (.builtin id)) fun _ => rfl

/-- One step on expressions of one form with related parts is alike if the evaluators
for what lies inside are. -/
theorem step (hf : context.files = context'.files) {cut cut' : Fault → Prop}
    {eval eval' : Evaluator}
    (heval : ∀ scope scope' e e', Scope.SameBut related scope scope' ∧ related e e' →
      (eval scope e).AlikeUnless cut cut' (Value.SameBut related) Eq (eval' scope' e'))
    {e e' : Expr} (he : related e e') (node : e.Inside related e') :
    (context.step eval scope e).AlikeUnless cut cut' (Value.SameBut related) Eq
      (context'.step eval' scope' e') := by
  refine (h.relatesValues hf).step heval ⟨hs, he⟩ ?_
  refine Expr.Paired.mono node (fun hpart => ⟨hs, hpart⟩) (fun hpart v v' hv => ?_) (fun hn => ?_)
    fun hc => ?_
  · obtain ⟨rfl, hbody⟩ := hpart
    exact ⟨hs.bind _ hv, hbody⟩
  · exact hn ▸ lookup hp hs _
  · obtain ⟨rfl, rfl⟩ := hc
    exact Context.alike_makeConstructor hp.types (fun _ _ => .of_node (.constructor rfl))
      (fun _ => rfl) _ _

end Evaluation

end Expr.Local

end Fern
