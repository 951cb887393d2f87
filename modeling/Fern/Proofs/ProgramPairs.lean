import Fern.Proofs.ResolvePairs

/-!
# Resolving two programs side by side

The walk over the forms of trees as they are written, done once for all ways of
pairing them: two nodes of one form mean expressions that go together if their
parts do. What it takes is little (`Expr.Congruent`): expressions of one form with
related parts are related, and related expressions are of one type, because the
type of a target tells which field of it is meant.

From bodies this goes on to functions and to programs. Functions are resolved one
after the other in a program that already knows all names, so the programs on the
way know the same, and what they define is related as far as it has been defined.
-/

namespace Fern

/-- What has to be shown of related expressions for paired trees to mean such. The
second relation is for expressions below pairs of names that a node binds. -/
structure Expr.Congruent (result : Expr → Expr → Prop)
    (below : List (String × String) → Expr → Expr → Prop) : Prop where
  type {e e' : Expr} : result e e' → e.type = e'.type
  node {e e' : Expr} : e.type = e'.type →
    e.Paired result (fun name name' part part' => below [(name, name')] part part')
      (fun _ _ => False) (fun handle index handle' index' => handle = handle' ∧ index = index') e' →
    result e e'
  curry {pairs : List (String × String)} {body body' : Expr} : below pairs body body' →
    result (curry (pairs.map (·.1)) body) (curry (pairs.map (·.2)) body')

section Terms

variable {result : Expr → Expr → Prop} {below : List (String × String) → Expr → Expr → Prop}
  {env env' : Env}

/-- A constructor means the same wherever the types are the same. -/
theorem resolveConstructor_matches (hc : Expr.Congruent result below)
    (htypes : env.program.types = env'.program.types) (name : String) :
    Matches result (resolveConstructor env name) (resolveConstructor env' name) := by
  have hsame (info : ConstructorInfo) :
      result (.constructor info.handle info.index (.named info.handle.name []))
        (.constructor info.handle info.index (.named info.handle.name [])) :=
    hc.node rfl (.constructor ⟨rfl, rfl⟩)
  rw [resolveConstructor, resolveConstructor, constructor?_congr htypes]
  split
  · exact .error
  · next info _ =>
    refine .ok ?_
    split
    · exact hsame info
    · exact hc.node rfl (.apply (hsame info) (.cons (hc.node rfl .unit) .nil))

variable {inner : Term → Term → Prop} {under : List (String × String) → Term → Term → Prop}
  {names : String → String → Prop}

/-- Paired nodes mean related expressions if their parts and names do. -/
theorem Term.Paired.resolve {t t' : Term} (node : t.Paired inner under names t')
    (hc : Expr.Congruent result below) (htypes : env.program.types = env'.program.types)
    (hinner : ∀ {part part' : Term}, inner part part' →
      Matches result (part.resolve env) (part'.resolve env'))
    (hunder : ∀ {pairs : List (String × String)} {part part' : Term}, under pairs part part' →
      Matches (below pairs) (part.resolve (env.withLocals (pairs.map (·.1))))
        (part'.resolve (env'.withLocals (pairs.map (·.2)))))
    (hnames : ∀ {name name' : String}, names name name' →
      Matches result (resolveIdentifier env name) (resolveIdentifier env' name')) :
    Matches result (t.resolve env) (t'.resolve env') := by
  cases node with
  | integer n =>
      rw [Term.resolve, Term.resolve]
      split
      · exact .error
      · exact .ok (hc.node rfl .integer)
  | string text => exact .ok (hc.node rfl .string)
  | boolean b => exact .ok (hc.node rfl .boolean)
  | unit => exact .ok (hc.node rfl .unit)
  | identifier hname => exact hnames hname
  | constructor name => exact resolveConstructor_matches hc htypes name
  | tuple hitems =>
      rw [Term.resolve, Term.resolve, resolveAll_eq_mapM, resolveAll_eq_mapM]
      refine (Matches.passesThrough.mapM hitems fun _ _ hp => hinner hp).bind fun es es' hes => ?_
      exact .ok (hc.node rfl (.tuple hes))
  | @record fields fields' hfields =>
      have hsame : fields.map (·.1) = fields'.map (·.1) := by
        induction hfields with
        | nil => rfl
        | cons hf _ ih => rw [List.map_cons, List.map_cons, hf.1, ih]
      rw [Term.resolve, Term.resolve, hsame, resolveFields_eq_map, resolveFields_eq_map]
      refine (recordFor_matches htypes _).bind fun record _ hrecord => ?_
      subst hrecord
      have hvalues : List.Forall₂ (fun value value' => value.1 = value'.1 ∧
          Matches result value.2 value'.2)
          (fields.map fun field => (field.1, field.2.resolve env))
          (fields'.map fun field => (field.1, field.2.resolve env')) := by
        rw [List.forall₂_map_left_iff, List.forall₂_map_right_iff]
        exact hfields.imp fun field field' hf => ⟨hf.1, hinner hf.2⟩
      exact (Matches.passesThrough.inRecordOrder hvalues record).bind fun es es' hes =>
        .ok (hc.node rfl (.record hes))
  | field htarget =>
      rw [Term.resolve, Term.resolve]
      refine (hinner htarget).bind fun e e' he => ?_
      rw [hc.type he]
      refine (fieldFor_matches htypes _ _).bind fun found _ hfound => ?_
      subst hfound
      exact .ok (hc.node rfl (.field he))
  | item htarget =>
      rw [Term.resolve, Term.resolve]
      exact (hinner htarget).bind fun e e' he => .ok (hc.node rfl (.field he))
  | apply hcallee hargs =>
      rw [Term.resolve, Term.resolve, resolveAll_eq_mapM, resolveAll_eq_mapM]
      refine (hinner hcallee).bind fun e e' he => ?_
      refine (Matches.passesThrough.mapM hargs fun _ _ hp => hinner hp).bind fun es es' hes => ?_
      exact .ok (hc.node rfl (.apply he hes))
  | binary hlhs hrhs =>
      rw [Term.resolve, Term.resolve]
      refine (hinner hlhs).bind fun l l' hl => ?_
      exact (hinner hrhs).bind fun r r' hr => .ok (hc.node rfl (.binary hl hr))
  | sequence hfirst hrest =>
      rw [Term.resolve, Term.resolve]
      refine (hinner hfirst).bind fun f f' hf => ?_
      exact (hunder hrest).bind fun r r' hr => .ok (hc.node rfl (.letIn hf hr))
  | letIn hrhs hbody =>
      rw [Term.resolve, Term.resolve]
      refine (hinner hrhs).bind fun r r' hr => ?_
      exact (hunder hbody).bind fun b b' hb => .ok (hc.node rfl (.letIn hr hb))
  | conditional hcond hcons halt =>
      rw [Term.resolve, Term.resolve]
      refine (hinner hcond).bind fun c c' hc' => ?_
      refine (hinner hcons).bind fun t t' ht => ?_
      exact (hinner halt).bind fun a a' ha => .ok (hc.node rfl (.conditional hc' ht ha))
  | @caseOf _ _ arms arms' hmatchee harms =>
      rw [Term.resolve, Term.resolve, resolveArms_eq_map, resolveArms_eq_map]
      refine (hinner hmatchee).bind fun e e' he => ?_
      have hbodies : List.Forall₂ (fun (arm arm' : ResolvedArm) =>
          arm.constructor = arm'.constructor ∧ ∀ index, Matches (fun body body' =>
            Branch.Paired result (fun name name' part part' => below [(name, name')] part part')
              ⟨index, captureOf arm.binding, body⟩ ⟨index, captureOf arm'.binding, body'⟩)
            arm.body arm'.body)
          (arms.map fun arm => ⟨arm.constructor, arm.binding,
            arm.body.resolve (env.withCapture (captureOf arm.binding))⟩)
          (arms'.map fun arm => ⟨arm.constructor, arm.binding,
            arm.body.resolve (env'.withCapture (captureOf arm.binding))⟩) := by
        rw [List.forall₂_map_left_iff, List.forall₂_map_right_iff]
        refine harms.imp fun arm arm' ha => ?_
        cases ha with
        | plain hnone hbody =>
            refine ⟨rfl, fun index => ?_⟩
            rw [hnone]
            exact (hunder hbody).mono fun b b' hb => .plain (hc.curry hb)
        | capture hname hname' hbody =>
            refine ⟨rfl, fun index => ?_⟩
            rw [captureOf_some hname, captureOf_some hname']
            exact (hunder hbody).mono fun b b' hb => .capture hb
      exact (branchesFor_matches htypes hbodies).bind fun branches branches' hbranches =>
        .ok (hc.node rfl (.caseOf he hbranches))
  | lambda hbody =>
      rw [Term.resolve, Term.resolve]
      exact (hunder hbody).bind fun b b' hb => .ok (hc.curry hb)
  | other tag content => exact .error

/-- Functions with matching bodies match, if functions are related to functions
only. What they mean are functions. -/
theorem FunctionDecl.resolve_matches (hc : Expr.Congruent result below)
    (hlambda : ∀ {e e' : Expr}, result e e' → e.isLambda = e'.isLambda)
    {program program' : Program} {name : String} {pairs : List (String × String)}
    {body body' : Term}
    (hbody : Matches (below pairs)
      (body.resolve (Env.withLocals { program, definition := some name } (pairs.map (·.1))))
      (body'.resolve (Env.withLocals { program := program', definition := some name }
        (pairs.map (·.2))))) :
    Matches (fun e e' => result e e' ∧ e.isLambda = true)
      (FunctionDecl.resolve program ⟨name, pairs.map (·.1), body⟩)
      (FunctionDecl.resolve program' ⟨name, pairs.map (·.2), body'⟩) := by
  rw [FunctionDecl.resolve, FunctionDecl.resolve]
  refine hbody.bind fun e e' he => ?_
  have hcurry := hc.curry he
  dsimp only
  rw [← hlambda hcurry]
  split
  · next hfunction => exact .ok ⟨hcurry, hfunction⟩
  · exact .error

end Terms

/-! ## Programs -/

/-- Two declarations are the same type declaration, or they declare functions that
are related. -/
inductive Declaration.Paired (functions : FunctionDecl → FunctionDecl → Prop) :
    Declaration → Declaration → Prop
  | type (decl : TypeDecl) : Paired functions (.type decl) (.type decl)
  | function {decl decl' : FunctionDecl} (h : functions decl decl') :
      Paired functions (.function decl) (.function decl')

/-- Two programs have the same types, and the same names defined as related
expressions. -/
structure Program.Paired (related : Expr → Expr → Prop) (program program' : Program) : Prop where
  types : program.types = program'.types
  defined (name : String) : Option.Rel (fun definition definition' =>
    related definition.expr definition'.expr) (program.find? name) (program'.find? name)

/-- Programs on the way: they know the same, and what they define is related
except for names that are still to be defined. -/
structure Program.PairedBut (related : Expr → Expr → Prop) (pending : List String)
    (program program' : Program) : Prop where
  known : program.KnowsSame program'
  defined {name : String} : name ∉ pending → Option.Rel (fun definition definition' =>
    related definition.expr definition'.expr) (program.find? name) (program'.find? name)

/-- Declarations of the same names are announced in the same way. -/
theorem announce_congr {decls decls' : List FunctionDecl}
    (h : List.Forall₂ (fun decl decl' => decl.name = decl'.name) decls decls') (program : Program)
    (seen : List String) : announce program seen decls = announce program seen decls' := by
  induction h generalizing program seen with
  | nil => rfl
  | cons hname _ ih => rw [announce, announce, hname, ih]

section Programs

variable {functions : FunctionDecl → FunctionDecl → Prop} {related : Expr → Expr → Prop}
  (hname : ∀ {decl decl' : FunctionDecl}, functions decl decl' → decl.name = decl'.name)
  (hresolve : ∀ {decl decl' : FunctionDecl} {program program' : Program}, functions decl decl' →
    program.KnowsSame program' → Matches related (decl.resolve program) (decl'.resolve program'))
include hname hresolve

theorem addFunctions_matches {decls decls' : List FunctionDecl}
    (h : List.Forall₂ functions decls decls') {program program' : Program}
    (hknown : ∀ decl ∈ decls, (program.find? decl.name).isSome)
    (hp : program.PairedBut related (decls.map (·.name)) program') :
    Matches (Program.Paired related) (addFunctions program decls)
      (addFunctions program' decls') := by
  induction h generalizing program program' with
  | nil => exact .ok ⟨hp.known.types, fun name => hp.defined List.not_mem_nil⟩
  | @cons decl decl' rest rest' hd _ ih =>
      have hsame := hname hd
      obtain ⟨hdecl, hrest⟩ := List.forall_mem_cons.1 hknown
      rw [addFunctions, addFunctions]
      refine (hresolve hd hp.known).bind fun e e' he => ih (fun other ho => ?_) ⟨?_, ?_⟩
      · rw [← (Program.KnowsSame.define hdecl e e.type).defined]
        exact hrest other ho
      · have hdecl' : (program'.find? decl'.name).isSome := by
          rw [← hsame, ← hp.known.defined]
          exact hdecl
        exact ((Program.KnowsSame.define hdecl e e.type).symm.trans hp.known).trans
          (Program.KnowsSame.define hdecl' e' e'.type)
      · intro name hn
        rw [← hsame]
        by_cases heq : name = decl.name
        · subst heq
          rw [Program.find?_define_self, Program.find?_define_self]
          exact .some he
        · rw [Program.find?_define_of_ne _ _ _ heq, Program.find?_define_of_ne _ _ _ heq]
          exact hp.defined (List.not_mem_cons_of_ne_of_not_mem heq hn)

/-- Paired declarations stand for paired programs, or neither for one. -/
theorem Program.ofDeclarations_matches
    (hbuiltin : ∀ id type, related (.builtin id type) (.builtin id type))
    {decls decls' : List Declaration}
    (h : List.Forall₂ (Declaration.Paired functions) decls decls') :
    Matches (Program.Paired related) (Program.ofDeclarations decls)
      (Program.ofDeclarations decls') := by
  have htypes : typeDecls decls = typeDecls decls' := by
    have heq : List.Forall₂ (· = ·) (typeDecls decls) (typeDecls decls') := by
      refine List.rel_filterMap (fun decl decl' hd => ?_) h
      cases hd with
      | type decl => exact .some rfl
      | function _ => exact .none
    rwa [List.forall₂_eq_eq_eq] at heq
  have hfunctions : List.Forall₂ functions (functionDecls decls) (functionDecls decls') := by
    refine List.rel_filterMap (fun decl decl' hd => ?_) h
    cases hd with
    | type decl => exact .none
    | function hd => exact .some hd
  have hnames := announce_congr (hfunctions.imp fun decl decl' hd => hname hd)
  rw [Program.ofDeclarations, Program.ofDeclarations, htypes]
  cases htyped : Program.empty.declareTypes (typeDecls decls') with
  | error error => exact .error
  | ok typed =>
      change Matches _ (announce typed.withBuiltins [] (functionDecls decls) >>= _)
        (announce typed.withBuiltins [] (functionDecls decls') >>= _)
      rw [hnames]
      cases hannounced : announce typed.withBuiltins [] (functionDecls decls') with
      | error error => exact .error
      | ok announced =>
          rw [← hnames] at hannounced
          obtain ⟨_, hknown, hother⟩ := find?_announce hannounced
          refine addFunctions_matches hname hresolve hfunctions hknown ⟨.refl, fun {name} hn => ?_⟩
          rw [hother name hn]
          generalize hfound : typed.withBuiltins.find? name = found
          cases found with
          | none => exact .none
          | some definition =>
              rcases find?_withBuiltins hfound with hf | ⟨builtin, rfl⟩
              · rw [Program.find?, definitions_declareTypes htyped] at hf
                cases hf
              · exact .some (hbuiltin _ _)

end Programs

end Fern
