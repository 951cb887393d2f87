import Fern.Proofs.RespelledExpr

/-!
# Programs spelled in other ways

The same for trees as they are written: where `let` is written as an application of
a function, or an application is written in two parts, resolution comes to the
other spelling of the same expression. An application resolves the function before
its argument and a `let` does it the other way round, so the two may refuse for
different reasons; they accept the same.
-/

namespace Fern

/-- A tree and one in which any number of bindings `let x = a in b` are written as
`(\x -> b) a`, and of applications `f a b` as `(f a) b`. -/
inductive Term.Respelled : Term → Term → Prop
  | inside {t t' : Term} {inner : Term → Term → Prop}
      {under : List (String × String) → Term → Term → Prop}
      (hinner : ∀ {part part' : Term}, inner part part' → Respelled part part')
      (hpairs : ∀ {pairs : List (String × String)} {part part' : Term}, under pairs part part' →
        ∀ pair ∈ pairs, pair.1 = pair.2)
      (hunder : ∀ {pairs : List (String × String)} {part part' : Term}, under pairs part part' →
        Respelled part part')
      (node : t.Paired inner under Eq t') : Respelled t t'
  | binding {name : String} {rhs rhs' body body' : Term} (hrhs : Respelled rhs rhs')
      (hbody : Respelled body body') :
      Respelled (.letIn name rhs body) (.apply (.lambda [name] body') [rhs'])
  | split {callee callee' : Term} {front rest rest' : List Term} {inner : Term → Term → Prop}
      (hfront : front ≠ []) (hne : rest ≠ []) (hcallee : Respelled (.apply callee front) callee')
      (hinner : ∀ {part part' : Term}, inner part part' → Respelled part part')
      (hrest : List.Forall₂ inner rest rest') :
      Respelled (.apply callee (front ++ rest)) (.apply callee' rest')

theorem Term.Respelled.of_node {t t' : Term}
    (node : t.Paired Respelled (fun pairs part part' =>
      (∀ pair ∈ pairs, pair.1 = pair.2) ∧ Respelled part part') Eq t') : t.Respelled t' :=
  .inside id (·.1) (·.2) node

/-- Nothing has to be spelled in another way. -/
theorem Term.Respelled.refl (t : Term) : t.Respelled t := by
  have hall : t.All fun _ => True := .of_forall (fun _ => trivial) t
  induction hall with
  | @intro t _ _ ih =>
  refine .of_node ((Paired.same t).imp (fun hp heq => ?_) (fun hp _ hunder => ?_) fun _ heq => heq)
  · subst heq
    exact ih _ hp
  · obtain ⟨hsame, rfl⟩ := hunder
    exact ⟨hsame, ih _ hp⟩

/-- Two functions differ in the spelling of their bodies at most. -/
structure FunctionDecl.Respelled (decl decl' : FunctionDecl) : Prop where
  name : decl.name = decl'.name
  params : decl.params = decl'.params
  body : decl.body.Respelled decl'.body

/-- Two declarations declare the same type, or functions that differ in spelling at
most. -/
abbrev Declaration.Respelled : Declaration → Declaration → Prop :=
  Declaration.Paired FunctionDecl.Respelled

variable {env env' : Env}

/-- The first arguments of an application and the function are resolved like an
application of their own. -/
theorem resolve_apply_append (callee : Term) (front rest : List Term) :
    (Term.apply callee (front ++ rest)).resolve env = (do
      let e ← callee.resolve env
      let es ← front.mapM (Term.resolve env)
      let others ← rest.mapM (Term.resolve env)
      return .apply e (es ++ others) .unknown) := by
  rw [Term.resolve, Term.resolveAll_eq_mapM]
  simp only [List.mapM_append, bind_assoc, pure_bind]

/-- Trees that differ in spelling mean expressions that do, or neither means
anything. -/
theorem Term.Respelled.resolve {t t' : Term} (h : t.Respelled t') (henv : env.Same env') :
    Matches Expr.Respelled (t.resolve env) (t'.resolve env') := by
  induction h generalizing env env' with
  | inside _ hpairs _ node hinner hunder =>
      exact Expr.local_respelled.resolve node henv (fun hp => hinner hp henv) hpairs
        fun hp => hunder hp (henv.withLocals (hpairs hp))
  | @binding name rhs rhs' body body' _ _ ihrhs ihbody =>
      have hrhs := ihrhs henv
      have hbody := ihbody (henv.withLocal name)
      simp only [Term.resolve, Term.resolveAll, Env.withLocals, List.foldl_cons, List.foldl_nil]
      generalize rhs.resolve env = r at hrhs ⊢
      generalize rhs'.resolve env' = r' at hrhs ⊢
      generalize body.resolve (env.withLocal name) = b at hbody ⊢
      generalize body'.resolve (env'.withLocal name) = b' at hbody ⊢
      cases hrhs with
      | error =>
          cases hbody with
          | error => exact .error
          | ok _ => exact .error
      | ok hr =>
          cases hbody with
          | error => exact .error
          | ok hb => exact .ok (.binding hr hb)
  | @split callee callee' front rest rest' _ _ _ _ _ hrest ihcallee ihinner =>
      have happly := ihcallee henv
      have hargs := Matches.passesThrough.mapM hrest fun _ _ hp => ihinner hp henv
      rw [resolve_apply_append, Term.resolve, Term.resolveAll_eq_mapM]
      rw [Term.resolve, Term.resolveAll_eq_mapM] at happly
      generalize callee.resolve env = c at happly ⊢
      generalize front.mapM (Term.resolve env) = es at happly ⊢
      generalize callee'.resolve env' = c' at happly ⊢
      cases c with
      | error _ =>
          cases happly with
          | error => exact .error
      | ok c =>
      cases es with
      | error _ =>
          cases happly with
          | error => exact .error
      | ok es =>
          cases happly with
          | ok hcallee => exact hargs.bind fun others others' hothers => .ok (.split hcallee id hothers)

/-! ## Programs -/

theorem FunctionDecl.Respelled.resolve {decl decl' : FunctionDecl} (h : decl.Respelled decl')
    {program program' : Program} (hsame : program.KnowsSame program') :
    Matches (Expr.Inside Expr.Respelled) (decl.resolve program) (decl'.resolve program') :=
  (Expr.local_respelled.resolveFunction Term.Respelled.resolve ⟨h.name, h.params, h.body⟩
    hsame).mono fun _ _ he => he.2

/-- How bindings and applications are spelled does not matter. Declarations in
which any number of `let x = a in b` are written as `(\x -> b) a`, and of
applications as applications of applications to the first arguments, stand for a
program exactly if the old ones do. Every entry writes the same in both and ends in
the same way, with the same fault or with values that differ in such spellings
inside functions at most, unless one of the runs reaches its limit. -/
theorem alike_of_respelling {decls decls' : List Declaration}
    (h : List.Forall₂ Declaration.Respelled decls decls') :
    ((∃ program, Program.ofDeclarations decls = .ok program) ↔
      ∃ program', Program.ofDeclarations decls' = .ok program') ∧
    ∀ program program', Program.ofDeclarations decls = .ok program →
      Program.ofDeclarations decls' = .ok program' →
      ∀ files debug nesting nesting' entry,
        (Context.runWith ⟨program, files, debug⟩
          (Context.evalWithin ⟨program, files, debug⟩ nesting) entry).AlikeUnless
          Fault.OfLimit Fault.OfLimit Value.Respelled Eq
          (Context.runWith ⟨program', files, debug⟩
            (Context.evalWithin ⟨program', files, debug⟩ nesting') entry) := by
  have hmatches := Program.ofDeclarations_matches FunctionDecl.Respelled.name
    (fun hd hsame => hd.resolve hsame) (fun _ _ => .builtin) h
  refine ⟨hmatches.accepts_iff, fun program program' hprogram hprogram' => ?_⟩
  obtain ⟨_, hfound, hpaired⟩ := hmatches.follows program hprogram
  obtain rfl := Except.ok.inj (hprogram'.symm.trans hfound)
  intro files debug nesting nesting' entry
  exact respelled_runWith ⟨program, files, debug⟩ ⟨program', files, debug⟩ hpaired rfl nesting
    nesting' entry

/-- An entry that gives a function in whose body both spellings have been
changed. -/
theorem alike_of_respelling_sum :
    let add : Declaration :=
      .function ⟨"add", ["a", "b"], .binary .add (.identifier "a") (.identifier "b")⟩
    let decls : List Declaration := [add, .function ⟨"main", ["u"], .lambda ["y"]
      (.letIn "x" (.integer 1) (.apply (.identifier "add") [.identifier "x", .identifier "y"]))⟩]
    let decls' : List Declaration := [add, .function ⟨"main", ["u"], .lambda ["y"]
      (.apply (.lambda ["x"] (.apply (.apply (.identifier "add") [.identifier "x"])
        [.identifier "y"])) [.integer 1])⟩]
    ∃ program program', Program.ofDeclarations decls = .ok program ∧
      Program.ofDeclarations decls' = .ok program' ∧ ∀ files debug nesting nesting',
        (Context.runWith ⟨program, files, debug⟩
          (Context.evalWithin ⟨program, files, debug⟩ nesting) "main").AlikeUnless
          Fault.OfLimit Fault.OfLimit Value.Respelled Eq
          (Context.runWith ⟨program', files, debug⟩
            (Context.evalWithin ⟨program', files, debug⟩ nesting') "main") := by
  intro add decls decls'
  have hsplit : (Term.apply (.identifier "add") ([.identifier "x"] ++ [.identifier "y"])).Respelled
      (.apply (.apply (.identifier "add") [.identifier "x"]) [.identifier "y"]) :=
    .split (List.cons_ne_nil _ _) (List.cons_ne_nil _ _) (.refl _) id (.cons (.refl _) .nil)
  have hbody : (Term.lambda ["y"] (.letIn "x" (.integer 1)
      (.apply (.identifier "add") [.identifier "x", .identifier "y"]))).Respelled
      (.lambda ["y"] (.apply (.lambda ["x"]
        (.apply (.apply (.identifier "add") [.identifier "x"]) [.identifier "y"])) [.integer 1])) :=
    .of_node (.lambda_same ⟨eq_of_mem_samePairs, .binding (.refl _) hsplit⟩)
  have hdecls : List.Forall₂ Declaration.Respelled decls decls' :=
    .cons (.function ⟨rfl, rfl, .refl _⟩) (.cons (.function ⟨rfl, rfl, hbody⟩) .nil)
  have hok : (Program.ofDeclarations decls).toOption.isSome := by decide +kernel
  obtain ⟨program, hprogram⟩ := Option.isSome_iff_exists.1 hok
  have hprogram := toOption_eq_some.1 hprogram
  obtain ⟨haccepted, halike⟩ := alike_of_respelling hdecls
  obtain ⟨program', hprogram'⟩ := haccepted.1 ⟨program, hprogram⟩
  exact ⟨program, program', hprogram, hprogram', fun files debug nesting nesting' =>
    halike program program' hprogram hprogram' files debug nesting nesting' "main"⟩

end Fern
