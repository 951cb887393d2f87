import Fern.Proofs.OpenAlpha
import Fern.Proofs.Renaming
import Fern.Proofs.UnboundNames

/-!
# Renaming the parameter of an entry

A run of an entry leaves the entry's parameter without a value, while resolution takes it for a
local name. `renameEntryParam` gives it another name, which may be that of nothing else in the
declarations. Two things follow from the runs that come of it. What the parameter was called before
does not matter, so nothing can be learned by it; and as the new name has no other meaning and no
other binder, a reference to it can do nothing but fail.

The one way in which the name of the parameter does matter is that it can be the name of a function
or of a built-in function. A reference to the parameter then is a reference to that.
-/

namespace Fern

/-! ## Names that are bound -/

/-- The parts on the right of a pair of nodes have partners on the left. -/
theorem Expr.Paired.right_part {inner : Expr → Expr → Prop}
    {under : String → String → Expr → Expr → Prop} {names : String → String → Prop}
    {constructors : TypeHandle → Int → TypeHandle → Int → Prop} {e e' : Expr}
    (h : e.Paired inner under names constructors e') {binding : Option String} {part' : Expr}
    (hm : (binding, part') ∈ e'.parts) :
    (binding = none ∧ ∃ part, inner part part') ∨
      ∃ name name' part, binding = some name' ∧ under name name' part part' := by
  have hitem {items items' : List Expr} (hitems : List.Forall₂ inner items items')
      (hm : (binding, part') ∈ items'.map (none, ·)) :
      binding = none ∧ ∃ part, inner part part' := by
    obtain ⟨item, hitem, heq⟩ := List.mem_map.1 hm
    cases heq
    obtain ⟨part, _, hpart⟩ := exists_mem_of_forall₂ hitems hitem
    exact ⟨rfl, part, hpart⟩
  cases h with
  | tuple items => exact .inl (hitem items hm)
  | record items => exact .inl (hitem items hm)
  | field target =>
      cases List.mem_singleton.1 hm
      exact .inl ⟨rfl, _, target⟩
  | letIn rhs body =>
      rcases List.mem_cons.1 hm with heq | hm
      · cases heq
        exact .inl ⟨rfl, _, rhs⟩
      · cases List.mem_singleton.1 hm
        exact .inr ⟨_, _, _, rfl, body⟩
  | caseOf matchee branches =>
      rcases List.mem_cons.1 hm with heq | hm
      · cases heq
        exact .inl ⟨rfl, _, matchee⟩
      · obtain ⟨branch, hb, heq⟩ := List.mem_map.1 hm
        cases heq
        obtain ⟨_, _, hpair⟩ := exists_mem_of_forall₂ branches hb
        cases hpair with
        | plain hbody => exact .inl ⟨rfl, _, hbody⟩
        | capture hbody => exact .inr ⟨_, _, _, rfl, hbody⟩
  | apply callee args =>
      rcases List.mem_cons.1 hm with heq | hm
      · cases heq
        exact .inl ⟨rfl, _, callee⟩
      · exact .inl (hitem args hm)
  | lambda body =>
      cases List.mem_singleton.1 hm
      exact .inr ⟨_, _, _, rfl, body⟩
  | conditional cond cons alt =>
      simp only [Expr.parts, List.mem_cons, List.not_mem_nil, or_false, Prod.mk.injEq] at hm
      rcases hm with ⟨rfl, rfl⟩ | ⟨rfl, rfl⟩ | ⟨rfl, rfl⟩
      · exact .inl ⟨rfl, _, cond⟩
      · exact .inl ⟨rfl, _, cons⟩
      · exact .inl ⟨rfl, _, alt⟩
  | binary lhs rhs =>
      simp only [Expr.parts, List.mem_cons, List.not_mem_nil, or_false, Prod.mk.injEq] at hm
      rcases hm with ⟨rfl, rfl⟩ | ⟨rfl, rfl⟩
      · exact .inl ⟨rfl, _, lhs⟩
      · exact .inl ⟨rfl, _, rhs⟩
  | symbol | boolean | constructor | builtin | string | integer | unit | other => cases hm

/-- Where no binder on the right is a name, the name is never bound. -/
theorem Expr.Alike.neverBinds {name : String} {m : NameMatch} {e e' : Expr}
    (h : e.Alike (fun _ name' => name' ≠ name) m e') : e'.NeverBinds name := by
  induction h with
  | intro _ hbinder _ _ node hinner hunder =>
      refine .intro (fun part hm heq => ?_) fun part hm => ?_
      · rcases node.right_part hm with ⟨hnone, _⟩ | ⟨_, _, _, hsome, hpart⟩
        · rw [hnone] at heq
          cases heq
        · exact hbinder hpart (Option.some.inj (hsome.symm.trans heq))
      · rcases node.right_part hm with ⟨_, _, hpart⟩ | ⟨_, _, _, _, hpart⟩
        · exact hinner hpart
        · exact hunder hpart

/-! ## Renaming -/

/-- The parameters and the body of a function with a new name for the first parameter and for what
it binds. Without parameters that is a matter of the function literal in place of the body. -/
def Term.renameFirst (new : String) : List String → Term → List String × Term
  | old :: behind, body => (new :: behind, if old ∈ behind then body else body.rename old new)
  | [], .lambda params body =>
    ([], .lambda (renameFirst new params body).1 (renameFirst new params body).2)
  | [], body => ([], body)

def FunctionDecl.renameFirst (new : String) (decl : FunctionDecl) : FunctionDecl :=
  ⟨decl.name, (Term.renameFirst new decl.params decl.body).1,
    (Term.renameFirst new decl.params decl.body).2⟩

/-- The declarations with a new name for the first parameter of one function. -/
def renameEntryParam (entry new : String) (decls : List Declaration) : List Declaration :=
  decls.map fun
    | .function decl => .function (if decl.name = entry then decl.renameFirst new else decl)
    | .type decl => .type decl

section Rename

variable {old new : String}

theorem Term.renameFirst_alike {params : List String} {body : Term}
    (hfirst : (params ++ body.leadingParams).head? = some old) (hparams : new ∉ params)
    (hfresh : ¬body.Mentions new) :
    ∃ pairs : List (String × String), pairs.map (·.1) = params ∧
      pairs.map (·.2) = (renameFirst new params body).1 ∧
      (∀ pair ∈ pairs, Renamed old new pair.1 pair.2) ∧
      ∀ m : NameMatch, m.Fixes new →
        body.Alike (Renamed old new) (m.binds pairs) (renameFirst new params body).2 := by
  fun_induction renameFirst new params body with
  | case1 first behind body =>
      obtain rfl : first = old := Option.some.inj hfirst
      have hbinder : ∀ name, name ≠ new → Renamed first new name name := fun _ _ => .inl rfl
      have hbehind := List.not_mem_of_not_mem_cons hparams
      refine ⟨renamedParams [] behind first new, renamedParams_fst .., renamedParams_snd ..,
        binder_of_mem_renamedParams hbinder (.inr ⟨rfl, rfl⟩) List.not_mem_nil hbehind,
        fun m hm => ?_⟩
      exact .below_params hbinder hm hbehind hfresh
  | case2 params body ih =>
      obtain ⟨pairs, hfst, hsnd, hpairs, hbody⟩ := ih hfirst (fun hm => hfresh (.binder hm))
        fun h => hfresh (.inside List.mem_cons_self h)
      refine ⟨[], rfl, rfl, nofun, fun m hm => ?_⟩
      rw [← hfst, ← hsnd] at *
      exact .of_node (.lambda ⟨hpairs, hbody m hm⟩)
  | case3 body hbody =>
      -- Without parameters and without a literal there is no first parameter.
      cases body with
      | lambda params body => exact absurd rfl (hbody params body)
      | _ => cases hfirst

example : Term.renameFirst "z" [] (.lambda ["x", "y"] (.identifier "x")) =
    ([], .lambda ["z", "y"] (.identifier "z")) := by
  rfl

theorem Env.Alike.refl (env : Env) : Env.Alike Eq env env := by
  refine ⟨.refl, fun {name name'} h => ?_⟩
  subst h
  by_cases hm : name ∈ env.locals
  · exact .inl ⟨hm, hm⟩
  · exact .inr ⟨hm, hm, rfl⟩

/-- What a tree with a new name for the first parameter means is a function of that name, in whose
body it is not bound again. -/
theorem Term.renameFirst_resolve {params : List String} {t : Term} {env : Env} {e : Expr}
    (hparams : new ∉ params) (hfresh : ¬t.Mentions new)
    (h : (renameFirst new params t).2.resolve (env.withLocals (renameFirst new params t).1) = .ok e)
    {param : String} {body : Expr} {type : TypeInfo}
    (hcurry : curry (renameFirst new params t).1 e = .lambda param body type) :
    param = new ∧ body.NeverBinds new := by
  fun_induction renameFirst new params t generalizing env e with
  | case1 first behind t =>
      obtain ⟨rfl, rfl, _⟩ := Expr.lambda.inj hcurry
      have hbehind : new ∉ behind := List.not_mem_of_not_mem_cons hparams
      have hpairs : ∀ pair ∈ samePairs behind, pair.2 ≠ new := fun pair hm =>
        eq_of_mem_samePairs pair hm ▸ ne_of_mem_samePairs hbehind pair hm
      -- What the new body means is like what the old one does, with no binder of the new name.
      have halike : t.Alike (fun _ name' => name' ≠ new)
          (NameMatch.binds Eq (renamedParams [] behind first new))
          (if first ∈ behind then t else t.rename first new) :=
        .below_params (fun _ => id) fixes_eq hbehind hfresh
      have henv := (Env.Alike.refl env).withLocals (renamedParams [] behind first new)
      have hmatches := halike.resolve henv
      rw [renamedParams_snd, List.nil_append, h] at hmatches
      generalize t.resolve _ = resolved at hmatches
      cases hmatches with
      | ok he =>
          have hcurried := curry_alike (m := NameMatch.bind Eq first new) hpairs he
          rw [samePairs_snd] at hcurried
          exact ⟨rfl, hcurried.neverBinds⟩
  | case2 params t ih =>
      simp only [Term.resolve, bind_eq_ok, pure_eq_ok] at h
      obtain ⟨e', he', rfl⟩ := h
      exact ih (fun hm => hfresh (.binder hm)) (fun h => hfresh (.inside List.mem_cons_self h)) he'
        hcurry
  | case3 t ht =>
      obtain rfl : e = .lambda param body type := hcurry
      have hleading := Term.leadingParams_of_resolve h
      cases t with
      | lambda params t => exact absurd rfl (ht params t)
      | _ => cases hleading

/-! ## Declarations -/

theorem FunctionDecl.renameFirst_alike {decl : FunctionDecl} (hfirst : decl.firstParam? = some old)
    (hfresh : ¬(Declaration.function decl).Mentions new) :
    Declaration.Alike (Renamed old new) Eq (.function decl) (.function (decl.renameFirst new)) := by
  obtain ⟨name, params, body⟩ := decl
  obtain ⟨pairs, rfl, hsnd, hpairs, hbody⟩ := Term.renameFirst_alike hfirst
    (fun h => hfresh (.inl h)) fun h => hfresh (.inr h)
  rw [renameFirst, ← hsnd]
  exact .function hpairs (hbody Eq fixes_eq)

theorem functionDecls_renameEntryParam (entry new : String) (decls : List Declaration) :
    functionDecls (renameEntryParam entry new decls) = (functionDecls decls).map fun decl =>
      if decl.name = entry then decl.renameFirst new else decl := by
  induction decls with
  | nil => rfl
  | cons decl rest ih =>
      cases decl with
      | type decl => exact ih
      | function decl => exact congrArg (_ :: ·) ih

variable {decls : List Declaration} {program : Program} {entry : String}

theorem renameEntryParam_alike (h : Program.ofDeclarations decls = .ok program)
    (hentry : entryParam? decls entry = some old) (hfresh : ∀ decl ∈ decls, ¬decl.Mentions new) :
    List.Forall₂ (Declaration.Alike (Renamed old new) Eq) decls
      (renameEntryParam entry new decls) := by
  refine List.forall₂_map_right_iff.2 (List.forall₂_same.2 fun decl hm => ?_)
  cases decl with
  | type decl => exact .type decl
  | function decl =>
      dsimp only
      split
      · next hname =>
        have hfirst := entryParam?_of_mem h (List.mem_filterMap.2 ⟨_, hm, rfl⟩)
        rw [hname, hentry] at hfirst
        exact decl.renameFirst_alike hfirst.symm (hfresh _ hm)
      · exact .same (fun _ _ => .inl rfl) fixes_eq (hfresh _ hm)

/-- What the definitions of a program bind in which a new name is given to the parameter of the
entry. -/
theorem Program.neverBinds_of_renameEntryParam {program' : Program}
    (h : Program.ofDeclarations (renameEntryParam entry new decls) = .ok program')
    (hfresh : ∀ decl ∈ decls, ¬decl.Mentions new) {f param : String} {body : Expr}
    {type definition : TypeInfo}
    (hf : program'.find? f = some ⟨.lambda param body type, definition⟩) :
    (param = new ↔ f = entry) ∧ body.NeverBinds new := by
  rcases Program.definition_cases h hf with ⟨_, hbuiltin⟩ | ⟨decl', hm', known, _, rfl, hr⟩
  · cases hbuiltin
  rw [functionDecls_renameEntryParam] at hm'
  obtain ⟨decl, hm, rfl⟩ := List.mem_map.1 hm'
  have hdecl := hfresh _ (mem_of_mem_functionDecls hm)
  by_cases hname : decl.name = entry
  · rw [if_pos hname] at hr ⊢
    simp only [FunctionDecl.resolve, bind_eq_ok] at hr
    obtain ⟨e, he, hrest⟩ := hr
    split at hrest
    · obtain ⟨hparam, hbody⟩ := Term.renameFirst_resolve (fun h => hdecl (.inl h))
        (fun h => hdecl (.inr h)) he (Except.ok.inj hrest)
      exact ⟨iff_of_true hparam hname, hbody⟩
    · cases hrest
  · rw [if_neg hname] at hr ⊢
    have hself : Declaration.Alike (fun _ name' => name' ≠ new) Eq (.function decl)
        (.function decl) := .same (fun _ => id) fixes_eq hdecl
    have hmatches := hself.resolve id (Program.KnowsSame.refl (p := known))
    rw [hr] at hmatches
    cases hmatches with
    | ok halike =>
        have hbinds := halike.neverBinds
        refine ⟨iff_of_false (fun hparam => ?_) hname, hbinds.part List.mem_cons_self⟩
        exact hbinds.here _ List.mem_cons_self (congrArg some hparam)

/-! ## Runs -/

/-- Which unbound names stand for each other when one that is not defined is replaced. -/
def Program.Replaces (program : Program) (old new : String) : NameMatch := fun name name' =>
  name = name' ∨ name = old ∧ name' = new ∧ program.find? old = none

/-- Two faults are the same, but for what an unbound name is called. -/
def Fault.Replaces (old new : String) (fault fault' : Fault) : Prop :=
  fault = fault' ∨ fault = .failed (.unbound old) ∧ fault' = .failed (.unbound new)

theorem Program.Alike.undefined {binder : String → String → Prop} {program' : Program}
    (h : program.Alike binder Eq program') {name : String} (hn : program.find? name = none) :
    program'.find? name = none := by
  have hdefined := h.defined name
  rw [hn] at hdefined
  generalize program'.find? name = found at hdefined ⊢
  cases hdefined
  rfl

theorem Context.unbinds_replaces {context context' : Context}
    (hnew : context'.program.find? new = none) :
    context.Unbinds context' (context.program.Replaces old new) (Fault.Replaces old new) := by
  refine ⟨fun _ => .inl rfl, ?_, fun _ => .inl rfl⟩
  rintro name name' (rfl | ⟨rfl, rfl, hnone⟩)
  · exact .inl rfl
  · exact .inr ⟨hnone, hnew, .inr ⟨rfl, rfl⟩⟩

/-- The new name is the parameter of the entry and of nothing else. -/
theorem Program.bindsOnlyIn_of_renameEntryParam {program' : Program}
    (h : Program.ofDeclarations (renameEntryParam entry new decls) = .ok program')
    (hfresh : ∀ decl ∈ decls, ¬decl.Mentions new) (hnew : program'.find? new = none)
    {param : String} {body : Expr} {type definition : TypeInfo}
    (hf : program'.find? entry = some ⟨.lambda param body type, definition⟩) :
    program'.BindsOnlyIn new body := by
  refine ⟨hnew, (Program.neverBinds_of_renameEntryParam h hfresh hf).2,
    fun {f param' body' type' definition'} hf' => ?_⟩
  obtain ⟨hparam, hbody⟩ := Program.neverBinds_of_renameEntryParam h hfresh hf'
  by_cases hname : f = entry
  · subst hname
    obtain rfl := hparam.2 rfl
    cases hf.symm.trans hf'
    exact .entry
  · exact .other (fun heq => hname (hparam.1 heq)) List.not_mem_nil hbody

/-- The parameter of an entry stands for nothing. What it is called does not matter, if where the
entry uses it nothing else has its name: if declarations stand for a program, then so do those in
which it has a new name that is not used in them, and the entry writes the same and ends in the same
way, with the same fault, but that another name is unbound, or with values that differ at most in
that name inside functions. And the new name is never read: every reference to it that is evaluated
fails as unbound. -/
theorem entry_param_is_unbound (h : Program.ofDeclarations decls = .ok program)
    (hentry : entryParam? decls entry = some old) (hfresh : ∀ decl ∈ decls, ¬decl.Mentions new)
    (hnew : program.find? new = none)
    (hold : ∀ body type definition,
      program.find? entry = some ⟨.lambda old body type, definition⟩ →
        body.Free old → program.find? old = none) :
    ∃ program', Program.ofDeclarations (renameEntryParam entry new decls) = .ok program' ∧
      ∀ files debug nesting,
        (Context.runWith ⟨program, files, debug⟩
          (Context.evalWithin ⟨program, files, debug⟩ nesting) entry).Alike
          (Value.AlikeOver (Renamed old new) (program.Replaces old new)) (Fault.Replaces old new)
          (Context.runWith ⟨program', files, debug⟩
            (Context.evalWithin ⟨program', files, debug⟩ nesting) entry) ∧
        (Context.runWith ⟨program', files, debug⟩
          (Context.evalWithin ⟨program', files, debug⟩ nesting) entry).Alike Eq Eq
          (Context.runWith ⟨program', files, debug⟩
            (Context.evalUnboundWithin ⟨program', files, debug⟩ new nesting) entry) := by
  obtain ⟨program', hprogram', halike⟩ :=
    Program.ofDeclarations_alike id (renameEntryParam_alike h hentry hfresh) program h
  have hnew' := halike.undefined hnew
  refine ⟨program', hprogram', fun files debug nesting => ⟨?_, ?_⟩⟩
  · refine alikeOver_runWith ⟨program, files, debug⟩ ⟨program', files, debug⟩ halike rfl
      (Context.unbinds_replaces hnew') nesting
      fun {param body type definition param' body' type' definition'} hf hf' hbody => ?_
    obtain rfl : old = param :=
      Option.some.inj (hentry.symm.trans (Program.entryParam?_of_find? h hf))
    obtain rfl := (Program.neverBinds_of_renameEntryParam hprogram' hfresh hf').1.2 rfl
    -- The parameter is replaced only where it is free, and there it is not defined.
    refine hbody.of_free fun name name' hfree hname => ?_
    rcases hname with ⟨rfl, rfl⟩ | ⟨_, _, heq⟩
    · exact .inr ⟨rfl, rfl, hold _ _ _ hf hfree⟩
    · exact .inl heq
  · exact runWith_alike_evalUnbound
      (fun hf => Program.bindsOnlyIn_of_renameEntryParam hprogram' hfresh hnew' hf) nesting

end Rename

theorem Term.not_mentions_call {f name : String} {arg : Term} (hf : f ≠ name)
    (harg : ¬arg.Mentions name) : ¬(Term.apply (.identifier f) [arg]).Mentions name :=
  not_mentions (by simp) List.not_mem_nil
    (List.forall_mem_cons.2 ⟨fun h => hf h.eq_of_identifier, List.forall_mem_singleton.2 harg⟩)

/-- An entry that hands its parameter to a function. -/
theorem entry_param_is_unbound_call :
    let decls : List Declaration := [.function ⟨"same", ["y"], .identifier "y"⟩,
      .function ⟨"main", ["x"], .apply (.identifier "same") [.identifier "x"]⟩]
    ∃ program program', Program.ofDeclarations decls = .ok program ∧
      Program.ofDeclarations (renameEntryParam "main" "z" decls) = .ok program' ∧
      ∀ files debug nesting,
        (Context.runWith ⟨program, files, debug⟩
          (Context.evalWithin ⟨program, files, debug⟩ nesting) "main").Alike
          (Value.AlikeOver (Renamed "x" "z") (program.Replaces "x" "z")) (Fault.Replaces "x" "z")
          (Context.runWith ⟨program', files, debug⟩
            (Context.evalWithin ⟨program', files, debug⟩ nesting) "main") ∧
        (Context.runWith ⟨program', files, debug⟩
          (Context.evalWithin ⟨program', files, debug⟩ nesting) "main").Alike Eq Eq
          (Context.runWith ⟨program', files, debug⟩
            (Context.evalUnboundWithin ⟨program', files, debug⟩ "z" nesting) "main") := by
  intro decls
  have hfresh : ∀ decl ∈ decls, ¬decl.Mentions "z" := by
    refine List.forall_mem_cons.2 ⟨?_, List.forall_mem_singleton.2 ?_⟩
    · rintro (hparam | hbody)
      · exact absurd hparam (by decide)
      · exact absurd hbody.eq_of_identifier (by decide)
    · rintro (hparam | hbody)
      · exact absurd hparam (by decide)
      · refine Term.not_mentions_call (by decide) (fun harg => ?_) hbody
        exact absurd harg.eq_of_identifier (by decide)
  have htest : (Program.ofDeclarations decls).toOption.any fun program =>
      (program.find? "z").isNone && (program.find? "x").isNone := by decide +kernel
  obtain ⟨program, hsome, htests⟩ := (Option.any_eq_true ..).1 htest
  obtain ⟨hnew, hold⟩ := Bool.and_eq_true_iff.1 htests
  have hprogram := toOption_eq_some.1 hsome
  have hentry : entryParam? decls "main" = some "x" := rfl
  obtain ⟨program', hprogram', hruns⟩ := entry_param_is_unbound hprogram hentry hfresh
    (Option.isNone_iff_eq_none.1 hnew) fun _ _ _ _ _ => Option.isNone_iff_eq_none.1 hold
  exact ⟨program, program', hprogram, hprogram', hruns⟩

/-- A run ends with this fault. -/
def Run.faults (fault : Fault) (run : Run Value) : Bool :=
  match run {} with
  | .error f _ => decide (f = fault)
  | _ => false

theorem Run.exists_of_faults {fault : Fault} {run : Run Value} (h : Run.faults fault run) :
    ∃ console, run {} = .error fault console := by
  unfold faults at h
  split at h
  · next f console heq =>
    rw [heq, of_decide_eq_true h]
    exact ⟨console, rfl⟩
  · cases h

/-- A parameter of an entry that has the name of a function stands for this function, and with
another name it is unbound. -/
theorem entry_param_reads_function :
    let decls : List Declaration := [.function ⟨"x", ["y"], .identifier "y"⟩,
      .function ⟨"main", ["x"], .apply (.identifier "x") [.integer 5]⟩]
    ∃ program program', Program.ofDeclarations decls = .ok program ∧
      Program.ofDeclarations (renameEntryParam "main" "z" decls) = .ok program' ∧
      entryParam? decls "main" = some "x" ∧ program.find? "z" = none ∧
      (∀ decl ∈ decls, ¬decl.Mentions "z") ∧
      (∃ console, Context.runWith ⟨program, .ofVisits [], false⟩
        (Context.evalWithin ⟨program, .ofVisits [], false⟩ (.ok 10)) "main" {} =
          .ok (.integer 5) console) ∧
      ∃ console, Context.runWith ⟨program', .ofVisits [], false⟩
        (Context.evalWithin ⟨program', .ofVisits [], false⟩ (.ok 10)) "main" {} =
          .error (.failed (.unbound "z")) console := by
  intro decls
  have hfresh : ∀ decl ∈ decls, ¬decl.Mentions "z" := by
    refine List.forall_mem_cons.2 ⟨?_, List.forall_mem_singleton.2 ?_⟩
    · rintro (hparam | hbody)
      · exact absurd hparam (by decide)
      · exact absurd hbody.eq_of_identifier (by decide)
    · rintro (hparam | hbody)
      · exact absurd hparam (by decide)
      · exact Term.not_mentions_call (by decide) (Term.not_mentions_integer 5) hbody
  have htest : (Program.ofDeclarations decls).toOption.any fun program =>
      (program.find? "z").isNone &&
      Run.returns 5 (Context.runWith ⟨program, .ofVisits [], false⟩
        (Context.evalWithin ⟨program, .ofVisits [], false⟩ (.ok 10)) "main") := by
    decide +kernel
  have htest' : (Program.ofDeclarations (renameEntryParam "main" "z" decls)).toOption.any
      fun program => Run.faults (.failed (.unbound "z"))
        (Context.runWith ⟨program, .ofVisits [], false⟩
          (Context.evalWithin ⟨program, .ofVisits [], false⟩ (.ok 10)) "main") := by
    decide +kernel
  obtain ⟨program, hsome, htests⟩ := (Option.any_eq_true ..).1 htest
  obtain ⟨program', hsome', hrun'⟩ := (Option.any_eq_true ..).1 htest'
  obtain ⟨hnew, hrun⟩ := Bool.and_eq_true_iff.1 htests
  exact ⟨program, program', toOption_eq_some.1 hsome, toOption_eq_some.1 hsome', rfl,
    Option.isNone_iff_eq_none.1 hnew, hfresh, Run.exists_of_returns hrun,
    Run.exists_of_faults hrun'⟩

end Fern
