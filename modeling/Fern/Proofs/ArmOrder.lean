import Fern.Proofs.LocalChanges
import Fern.Proofs.RecordLiterals
import Fern.Proofs.WrittenMatches

/-!
# The order of arms and of fields

Neither the order in which the arms of a match are written matters, nor that of the
fields of a record literal. The values of a literal come out in the order of its type
whatever their order was. The branches of a match come out in the order of the arms,
but no two of them are for the same variant, so the same branch is found for each.
Expressions from programs that differ in such ways differ in the order of branches,
and so do the functions that they give.
-/

namespace Fern

/-- Two expressions differ in the order of the branches of any of their matches at
most. Branches that change places are for different variants. -/
inductive Expr.Rearranged : Expr → Expr → Prop
  | inside {e e' : Expr} {inner : Expr → Expr → Prop}
      {under : String → String → Expr → Expr → Prop}
      (hinner : ∀ {part part' : Expr}, inner part part' → Rearranged part part')
      (hname : ∀ {name name' : String} {part part' : Expr}, under name name' part part' →
        name = name')
      (hunder : ∀ {name name' : String} {part part' : Expr}, under name name' part part' →
        Rearranged part part')
      (type : e.type = e'.type)
      (node : e.Paired inner under Eq
        (fun handle index handle' index' => handle = handle' ∧ index = index') e') :
      Rearranged e e'
  | branches {matchee e' : Expr} {branches moved : List (Branch Expr)} {type : TypeInfo}
      (hdistinct : (branches.map (·.index)).Nodup) (hperm : branches.Perm moved)
      (h : Rearranged (.caseOf matchee moved type) e') :
      Rearranged (.caseOf matchee branches type) e'

/-- A tree and one in which the arms of any number of matches, and the fields of any
number of record literals, stand in another order. -/
inductive Term.Rearranged : Term → Term → Prop
  | inside {t t' : Term} {inner : Term → Term → Prop}
      {under : List (String × String) → Term → Term → Prop}
      (hinner : ∀ {part part' : Term}, inner part part' → Rearranged part part')
      (hpairs : ∀ {pairs : List (String × String)} {part part' : Term}, under pairs part part' →
        ∀ pair ∈ pairs, pair.1 = pair.2)
      (hunder : ∀ {pairs : List (String × String)} {part part' : Term}, under pairs part part' →
        Rearranged part part')
      (node : t.Paired inner under Eq t') : Rearranged t t'
  | arms {matchee t' : Term} {arms moved : List (Arm Term)} (hperm : arms.Perm moved)
      (h : Rearranged (.caseOf matchee moved) t') : Rearranged (.caseOf matchee arms) t'
  | fields {t' : Term} {fields moved : List (String × Term)} (hperm : fields.Perm moved)
      (h : Rearranged (.record moved) t') : Rearranged (.record fields) t'

/-- Two declarations declare the same type, or functions that differ in the order of
arms and of fields at most. -/
abbrev Declaration.Rearranged : Declaration → Declaration → Prop :=
  Declaration.Paired (FunctionDecl.Changed Term.Rearranged)

/-- The order of branches is a change in places. -/
theorem Expr.local_rearranged : Expr.Local Expr.Rearranged where
  type h := by
    induction h with
    | inside _ _ _ type _ => exact type
    | branches _ _ _ ih => exact ih
  node type node := .inside id (·.1) (·.2) type node
  isLambda h := by
    induction h with
    | inside _ _ _ _ node => cases node <;> rfl
    | branches _ _ _ ih => exact ih
  function h he := by
    cases h with
    | inside hinner hname hunder _ node =>
        exact node.mono hinner (fun hp => ⟨hname hp, hunder hp⟩) id id
    | branches _ _ _ => cases he

/-! ## Evaluation -/

section Evaluation

variable {branches moved : List (Branch Expr)}

/-- Where each number occurs once, the same branch is found in any order. -/
theorem find?_branch_perm (hdistinct : (branches.map (·.index)).Nodup)
    (hperm : branches.Perm moved) (index : Int) :
    branches.find? (·.index == index) = moved.find? (·.index == index) := by
  cases hfound : moved.find? (·.index == index) with
  | none =>
      rw [List.find?_eq_none] at hfound ⊢
      exact fun branch hm => hfound branch (hperm.subset hm)
  | some branch =>
      obtain rfl : branch.index = index := by simpa using List.find?_some hfound
      exact find?_of_nodup hdistinct (hperm.symm.subset (List.mem_of_find?_eq_some hfound))

variable {context context' : Context}

/-- A match does the same whatever the order of its branches is. -/
theorem step_branches_perm (hdistinct : (branches.map (·.index)).Nodup)
    (hperm : branches.Perm moved) (eval : Evaluator) (scope : Scope) (matchee : Expr)
    (type : TypeInfo) :
    context.step eval scope (.caseOf matchee branches type) =
      context.step eval scope (.caseOf matchee moved type) := by
  have hselect : Context.selectWith eval scope branches =
      Context.selectWith eval scope moved := by
    funext v
    cases v with
    | variant handle index payload =>
        rw [Context.selectWith, Context.selectWith, find?_branch_perm hdistinct hperm]
    | _ => rfl
  rw [Context.step, Context.step]
  simp only [hselect, Expr.kind]

/-- Expressions that differ in the order of branches are evaluated alike. -/
theorem rearranged_eval
    (hp : Program.Paired (Expr.Inside Expr.Rearranged) context.program context'.program)
    (hf : context.files = context'.files) (limit : Nat) {scope scope' : Scope}
    (hs : scope.SameBut Expr.Rearranged scope') {e e' : Expr} (he : e.Rearranged e') :
    (context.eval limit scope e).Alike (Value.SameBut Expr.Rearranged) Eq
      (context'.eval limit scope' e') := by
  induction limit generalizing scope scope' e e' with
  | zero => exact Run.Alike.fail rfl
  | succ limit ih =>
      rw [Context.eval, Context.eval]
      induction he with
      | inside hinner hname hunder type node _ _ =>
          refine Run.AlikeUnless.alike (Expr.local_rearranged.step hp hs hf
            (fun _ _ _ _ h => (ih h.1 h.2).unless) (.inside hinner hname hunder type node) ?_)
          exact node.mono hinner (fun hb => ⟨hname hb, hunder hb⟩) id id
      | branches hdistinct hperm _ ihmoved =>
          rw [step_branches_perm hdistinct hperm]
          exact ihmoved

/-- Programs that differ in the order of branches run alike from every entry. -/
theorem rearranged_runWith (context context' : Context)
    (hp : Program.Paired (Expr.Inside Expr.Rearranged) context.program context'.program)
    (hf : context.files = context'.files) (nesting : Except LimitFault Nat) (entry : String) :
    (context.runWith (context.evalWithin nesting) entry).Alike (Value.SameBut Expr.Rearranged) Eq
      (context'.runWith (context'.evalWithin nesting) entry) := by
  refine Run.AlikeUnless.alike (Context.runWith_unless (hp.defined entry) id
    (fun _ _ hbody => Run.Alike.unless ?_) fun _ => rfl)
  cases nesting with
  | error refused => exact Run.Alike.throw rfl
  | ok limit => exact rearranged_eval hp hf limit .nil hbody.2

end Evaluation

/-! ## Resolution -/

section Resolution

variable {env env' : Env}

/-- The branches for arms in another order are the same ones in another order. -/
theorem branchesFor_of_perm {arms moved : List ResolvedArm} (hperm : arms.Perm moved)
    {branches : List (Branch Expr)} (h : branchesFor env arms = .ok branches) :
    ∃ others, branchesFor env moved = .ok others ∧
      (branches.map (·.index)).Nodup ∧ branches.Perm others := by
  obtain ⟨hne, handle, name, variants, hdef, hbranches, hnumbers⟩ := branchesFor_eq_ok.1 h
  obtain ⟨others, hothers, hmoved⟩ := List.perm_comp_forall₂ hperm.symm hbranches
  refine ⟨others, branchesFor_eq_ok.2 ⟨fun hnil => hne (hnil ▸ hperm).eq_nil, handle, name,
    variants, hdef, hothers, (hmoved.map _).trans hnumbers⟩, ?_, hmoved.symm⟩
  exact hnumbers.nodup_iff.2 (nodup_places _)

theorem branchesFor_perm {arms moved : List ResolvedArm} (hperm : arms.Perm moved) :
    Matches (fun branches others => (branches.map (·.index)).Nodup ∧ branches.Perm others)
      (branchesFor env arms) (branchesFor env moved) :=
  .of_follows (fun _ h => branchesFor_of_perm hperm h) fun _ h =>
    let ⟨branches, hbranches, _⟩ := branchesFor_of_perm hperm.symm h
    ⟨branches, hbranches⟩

/-- A match with arms in another order means one with branches in another order. -/
theorem resolve_arms_perm (matchee : Term) {arms moved : List (Arm Term)}
    (hperm : arms.Perm moved) :
    Matches (fun e e' => ∃ target branches others, (branches.map (·.index)).Nodup ∧
        branches.Perm others ∧ e = .caseOf target branches .unknown ∧
        e' = .caseOf target others .unknown)
      ((Term.caseOf matchee arms).resolve env) ((Term.caseOf matchee moved).resolve env) := by
  rw [Term.resolve, Term.resolve, Term.resolveArms_eq_map, Term.resolveArms_eq_map]
  refine Matches.bind .same fun target _ htarget => ?_
  subst htarget
  refine (branchesFor_perm (hperm.map _)).bind fun branches others h => .ok ?_
  exact ⟨target, branches, others, h.1, h.2, rfl, rfl⟩

theorem recordFor_of_perm {names moved : List String} (hperm : names.Perm moved)
    {record : RecordType} (h : recordFor env names = .ok record) :
    recordFor env moved = .ok record := by
  obtain ⟨hnodup, hone⟩ := recordFor_eq_ok.1 h
  refine recordFor_eq_ok.2 ⟨hperm.nodup_iff.1 hnodup, hone ▸ List.filter_congr fun other _ => ?_⟩
  rw [Bool.eq_iff_iff, List.isPerm_iff, List.isPerm_iff]
  exact ⟨fun h => h.trans hperm.symm, fun h => h.trans hperm⟩

/-- A literal with its fields in another order means the same. -/
theorem resolve_fields_perm {fields moved : List (String × Term)} (hperm : fields.Perm moved) :
    Matches Eq ((Term.record fields).resolve env) ((Term.record moved).resolve env) := by
  have hfollows : ∀ {fields moved : List (String × Term)}, fields.Perm moved → ∀ e,
      (Term.record fields).resolve env = .ok e → (Term.record moved).resolve env = .ok e := by
    intro fields moved hperm e h
    obtain ⟨record, items, hrecord, hitems, rfl⟩ := Term.resolve_record_eq_ok.1 h
    refine Term.resolve_record_eq_ok.2 ⟨record, items, recordFor_of_perm (hperm.map _) hrecord, ?_,
      rfl⟩
    exact hitems.imp fun name item ⟨t, hm, ht⟩ => ⟨t, hperm.subset hm, ht⟩
  exact .of_follows (fun e h => ⟨e, hfollows hperm e h, rfl⟩) fun e h =>
    ⟨e, hfollows hperm.symm e h⟩

/-- Trees that differ in the order of arms and fields mean expressions that differ in
the order of branches, or neither means anything. -/
theorem Term.Rearranged.resolve {t t' : Term} (h : t.Rearranged t') (henv : env.Same env') :
    Matches Expr.Rearranged (t.resolve env) (t'.resolve env') := by
  induction h generalizing env env' with
  | inside _ hpairs _ node hinner hunder =>
      exact Expr.local_rearranged.resolve node henv (fun hp => hinner hp henv) hpairs
        fun hp => hunder hp (henv.withLocals (hpairs hp))
  | arms hperm _ ih =>
      refine ((resolve_arms_perm _ hperm).trans (ih henv)).mono ?_
      rintro _ e' ⟨_, ⟨target, branches, others, hdistinct, hmoved, rfl, rfl⟩, h⟩
      exact .branches hdistinct hmoved h
  | fields hperm _ ih =>
      refine ((resolve_fields_perm hperm).trans (ih henv)).mono ?_
      rintro _ e' ⟨_, rfl, h⟩
      exact h

end Resolution

/-! ## Programs -/

theorem Term.Rearranged.of_node {t t' : Term}
    (node : t.Paired Rearranged (fun pairs part part' =>
      (∀ pair ∈ pairs, pair.1 = pair.2) ∧ Rearranged part part') Eq t') : t.Rearranged t' :=
  .inside id (·.1) (·.2) node

/-- Nothing has to stand in another order. -/
theorem Term.Rearranged.refl (t : Term) : t.Rearranged t := by
  have hall : t.All fun _ => True := .of_forall (fun _ => trivial) t
  induction hall with
  | @intro t _ _ ih =>
  refine .of_node ((Paired.same t).imp (fun hp heq => ?_) (fun hp _ hunder => ?_)
    fun _ heq => heq)
  · exact heq ▸ ih _ hp
  · exact ⟨hunder.1, hunder.2 ▸ ih _ hp⟩

/-- The order of arms and of fields does not matter. Declarations in which the arms of
any matches and the fields of any record literals stand in another order stand for a
program exactly if the old ones do. The two programs have the same types and define
the same names as expressions that differ in the order of branches at most. Every entry
writes the same in both and ends in the same way, with the same fault or with values
that are the same but for the order of branches inside functions. -/
theorem alike_of_rearranging {decls decls' : List Declaration}
    (h : List.Forall₂ Declaration.Rearranged decls decls') :
    ((∃ program, Program.ofDeclarations decls = .ok program) ↔
      ∃ program', Program.ofDeclarations decls' = .ok program') ∧
    ∀ program program', Program.ofDeclarations decls = .ok program →
      Program.ofDeclarations decls' = .ok program' →
      program.Paired Expr.Rearranged program' ∧ ∀ files debug nesting entry,
        (Context.runWith ⟨program, files, debug⟩
          (Context.evalWithin ⟨program, files, debug⟩ nesting) entry).Alike
          (Value.SameBut Expr.Rearranged) Eq
          (Context.runWith ⟨program', files, debug⟩
            (Context.evalWithin ⟨program', files, debug⟩ nesting) entry) := by
  have hmatches := Expr.local_rearranged.ofDeclarations Term.Rearranged.resolve h
  refine ⟨hmatches.accepts_iff, fun program program' hprogram hprogram' => ?_⟩
  obtain ⟨_, hfound, hpaired⟩ := hmatches.follows program hprogram
  obtain rfl := Except.ok.inj (hprogram'.symm.trans hfound)
  refine ⟨hpaired.mono And.left, fun files debug nesting entry => ?_⟩
  exact rearranged_runWith ⟨program, files, debug⟩ ⟨program', files, debug⟩
    (hpaired.mono And.right) rfl nesting entry

/-- An entry that gives a function with a match whose arms stand in another order, the
fields of a literal in one of them as well. -/
theorem alike_of_rearranging_option :
    let option : Declaration :=
      .type ⟨"Option", .sum [⟨"Some", some (.name "Int")⟩, ⟨"None", none⟩]⟩
    let point : Declaration :=
      .type ⟨"Point", .record [⟨"x", .name "Int"⟩, ⟨"y", .name "Int"⟩]⟩
    let decls : List Declaration := [option, point, .function ⟨"main", ["u"], .lambda ["o"]
      (.caseOf (.identifier "o") [⟨"Some", some "n", .record [("x", .identifier "n"),
        ("y", .integer 1)]⟩, ⟨"None", none, .record [("x", .integer 0), ("y", .integer 0)]⟩])⟩]
    let decls' : List Declaration := [option, point, .function ⟨"main", ["u"], .lambda ["o"]
      (.caseOf (.identifier "o") [⟨"None", none, .record [("x", .integer 0), ("y", .integer 0)]⟩,
        ⟨"Some", some "n", .record [("y", .integer 1), ("x", .identifier "n")]⟩])⟩]
    ∃ program program', Program.ofDeclarations decls = .ok program ∧
      Program.ofDeclarations decls' = .ok program' ∧ program.Paired Expr.Rearranged program' ∧
      ∀ files debug nesting,
        (Context.runWith ⟨program, files, debug⟩
          (Context.evalWithin ⟨program, files, debug⟩ nesting) "main").Alike
          (Value.SameBut Expr.Rearranged) Eq
          (Context.runWith ⟨program', files, debug⟩
            (Context.evalWithin ⟨program', files, debug⟩ nesting) "main") := by
  intro option point decls decls'
  have hfields : (Term.record [("x", .identifier "n"), ("y", .integer 1)]).Rearranged
      (.record [("y", .integer 1), ("x", .identifier "n")]) :=
    .fields (.swap _ _ _) (.refl _)
  have harms : (Term.caseOf (.identifier "o")
      [⟨"Some", some "n", .record [("x", .identifier "n"), ("y", .integer 1)]⟩,
        ⟨"None", none, .record [("x", .integer 0), ("y", .integer 0)]⟩]).Rearranged
      (.caseOf (.identifier "o")
        [⟨"None", none, .record [("x", .integer 0), ("y", .integer 0)]⟩,
          ⟨"Some", some "n", .record [("y", .integer 1), ("x", .identifier "n")]⟩]) :=
    .arms (.swap _ _ _) (.of_node (.caseOf (.refl _)
      (.cons (.plain rfl ⟨nofun, .refl _⟩)
        (.cons (.capture (by decide) (by decide) ⟨by simp, hfields⟩) .nil))))
  have hbody := Term.Rearranged.of_node (.lambda_same ⟨@eq_of_mem_samePairs ["o"], harms⟩)
  have hdecls : List.Forall₂ Declaration.Rearranged decls decls' :=
    .cons (.type _) (.cons (.type _) (.cons (.function ⟨rfl, rfl, hbody⟩) .nil))
  have hok : (Program.ofDeclarations decls).toOption.isSome := by decide +kernel
  obtain ⟨program, hprogram⟩ := Option.isSome_iff_exists.1 hok
  have hprogram := toOption_eq_some.1 hprogram
  obtain ⟨haccepted, halike⟩ := alike_of_rearranging hdecls
  obtain ⟨program', hprogram'⟩ := haccepted.1 ⟨program, hprogram⟩
  obtain ⟨hpaired, hruns⟩ := halike program program' hprogram hprogram'
  exact ⟨program, program', hprogram, hprogram', hpaired, fun files debug nesting =>
    hruns files debug nesting "main"⟩

end Fern
