import Fern.Proofs.ConsistentTypes
import Fern.Proofs.WrittenMatches

/-!
# Matches that split a type completely

Resolution goes through the arms of a match with the type of the first one and the
numbers that it has seen, and asks at the end whether a variant is missing. What it
accepts can be said without any order: the arms name the variants of one declared type,
all of them, and none twice. As many arms with different numbers below the number of
variants as there are variants have all of these numbers, so there is nothing else to
be checked.
-/

namespace Fern

/-- Arms for constructors split a declared type: they name its variants, in some order
and each of them once. -/
def TypeDecl.SplitBy (decl : TypeDecl) (heads : List String) : Prop :=
  heads.Nodup ∧ heads.Perm decl.constructors

/-- What is resolved of the arms of a match is a complete case split: the numbers are
those of all variants, and each branch has the number of the variant that its arm
names, and the capture and the body of this arm. -/
structure TypeDecl.ResolvesSplit (decl : TypeDecl) (arms : List ResolvedArm)
    (branches : List (Branch Expr)) : Prop where
  numbers : (branches.map (·.index)).Perm (places decl.constructors.length)
  branches : List.Forall₂ (fun arm branch => NamesAt decl.constructors arm branch ∧
    branch.binding = captureOf arm.binding ∧ arm.body = .ok branch.body) arms branches

namespace TypeTable

variable {decls : List TypeDecl} {env : Env} {arms : List ResolvedArm}
  {branches : List (Branch Expr)}

/-- No type has two variants of one name. -/
theorem nodup_constructors {types : List TypeDef} (h : TypeTable decls types) {decl : TypeDecl}
    (hd : decl ∈ decls) : decl.constructors.Nodup :=
  (List.nodup_flatMap.1 (constructorNames_eq h.resolved ▸ h.constructors)).1 decl hd

/-- An arm is for a variant of a type exactly if the declaration of this type has a
variant of that name. -/
theorem armNames_iff (h : TypeTable decls env.program.types) {number : Nat} {decl : TypeDecl}
    (hd : decls[number]? = some decl) {arm : ResolvedArm} {branch : Branch Expr} :
    ArmNames env.program ⟨number, decl.name⟩ arm branch ↔ NamesAt decl.constructors arm branch := by
  constructor
  · rintro ⟨info, hinfo, hhandle, hindex⟩
    obtain ⟨number', decl', index, variant, hd', hv, hname, rfl⟩ :=
      h.constructor?_eq_some_iff.1 hinfo
    simp only [TypeHandle.mk.injEq, Int.natCast_inj] at hhandle
    obtain ⟨rfl, -⟩ := hhandle
    cases hd.symm.trans hd'
    refine ⟨index, ?_, hindex⟩
    rw [TypeDecl.constructors, List.getElem?_map, hv, ← hname, Option.map_some]
  · rintro ⟨place, hplace, hindex⟩
    rw [TypeDecl.constructors, List.getElem?_map] at hplace
    obtain ⟨variant, hv, hname⟩ := Option.map_eq_some_iff.1 hplace
    exact ⟨_, h.constructor?_eq_some_iff.2 ⟨number, decl, place, variant, hd, hv, hname, rfl⟩, rfl,
      hindex⟩

/-- A match is accepted exactly if it is a complete case split of one declared type. -/
theorem branchesFor_iff (h : TypeTable decls env.program.types) :
    branchesFor env arms = .ok branches ↔
      arms ≠ [] ∧ ∃ decl ∈ decls, decl.ResolvesSplit arms branches := by
  rw [branchesFor_eq_ok]
  refine and_congr_right fun hne => ?_
  constructor
  · rintro ⟨handle, name, variants, hdef, hbranches, hnumbers⟩
    obtain ⟨number, decl, hd, rfl⟩ : ∃ (number : Nat) (decl : TypeDecl),
        decls[number]? = some decl ∧ handle = ⟨number, decl.name⟩ := by
      obtain ⟨arm, rest, rfl⟩ := List.exists_cons_of_ne_nil hne
      obtain ⟨_, _, ⟨⟨info, hinfo, rfl, _⟩, _, _⟩, _, _⟩ := List.forall₂_cons_left_iff.1 hbranches
      obtain ⟨number, decl, _, _, hd, _, _, rfl⟩ := h.constructor?_eq_some_iff.1 hinfo
      exact ⟨number, decl, hd, rfl⟩
    obtain ⟨def_, hplace, hresolve⟩ := h.getElem?_resolved hd
    cases hdef.symm.trans (Program.typeDef?_of_getElem? hplace _)
    have hlength : decl.constructors.length = variants.length :=
      (List.length_map _).trans (TypeDecl.variants_of_resolve hresolve).length_eq
    refine ⟨decl, List.mem_of_getElem? hd, hlength ▸ hnumbers, hbranches.imp fun _ _ hb => ?_⟩
    exact ⟨(h.armNames_iff hd).1 hb.names, hb.binding, hb.body⟩
  · rintro ⟨decl, hm, hnumbers, hbranches⟩
    obtain ⟨number, hd⟩ := List.mem_iff_getElem?.1 hm
    obtain ⟨⟨name, body⟩, hplace, hresolve⟩ := h.getElem?_resolved hd
    have hnames : List.Forall₂ (Fern.BranchOf env.program ⟨number, decl.name⟩) arms branches :=
      hbranches.imp fun _ _ hb => ⟨(h.armNames_iff hd).2 hb.1, hb.2.2, hb.2.1⟩
    -- Some arm names a variant, so the type is a sum type.
    obtain ⟨typeName, variants, hdef⟩ : ∃ typeName variants,
        env.program.typeDef? ⟨number, decl.name⟩ = some ⟨typeName, .sum variants⟩ := by
      obtain ⟨arm, rest, rfl⟩ := List.exists_cons_of_ne_nil hne
      obtain ⟨_, _, ⟨⟨info, hinfo, hhandle, _⟩, _, _⟩, _, _⟩ :=
        List.forall₂_cons_left_iff.1 hnames
      obtain ⟨typeName, variants, hdef, -⟩ := hasVariant_of_constructor? hinfo
      exact ⟨typeName, variants, hhandle ▸ hdef⟩
    cases hdef.symm.trans (Program.typeDef?_of_getElem? hplace _)
    have hlength : decl.constructors.length = variants.length :=
      (List.length_map _).trans (TypeDecl.variants_of_resolve hresolve).length_eq
    exact ⟨_, _, variants, hdef, hnames, hlength ▸ hnumbers⟩

/-- What is resolved to a complete split is written as one, and the other way round. -/
theorem splitBy_iff (h : TypeTable decls env.program.types) {decl : TypeDecl} (hd : decl ∈ decls)
    (hnames : List.Forall₂ (NamesAt decl.constructors) arms branches) :
    decl.SplitBy (arms.map (·.constructor)) ↔
      (branches.map (·.index)).Perm (places decl.constructors.length) :=
  names_perm_iff (h.nodup_constructors hd) hnames

/-- Arms that are written as a complete split are resolved to one if their bodies mean
something. -/
theorem exists_resolvesSplit (h : TypeTable decls env.program.types) {decl : TypeDecl}
    (hd : decl ∈ decls) (hsplit : decl.SplitBy (arms.map (·.constructor)))
    (hbodies : ∀ arm ∈ arms, ∃ body, arm.body = .ok body) :
    ∃ branches, decl.ResolvesSplit arms branches := by
  have hbranch : ∀ arm ∈ arms, ∃ branch, NamesAt decl.constructors arm branch ∧
      branch.binding = captureOf arm.binding ∧ arm.body = .ok branch.body := by
    intro arm ha
    obtain ⟨place, hplace⟩ :=
      List.mem_iff_getElem?.1 (hsplit.2.subset (List.mem_map_of_mem ha))
    obtain ⟨body, hbody⟩ := hbodies arm ha
    exact ⟨⟨place, captureOf arm.binding, body⟩, ⟨place, hplace, rfl⟩, rfl, hbody⟩
  obtain ⟨branches, hbranches⟩ := exists_forall₂_iff.2 hbranch
  exact ⟨branches, (h.splitBy_iff hd (hbranches.imp fun _ _ hb => hb.1)).1 hsplit, hbranches⟩

/-- What a match means is a complete case split of one declared type. -/
theorem resolve_caseOf_eq_ok (h : TypeTable decls env.program.types) {matchee : Term}
    {target : Expr} (hmatchee : matchee.resolve env = .ok target) {arms : List (Arm Term)}
    (hne : arms ≠ []) {e : Expr} :
    (Term.caseOf matchee arms).resolve env = .ok e ↔
      ∃ decl ∈ decls, ∃ branches, e = .caseOf target branches .unknown ∧
        decl.ResolvesSplit (Term.resolveArms env arms) branches := by
  have hsome : Term.resolveArms env arms ≠ [] := by
    rw [Term.resolveArms_eq_map]
    exact fun hnil => hne (List.map_eq_nil_iff.1 hnil)
  simp only [Term.resolve, hmatchee, bind_eq_ok, pure_eq_ok, Except.ok.injEq, exists_eq_left',
    h.branchesFor_iff]
  constructor
  · rintro ⟨branches, ⟨-, decl, hd, hs⟩, rfl⟩
    exact ⟨decl, hd, branches, rfl, hs⟩
  · rintro ⟨decl, hd, branches, rfl, hs⟩
    exact ⟨branches, ⟨hsome, decl, hd, hs⟩, rfl⟩

end TypeTable

theorem Term.map_constructor_resolveArms (env : Env) (arms : List (Arm Term)) :
    (Term.resolveArms env arms).map (·.constructor) = arms.map (·.constructor) := by
  rw [Term.resolveArms_eq_map, List.map_map]
  rfl

/-- A match whose parts mean something is accepted exactly if its arms are, in some
order and each of them once, for the variants of one declared type. It is then a match
over the numbers of these variants, each with the capture and the body of the arm
for it. The grammar has no match without arms. -/
theorem match_accepted_iff_complete {decls : List Declaration} {program : Program}
    (h : Program.ofDeclarations decls = .ok program) {env : Env}
    (henv : env.program.types = program.types) {matchee : Term} {target : Expr}
    (hmatchee : matchee.resolve env = .ok target) {arms : List (Arm Term)} (hne : arms ≠ [])
    (hbodies : ∀ arm ∈ arms, ∃ body,
      arm.body.resolve (env.withCapture (captureOf arm.binding)) = .ok body) :
    ((∃ e, (Term.caseOf matchee arms).resolve env = .ok e) ↔
      ∃ decl ∈ typeDecls decls, decl.SplitBy (arms.map (·.constructor))) ∧
    ∀ e, (Term.caseOf matchee arms).resolve env = .ok e →
      ∃ decl ∈ typeDecls decls, decl.SplitBy (arms.map (·.constructor)) ∧
        ∃ branches, e = .caseOf target branches .unknown ∧
          decl.ResolvesSplit (Term.resolveArms env arms) branches := by
  have htable : TypeTable (typeDecls decls) env.program.types :=
    henv ▸ (Program.Declared.of_ofDeclarations h).table
  have hsplit : ∀ {decl branches}, decl ∈ typeDecls decls →
      decl.ResolvesSplit (Term.resolveArms env arms) branches →
      decl.SplitBy (arms.map (·.constructor)) := fun hd hs =>
    Term.map_constructor_resolveArms env arms ▸
      (htable.splitBy_iff hd (hs.branches.imp fun _ _ hb => hb.1)).2 hs.numbers
  refine ⟨⟨?accepted, ?complete⟩, fun e he => ?_⟩
  case accepted =>
    rintro ⟨e, he⟩
    obtain ⟨decl, hd, branches, -, hs⟩ := (htable.resolve_caseOf_eq_ok hmatchee hne).1 he
    exact ⟨decl, hd, hsplit hd hs⟩
  case complete =>
    rintro ⟨decl, hd, hs⟩
    have hresolved : ∀ arm ∈ Term.resolveArms env arms, ∃ body, arm.body = .ok body := by
      rw [Term.resolveArms_eq_map, List.forall_mem_map]
      exact hbodies
    obtain ⟨branches, hbranches⟩ := htable.exists_resolvesSplit hd
      ((Term.map_constructor_resolveArms env arms).symm ▸ hs) hresolved
    exact ⟨_, (htable.resolve_caseOf_eq_ok hmatchee hne).2 ⟨decl, hd, branches, rfl, hbranches⟩⟩
  · obtain ⟨decl, hd, branches, rfl, hs⟩ := (htable.resolve_caseOf_eq_ok hmatchee hne).1 he
    exact ⟨decl, hd, hsplit hd hs, branches, rfl, hs⟩

/-- Three arms in another order than the variants, and without the first of them. -/
theorem match_accepted_iff_complete_shape :
    let decls : List Declaration :=
      [.type ⟨"Point", .record [⟨"x", .name "Int"⟩]⟩,
        .type ⟨"Shape", .sum [⟨"Circle", some (.name "Int")⟩, ⟨"Dot", some (.name "Point")⟩,
          ⟨"Empty", none⟩]⟩]
    let arms : List (Arm Term) :=
      [⟨"Empty", none, .integer 0⟩, ⟨"Dot", some "_", .identifier "s"⟩,
        ⟨"Circle", some "r", .identifier "r"⟩]
    ∃ program, Program.ofDeclarations decls = .ok program ∧
      (∃ e, (Term.caseOf (.identifier "s") arms).resolve ⟨program, ["s"], none⟩ = .ok e) ∧
      ¬∃ e, (Term.caseOf (.identifier "s") arms.tail).resolve ⟨program, ["s"], none⟩ = .ok e := by
  intro decls arms
  have hok : (Program.ofDeclarations decls).toOption.isSome := by decide +kernel
  obtain ⟨program, hprogram⟩ := Option.isSome_iff_exists.1 hok
  have hprogram := toOption_eq_some.1 hprogram
  have hmatchee : (Term.identifier "s").resolve ⟨program, ["s"], none⟩ =
      .ok (.symbol "s" .unknown) := rfl
  have hbodies : ∀ arm ∈ arms, ∃ body, arm.body.resolve
      (Env.withCapture ⟨program, ["s"], none⟩ (captureOf arm.binding)) = .ok body :=
    List.forall_mem_cons.2 ⟨⟨_, rfl⟩, List.forall_mem_cons.2 ⟨⟨_, rfl⟩,
      List.forall_mem_singleton.2 ⟨_, rfl⟩⟩⟩
  have hcomplete := (match_accepted_iff_complete hprogram rfl hmatchee (List.cons_ne_nil _ _)
    hbodies).1
  have hpartial := (match_accepted_iff_complete hprogram rfl hmatchee (List.cons_ne_nil _ _)
    fun arm ha => hbodies arm (List.mem_of_mem_tail ha)).1
  refine ⟨program, hprogram, hcomplete.2 ⟨_, List.mem_cons_of_mem _ List.mem_cons_self, ?_⟩,
    fun haccepted => ?_⟩
  · exact ⟨by decide, by decide⟩
  · obtain ⟨decl, hd, -, hperm⟩ := hpartial.1 haccepted
    have hlength := hperm.length_eq
    rcases List.mem_cons.1 hd with rfl | hd
    · cases hlength
    · cases List.mem_singleton.1 hd
      cases hlength

end Fern
