import Fern.Proofs.DeclaredProgram

/-!
# Matches as they are written

Resolution turns every arm of a match into the number of a variant; the names of
the constructors and the type that they belong to are gone. By then it has checked
that the arms name the variants of one sum type, each of them once. So the numbers
say as much as the names did: the branch with a number is that of the arm which is
written for the variant with that number, wherever the arm stands in the match.
-/

namespace Fern

/-- A tree occurs in another one. -/
inductive Term.Within (t : Term) : Term → Prop
  | here : Within t t
  | part {u part : Term} (mem : part ∈ u.parts) (within : Within t part) : Within t u

/-- Arms name the variants of a sum type, each of them once, and nothing but
constructors of this type. -/
structure Program.TakesApart (program : Program) (arms : List (Arm Term)) (handle : TypeHandle)
    (variants : List Variant) : Prop where
  declared : ∃ name, program.typeDef? handle = some ⟨name, .sum variants⟩
  named : (arms.map (·.constructor)).Perm (variants.map (·.name))
  owned : ∀ arm ∈ arms, ∃ info, program.constructor? arm.constructor = some info ∧
    info.handle = handle

/-- Some function among the declarations contains a match with these arms, and what
they mean in a program that knows the same is these branches. -/
structure Program.Written (program : Program) (decls : List Declaration) (arms : List (Arm Term))
    (branches : List (Branch Expr)) : Prop where
  occurs : ∃ decl ∈ functionDecls decls, ∃ matchee, (Term.caseOf matchee arms).Within decl.body
  resolved : ∃ env : Env, env.program.KnowsSame program ∧
    branchesFor env (Term.resolveArms env arms) = .ok branches

/-- Branches are what some match among the declarations means. -/
def Program.IsWritten (program : Program) (decls : List Declaration)
    (branches : List (Branch Expr)) : Prop :=
  ∃ arms, program.Written decls arms branches

/-- A branch has the capture of an arm, and its body is what that of the arm means
in a program that knows the same. -/
def Program.ArmMeans (program : Program) (arm : Arm Term) (branch : Branch Expr) : Prop :=
  branch.binding = captureOf arm.binding ∧ ∃ env : Env, env.program.KnowsSame program ∧
    arm.body.resolve (env.withCapture branch.binding) = .ok branch.body

/-- The branch of the arm that is written for the variant with a number: the arm
names that variant of the type which the arms take apart. -/
def Program.BranchFor (program : Program) (decls : List Declaration)
    (branches : List (Branch Expr)) (index : Int) (branch : Branch Expr) : Prop :=
  ∃ arms handle variants, program.Written decls arms branches ∧
    program.TakesApart arms handle variants ∧
    ∃ (place : Nat) (variant : Variant), index = place ∧ variants[place]? = some variant ∧
      ∃ arm, (arm, branch) ∈ arms.zip branches ∧ arm.constructor = variant.name ∧
        program.ArmMeans arm branch

/-! ## Arms and variants -/

namespace Program

variable {program : Program}

/-- What a program knows as a constructor has a place among the variants of its
type. -/
theorem variant_of_constructor? {name : String} {info : ConstructorInfo}
    (h : program.constructor? name = some info) {typeName : String} {variants : List Variant}
    (hdef : program.typeDef? info.handle = some ⟨typeName, .sum variants⟩) :
    ∃ variant, variants[info.index]? = some variant ∧ variant.name = name := by
  obtain ⟨place, def_, hplace, index, variant, hvariant, hname, rfl⟩ :=
    mem_constructors.1 (List.mem_reverse.1 (mem_of_lookup h))
  rw [typeDef?_of_getElem? hplace] at hdef
  cases hdef
  exact ⟨variant, hvariant, hname⟩

/-- A variant of a sum type is what a program knows as the constructor of its
name. -/
theorem constructor?_of_variant (hnodup : (constructorNames program.types).Nodup)
    {handle : TypeHandle} {typeName : String} {variants : List Variant}
    (hdef : program.typeDef? handle = some ⟨typeName, .sum variants⟩) {place : Nat}
    {variant : Variant} (hvariant : variants[place]? = some variant) :
    ∃ info, program.constructor? variant.name = some info ∧ info.index = place := by
  obtain ⟨typePlace, _, hplace⟩ := getElem?_of_typeDef? hdef
  exact ⟨_, constructor?_of_mem hnodup (mem_constructors.2
    ⟨typePlace, _, hplace, place, variant, hvariant, rfl, rfl⟩), rfl⟩

variable {decls : List Declaration} {arms : List (Arm Term)} {branches : List (Branch Expr)}

/-- A written match takes a sum type apart, its branches have different numbers, and
each one has that of the variant which its arm names. -/
theorem Written.takesApart (h : program.Written decls arms branches)
    (hnodup : (constructorNames program.types).Nodup) :
    ∃ handle variants, program.TakesApart arms handle variants ∧
      (branches.map (·.index)).Nodup ∧
      List.Forall₂ (ArmNames program handle) arms branches := by
  obtain ⟨env, hsame, hbranches⟩ := h.resolved
  obtain ⟨-, handle, name, variants, hdef, hmeans, hnumbers⟩ := branchesFor_eq_ok.1 hbranches
  rw [Term.resolveArms_eq_map, List.forall₂_map_left_iff] at hmeans
  have hnames : List.Forall₂ (ArmNames program handle) arms branches := by
    refine hmeans.imp fun arm branch hb => ?_
    obtain ⟨info, hinfo, hrest⟩ := hb.names
    exact ⟨info, (constructor?_congr hsame.types _).symm.trans hinfo, hrest⟩
  rw [typeDef?, hsame.types, ← typeDef?] at hdef
  have hplaced : List.Forall₂ (NamesAt (variants.map (·.name))) arms branches := by
    refine hnames.imp fun arm branch hb => ?_
    obtain ⟨info, hinfo, rfl, hindex⟩ := hb
    obtain ⟨variant, hvariant, hname⟩ := variant_of_constructor? hinfo hdef
    exact ⟨info.index, by rw [List.getElem?_map, hvariant, ← hname, Option.map_some], hindex⟩
  have hdistinct : (variants.map (·.name)).Nodup := by
    obtain ⟨place, _, hplace⟩ := getElem?_of_typeDef? hdef
    exact (List.nodup_flatMap.1 hnodup).1 _ (List.mem_of_getElem? hplace)
  rw [← List.length_map (·.name)] at hnumbers
  have hnamed := ((names_perm_iff hdistinct hplaced).2 hnumbers).2
  refine ⟨handle, variants, ⟨⟨name, hdef⟩, hnamed, fun arm ha => ?_⟩,
    hnumbers.nodup_iff.2 (nodup_places _), hnames⟩
  obtain ⟨branch, _, info, hinfo, hhandle, _⟩ := exists_mem_of_forall₂ hnames.flip ha
  exact ⟨info, hinfo, hhandle⟩

/-- The branches of a written match are what its arms mean. -/
theorem Written.armMeans (h : program.Written decls arms branches) {arm : Arm Term}
    {branch : Branch Expr} (hzip : (arm, branch) ∈ arms.zip branches) :
    program.ArmMeans arm branch := by
  obtain ⟨env, hsame, hbranches⟩ := h.resolved
  obtain ⟨-, handle, name, variants, -, hmeans, -⟩ := branchesFor_eq_ok.1 hbranches
  rw [Term.resolveArms_eq_map, List.forall₂_map_left_iff] at hmeans
  obtain ⟨-, hbody, hbinding⟩ := (List.forall₂_iff_zip.1 hmeans).2 hzip
  exact ⟨hbinding, env, hsame, hbinding ▸ hbody⟩

/-- The branch of the arm for a variant is the one that is found by its number. -/
theorem branchFor_iff (hnodup : (constructorNames program.types).Nodup)
    (h : program.Written decls arms branches) {index : Int} {branch : Branch Expr} :
    program.BranchFor decls branches index branch ↔
      branches.find? (·.index == index) = some branch := by
  constructor
  · rintro ⟨arms, handle, variants, hw, ⟨⟨name, hdef⟩, _, _⟩, place, variant, rfl, hvariant, arm,
      hzip, hname, _⟩
    obtain ⟨handle', variants', _, hindices, hnames⟩ := hw.takesApart hnodup
    obtain ⟨info, hinfo, _, hindex⟩ := (List.forall₂_iff_zip.1 hnames).2 hzip
    obtain ⟨info', hinfo', rfl⟩ := constructor?_of_variant hnodup hdef hvariant
    rw [hname, hinfo'] at hinfo
    cases hinfo
    rw [← hindex]
    exact find?_of_nodup hindices (List.of_mem_zip hzip).2
  · intro hfound
    obtain ⟨handle, variants, ht, _, hnames⟩ := h.takesApart hnodup
    obtain ⟨name, hdef⟩ := ht.declared
    obtain ⟨hlength, hzipped⟩ := List.forall₂_iff_zip.1 hnames
    have hmem : branch ∈ (arms.zip branches).map Prod.snd := by
      rw [List.map_snd_zip (Nat.le_of_eq hlength.symm)]
      exact List.mem_of_find?_eq_some hfound
    obtain ⟨⟨arm, branch⟩, hzip, rfl⟩ := List.mem_map.1 hmem
    obtain ⟨info, hinfo, rfl, hindex⟩ := hzipped hzip
    obtain ⟨variant, hvariant, hname⟩ := variant_of_constructor? hinfo hdef
    have hequal : branch.index = index := by simpa using List.find?_some hfound
    exact ⟨arms, info.handle, variants, h, ht, info.index, variant, hequal ▸ hindex, hvariant, arm,
      hzip, hname.symm, h.armMeans hzip⟩

/-- There is a branch for each variant of the type that the arms take apart, and for
no other number. -/
theorem Written.exists_branchFor (h : program.Written decls arms branches)
    (hnodup : (constructorNames program.types).Nodup) :
    ∃ handle variants, program.TakesApart arms handle variants ∧
      ∀ index, (∃ branch, program.BranchFor decls branches index branch) ↔
        0 ≤ index ∧ index < variants.length := by
  obtain ⟨handle, variants, ht, _, hnames⟩ := h.takesApart hnodup
  obtain ⟨name, hdef⟩ := ht.declared
  refine ⟨handle, variants, ht, fun index => ⟨?_, fun hindex => ?_⟩⟩
  · rintro ⟨branch, hbranch⟩
    have hfound := (branchFor_iff hnodup h).1 hbranch
    obtain ⟨arm, _, info, hinfo, rfl, hnumber⟩ :=
      exists_mem_of_forall₂ hnames (List.mem_of_find?_eq_some hfound)
    obtain ⟨variant, hvariant, _⟩ := variant_of_constructor? hinfo hdef
    have hlt := (List.getElem?_eq_some_iff.1 hvariant).1
    have hequal : branch.index = index := by simpa using List.find?_some hfound
    omega
  · have hlt : index.toNat < variants.length := by omega
    have hnamed : variants[index.toNat].name ∈ arms.map (·.constructor) :=
      ht.named.mem_iff.2 (List.mem_map.2 ⟨_, List.getElem_mem hlt, rfl⟩)
    obtain ⟨arm, ha, hname⟩ := List.mem_map.1 hnamed
    have hmem : arm ∈ (arms.zip branches).map Prod.fst := by
      rwa [List.map_fst_zip (Nat.le_of_eq hnames.length_eq)]
    obtain ⟨⟨arm, branch⟩, hzip, rfl⟩ := List.mem_map.1 hmem
    exact ⟨branch, arms, handle, variants, h, ht, index.toNat, variants[index.toNat], by omega,
      List.getElem?_eq_getElem hlt, arm, hzip, hname, h.armMeans hzip⟩

end Program

/-! ## Where matches come from -/

/-- The branches of every match in an expression have a property. -/
def Expr.BranchesAll (p : List (Branch Expr) → Prop) (e : Expr) : Prop :=
  e.All fun
    | .caseOf _ branches _ => p branches
    | _ => True

variable {env : Env} {p : List (Branch Expr) → Prop}

theorem Expr.BranchesAll.curry {params : List String} {body : Expr} (h : body.BranchesAll p) :
    (Fern.curry params body).BranchesAll p :=
  Expr.All.curry (fun _ _ => trivial) h

/-- Every match in what a tree means comes from a match in that tree. -/
theorem Term.branchesAll_of_resolve {t : Term} {e : Expr} (h : t.resolve env = .ok e)
    (hp : ∀ (env' : Env) (matchee : Term) (arms : List (Arm Term)) branches,
      env'.program = env.program → (Term.caseOf matchee arms).Within t →
      branchesFor env' (Term.resolveArms env' arms) = .ok branches → p branches) :
    e.BranchesAll p := by
  have hall : t.All fun _ => True := .of_forall (fun _ => trivial) t
  induction hall generalizing env e with
  | @intro t _ _ ih =>
  by_cases hlambda : ∃ params body, t = .lambda params body
  · obtain ⟨params, body, rfl⟩ := hlambda
    simp only [Term.resolve, bind_eq_ok, pure_eq_ok] at h
    obtain ⟨b, hb, rfl⟩ := h
    refine .curry (ih body List.mem_cons_self hb fun env' matchee arms branches henv hw => ?_)
    rw [Env.withLocals_eq] at henv
    exact hp env' matchee arms branches henv (.part List.mem_cons_self hw)
  by_cases hconstructor : ∃ name, t = .constructor name
  · obtain ⟨name, rfl⟩ := hconstructor
    exact resolveConstructor_all h (fun _ _ _ => trivial) (fun _ _ _ => trivial) fun _ => trivial
  simp only [not_exists] at hlambda hconstructor
  refine .intro ?_ fun part hm => ?_
  · cases e with
    | caseOf matchee branches type =>
        obtain ⟨matchee', arms, rfl, hbranches⟩ := Term.root_of_resolve h hlambda
        exact hp env matchee' arms branches rfl .here hbranches
    | _ => trivial
  · obtain ⟨t', ht', hr⟩ := Term.part_of_resolve h hconstructor hlambda hm
    refine ih t' ht' hr fun env' matchee arms branches henv hw => ?_
    rw [Env.withCapture_eq] at henv
    exact hp env' matchee arms branches henv (.part ht' hw)

/-- Every match in a program that declarations stand for comes from a match in
them. -/
theorem Program.branchesAll_written {decls : List Declaration} {program : Program}
    (h : Program.ofDeclarations decls = .ok program) {name : String} {definition : Definition}
    (hf : program.find? name = some definition) :
    definition.expr.BranchesAll (program.IsWritten decls) := by
  rcases Program.definition_cases h hf with ⟨builtin, rfl⟩ | ⟨decl, hm, known, hsame, _, hr⟩
  · exact .leaf rfl trivial
  · simp only [FunctionDecl.resolve, bind_eq_ok] at hr
    obtain ⟨body, hbody, hrest⟩ := hr
    split at hrest
    · rw [← Except.ok.inj hrest]
      refine .curry (Term.branchesAll_of_resolve hbody fun env matchee arms branches henv hw hb => ?_)
      rw [Env.withLocals_eq] at henv
      exact ⟨arms, ⟨decl, hm, matchee, hw⟩, env, henv ▸ hsame, hb⟩
    · cases hrest

end Fern
