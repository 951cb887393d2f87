import Fern.Proofs.ResolveSteps
import Mathlib.Data.List.Nodup
import Mathlib.Data.List.Perm.Subperm

/-!
# What the arms of a match have to be

Resolution goes through the arms with the type of the first one and the numbers of the
variants that it has seen. What it accepts is said here without this state
(`branchesFor_eq_ok`): there are arms, all of them are for variants of one sum type,
no two for the same, and none is missing. The branches are then what the arms mean,
one by one.
-/

namespace Fern

/-! ## Constructors -/

/-- A handle refers to a sum type of the program, and a number to one of its
variants. -/
def Program.HasVariant (program : Program) (handle : TypeHandle) (index : Int) : Prop :=
  ∃ name variants, program.typeDef? handle = some ⟨name, .sum variants⟩ ∧
    0 ≤ index ∧ index < variants.length

/-- What a program knows as a constructor is a variant of one of its types. -/
theorem hasVariant_of_constructor? {program : Program} {name : String} {info : ConstructorInfo}
    (h : program.constructor? name = some info) : program.HasVariant info.handle info.index := by
  have hmem := List.mem_reverse.1 (mem_of_lookup h)
  obtain ⟨handled, hdef, hinfo⟩ := List.mem_flatMap.1 hmem
  obtain ⟨⟨variant, index⟩, hvar, hpair⟩ := List.mem_map.1 hinfo
  obtain ⟨⟨⟨typeName, body⟩, place⟩, hplace, rfl⟩ := List.mem_map.1 hdef
  cases hpair
  have hget : program.types[place]? = some ⟨typeName, body⟩ :=
    List.mk_mem_zipIdx_iff_getElem?.1 hplace
  have hlt : index < (TypeDef.mk typeName body).variants.length := by
    simpa using (List.mem_zipIdx hvar).2.1
  cases body with
  | record fields => exact absurd hlt (Nat.not_lt_zero _)
  | sum variants =>
      refine ⟨typeName, variants, ?_, Int.natCast_nonneg index, Int.ofNat_lt.2 hlt⟩
      rw [Program.typeDef?, TypeHandle.find?, if_pos (Int.natCast_nonneg place)]
      exact hget

/-! ## Numbers and names -/

/-- The numbers of so many variants. -/
def places (count : Nat) : List Int := (List.range count).map fun place : Nat => (place : Int)

theorem nodup_places (count : Nat) : (places count).Nodup := by
  have hinjective : Function.Injective fun place : Nat => (place : Int) :=
    fun _ _ h => Int.ofNat.inj h
  exact List.nodup_range.map hinjective

theorem mem_places {count : Nat} {index : Int} :
    index ∈ places count ↔ ∃ place : Nat, place < count ∧ index = place := by
  simp only [places, List.mem_map, List.mem_range, eq_comm]

/-- The constructor of an arm stands in a list of names at the number of a branch. -/
def NamesAt {α : Type} (names : List String) (arm : Arm α) (branch : Branch Expr) : Prop :=
  ∃ place : Nat, names[place]? = some arm.constructor ∧ branch.index = place

section Names

variable {α : Type} {names : List String} {arms : List (Arm α)} {branches : List (Branch Expr)}

/-- The constructors of the arms are a matter of the numbers of the branches. -/
theorem map_constructor_of_namesAt (h : List.Forall₂ (NamesAt names) arms branches) :
    arms.map (·.constructor) =
      (branches.map (·.index)).map fun index => (names[index.toNat]?).getD "" := by
  rw [List.map_map]
  refine map_eq_of_forall₂ h fun arm branch hn => ?_
  obtain ⟨place, hplace, hindex⟩ := hn
  rw [Function.comp_apply, hindex, Int.toNat_natCast, hplace, Option.getD_some]

theorem map_getElem_places (names : List String) :
    ((places names.length).map fun index => (names[index.toNat]?).getD "") = names := by
  refine List.ext_getElem (by simp [places]) fun place hp hp' => ?_
  simp [places, hp']

/-- Arms name all of a list, each once, exactly if the branches have all numbers. -/
theorem names_perm_iff (hnodup : names.Nodup) (h : List.Forall₂ (NamesAt names) arms branches) :
    ((arms.map (·.constructor)).Nodup ∧ (arms.map (·.constructor)).Perm names) ↔
      (branches.map (·.index)).Perm (places names.length) := by
  rw [map_constructor_of_namesAt h]
  constructor
  · rintro ⟨hdistinct, hperm⟩
    -- There are as many different numbers as there are names.
    have hsub : branches.map (·.index) ⊆ places names.length := by
      intro index hm
      obtain ⟨branch, hb, rfl⟩ := List.mem_map.1 hm
      obtain ⟨_, _, place, hplace, hindex⟩ := exists_mem_of_forall₂ h hb
      exact mem_places.2 ⟨place, (List.getElem?_eq_some_iff.1 hplace).1, hindex⟩
    refine (List.subperm_of_subset (.of_map _ hdistinct) hsub).perm_of_length_le ?_
    simpa [places] using Nat.le_of_eq hperm.length_eq.symm
  · intro hperm
    have hnames := hperm.map fun index => (names[index.toNat]?).getD ""
    rw [map_getElem_places] at hnames
    exact ⟨hnames.nodup_iff.2 hnodup, hnames⟩

end Names

/-! ## Arms -/

section Arms

variable {env : Env}

theorem armFor_eq_ok {soFar : ArmsSoFar} {head : String} {info : ConstructorInfo} :
    armFor env soFar head = .ok info ↔ env.program.constructor? head = some info ∧
      (∀ handle, soFar.handle = some handle → handle = info.handle) ∧
      info.index ∉ soFar.seen := by
  constructor
  · intro h
    rw [armFor] at h
    split at h
    · cases h
    · next found hfound =>
      split at h
      · cases h
      · next hforeign =>
        split at h
        · cases h
        · next hseen =>
          cases h
          refine ⟨hfound, fun handle hh => ?_, by simpa using hseen⟩
          rw [hh] at hforeign
          simpa using hforeign
  · rintro ⟨hfound, hsame, hnew⟩
    have hforeign : soFar.handle.filter (· != info.handle) = none := by
      rw [Option.filter_eq_none_iff]
      intro handle hh
      simpa using hsame handle hh
    simp only [armFor, hfound, hforeign]
    exact if_neg fun hm => hnew (List.contains_iff_mem.1 hm)

/-- The constructor of an arm is a variant of the given type, and a branch has the
number of this variant. -/
def ArmNames {α : Type} (program : Program) (handle : TypeHandle) (arm : Arm α)
    (branch : Branch Expr) : Prop :=
  ∃ info, program.constructor? arm.constructor = some info ∧ info.handle = handle ∧
    branch.index = info.index

/-- A branch is what an arm means in a match over the given type. -/
structure BranchOf (program : Program) (handle : TypeHandle) (arm : ResolvedArm)
    (branch : Branch Expr) : Prop where
  names : ArmNames program handle arm branch
  body : arm.body = .ok branch.body
  binding : branch.binding = captureOf arm.binding

/-- Once there is a type, all arms are for variants of it, and each one is for a
variant that has not been seen. -/
theorem branchesFrom_eq_ok {handle : TypeHandle} {seen : List Nat} (hseen : seen.Nodup)
    {all : ArmsSoFar} {arms : List ResolvedArm} {branches : List (Branch Expr)} :
    branchesFrom env ⟨some handle, seen⟩ arms = .ok (all, branches) ↔
      List.Forall₂ (BranchOf env.program handle) arms branches ∧
      all = ⟨some handle, (branches.map (·.index.toNat)).reverse ++ seen⟩ ∧ all.seen.Nodup := by
  induction arms generalizing seen branches with
  | nil =>
      simp only [branchesFrom, Except.ok.injEq, Prod.mk.injEq, List.forall₂_nil_left_iff]
      constructor
      · rintro ⟨rfl, rfl⟩
        exact ⟨rfl, rfl, hseen⟩
      · rintro ⟨rfl, rfl, -⟩
        exact ⟨rfl, rfl⟩
  | cons arm rest ih =>
      simp only [branchesFrom, bind_eq_ok, pure_eq_ok, Prod.exists, Prod.mk.injEq]
      constructor
      · rintro ⟨info, hinfo, body, hbody, all', others, hrest, rfl, rfl⟩
        obtain ⟨hconstructor, hsame, hnew⟩ := armFor_eq_ok.1 hinfo
        cases hsame handle rfl
        obtain ⟨hbranches, rfl, hnodup⟩ := (ih (List.nodup_cons.2 ⟨hnew, hseen⟩)).1 hrest
        refine ⟨.cons ⟨⟨info, hconstructor, rfl, rfl⟩, hbody, rfl⟩ hbranches, ?_, hnodup⟩
        simp
      · rintro ⟨hbranches, rfl, hnodup⟩
        obtain ⟨branch, others, ⟨⟨info, hconstructor, rfl, hindex⟩, hbody, hbinding⟩, hothers,
          rfl⟩ := List.forall₂_cons_left_iff.1 hbranches
        have hmoved : ((branch :: others).map (·.index.toNat)).reverse ++ seen =
            (others.map (·.index.toNat)).reverse ++ info.index :: seen := by
          simp [hindex]
        have hnext := (List.nodup_append.1 (hmoved ▸ hnodup)).2.1
        refine ⟨info, armFor_eq_ok.2 ⟨hconstructor, fun _ hh => (Option.some.inj hh).symm,
          (List.nodup_cons.1 hnext).1⟩, branch.body, hbody, _, others,
          (ih hnext).2 ⟨hothers, congrArg _ hmoved, hnodup⟩, rfl, ?_⟩
        rw [← hindex, ← hbinding]

/-- The first arm says what the type is. -/
theorem branchesFrom_first {arm : ResolvedArm} {info : ConstructorInfo}
    (h : env.program.constructor? arm.constructor = some info) (rest : List ResolvedArm) :
    branchesFrom env {} (arm :: rest) =
      branchesFrom env ⟨some info.handle, []⟩ (arm :: rest) := by
  have hfirst : armFor env ⟨some info.handle, []⟩ arm.constructor = .ok info :=
    armFor_eq_ok.2 ⟨h, fun _ hh => (Option.some.inj hh).symm, List.not_mem_nil⟩
  have hnone : armFor env {} arm.constructor = .ok info :=
    armFor_eq_ok.2 ⟨h, nofun, List.not_mem_nil⟩
  rw [branchesFrom, branchesFrom, hfirst, hnone]

/-- No variant is missing if all have been seen. -/
theorem missingVariants_isEmpty {handle : TypeHandle} {name : String} {variants : List Variant}
    (hdef : env.program.typeDef? handle = some ⟨name, .sum variants⟩) {seen : List Nat} :
    (missingVariants env handle seen).isEmpty = true ↔ ∀ place < variants.length, place ∈ seen := by
  rw [missingVariants, hdef, List.isEmpty_iff, List.map_eq_nil_iff, List.filter_eq_nil_iff]
  constructor
  · intro h place hp
    have hmem : (variants[place], place) ∈ variants.zipIdx :=
      List.mk_mem_zipIdx_iff_getElem?.2 (List.getElem?_eq_getElem hp)
    simpa using h _ hmem
  · rintro h ⟨variant, place⟩ hmem
    have hplace := List.mk_mem_zipIdx_iff_getElem?.1 hmem
    simpa using h place (List.getElem?_eq_some_iff.1 hplace).1

/-- A branch has the number of a variant. -/
theorem lt_of_branchOf {handle : TypeHandle} {name : String} {variants : List Variant}
    (hdef : env.program.typeDef? handle = some ⟨name, .sum variants⟩) {arms : List ResolvedArm}
    {branches : List (Branch Expr)} (h : List.Forall₂ (BranchOf env.program handle) arms branches)
    {branch : Branch Expr} (hb : branch ∈ branches) :
    ∃ place : Nat, place < variants.length ∧ branch.index = place := by
  obtain ⟨_, _, ⟨info, hinfo, rfl, hindex⟩, _, _⟩ := exists_mem_of_forall₂ h hb
  obtain ⟨_, _, hown, -, hlt⟩ := hasVariant_of_constructor? hinfo
  cases hdef.symm.trans hown
  exact ⟨info.index, Int.ofNat_lt.1 hlt, hindex⟩

/-- The numbers of branches are those of variants, so no two are the same if no two
variants are. -/
theorem nodup_numbers {handle : TypeHandle} {arms : List ResolvedArm}
    {branches : List (Branch Expr)} (h : List.Forall₂ (BranchOf env.program handle) arms branches) :
    (branches.map (·.index.toNat)).Nodup ↔ (branches.map (·.index)).Nodup := by
  have hnumbers : branches.map (·.index) =
      (branches.map (·.index.toNat)).map fun number : Nat => (number : Int) := by
    rw [List.map_map]
    refine List.map_congr_left fun branch hb => ?_
    obtain ⟨_, _, ⟨info, _, _, hindex⟩, _, _⟩ := exists_mem_of_forall₂ h hb
    rw [Function.comp_apply, hindex, Int.toNat_natCast]
  have hinjective : Function.Injective fun number : Nat => (number : Int) :=
    fun _ _ h => Int.ofNat.inj h
  rw [hnumbers, List.nodup_map_iff hinjective]

/-- The arms of a match that is accepted are for the variants of one sum type, for
each of them and for none twice. -/
theorem branchesFor_eq_ok {arms : List ResolvedArm} {branches : List (Branch Expr)} :
    branchesFor env arms = .ok branches ↔ arms ≠ [] ∧
      ∃ handle name variants, env.program.typeDef? handle = some ⟨name, .sum variants⟩ ∧
        List.Forall₂ (BranchOf env.program handle) arms branches ∧
        (branches.map (·.index)).Perm (places variants.length) := by
  cases arms with
  | nil => exact ⟨nofun, fun h => absurd rfl h.1⟩
  | cons arm rest =>
  simp only [branchesFor, bind_eq_ok, Prod.exists]
  constructor
  · rintro ⟨all, found, hfrom, hrest⟩
    have hfirst := hfrom
    simp only [branchesFrom, bind_eq_ok] at hfirst
    obtain ⟨info, hinfo, -⟩ := hfirst
    have hconstructor := (armFor_eq_ok.1 hinfo).1
    obtain ⟨name, variants, hdef, -⟩ := hasVariant_of_constructor? hconstructor
    rw [branchesFrom_first hconstructor] at hfrom
    obtain ⟨hbranches, rfl, hnodup⟩ := (branchesFrom_eq_ok .nil).1 hfrom
    rw [List.append_nil] at hnodup hrest
    split at hrest
    · cases ‹some info.handle = none›
    · next handle hhandle =>
      cases hhandle
      split at hrest
      · next hmissing =>
        cases hrest
        have hdistinct := (nodup_numbers hbranches).1 (List.nodup_reverse.1 hnodup)
        refine ⟨List.cons_ne_nil _ _, info.handle, name, variants, hdef, hbranches, ?_⟩
        refine (List.perm_ext_iff_of_nodup hdistinct (nodup_places _)).2 fun index => ?_
        rw [mem_places]
        constructor
        · intro hm
          obtain ⟨branch, hb, rfl⟩ := List.mem_map.1 hm
          exact lt_of_branchOf hdef hbranches hb
        · rintro ⟨place, hp, rfl⟩
          have hplace := (missingVariants_isEmpty hdef).1 hmissing place hp
          obtain ⟨branch, hb, hindex⟩ := List.mem_map.1 (List.mem_reverse.1 hplace)
          obtain ⟨_, _, heq⟩ := lt_of_branchOf hdef hbranches hb
          exact List.mem_map.2 ⟨branch, hb, by omega⟩
      · cases hrest
  · rintro ⟨-, handle, name, variants, hdef, hbranches, hnumbers⟩
    obtain ⟨_, _, ⟨⟨info, hconstructor, rfl, _⟩, _, _⟩, _, _⟩ :=
      List.forall₂_cons_left_iff.1 hbranches
    refine ⟨⟨some info.handle, (branches.map (·.index.toNat)).reverse ++ []⟩, branches, ?_, ?_⟩
    · rw [branchesFrom_first hconstructor]
      refine (branchesFrom_eq_ok .nil).2 ⟨hbranches, rfl, ?_⟩
      rw [List.append_nil]
      have hdistinct := hnumbers.nodup_iff.2 (nodup_places _)
      exact List.nodup_reverse.2 ((nodup_numbers hbranches).2 hdistinct)
    · refine if_pos ((missingVariants_isEmpty hdef).2 fun place hp => ?_)
      have hmem := hnumbers.mem_iff.2 (mem_places.2 ⟨place, hp, rfl⟩)
      obtain ⟨branch, hb, hindex⟩ := List.mem_map.1 hmem
      rw [List.append_nil, List.mem_reverse]
      exact List.mem_map.2 ⟨branch, hb, by rw [hindex, Int.toNat_natCast]⟩

end Arms

end Fern
