import Fern.Proofs.DeclaredProgram
import Mathlib.Logic.Equiv.Basic

/-!
# The order of declarations

Declarations in another order make the same program, except that its types have
other numbers. All types are known before any body is looked at, and so are the
names of all functions, and what is searched for among the types of a program is
there once: a type by its name, a constructor, the record type of a literal. So
each declaration means the same in both orders up to the numbers of types, and
evaluation does not depend on these.
-/

namespace Fern

/-! ## Numbers of types -/

/-- The permutation of all numbers but the first that is another one a place
further. -/
def shiftPerm (σ : Equiv.Perm ℕ) : Equiv.Perm ℕ where
  toFun
    | 0 => 0
    | n + 1 => σ n + 1
  invFun
    | 0 => 0
    | n + 1 => σ.symm n + 1
  left_inv n := by
    cases n with
    | zero => rfl
    | succ n => simp
  right_inv n := by
    cases n with
    | zero => rfl
    | succ n => simp

/-- Lists with the same members have them in places that a permutation takes to
one another. -/
theorem exists_perm_getElem? {α : Type} {l l' : List α} (h : l.Perm l') :
    ∃ σ : Equiv.Perm ℕ, ∀ i, l'[σ i]? = l[i]? := by
  induction h with
  | nil => exact ⟨Equiv.refl ℕ, fun _ => rfl⟩
  | cons a _ ih =>
      obtain ⟨σ, hσ⟩ := ih
      refine ⟨shiftPerm σ, fun i => ?_⟩
      cases i with
      | zero => rfl
      | succ i => exact hσ i
  | swap a b rest =>
      refine ⟨Equiv.swap 0 1, fun i => ?_⟩
      match i with
      | 0 => rw [Equiv.swap_apply_left]; rfl
      | 1 => rw [Equiv.swap_apply_right]; rfl
      | i + 2 => rw [Equiv.swap_apply_of_ne_of_ne (by omega) (by omega)]; rfl
  | trans _ _ ih ih' =>
      obtain ⟨σ, hσ⟩ := ih
      obtain ⟨τ, hτ⟩ := ih'
      exact ⟨σ.trans τ, fun i => (hτ (σ i)).trans (hσ i)⟩

/-- The handle for a type that has got another number. -/
def TypeHandle.renumber (σ : Equiv.Perm ℕ) (handle : TypeHandle) : TypeHandle :=
  { handle with index := if 0 ≤ handle.index then σ handle.index.toNat else handle.index }

/-- Expressions may differ in the numbers of types, which a permutation takes to
one another. -/
def Tolerance.renumbering (σ : Equiv.Perm ℕ) : Tolerance where
  handles handle handle' := handle' = handle.renumber σ
  types := Eq
  known _ := True

/-- Two faults are of one class: both are errors of one category that are blamed on
one kind of node, or both are the same refusal of the host. -/
inductive Fault.SameKind : Fault → Fault → Prop
  | failed {error error' : EvalError} (hcategory : error.category = error'.category)
      (hkind : error.nodeKind? = error'.nodeKind?) : SameKind (.failed error) (.failed error')
  | refusedPath : SameKind .refusedPath .refusedPath
  | refusedLimit (fault : LimitFault) : SameKind (.refusedLimit fault) (.refusedLimit fault)

theorem Fault.SameUpTo.sameKind {tol : Tolerance} {f f' : Fault} (h : f.SameUpTo tol f') :
    f.SameKind f' := by
  cases h with
  | same f =>
      cases f with
      | failed error => exact .failed rfl rfl
      | refusedPath => exact .refusedPath
      | refusedLimit fault => exact .refusedLimit fault
  | noBranch index hhandle => exact .failed rfl rfl
  | notSumType hhandle => exact .failed rfl rfl

namespace Program

variable {decls decls' : List Declaration} {program program' : Program}

/-! ## What the order leaves -/

theorem functionDecls_perm (h : decls.Perm decls') :
    (functionDecls decls).Perm (functionDecls decls') :=
  h.filterMap _

theorem functionNames_perm (h : decls.Perm decls') :
    (functionNames decls).Perm (functionNames decls') :=
  (functionDecls_perm h).map _

/-- Programs that know the same types and names in another order are within one
another. -/
theorem within_of_perm (hperm : decls.Perm decls') {types types' : List TypeDef}
    (hd : TypeTable (typeDecls decls) types) (hd' : TypeTable (typeDecls decls') types')
    (htypes : types.Perm types') {known known' : Program} (hk : known.KnowsOf decls types)
    (hk' : known'.KnowsOf decls' types') : known.Within True known' :=
  .of_tables hd hd' htypes.subset (fun _ => htypes.symm.subset) (functionNames_perm hperm).subset
    (fun _ hr _ => htypes.mem_iff.2 hr) hk hk'

/-- The types of a program are those of the declarations in another order. -/
theorem Declared.types_perm (h : program.Declared decls) (h' : program'.Declared decls')
    (hperm : decls.Perm decls') : program.types.Perm program'.types := by
  obtain ⟨types, htypes, htable⟩ := h.table.perm (hperm.filterMap _)
  exact htable.unique h'.table ▸ htypes

/-- Declarations in another order are accepted if they are in one order. -/
theorem ofDeclarations_perm (hperm : decls.Perm decls')
    (h : ofDeclarations decls = .ok program) :
    ∃ program', ofDeclarations decls' = .ok program' := by
  have hdeclared := Declared.of_ofDeclarations h
  obtain ⟨types', htypes, htable⟩ := hdeclared.table.perm (hperm.filterMap _)
  refine ofDeclarations_ok htable ((functionNames_perm hperm).nodup_iff.1 hdeclared.nodup)
    fun decl hd known' hk' => ?_
  have hm : decl ∈ functionDecls decls := (functionDecls_perm hperm).mem_iff.2 hd
  obtain ⟨other, ho, hname, known, hk, definition, _, hr⟩ :=
    hdeclared.function (List.mem_map.2 ⟨decl, hm, rfl⟩)
  obtain rfl := List.inj_on_of_nodup_map hdeclared.nodup ho hm hname
  exact (other.resolve_agrees (within_of_perm hperm hdeclared.table htable htypes hk hk') _ hr).1
    trivial

/-- Handles for one definition have numbers that the permutation of the types takes
to one another, and nothing else differs. -/
theorem within_renumbering {σ : Equiv.Perm ℕ} (hσ : ∀ i, program'.types[σ i]? = program.types[i]?)
    (hnames : (program'.types.map (·.name)).Nodup) :
    (tolerance True program program').Within (.renumbering σ) where
  handles {handle handle'} hh := by
    obtain ⟨i, hindex, rfl⟩ := Within.handle_eq (fun i _ hget => (hσ i).trans hget) hnames hh
    show _ = handle.renumber σ
    rw [TypeHandle.renumber, hindex, if_pos (Int.natCast_nonneg i), Int.toNat_natCast]
  types ht := by
    rcases ht.2 with rfl | ⟨hnot, _⟩
    · rfl
    · exact absurd trivial hnot
  known _ := trivial

theorem typeDef?_renumber {σ : Equiv.Perm ℕ}
    (hσ : ∀ i, program'.types[σ i]? = program.types[i]?) (handle : TypeHandle) :
    program.typeDef? handle = program'.typeDef? (handle.renumber σ) := by
  rw [typeDef?, typeDef?, TypeHandle.find?, TypeHandle.find?, TypeHandle.renumber]
  by_cases hindex : 0 ≤ handle.index
  · rw [if_pos hindex, if_pos hindex, if_pos (Int.natCast_nonneg _), Int.toNat_natCast, hσ]
  · rw [if_neg hindex, if_neg hindex, if_neg hindex]

/-- Programs of the same declarations in two orders are the same up to the numbers
of types. -/
theorem Declared.sameUpTo_renumbering (h : program.Declared decls) (h' : program'.Declared decls')
    (hperm : decls.Perm decls') {σ : Equiv.Perm ℕ}
    (hσ : ∀ i, program'.types[σ i]? = program.types[i]?) :
    program.SameUpTo (.renumbering σ) program' where
  typeDef hh := hh ▸ typeDef?_renumber hσ _
  name hh := by
    subst hh
    rfl
  defined {name} _ := by
    have hnames := functionNames_perm hperm
    by_cases hn : name ∈ functionNames decls
    · obtain ⟨decl, hd, hname, known, hk, definition, hf, hr⟩ := h.function hn
      obtain ⟨decl', hd', hname', known', hk', definition', hf', hr'⟩ :=
        h'.function (hnames.mem_iff.1 hn)
      obtain rfl := List.inj_on_of_nodup_map h.nodup hd
        ((functionDecls_perm hperm).mem_iff.2 hd') (hname.trans hname'.symm)
      have hwithin := within_of_perm hperm h.table h'.table (h.types_perm h' hperm) hk hk'
      have hsame := (decl.resolve_agrees hwithin _ hr).2 _ hr'
      rw [hf, hf']
      refine .some (hsame.mono (within_renumbering ?_ ?_))
      · rw [hk.types_eq, hk'.types_eq]
        exact hσ
      · rw [hk'.types_eq]
        exact h'.table.names
    · have hn' : name ∉ functionNames decls' := fun hm => hn (hnames.mem_iff.2 hm)
      by_cases hb : name ∈ Builtin.surfaceNames
      · obtain ⟨builtin, -, rfl⟩ := List.mem_map.1 hb
        rw [h.builtin builtin hn, h'.builtin builtin hn']
        exact .some (.of_node rfl .builtin)
      · have hnone : program.find? name = none :=
          Option.not_isSome_iff_eq_none.1 fun hs => ((h.knows.defined name).1 hs).elim hn hb
        have hnone' : program'.find? name = none :=
          Option.not_isSome_iff_eq_none.1 fun hs => ((h'.knows.defined name).1 hs).elim hn' hb
        rw [hnone, hnone']
        exact .none

end Program

/-- The order of declarations does not matter. Declarations stand for a program in
one order exactly if they do in another one. The two programs have the same types
in places that a permutation takes to one another, and they define the same names
as the same expressions once the types in these have got their new numbers. Every
entry writes the same in both and ends in the same way: with values that are the
same up to the numbers of types and are displayed in the same way, or with faults
of one class. -/
theorem alike_of_reordering {decls decls' : List Declaration} (hperm : decls.Perm decls') :
    ((∃ program, Program.ofDeclarations decls = .ok program) ↔
      ∃ program', Program.ofDeclarations decls' = .ok program') ∧
    ∀ program program', Program.ofDeclarations decls = .ok program →
      Program.ofDeclarations decls' = .ok program' →
      ∃ σ : Equiv.Perm ℕ, (∀ i, program'.types[σ i]? = program.types[i]?) ∧
        (∀ name, Option.Rel (fun definition definition' =>
          definition.expr.SameUpTo (.renumbering σ) [] definition'.expr)
          (program.find? name) (program'.find? name)) ∧
        ∀ files debug nesting entry,
          (Context.runWith ⟨program, files, debug⟩
            (Context.evalWithin ⟨program, files, debug⟩ nesting) entry).Alike
            (fun v v' => v.SameUpTo (.renumbering σ) v' ∧
              v.format program.types = v'.format program'.types)
            (fun f f' => f.SameUpTo (.renumbering σ) f' ∧ f.SameKind f')
            (Context.runWith ⟨program', files, debug⟩
              (Context.evalWithin ⟨program', files, debug⟩ nesting) entry) := by
  refine ⟨⟨fun ⟨_, h⟩ => Program.ofDeclarations_perm hperm h,
    fun ⟨_, h⟩ => Program.ofDeclarations_perm hperm.symm h⟩, fun program program' h h' => ?_⟩
  have hdeclared := Program.Declared.of_ofDeclarations h
  have hdeclared' := Program.Declared.of_ofDeclarations h'
  obtain ⟨σ, hσ⟩ := exists_perm_getElem? (hdeclared.types_perm hdeclared' hperm)
  have hsame := hdeclared.sameUpTo_renumbering hdeclared' hperm hσ
  refine ⟨σ, hσ, fun name => hsame.defined trivial, fun files debug nesting entry => ?_⟩
  exact (sameUpTo_runWith ⟨program, files, debug⟩ ⟨program', files, debug⟩ hsame rfl
    (fun _ => trivial) nesting entry).mono
      (fun v v' hv => ⟨hv, hv.format_eq fun hh => hsame.variantName hh⟩)
      fun f f' hf => ⟨hf, hf.sameKind⟩

/-- A function that uses two types, declared before them and behind them. -/
theorem alike_of_reordering_shapes :
    ∃ program program' : Program, ∃ σ : Equiv.Perm ℕ,
      Program.ofDeclarations
        [.type ⟨"Color", .sum [⟨"Red", none⟩, ⟨"Green", none⟩]⟩,
          .type ⟨"Shape", .sum [⟨"Dot", none⟩, ⟨"Box", some (.name "Color")⟩]⟩,
          .function ⟨"main", ["u"], .apply (.constructor "Box") [.constructor "Red"]⟩] =
        .ok program ∧
      Program.ofDeclarations
        [.function ⟨"main", ["u"], .apply (.constructor "Box") [.constructor "Red"]⟩,
          .type ⟨"Shape", .sum [⟨"Dot", none⟩, ⟨"Box", some (.name "Color")⟩]⟩,
          .type ⟨"Color", .sum [⟨"Red", none⟩, ⟨"Green", none⟩]⟩] =
        .ok program' ∧
      (∀ i, program'.types[σ i]? = program.types[i]?) ∧
      ∀ files debug nesting,
        (Context.runWith ⟨program, files, debug⟩
          (Context.evalWithin ⟨program, files, debug⟩ nesting) "main").Alike
          (fun v v' => v.SameUpTo (.renumbering σ) v' ∧
            v.format program.types = v'.format program'.types)
          (fun f f' => f.SameUpTo (.renumbering σ) f' ∧ f.SameKind f')
          (Context.runWith ⟨program', files, debug⟩
            (Context.evalWithin ⟨program', files, debug⟩ nesting) "main") := by
  have hok : (Program.ofDeclarations
      [.type ⟨"Color", .sum [⟨"Red", none⟩, ⟨"Green", none⟩]⟩,
        .type ⟨"Shape", .sum [⟨"Dot", none⟩, ⟨"Box", some (.name "Color")⟩]⟩,
        .function ⟨"main", ["u"], .apply (.constructor "Box") [.constructor "Red"]⟩]).toOption.isSome
      := by decide +kernel
  obtain ⟨program, hprogram⟩ := Option.isSome_iff_exists.1 hok
  have hprogram := toOption_eq_some.1 hprogram
  obtain ⟨haccepted, halike⟩ := alike_of_reordering (List.reverse_perm
    [.type ⟨"Color", .sum [⟨"Red", none⟩, ⟨"Green", none⟩]⟩,
      .type ⟨"Shape", .sum [⟨"Dot", none⟩, ⟨"Box", some (.name "Color")⟩]⟩,
      .function ⟨"main", ["u"], .apply (.constructor "Box") [.constructor "Red"]⟩]).symm
  obtain ⟨program', hprogram'⟩ := haccepted.1 ⟨program, hprogram⟩
  obtain ⟨σ, htypes, _, hruns⟩ := halike program program' hprogram hprogram'
  exact ⟨program, program', σ, hprogram, hprogram', htypes, fun files debug nesting =>
    hruns files debug nesting "main"⟩

end Fern
