import Fern.Proofs.ResolveSteps
import Mathlib.Data.List.Nodup
import Mathlib.Data.List.Perm.Basic

/-!
# What type declarations are accepted

Declarations of types are gone through in order, with a list of the names and
constructors that are taken already. What comes of it does not depend on the
order: `TypeDecl.resolve` gives the same definition whatever is taken, as long as
its own constructors are not, and it needs the names of the other types only to
know that they exist. So a list of declarations is accepted exactly if all type
names and all constructors are different and each declaration means a definition
by itself. That is `TypeTable`.
-/

namespace Fern

/-! ## More names -/

mutual

/-- A written type that means something still means it where more names are
known. -/
theorem TypeTerm.resolve_mono {known known' : List String} (hsub : known ⊆ known') {t : TypeTerm}
    {type : TypeInfo} (h : t.resolve known = .ok type) : t.resolve known' = .ok type := by
  match t with
  | .name n =>
      rw [TypeTerm.resolve] at h ⊢
      split at h
      · next hn =>
        rw [if_pos (List.contains_iff_mem.2 (hsub (List.contains_iff_mem.1 hn)))]
        exact h
      · cases h
  | .tuple items =>
      simp only [TypeTerm.resolve, bind_eq_ok] at h ⊢
      obtain ⟨types, htypes, hrest⟩ := h
      exact ⟨types, TypeTerm.resolveAll_mono hsub htypes, hrest⟩
  | .function param result =>
      simp only [TypeTerm.resolve, bind_eq_ok] at h ⊢
      obtain ⟨p, hp, r, hr, hrest⟩ := h
      exact ⟨p, TypeTerm.resolve_mono hsub hp, r, TypeTerm.resolve_mono hsub hr, hrest⟩
  | .other tag content => exact h

theorem TypeTerm.resolveAll_mono {known known' : List String} (hsub : known ⊆ known')
    {ts : List TypeTerm} {types : List TypeInfo} (h : TypeTerm.resolveAll known ts = .ok types) :
    TypeTerm.resolveAll known' ts = .ok types := by
  match ts with
  | [] => exact h
  | t :: rest =>
      simp only [TypeTerm.resolveAll, bind_eq_ok] at h ⊢
      obtain ⟨type, htype, others, hothers, hrest⟩ := h
      exact ⟨type, TypeTerm.resolve_mono hsub htype, others,
        TypeTerm.resolveAll_mono hsub hothers, hrest⟩

end

/-- A type that is written is known by its name, or it is a tuple or a
function. -/
theorem TypeTerm.name?_of_resolve {known : List String} {t : TypeTerm} {type : TypeInfo}
    (h : t.resolve known = .ok type) {name : String} (hname : type.name? = some name) :
    name ∈ known ∨ name = "Tuple" ∨ name = "Function" := by
  cases t with
  | name n =>
      rw [TypeTerm.resolve] at h
      split at h
      · next hn =>
        cases h
        cases hname
        exact .inl (List.contains_iff_mem.1 hn)
      · cases h
  | tuple items =>
      simp only [TypeTerm.resolve, bind_eq_ok, pure_eq_ok] at h
      obtain ⟨types, _, rfl⟩ := h
      cases hname
      exact .inr (.inl rfl)
  | function param result =>
      simp only [TypeTerm.resolve, bind_eq_ok, pure_eq_ok] at h
      obtain ⟨p, _, r, _, rfl⟩ := h
      cases hname
      exact .inr (.inr rfl)
  | other tag content => cases h

theorem payload_mono {known known' : List String} (hsub : known ⊆ known')
    {payload : Option TypeTerm} {type : Option TypeInfo}
    (h : payload.mapM (TypeTerm.resolve known) = .ok type) :
    payload.mapM (TypeTerm.resolve known') = .ok type := by
  cases payload with
  | none => exact h
  | some t =>
      simp only [Option.mapM_some, map_eq_pure_bind, bind_eq_ok] at h ⊢
      obtain ⟨a, ha, hrest⟩ := h
      exact ⟨a, t.resolve_mono hsub ha, hrest⟩

/-! ## One declaration -/

/-- Going through declarations none of which may have a name that is taken: what comes of it is
what comes of each of them, and the names of all are different and new. -/
theorem eachNew_eq_ok {decl result : Type} (name : decl → String) (name' : result → String)
    (resolve : List String → List decl → Except ResolveError (List result))
    {means : decl → result → Prop} (hname : ∀ {d r}, means d r → name d = name' r)
    (hnil : ∀ taken, resolve taken [] = .ok [])
    (htaken : ∀ {taken d} rest results, name d ∈ taken → resolve taken (d :: rest) ≠ .ok results)
    (hcons : ∀ {taken d} rest results, name d ∉ taken → (resolve taken (d :: rest) = .ok results ↔
      ∃ r others, means d r ∧ resolve (name d :: taken) rest = .ok others ∧ r :: others = results))
    {taken : List String} {decls : List decl} {results : List result} :
    resolve taken decls = .ok results ↔ List.Forall₂ means decls results ∧
      (results.map name').Nodup ∧ ∀ r ∈ results, name' r ∉ taken := by
  induction decls generalizing taken results with
  | nil =>
      rw [hnil, List.forall₂_nil_left_iff]
      constructor
      · rintro ⟨⟩
        exact ⟨rfl, .nil, fun _ hm => absurd hm List.not_mem_nil⟩
      · rintro ⟨rfl, -⟩
        rfl
  | cons d rest ih =>
      rw [List.forall₂_cons_left_iff]
      by_cases hfree : name d ∈ taken
      · refine ⟨fun h => absurd h (htaken rest results hfree), ?_⟩
        rintro ⟨⟨r, others, hr, -, rfl⟩, -, hnew⟩
        exact absurd (hname hr ▸ hfree) (hnew r List.mem_cons_self)
      · rw [hcons rest results hfree]
        simp only [ih]
        constructor
        · rintro ⟨r, others, hr, ⟨hothers, hnodup, hnew⟩, rfl⟩
          refine ⟨⟨r, others, hr, hothers, rfl⟩, List.nodup_cons.2 ⟨fun hm => ?_, hnodup⟩,
            List.forall_mem_cons.2 ⟨hname hr ▸ hfree, fun other ho => ?_⟩⟩
          · obtain ⟨other, ho, heq⟩ := List.mem_map.1 hm
            exact hnew other ho (heq.trans (hname hr).symm ▸ List.mem_cons_self)
          · exact List.not_mem_of_not_mem_cons (hnew other ho)
        · rintro ⟨⟨r, others, hr, hothers, rfl⟩, hnodup, hnew⟩
          obtain ⟨hfirst, hnodup⟩ := List.nodup_cons.1 hnodup
          obtain ⟨_, hnew⟩ := List.forall_mem_cons.1 hnew
          refine ⟨r, others, hr, ⟨hothers, hnodup, fun other ho => ?_⟩, rfl⟩
          refine List.not_mem_cons_of_ne_of_not_mem (fun heq => ?_) (hnew other ho)
          exact hfirst (List.mem_map.2 ⟨other, ho, heq.trans (hname hr)⟩)

/-- The variants of a declaration, whatever is taken: their constructors must not
be. -/
theorem resolveVariants_eq_ok {known taken : List String} {decls : List VariantDecl}
    {variants : List Variant} :
    resolveVariants known taken decls = .ok variants ↔
      List.Forall₂ (fun decl variant => decl.name = variant.name ∧
        decl.payload.mapM (TypeTerm.resolve known) = .ok variant.payload) decls variants ∧
      (variants.map (·.name)).Nodup ∧ ∀ variant ∈ variants, variant.name ∉ taken := by
  refine eachNew_eq_ok VariantDecl.name Variant.name (resolveVariants known) And.left
    (fun _ => rfl) (fun rest variants htaken h => ?_) fun rest variants hfree => ?_
  · rw [resolveVariants, if_pos (List.contains_iff_mem.2 htaken)] at h
    cases h
  · simp only [resolveVariants, if_neg fun hm => hfree (List.contains_iff_mem.1 hm), bind_eq_ok,
      pure_eq_ok]
    constructor
    · rintro ⟨payload, hpayload, others, hothers, rfl⟩
      exact ⟨_, others, ⟨rfl, hpayload⟩, hothers, rfl⟩
    · rintro ⟨⟨name, payload⟩, others, ⟨hname, hpayload⟩, hothers, rfl⟩
      cases hname
      exact ⟨payload, hpayload, others, hothers, rfl⟩

/-- The fields of a record, some of which have been declared. -/
theorem resolveFields_eq_ok {known taken : List String} {record : String} {decls : List FieldDecl}
    {fields : List FieldDef} :
    Fern.resolveFields known record taken decls = .ok fields ↔
      List.Forall₂ (fun decl field => decl.name = field.name ∧
        decl.type.resolve known = .ok field.type) decls fields ∧
      (fields.map (·.name)).Nodup ∧ ∀ field ∈ fields, field.name ∉ taken := by
  refine eachNew_eq_ok FieldDecl.name FieldDef.name (Fern.resolveFields known record) And.left
    (fun _ => rfl) (fun rest fields htaken h => ?_) fun rest fields hfree => ?_
  · rw [Fern.resolveFields, if_pos (List.contains_iff_mem.2 htaken)] at h
    cases h
  · simp only [Fern.resolveFields, if_neg fun hm => hfree (List.contains_iff_mem.1 hm), bind_eq_ok,
      pure_eq_ok]
    constructor
    · rintro ⟨type, htype, others, hothers, rfl⟩
      exact ⟨_, others, ⟨rfl, htype⟩, hothers, rfl⟩
    · rintro ⟨⟨name, type⟩, others, ⟨hname, htype⟩, hothers, rfl⟩
      cases hname
      exact ⟨type, htype, others, hothers, rfl⟩

theorem TypeDecl.name_of_resolve {known taken : List String} {decl : TypeDecl} {def_ : TypeDef}
    (h : decl.resolve known taken = .ok def_) : def_.name = decl.name := by
  rw [TypeDecl.resolve] at h
  split at h
  · simp only [bind_eq_ok, pure_eq_ok] at h
    obtain ⟨variants, _, rfl⟩ := h
    rfl
  · simp only [bind_eq_ok, pure_eq_ok] at h
    obtain ⟨fields, _, rfl⟩ := h
    rfl

/-- A record type comes from a declaration of one. -/
theorem TypeDecl.of_resolve_record {known taken : List String} {decl : TypeDecl} {name : String}
    {fields : List FieldDef} (h : decl.resolve known taken = .ok ⟨name, .record fields⟩) :
    ∃ decls, decl = ⟨name, .record decls⟩ ∧
      Fern.resolveFields known name [] decls = .ok fields := by
  obtain ⟨declName, body⟩ := decl
  cases body with
  | sum variants =>
      simp only [TypeDecl.resolve, bind_eq_ok, pure_eq_ok, TypeDef.mk.injEq, reduceCtorEq,
        and_false, exists_false] at h
  | record decls =>
      simp only [TypeDecl.resolve, bind_eq_ok, pure_eq_ok] at h
      obtain ⟨fields', hfields, heq⟩ := h
      cases heq
      exact ⟨decls, rfl, hfields⟩

/-- What a declaration means does not depend on what is taken. Its constructors
must differ from one another and must not be taken. -/
theorem TypeDecl.resolve_eq_ok {known taken : List String} {decl : TypeDecl} {def_ : TypeDef} :
    decl.resolve known taken = .ok def_ ↔ decl.resolve known [] = .ok def_ ∧
      (def_.variants.map (·.name)).Nodup ∧ ∀ variant ∈ def_.variants, variant.name ∉ taken := by
  rw [TypeDecl.resolve, TypeDecl.resolve]
  split
  · simp only [bind_eq_ok, pure_eq_ok, resolveVariants_eq_ok]
    constructor
    · rintro ⟨variants, ⟨hmeans, hnodup, hnew⟩, rfl⟩
      exact ⟨⟨variants, ⟨hmeans, hnodup, fun _ _ => List.not_mem_nil⟩, rfl⟩, hnodup, hnew⟩
    · rintro ⟨⟨variants, ⟨hmeans, hnodup, _⟩, rfl⟩, -, hnew⟩
      exact ⟨variants, ⟨hmeans, hnodup, hnew⟩, rfl⟩
  · simp only [bind_eq_ok, pure_eq_ok]
    refine ⟨?_, And.left⟩
    rintro ⟨fields, hfields, rfl⟩
    exact ⟨⟨fields, hfields, rfl⟩, .nil, fun _ hm => absurd hm List.not_mem_nil⟩

theorem TypeDecl.resolve_mono {known known' taken : List String} (hsub : known ⊆ known')
    {decl : TypeDecl} {def_ : TypeDef} (h : decl.resolve known taken = .ok def_) :
    decl.resolve known' taken = .ok def_ := by
  rw [TypeDecl.resolve] at h ⊢
  split at h
  · simp only [bind_eq_ok, resolveVariants_eq_ok] at h ⊢
    obtain ⟨variants, ⟨hmeans, hrest⟩, hdef⟩ := h
    exact ⟨variants, ⟨hmeans.imp fun _ _ hm => ⟨hm.1, payload_mono hsub hm.2⟩, hrest⟩, hdef⟩
  · simp only [bind_eq_ok, resolveFields_eq_ok] at h ⊢
    obtain ⟨fields, ⟨hmeans, hrest⟩, hdef⟩ := h
    exact ⟨fields, ⟨hmeans.imp fun _ _ hm => ⟨hm.1, TypeTerm.resolve_mono hsub hm.2⟩, hrest⟩, hdef⟩

/-! ## Lists of declarations -/

theorem checkTypeNames_eq_ok {taken : List String} {decls : List TypeDecl} :
    checkTypeNames taken decls = .ok () ↔ (decls.map (·.name)).Nodup ∧
      ∀ decl ∈ decls, decl.name ∉ taken ∧ decl.name ∉ TypeInfo.primitives := by
  induction decls generalizing taken with
  | nil => exact ⟨fun _ => ⟨.nil, fun _ hm => absurd hm List.not_mem_nil⟩, fun _ => rfl⟩
  | cons decl rest ih =>
      rw [checkTypeNames, List.map_cons, List.nodup_cons, List.forall_mem_cons]
      simp only [Bool.or_eq_true, List.contains_iff_mem]
      split
      · next htaken =>
        refine ⟨fun h => (nomatch h), ?_⟩
        rintro ⟨-, hfree, -⟩
        exact absurd htaken (not_or.2 hfree)
      · next htaken =>
        rw [ih]
        constructor
        · rintro ⟨hnodup, hrest⟩
          refine ⟨⟨fun hm => ?_, hnodup⟩, not_or.1 htaken, fun other ho => ⟨fun hm => ?_, ?_⟩⟩
          · obtain ⟨other, ho, heq⟩ := List.mem_map.1 hm
            exact (hrest other ho).1 (heq ▸ List.mem_append_right _ List.mem_cons_self)
          · exact (hrest other ho).1 (List.mem_append_left _ hm)
          · exact (hrest other ho).2
        · rintro ⟨⟨hfirst, hnodup⟩, -, hrest⟩
          refine ⟨hnodup, fun other ho => ⟨fun hm => ?_, (hrest other ho).2⟩⟩
          rcases List.mem_append.1 hm with hm | hm
          · exact (hrest other ho).1 hm
          · exact hfirst (List.mem_map.2 ⟨other, ho, List.mem_singleton.1 hm⟩)

theorem constructorNames_append (types types' : List TypeDef) :
    constructorNames (types ++ types') = constructorNames types ++ constructorNames types' :=
  List.flatMap_append

theorem addTypeDecls_eq_ok {known : List String} {program typed : Program} {decls : List TypeDecl}
    (hprogram : (constructorNames program.types).Nodup) :
    addTypeDecls known program decls = .ok typed ↔ ∃ defs,
      List.Forall₂ (fun decl def_ => decl.resolve known [] = .ok def_) decls defs ∧
      (constructorNames (program.types ++ defs)).Nodup ∧
      typed = { program with types := program.types ++ defs } := by
  induction decls generalizing program with
  | nil =>
      rw [addTypeDecls]
      constructor
      · rintro ⟨⟩
        refine ⟨[], .nil, ?_, ?_⟩
        · rwa [List.append_nil]
        · rw [List.append_nil]
      · rintro ⟨defs, hdefs, -, rfl⟩
        cases hdefs
        rw [List.append_nil]
  | cons decl rest ih =>
      have hone : ∀ def_ : TypeDef, (constructorNames (program.types ++ [def_])).Nodup ↔
          (def_.variants.map (·.name)).Nodup ∧
          ∀ variant ∈ def_.variants, variant.name ∉ constructorNames program.types := by
        intro def_
        rw [constructorNames_append, constructorNames, constructorNames, List.flatMap_singleton,
          List.nodup_append]
        refine ⟨fun h => ⟨h.2.1, fun variant hv hm => ?_⟩, fun h => ⟨hprogram, h.1, ?_⟩⟩
        · exact h.2.2 _ hm _ (List.mem_map.2 ⟨variant, hv, rfl⟩) rfl
        · rintro name hm _ hm' rfl
          obtain ⟨variant, hv, rfl⟩ := List.mem_map.1 hm'
          exact h.2 variant hv hm
      simp only [addTypeDecls, bind_eq_ok]
      constructor
      · rintro ⟨def_, hdef, hrest⟩
        obtain ⟨halone, hnew⟩ := TypeDecl.resolve_eq_ok.1 hdef
        obtain ⟨defs, hdefs, hnodup, rfl⟩ := (ih ((hone def_).2 hnew)).1 hrest
        refine ⟨def_ :: defs, .cons halone hdefs, ?_, ?_⟩
        · rwa [List.append_cons]
        · rw [List.append_cons]
          rfl
      · rintro ⟨_ | ⟨def_, defs⟩, hdefs, hnodup, rfl⟩
        · cases hdefs
        · obtain ⟨halone, hdefs⟩ := List.forall₂_cons.1 hdefs
          rw [List.append_cons] at hnodup
          have hfirst : (constructorNames (program.types ++ [def_])).Nodup := by
            rw [constructorNames_append] at hnodup
            exact hnodup.of_append_left
          refine ⟨def_, TypeDecl.resolve_eq_ok.2 ⟨halone, (hone def_).1 hfirst⟩, ?_⟩
          refine (@ih (program.addType def_) hfirst).2 ⟨defs, hdefs, hnodup, ?_⟩
          rw [List.append_cons]
          rfl

/-! ## Tables of types -/

/-- The names that written types may use in a list of declarations. -/
def typeNames (decls : List TypeDecl) : List String := TypeInfo.primitives ++ decls.map (·.name)

/-- Definitions are what declarations mean: all type names and all constructors
are different, and no type has the name of a primitive one. -/
structure TypeTable (decls : List TypeDecl) (types : List TypeDef) : Prop where
  resolved :
    List.Forall₂ (fun decl def_ => decl.resolve (typeNames decls) [] = .ok def_) decls types
  names : (types.map (·.name)).Nodup
  primitives : ∀ def_ ∈ types, def_.name ∉ TypeInfo.primitives
  constructors : (constructorNames types).Nodup

namespace TypeTable

variable {decls decls' : List TypeDecl} {types types' : List TypeDef}

theorem names_eq {known : List String}
    (h : List.Forall₂ (fun (decl : TypeDecl) def_ => decl.resolve known [] = .ok def_)
      decls types) :
    types.map (·.name) = decls.map (·.name) :=
  (map_eq_of_forall₂ h fun _ _ hd => (TypeDecl.name_of_resolve hd).symm).symm

/-- Declarations alone are accepted exactly if they make a table. -/
theorem of_declareTypes {typed : Program} :
    Program.empty.declareTypes decls = .ok typed ↔
      TypeTable decls typed.types ∧ typed.definitions = [] := by
  have hknown : knownTypes Program.empty decls = typeNames decls := by
    rw [knownTypes, typeNames]
    simp [Program.empty]
  have hempty : (constructorNames Program.empty.types).Nodup := List.nodup_nil
  simp only [Program.declareTypes, bind_eq_ok, hknown]
  constructor
  · rintro ⟨⟨⟩, hnames, hadd⟩
    obtain ⟨hnodup, hfree⟩ := checkTypeNames_eq_ok.1 hnames
    obtain ⟨defs, hdefs, hconstructors, rfl⟩ := (addTypeDecls_eq_ok hempty).1 hadd
    refine ⟨⟨hdefs, ?_, fun def_ hd => ?_, hconstructors⟩, rfl⟩
    · exact names_eq hdefs ▸ hnodup
    · obtain ⟨decl, hm, hr⟩ := exists_mem_of_forall₂ hdefs hd
      exact TypeDecl.name_of_resolve hr ▸ (hfree decl hm).2
  · rintro ⟨h, hdefinitions⟩
    refine ⟨(), checkTypeNames_eq_ok.2 ⟨names_eq h.resolved ▸ h.names, fun decl hd => ?_⟩,
      (addTypeDecls_eq_ok hempty).2 ⟨typed.types, h.resolved, h.constructors, ?_⟩⟩
    · obtain ⟨def_, hm, hname⟩ := List.mem_map.1
        (names_eq h.resolved ▸ List.mem_map.2 ⟨decl, hd, rfl⟩)
      exact ⟨List.not_mem_nil, hname ▸ h.primitives def_ hm⟩
    · obtain ⟨definitions, types⟩ := typed
      subst hdefinitions
      rfl

/-- Declarations in another order make a table in another order. -/
theorem perm (h : TypeTable decls types) (hd : decls.Perm decls') :
    ∃ types', types.Perm types' ∧ TypeTable decls' types' := by
  have hsub : typeNames decls ⊆ typeNames decls' :=
    ((hd.map _).append_left TypeInfo.primitives).subset
  obtain ⟨types', hresolved, hperm⟩ := List.perm_comp_forall₂ hd.symm h.resolved
  refine ⟨types', hperm.symm, hresolved.imp fun _ _ hr => TypeDecl.resolve_mono hsub hr, ?_, ?_, ?_⟩
  · exact (hperm.map _).nodup_iff.2 h.names
  · exact fun def_ hm => h.primitives def_ (hperm.subset hm)
  · exact (hperm.flatMap_right _).nodup_iff.2 h.constructors

/-- There is one table of declarations. -/
theorem unique (h : TypeTable decls types) (h' : TypeTable decls types') : types = types' :=
  List.right_unique_forall₂' (fun _ _ _ hr hr' => Except.ok.inj (hr.symm.trans hr')) h.resolved
    h'.resolved

/-- More declarations make a table that goes on behind the one of the first. -/
theorem append {more : List TypeDecl} (h : TypeTable decls types)
    (h' : TypeTable (decls ++ more) types') : ∃ others, types' = types ++ others := by
  have hsub : typeNames decls ⊆ typeNames (decls ++ more) := by
    rw [typeNames, typeNames, List.map_append, ← List.append_assoc]
    exact List.subset_append_left _ _
  generalize hknown : typeNames (decls ++ more) = known at hsub
  have hprefix : ∀ {decls : List TypeDecl} {types types' : List TypeDef},
      List.Forall₂ (fun decl def_ => decl.resolve known [] = .ok def_) decls types →
      List.Forall₂ (fun decl def_ => decl.resolve known [] = .ok def_) (decls ++ more) types' →
      ∃ others, types' = types ++ others := by
    intro decls types types' hd hall
    induction hd generalizing types' with
    | nil => exact ⟨types', rfl⟩
    | cons hr _ ih =>
        obtain ⟨def_, rest, hr', hrest, rfl⟩ := List.forall₂_cons_left_iff.1 hall
        obtain ⟨others, rfl⟩ := ih hrest
        exact ⟨others, by rw [Except.ok.inj (hr.symm.trans hr'), List.cons_append]⟩
  exact hprefix (h.resolved.imp fun _ _ hr => TypeDecl.resolve_mono hsub hr)
    (hknown ▸ h'.resolved)

/-- A type that a field is declared with is primitive, a function, a tuple, or of
the table. -/
theorem fieldType (h : TypeTable decls types) {record : String} {fields : List FieldDef}
    (hr : ⟨record, .record fields⟩ ∈ types) {field : FieldDef} (hf : field ∈ fields) {name : String}
    (hname : field.type.name? = some name) :
    name ∈ TypeInfo.primitives ∨ name = "Tuple" ∨ name = "Function" ∨
      name ∈ types.map (·.name) := by
  obtain ⟨decl, _, hresolve⟩ := exists_mem_of_forall₂ h.resolved hr
  obtain ⟨fieldDecls, _, hfields⟩ := TypeDecl.of_resolve_record hresolve
  obtain ⟨fieldDecl, _, _, htype⟩ := exists_mem_of_forall₂ (resolveFields_eq_ok.1 hfields).1 hf
  rcases TypeTerm.name?_of_resolve htype hname with hm | ht | hf
  · rcases List.mem_append.1 hm with hp | hm
    · exact .inl hp
    · exact .inr (.inr (.inr (names_eq h.resolved ▸ hm)))
  · exact .inr (.inl ht)
  · exact .inr (.inr (.inl hf))

end TypeTable

end Fern
