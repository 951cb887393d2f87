import Fern.Proofs.FromText
import Fern.Proofs.SharedTypes
import Mathlib.Data.Set.Function

/-!
# Type declarations that are consistent

What a list of type declarations has to be for a program to have these types can be
said of the declarations as they are written: `ConsistentTypes` mentions names and
nothing else. It is the same as that there is a table of types, since a written type
means something exactly if all names in it are known. The grammar comes in for one
reason only: it builds no types of forms that resolution does not know.

The table that comes of it numbers the types as the declarations stand. The names of
the constructors and the places of the variants, each a handle with a number, are
then in one-to-one correspondence.
-/

namespace Fern

/-! ## Names in written types -/

/-- A name is used in a written type. -/
inductive TypeTerm.Uses (name : String) : TypeTerm → Prop
  | here : Uses name (.name name)
  | item {items : List TypeTerm} {item : TypeTerm} (mem : item ∈ items) (h : Uses name item) :
      Uses name (.tuple items)
  | param {param result : TypeTerm} (h : Uses name param) : Uses name (.function param result)
  | result {param result : TypeTerm} (h : Uses name result) : Uses name (.function param result)

theorem TypeTerm.resolveAll_eq_mapM (known : List String) (ts : List TypeTerm) :
    TypeTerm.resolveAll known ts = ts.mapM (TypeTerm.resolve known) := by
  induction ts with
  | nil => rfl
  | cons t rest ih => rw [TypeTerm.resolveAll, List.mapM_cons, ih]

/-- A written type means something exactly if all names in it are known. -/
theorem TypeTerm.resolves_iff {known : List String} {t : TypeTerm} (hwf : t.WellFormed) :
    (∃ type, t.resolve known = .ok type) ↔ ∀ name, t.Uses name → name ∈ known := by
  induction hwf with
  | @name n _ =>
      rw [TypeTerm.resolve]
      split
      · next hn =>
        constructor
        · intro _ name hu
          cases hu
          exact List.contains_iff_mem.1 hn
        · exact fun _ => ⟨_, rfl⟩
      · next hn =>
        constructor
        · rintro ⟨_, h⟩
          cases h
        · exact fun h => absurd (List.contains_iff_mem.2 (h n .here)) hn
  | @tuple items _ _ ih =>
      have hall : (∃ type, (TypeTerm.tuple items).resolve known = .ok type) ↔
          ∃ types, List.Forall₂ (fun item type => item.resolve known = .ok type) items types := by
        simp only [TypeTerm.resolve, TypeTerm.resolveAll_eq_mapM, bind_eq_ok, pure_eq_ok,
          mapM_eq_ok]
        constructor
        · rintro ⟨_, types, h, -⟩
          exact ⟨types, h⟩
        · rintro ⟨types, h⟩
          exact ⟨_, types, h, rfl⟩
      rw [hall, exists_forall₂_iff]
      constructor
      · rintro h name (_ | ⟨hm, hu⟩)
        exact (ih _ hm).1 (h _ hm) name hu
      · exact fun h item hm => (ih item hm).2 fun name hu => h name (.item hm hu)
  | @function param result _ _ ihparam ihresult =>
      have hboth : (∃ type, (TypeTerm.function param result).resolve known = .ok type) ↔
          (∃ type, param.resolve known = .ok type) ∧ ∃ type, result.resolve known = .ok type := by
        simp only [TypeTerm.resolve, bind_eq_ok, pure_eq_ok]
        constructor
        · rintro ⟨_, p, hp, r, hr, -⟩
          exact ⟨⟨p, hp⟩, r, hr⟩
        · rintro ⟨⟨p, hp⟩, r, hr⟩
          exact ⟨_, p, hp, r, hr, rfl⟩
      rw [hboth, ihparam, ihresult]
      constructor
      · rintro ⟨hparam, hresult⟩ name (_ | _ | hu | hu)
        · exact hparam name hu
        · exact hresult name hu
      · exact fun h => ⟨fun name hu => h name (.param hu), fun name hu => h name (.result hu)⟩

/-! ## One declaration -/

namespace TypeDecl

/-- The variants that a declaration declares. -/
def variants (decl : TypeDecl) : List VariantDecl :=
  match decl.body with
  | .sum variants => variants
  | .record _ => []

/-- The constructors that a declaration declares. -/
def constructors (decl : TypeDecl) : List String := decl.variants.map (·.name)

/-- The fields that a declaration declares. -/
def fields (decl : TypeDecl) : List FieldDecl :=
  match decl.body with
  | .sum _ => []
  | .record fields => fields

/-- The types that are written in a declaration: those of payloads and of fields. -/
def written (decl : TypeDecl) : List TypeTerm :=
  decl.variants.filterMap (·.payload) ++ decl.fields.map (·.type)

/-- The variants of what a declaration means are those that it declares, with a
payload where one is written. -/
theorem variants_of_resolve {known taken : List String} {decl : TypeDecl} {def_ : TypeDef}
    (h : decl.resolve known taken = .ok def_) :
    List.Forall₂ (fun written variant => written.name = variant.name ∧
      written.payload.mapM (TypeTerm.resolve known) = .ok variant.payload) decl.variants
      def_.variants := by
  obtain ⟨name, body⟩ := decl
  cases body with
  | sum written =>
      simp only [TypeDecl.resolve, bind_eq_ok, pure_eq_ok] at h
      obtain ⟨variants, hvariants, rfl⟩ := h
      exact (resolveVariants_eq_ok.1 hvariants).1
  | record written =>
      simp only [TypeDecl.resolve, bind_eq_ok, pure_eq_ok] at h
      obtain ⟨fields, -, rfl⟩ := h
      exact .nil

theorem payload_resolves_iff {known : List String} {payload : Option TypeTerm} :
    (∃ type, payload.mapM (TypeTerm.resolve known) = .ok type) ↔
      ∀ t ∈ payload, ∃ type, t.resolve known = .ok type := by
  cases payload with
  | none => exact ⟨fun _ t ht => absurd ht (Option.not_mem_none t), fun _ => ⟨none, rfl⟩⟩
  | some t =>
      simp only [Option.mapM_some, map_eq_pure_bind, bind_eq_ok, pure_eq_ok, Option.mem_some_iff,
        forall_eq']
      constructor
      · rintro ⟨_, type, h, -⟩
        exact ⟨type, h⟩
      · rintro ⟨type, h⟩
        exact ⟨_, type, h, rfl⟩

theorem payload_isSome {known : List String} {payload : Option TypeTerm} {type : Option TypeInfo}
    (h : payload.mapM (TypeTerm.resolve known) = .ok type) : type.isSome = payload.isSome := by
  cases payload with
  | none =>
      cases h
      rfl
  | some t =>
      simp only [Option.mapM_some, map_eq_pure_bind, bind_eq_ok, pure_eq_ok] at h
      obtain ⟨type, -, rfl⟩ := h
      rfl

/-- A declaration by itself means a type if its constructors are different, its
fields are too, and every written type means something. -/
theorem resolves_iff {known : List String} {decl : TypeDecl} :
    (∃ def_, decl.resolve known [] = .ok def_) ↔
      decl.constructors.Nodup ∧ (decl.fields.map (·.name)).Nodup ∧
        ∀ t ∈ decl.written, ∃ type, t.resolve known = .ok type := by
  obtain ⟨name, body⟩ := decl
  cases body with
  | sum written =>
      have hmeans : (∃ made : List Variant, List.Forall₂ (fun variant made =>
          variant.name = made.name ∧
            variant.payload.mapM (TypeTerm.resolve known) = .ok made.payload) written made) ↔
          ∀ t ∈ written.filterMap (·.payload), ∃ type, t.resolve known = .ok type := by
        rw [exists_forall₂_iff]
        constructor
        · intro h t ht
          obtain ⟨variant, hm, hpayload⟩ := List.mem_filterMap.1 ht
          obtain ⟨made, -, hmade⟩ := h variant hm
          exact payload_resolves_iff.1 ⟨_, hmade⟩ t hpayload
        · intro h variant hm
          obtain ⟨payload, hpayload⟩ := payload_resolves_iff.2 fun t ht =>
            h t (List.mem_filterMap.2 ⟨variant, hm, ht⟩)
          exact ⟨⟨variant.name, payload⟩, rfl, hpayload⟩
      simp only [TypeDecl.resolve, TypeDecl.written, constructors, variants, fields, bind_eq_ok,
        pure_eq_ok, resolveVariants_eq_ok, List.map_nil, List.append_nil, ← hmeans]
      constructor
      · rintro ⟨_, made, ⟨hall, hnodup, -⟩, -⟩
        exact ⟨map_eq_of_forall₂ hall (fun _ _ h => h.1) ▸ hnodup, .nil, made, hall⟩
      · rintro ⟨hnodup, -, made, hall⟩
        refine ⟨_, made, ⟨hall, ?_, fun _ _ => List.not_mem_nil⟩, rfl⟩
        exact map_eq_of_forall₂ hall (fun _ _ h => h.1) ▸ hnodup
  | record written =>
      have hmeans : (∃ made : List FieldDef, List.Forall₂ (fun field made =>
          field.name = made.name ∧ field.type.resolve known = .ok made.type) written made) ↔
          ∀ t ∈ written.map (·.type), ∃ type, t.resolve known = .ok type := by
        rw [exists_forall₂_iff, List.forall_mem_map]
        exact forall₂_congr fun field _ => ⟨fun ⟨made, _, h⟩ => ⟨_, h⟩,
          fun ⟨type, h⟩ => ⟨⟨field.name, type⟩, rfl, h⟩⟩
      simp only [TypeDecl.resolve, TypeDecl.written, constructors, variants, fields, bind_eq_ok,
        pure_eq_ok, resolveFields_eq_ok, List.filterMap_nil, List.nil_append, ← hmeans]
      constructor
      · rintro ⟨_, made, ⟨hall, hnodup, -⟩, -⟩
        exact ⟨.nil, map_eq_of_forall₂ hall (fun _ _ h => h.1) ▸ hnodup, made, hall⟩
      · rintro ⟨-, hnodup, made, hall⟩
        refine ⟨_, made, ⟨hall, ?_, fun _ _ => List.not_mem_nil⟩, rfl⟩
        exact map_eq_of_forall₂ hall (fun _ _ h => h.1) ▸ hnodup

end TypeDecl

/-! ## Lists of declarations -/

/-- Type declarations are consistent: types have different names, none of them that
of a primitive type, constructors have different names across all types, fields have
different names within their record, and every type that is used is primitive or
declared. -/
structure ConsistentTypes (decls : List TypeDecl) : Prop where
  names : (decls.map (·.name)).Nodup
  primitives : ∀ decl ∈ decls, decl.name ∉ TypeInfo.primitives
  constructors : (decls.flatMap TypeDecl.constructors).Nodup
  fields : ∀ decl ∈ decls, (decl.fields.map (·.name)).Nodup
  used : ∀ decl ∈ decls, ∀ t ∈ decl.written, ∀ name, t.Uses name →
    name ∈ TypeInfo.primitives ∨ ∃ other ∈ decls, other.name = name

namespace TypeTable

variable {decls : List TypeDecl} {types : List TypeDef}

/-- The constructors of a table are those that are declared. -/
theorem constructorNames_eq {known : List String}
    (h : List.Forall₂ (fun (decl : TypeDecl) def_ => decl.resolve known [] = .ok def_)
      decls types) :
    constructorNames types = decls.flatMap TypeDecl.constructors := by
  rw [constructorNames, List.flatMap_def, List.flatMap_def]
  refine congrArg List.flatten (map_eq_of_forall₂ h fun decl def_ hd => ?_).symm
  exact map_eq_of_forall₂ (TypeDecl.variants_of_resolve hd) fun _ _ hv => hv.1

/-- There is a table exactly of consistent declarations. -/
theorem exists_iff (hwf : ∀ decl ∈ decls, ∀ t ∈ decl.written, t.WellFormed) :
    (∃ types, TypeTable decls types) ↔ ConsistentTypes decls := by
  have hknown : ∀ name, name ∈ typeNames decls ↔
      name ∈ TypeInfo.primitives ∨ ∃ other ∈ decls, other.name = name := fun name => by
    rw [typeNames, List.mem_append, List.mem_map]
  constructor
  · rintro ⟨types, h⟩
    have hdecl := exists_forall₂_iff.1 ⟨types, h.resolved⟩
    refine ⟨names_eq h.resolved ▸ h.names, fun decl hd => ?_,
      constructorNames_eq h.resolved ▸ h.constructors,
      fun decl hd => (TypeDecl.resolves_iff.1 (hdecl decl hd)).2.1, fun decl hd t ht name hu => ?_⟩
    · obtain ⟨def_, hm, hname⟩ := List.mem_map.1
        (names_eq h.resolved ▸ List.mem_map.2 ⟨decl, hd, rfl⟩)
      exact hname ▸ h.primitives def_ hm
    · have hmeans := (TypeDecl.resolves_iff.1 (hdecl decl hd)).2.2 t ht
      exact (hknown name).1 ((TypeTerm.resolves_iff (hwf decl hd t ht)).1 hmeans name hu)
  · intro h
    obtain ⟨types, hresolved⟩ : ∃ types, List.Forall₂ (fun (decl : TypeDecl) def_ =>
        decl.resolve (typeNames decls) [] = .ok def_) decls types := by
      refine exists_forall₂_iff.2 fun decl hd => TypeDecl.resolves_iff.2
        ⟨(List.nodup_flatMap.1 h.constructors).1 decl hd, h.fields decl hd, fun t ht => ?_⟩
      exact (TypeTerm.resolves_iff (hwf decl hd t ht)).2 fun name hu =>
        (hknown name).2 (h.used decl hd t ht name hu)
    refine ⟨types, hresolved, names_eq hresolved ▸ h.names, fun def_ hm => ?_,
      constructorNames_eq hresolved ▸ h.constructors⟩
    obtain ⟨decl, hd, hr⟩ := exists_mem_of_forall₂ hresolved hm
    exact TypeDecl.name_of_resolve hr ▸ h.primitives decl hd

end TypeTable

/-! ## Types that are read -/

/-- All types that are written in a type declaration can be read. -/
def Declaration.TypesWellFormed : Declaration → Prop
  | .type decl => ∀ t ∈ decl.written, t.WellFormed
  | .function _ => True

namespace Syntax

open Fern.Parser

theorem declaration_yields_wellFormed (bound : Nat) :
    (declaration bound).Yields Declaration.TypesWellFormed := by
  have hvariant : (variantDecl bound).Yields fun variant =>
      ∀ t ∈ variant.payload, t.WellFormed :=
    Yields.any.bind fun _ _ => (typeAtom_yields (typeTerm_yields bound)).optional.bind
      fun _ hpayload => Yields.pure hpayload
  have hfield : (fieldDecl bound).Yields fun field => field.type.WellFormed :=
    Yields.any.bind fun _ _ => Yields.any.bind fun _ _ => (typeTerm_yields bound).bind
      fun _ htype => Yields.pure htype
  have hsum : (sumType bound).Yields fun body => ∀ name, ∀ t ∈ (TypeDecl.mk name body).written,
      t.WellFormed := by
    refine (hvariant.separated _ bound).bind fun variants hvariants => ?_
    refine Yields.pure fun name t ht => ?_
    rw [TypeDecl.written, TypeDecl.variants, TypeDecl.fields, List.map_nil, List.append_nil] at ht
    obtain ⟨variant, hm, hpayload⟩ := List.mem_filterMap.1 ht
    exact hvariants.2 variant hm t hpayload
  have hrecord : (recordType bound).Yields fun body => ∀ name,
      ∀ t ∈ (TypeDecl.mk name body).written, t.WellFormed := by
    refine Yields.any.bind fun _ _ => (hfield.separated _ bound).bind fun fields hfields => ?_
    refine Yields.any.bind fun _ _ => Yields.pure fun name t ht => ?_
    rw [TypeDecl.written, TypeDecl.variants, TypeDecl.fields, List.filterMap_nil,
      List.nil_append] at ht
    obtain ⟨field, hm, rfl⟩ := List.mem_map.1 ht
    exact hfields.2 field hm
  refine Yields.orElse ?_ ?_
  · refine Yields.any.bind fun _ _ => Yields.any.bind fun _ _ => Yields.any.bind fun _ _ => ?_
    exact (hrecord.orElse hsum).bind fun _ hbody => Yields.any.bind fun _ _ => Yields.pure (hbody _)
  · refine Yields.any.bind fun _ _ => Yields.any.bind fun _ _ => Yields.any.bind fun _ _ => ?_
    exact Yields.any.bind fun _ _ => Yields.any.bind fun _ _ => Yields.pure trivial

end Syntax

/-- The types that are written in a declaration from a text are types that the grammar
builds. -/
theorem TypeDecl.wellFormed_of_read {decl : TypeDecl} (h : (Declaration.type decl).IsRead) :
    ∀ t ∈ decl.written, t.WellFormed := by
  obtain ⟨source, decls, hread, hm⟩ := h
  exact Syntax.parseProgram_yields Syntax.declaration_yields_wellFormed hread _ hm

/-! ## Numbers of types and variants -/

/-- The places of the variants that are declared: the handle of a type with the number
of a variant. -/
def variantPlaces (decls : List TypeDecl) : Set (TypeHandle × Nat) :=
  {place | ∃ (number : Nat) (decl : TypeDecl), decls[number]? = some decl ∧
    place.1 = ⟨number, decl.name⟩ ∧ place.2 < decl.variants.length}

/-- The place of the variant that a constructor makes. -/
def Program.variantPlace? (program : Program) (name : String) : Option (TypeHandle × Nat) :=
  (program.constructor? name).map fun info => (info.handle, info.index)

/-- A program numbers types and variants as the declarations stand. -/
structure Program.NumbersTypes (decls : List TypeDecl) (program : Program) : Prop where
  handles : program.handles = decls.zipIdx.map fun entry => ⟨entry.2, entry.1.name⟩
  means : ∀ (number : Nat) (decl : TypeDecl), decls[number]? = some decl →
    ∃ def_, program.typeDef? ⟨number, decl.name⟩ = some def_ ∧
      decl.resolve (typeNames decls) [] = .ok def_
  constructors : ∀ (number : Nat) (decl : TypeDecl), decls[number]? = some decl →
    ∀ (index : Nat) (variant : VariantDecl), decl.variants[index]? = some variant →
      program.constructor? variant.name =
        some ⟨⟨number, decl.name⟩, index, variant.payload.isSome⟩
  oneToOne : Set.BijOn program.variantPlace?
    {name | name ∈ decls.flatMap TypeDecl.constructors}
    (some '' variantPlaces decls)
  others : ∀ name, name ∉ decls.flatMap TypeDecl.constructors →
    program.constructor? name = none

namespace TypeTable

variable {decls : List TypeDecl} {program : Program}

/-- What is written at a place is what the table has there. -/
theorem getElem?_resolved (h : TypeTable decls program.types) {number : Nat} {decl : TypeDecl}
    (hd : decls[number]? = some decl) :
    ∃ def_, program.types[number]? = some def_ ∧ decl.resolve (typeNames decls) [] = .ok def_ :=
  getElem?_of_forall₂ h.resolved hd

theorem constructor?_eq (h : TypeTable decls program.types) {number : Nat} {decl : TypeDecl}
    (hd : decls[number]? = some decl) {index : Nat} {variant : VariantDecl}
    (hv : decl.variants[index]? = some variant) :
    program.constructor? variant.name =
      some ⟨⟨number, decl.name⟩, index, variant.payload.isSome⟩ := by
  obtain ⟨def_, hdef, hresolve⟩ := h.getElem?_resolved hd
  obtain ⟨made, hmade, hname, hpayload⟩ :=
    getElem?_of_forall₂ (TypeDecl.variants_of_resolve hresolve) hv
  refine Program.constructor?_of_mem h.constructors (Program.mem_constructors.2
    ⟨number, def_, hdef, index, made, hmade, hname.symm, ?_⟩)
  rw [TypeDecl.name_of_resolve hresolve, TypeDecl.payload_isSome hpayload]

/-- A name is that of a constructor if it is written at some place. -/
theorem mem_constructorNames_iff {name : String} :
    name ∈ decls.flatMap TypeDecl.constructors ↔
      ∃ (number : Nat) (decl : TypeDecl) (index : Nat) (variant : VariantDecl),
        decls[number]? = some decl ∧ decl.variants[index]? = some variant ∧
          variant.name = name := by
  constructor
  · intro hm
    obtain ⟨decl, hd, hm⟩ := List.mem_flatMap.1 hm
    obtain ⟨variant, hv, hname⟩ := List.mem_map.1 hm
    obtain ⟨number, hd⟩ := List.mem_iff_getElem?.1 hd
    obtain ⟨index, hv⟩ := List.mem_iff_getElem?.1 hv
    exact ⟨number, decl, index, variant, hd, hv, hname⟩
  · rintro ⟨number, decl, index, variant, hd, hv, hname⟩
    exact List.mem_flatMap.2 ⟨decl, List.mem_of_getElem? hd,
      List.mem_map.2 ⟨variant, List.mem_of_getElem? hv, hname⟩⟩

theorem bijOn_variantPlace? (h : TypeTable decls program.types) :
    Set.BijOn program.variantPlace?
      {name | name ∈ decls.flatMap TypeDecl.constructors}
      (some '' variantPlaces decls) := by
  have hplace : ∀ {number : Nat} {decl : TypeDecl} {index : Nat} {variant : VariantDecl},
      decls[number]? = some decl → decl.variants[index]? = some variant →
        program.variantPlace? variant.name = some (⟨number, decl.name⟩, index) := fun hd hv => by
    rw [Program.variantPlace?, h.constructor?_eq hd hv, Option.map_some]
  refine ⟨?mapsTo, ?injOn, ?surjOn⟩
  case mapsTo =>
    intro name hm
    obtain ⟨number, decl, index, variant, hd, hv, rfl⟩ := mem_constructorNames_iff.1 hm
    exact ⟨_, ⟨number, decl, hd, rfl, (List.getElem?_eq_some_iff.1 hv).1⟩, (hplace hd hv).symm⟩
  case injOn =>
    intro name hm name' hm' heq
    obtain ⟨number, decl, index, variant, hd, hv, rfl⟩ := mem_constructorNames_iff.1 hm
    obtain ⟨number', decl', index', variant', hd', hv', rfl⟩ := mem_constructorNames_iff.1 hm'
    rw [hplace hd hv, hplace hd' hv'] at heq
    simp only [Option.some.injEq, Prod.mk.injEq, TypeHandle.mk.injEq, Int.natCast_inj] at heq
    obtain ⟨⟨rfl, -⟩, rfl⟩ := heq
    cases hd.symm.trans hd'
    rw [Option.some.inj (hv.symm.trans hv')]
  case surjOn =>
    rintro _ ⟨⟨handle, index⟩, ⟨number, decl, hd, rfl, hlt⟩, rfl⟩
    have hv := List.getElem?_eq_getElem hlt
    exact ⟨_, mem_constructorNames_iff.2 ⟨number, decl, index, _, hd, hv, rfl⟩, hplace hd hv⟩

theorem handles_eq (h : TypeTable decls program.types) :
    program.handles = decls.zipIdx.map fun entry => ⟨entry.2, entry.1.name⟩ := by
  have hnumbered : ∀ {α : Type} (name : α → String) (l : List α),
      (l.zipIdx.map fun entry => (⟨entry.2, name entry.1⟩ : TypeHandle)) =
        (l.map name).zipIdx.map fun entry => ⟨entry.2, entry.1⟩ := fun name l => by
    rw [List.zipIdx_map, List.map_map]
    rfl
  rw [Program.handles, Program.handledTypes, List.map_map, hnumbered TypeDecl.name decls,
    ← names_eq h.resolved]
  exact hnumbered TypeDef.name program.types

/-- What a program knows as a constructor is a variant that is written at some
place. -/
theorem constructor?_eq_some_iff (h : TypeTable decls program.types) {name : String}
    {info : ConstructorInfo} :
    program.constructor? name = some info ↔
      ∃ (number : Nat) (decl : TypeDecl) (index : Nat) (variant : VariantDecl),
        decls[number]? = some decl ∧ decl.variants[index]? = some variant ∧
          variant.name = name ∧ info = ⟨⟨number, decl.name⟩, index, variant.payload.isSome⟩ := by
  constructor
  · intro hfound
    have hname : name ∈ constructorNames program.types := by
      rw [← Program.map_fst_constructors]
      exact List.mem_map.2 ⟨_, List.mem_reverse.1 (mem_of_lookup hfound), rfl⟩
    rw [constructorNames_eq h.resolved] at hname
    obtain ⟨number, decl, index, variant, hd, hv, rfl⟩ := mem_constructorNames_iff.1 hname
    exact ⟨number, decl, index, variant, hd, hv, rfl,
      Option.some.inj (hfound.symm.trans (h.constructor?_eq hd hv))⟩
  · rintro ⟨number, decl, index, variant, hd, hv, rfl, rfl⟩
    exact h.constructor?_eq hd hv

/-- A program with the table of the declarations has their numbers. -/
theorem numbersTypes (h : TypeTable decls program.types) : program.NumbersTypes decls where
  handles := h.handles_eq
  means _ _ hd :=
    let ⟨def_, hdef, hresolve⟩ := h.getElem?_resolved hd
    ⟨def_, Program.typeDef?_of_getElem? hdef _, hresolve⟩
  constructors _ _ hd _ _ hv := h.constructor?_eq hd hv
  oneToOne := h.bijOn_variantPlace?
  others name hm := by
    rw [Option.eq_none_iff_forall_not_mem]
    intro info hfound
    obtain ⟨number, decl, index, variant, hd, hv, hname, -⟩ := h.constructor?_eq_some_iff.1 hfound
    exact hm (mem_constructorNames_iff.2 ⟨number, decl, index, variant, hd, hv, hname⟩)

end TypeTable

/-- Type declarations are accepted exactly if they are consistent. The types are then
numbered as the declarations stand, and the constructors are in one-to-one
correspondence with the places of the variants; a constructor is known to have a
payload exactly if one is written. -/
theorem declareTypes_iff_consistent {decls : List TypeDecl}
    (hread : ∀ decl ∈ decls, (Declaration.type decl).IsRead) :
    ((∃ typed, Program.empty.declareTypes decls = .ok typed) ↔ ConsistentTypes decls) ∧
      ∀ typed, Program.empty.declareTypes decls = .ok typed → typed.NumbersTypes decls := by
  have hwf := fun decl hd => TypeDecl.wellFormed_of_read (hread decl hd)
  refine ⟨?_, fun typed h => (TypeTable.of_declareTypes.1 h).1.numbersTypes⟩
  rw [← TypeTable.exists_iff hwf]
  constructor
  · rintro ⟨typed, h⟩
    exact ⟨typed.types, (TypeTable.of_declareTypes.1 h).1⟩
  · rintro ⟨types, h⟩
    exact ⟨{ types := types }, TypeTable.of_declareTypes.2 ⟨h, rfl⟩⟩

/-- A type that is used before it is declared and in itself, and a variant with the
unit type as its payload next to one without any. -/
theorem declareTypes_iff_consistent_tree :
    ∃ decls typed, Syntax.parseProgram ("type Tree = Leaf Unit | Node (Key, Tree) | Empty. " ++
        "type Key = { id : Int, next : Key -> Key }.") = .ok decls ∧
      (∀ decl ∈ typeDecls decls, (Declaration.type decl).IsRead) ∧
      Program.empty.declareTypes (typeDecls decls) = .ok typed ∧
      ConsistentTypes (typeDecls decls) ∧ typed.NumbersTypes (typeDecls decls) ∧
      typed.constructor? "Leaf" = some ⟨⟨0, "Tree"⟩, 0, true⟩ ∧
      typed.constructor? "Empty" = some ⟨⟨0, "Tree"⟩, 2, false⟩ := by
  have htest : (Syntax.parseProgram ("type Tree = Leaf Unit | Node (Key, Tree) | Empty. " ++
      "type Key = { id : Int, next : Key -> Key }.")).toOption.any fun decls =>
        (Program.empty.declareTypes (typeDecls decls)).toOption.any fun typed =>
          decide (typed.constructor? "Leaf" = some ⟨⟨0, "Tree"⟩, 0, true⟩ ∧
            typed.constructor? "Empty" = some ⟨⟨0, "Tree"⟩, 2, false⟩) := by decide +kernel
  obtain ⟨decls, hparsed, htest⟩ := exists_of_any htest
  obtain ⟨typed, htyped, hplaces⟩ := exists_of_any htest
  have hparsed := toOption_eq_some.1 hparsed
  have htyped := toOption_eq_some.1 htyped
  have hread : ∀ decl ∈ typeDecls decls, (Declaration.type decl).IsRead := fun decl hd =>
    ⟨_, decls, hparsed, mem_of_mem_typeDecls hd⟩
  obtain ⟨hiff, hnumbers⟩ := declareTypes_iff_consistent hread
  exact ⟨decls, typed, hparsed, hread, htyped, hiff.1 ⟨typed, htyped⟩, hnumbers typed htyped,
    of_decide_eq_true hplaces⟩

end Fern
