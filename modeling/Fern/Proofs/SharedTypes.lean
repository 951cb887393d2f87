import Fern.Proofs.ResolvedProgram
import Fern.Proofs.SameUpTo
import Fern.Proofs.TypeTables
import Mathlib.Data.List.Perm.Subperm

/-!
# What a program knows of types among more types

A program may have all the types of another one, in other places and among types
of its own. `Program.Within` is what has to be known of the two for resolution to
give the same: names of types and constructors are different, and a name that
annotations use for a type without definition is not the name of a record type
that only one of them has.

If the types are the same on both sides, whatever the one accepts the other
accepts too. If there are more on one side, a field may be in more record types
there; then less is known of its type, or it is not known where to find it.
-/

namespace Fern

/-- The names of the types that annotations know without a definition. -/
def builtinTypes : List String := TypeInfo.primitives ++ ["Function", "Tuple"]

namespace Program

/-- All types of one program are types of another one, and all names if it is
`complete`, that is, if the other one has no more types. -/
structure Within (complete : Prop) (program program' : Program) : Prop where
  types : program.types ⊆ program'.types
  all : complete → program'.types ⊆ program.types
  names : (program.types.map (·.name)).Nodup
  names' : (program'.types.map (·.name)).Nodup
  constructors : (constructorNames program'.types).Nodup
  defined : complete → ∀ name, (program.find? name).isSome → (program'.find? name).isSome
  builtin : ∀ record ∈ program'.records, record.name ∈ builtinTypes → record ∈ program.records
  fields : ∀ record ∈ program.records, ∀ field ∈ record.fields, ∀ name,
    field.type.name? = some name → name ∈ builtinTypes ∨ name ∈ program.types.map (·.name)

/-- An annotation means no record type that only the second program has. -/
def Keeps (program program' : Program) (type : TypeInfo) : Prop :=
  ∀ record ∈ program'.records, type.name? = some record.name → record ∈ program.records

/-- What expressions differ in that are resolved in two programs: handles refer to
one definition, and an annotation may be lost next to more types. -/
def tolerance (complete : Prop) (program program' : Program) : Tolerance where
  handles handle handle' := handle.name = handle'.name ∧
    ∃ def_, program.typeDef? handle = some def_ ∧ program'.typeDef? handle' = some def_
  types type type' := program.Keeps program' type ∧ (type' = type ∨ ¬complete ∧ type' = .unknown)
  known name := (program.find? name).isSome

variable {program program' : Program} {complete : Prop}

/-! ## Constructors -/

theorem lookup_of_nodup {α : Type} {table : List (String × α)} (h : (table.map (·.1)).Nodup)
    {key : String} {a : α} (hm : (key, a) ∈ table) : table.lookup key = some a := by
  induction table with
  | nil => cases hm
  | cons entry rest ih =>
      obtain ⟨hfirst, hrest⟩ := List.nodup_cons.1 h
      rcases List.mem_cons.1 hm with rfl | hm
      · exact List.lookup_cons_self
      · have hne : key ≠ entry.1 := fun heq => hfirst (List.mem_map.2 ⟨_, hm, heq⟩)
        rw [List.lookup_cons, beq_false_of_ne hne]
        exact ih hrest hm

theorem map_fst_constructors (program : Program) :
    program.constructors.map (·.1) = constructorNames program.types := by
  have hvariants : ∀ (handle : TypeHandle) (variants : List Variant),
      ((variants.zipIdx.map fun entry =>
        (entry.1.name, (⟨handle, entry.2, entry.1.payload.isSome⟩ : ConstructorInfo))).map (·.1)) =
          variants.map (·.name) := by
    intro handle variants
    rw [List.map_map]
    conv_rhs => rw [← List.zipIdx_map_fst 0 variants, List.map_map]
    rfl
  rw [constructors, List.map_flatMap, handledTypes, List.flatMap_map, constructorNames]
  conv_rhs => rw [← List.zipIdx_map_fst 0 program.types, List.flatMap_map]
  exact congrArg (List.flatMap · _) (funext fun entry => hvariants ⟨entry.2, entry.1.name⟩ _)

/-- The constructors of a program are the variants of its types. -/
theorem mem_constructors {name : String} {info : ConstructorInfo} :
    (name, info) ∈ program.constructors ↔ ∃ (place : Nat) (def_ : TypeDef),
      program.types[place]? = some def_ ∧ ∃ (index : Nat) (variant : Variant),
        def_.variants[index]? = some variant ∧ variant.name = name ∧
        ⟨⟨place, def_.name⟩, index, variant.payload.isSome⟩ = info := by
  simp only [constructors, handledTypes, List.mem_flatMap, List.mem_map, Prod.exists,
    List.mk_mem_zipIdx_iff_getElem?, Prod.mk.injEq]
  constructor
  · rintro ⟨handle, def_, ⟨_, place, hplace, rfl, rfl⟩, variant, index, hvariant, rfl, rfl⟩
    exact ⟨place, _, hplace, index, variant, hvariant, rfl, rfl⟩
  · rintro ⟨place, def_, hplace, index, variant, hvariant, rfl, rfl⟩
    exact ⟨_, def_, ⟨def_, place, hplace, rfl, rfl⟩, variant, index, hvariant, rfl, rfl⟩

/-- Where no constructor occurs twice, each one is found by its name. -/
theorem constructor?_of_mem (h : (constructorNames program.types).Nodup) {name : String}
    {info : ConstructorInfo} (hm : (name, info) ∈ program.constructors) :
    program.constructor? name = some info := by
  refine lookup_of_nodup ?_ (List.mem_reverse.2 hm)
  rw [List.map_reverse, List.nodup_reverse, map_fst_constructors]
  exact h

theorem typeDef?_of_getElem? {place : Nat} {def_ : TypeDef} (h : program.types[place]? = some def_)
    (name : String) : program.typeDef? ⟨place, name⟩ = some def_ := by
  rw [typeDef?, TypeHandle.find?, if_pos (Int.natCast_nonneg place)]
  exact h

/-- A handle that means something has the number of a place. -/
theorem getElem?_of_typeDef? {handle : TypeHandle} {def_ : TypeDef}
    (h : program.typeDef? handle = some def_) :
    ∃ place : Nat, handle.index = place ∧ program.types[place]? = some def_ := by
  rw [typeDef?, TypeHandle.find?] at h
  split at h
  · next hindex => exact ⟨handle.index.toNat, (Int.toNat_of_nonneg hindex).symm, h⟩
  · cases h

/-- Where type names are different, there is one place for each definition. -/
theorem index_eq_of_typeDef? (hnames : (program.types.map (·.name)).Nodup)
    {handle handle' : TypeHandle} {def_ : TypeDef} (h : program.typeDef? handle = some def_)
    (h' : program.typeDef? handle' = some def_) : handle.index = handle'.index := by
  obtain ⟨place, hindex, hplace⟩ := getElem?_of_typeDef? h
  obtain ⟨place', hindex', hplace'⟩ := getElem?_of_typeDef? h'
  obtain ⟨hlt, hget⟩ := List.getElem?_eq_some_iff.1 hplace
  obtain ⟨hlt', hget'⟩ := List.getElem?_eq_some_iff.1 hplace'
  have hsame : place = place' :=
    (List.Nodup.getElem_inj_iff (List.Nodup.of_map _ hnames)).1 (hget.trans hget'.symm)
  rw [hindex, hindex', hsame]

namespace Within

/-- Handles that go together are determined by one another. -/
theorem handle_eq_iff (h : program.Within complete program')
    {handle handle' other other' : TypeHandle}
    (hh : (tolerance complete program program').handles handle handle')
    (ho : (tolerance complete program program').handles other other') :
    handle = other ↔ handle' = other' := by
  obtain ⟨hname, def_, hdef, hdef'⟩ := hh
  obtain ⟨hname', odef, hodef, hodef'⟩ := ho
  constructor
  · rintro rfl
    obtain rfl : def_ = odef := Option.some.inj (hdef.symm.trans hodef)
    have hindex := index_eq_of_typeDef? h.names' hdef' hodef'
    cases handle'
    cases other'
    simp_all
  · rintro rfl
    obtain rfl : def_ = odef := Option.some.inj (hdef'.symm.trans hodef')
    have hindex := index_eq_of_typeDef? h.names hdef hodef
    cases handle
    cases other
    simp_all

/-- If each type of the one program has a known place in the other one, then the
handle that goes with another one has that place. -/
theorem handle_eq {place : Nat → Nat}
    (hplace : ∀ i def_, program.types[i]? = some def_ → program'.types[place i]? = some def_)
    (hnames : (program'.types.map (·.name)).Nodup) {handle handle' : TypeHandle}
    (hh : (tolerance complete program program').handles handle handle') :
    ∃ i : Nat, handle.index = i ∧ handle' = ⟨place i, handle.name⟩ := by
  obtain ⟨hname, def_, hdef, hdef'⟩ := hh
  obtain ⟨i, hindex, hget⟩ := getElem?_of_typeDef? hdef
  have hsame := index_eq_of_typeDef? hnames hdef'
    (typeDef?_of_getElem? (hplace i def_ hget) handle.name)
  obtain ⟨index', name'⟩ := handle'
  obtain rfl : handle.name = name' := hname
  obtain rfl : index' = place i := hsame
  exact ⟨i, hindex, rfl⟩

/-- A constructor of the one program is one of the other, for the same variant. -/
theorem constructor? (h : program.Within complete program') {name : String}
    {info : ConstructorInfo} (hfound : program.constructor? name = some info) :
    ∃ info', program'.constructor? name = some info' ∧
      (tolerance complete program program').handles info.handle info'.handle ∧
      info.index = info'.index ∧ info.hasPayload = info'.hasPayload ∧
      info.handle.name ∈ program.types.map (·.name) := by
  have hmem := List.mem_reverse.1 (mem_of_lookup hfound)
  obtain ⟨place, def_, hplace, index, variant, hvariant, rfl, rfl⟩ := mem_constructors.1 hmem
  have hm := List.mem_of_getElem? hplace
  obtain ⟨place', hplace'⟩ := List.mem_iff_getElem?.1 (h.types hm)
  refine ⟨_, constructor?_of_mem h.constructors (mem_constructors.2
    ⟨place', def_, hplace', index, variant, hvariant, rfl, rfl⟩), ⟨rfl, def_, ?_, ?_⟩, rfl, rfl,
    List.mem_map.2 ⟨def_, hm, rfl⟩⟩
  · exact typeDef?_of_getElem? hplace _
  · exact typeDef?_of_getElem? hplace' _

end Within

/-! ## Record types -/

theorem mem_records {record : RecordType} :
    record ∈ program.records ↔ ⟨record.name, .record record.fields⟩ ∈ program.types := by
  rw [records, List.mem_filterMap]
  constructor
  · rintro ⟨⟨name, body⟩, hm, hr⟩
    cases body with
    | sum variants => cases hr
    | record fields =>
        cases hr
        exact hm
  · intro hm
    exact ⟨_, hm, rfl⟩

theorem records_sublist (program : Program) :
    (program.records.map (·.name)).Sublist (program.types.map (·.name)) := by
  rw [records]
  induction program.types with
  | nil => exact .slnil
  | cons def_ rest ih =>
      obtain ⟨name, body⟩ := def_
      cases body with
      | sum variants => exact ih.cons _
      | record fields => exact ih.cons_cons _

namespace Within

theorem records_nodup (h : program.Within complete program') : program.records.Nodup :=
  .of_map _ (h.names.sublist (records_sublist program))

theorem records_nodup' (h : program.Within complete program') :
    (program'.records.map (·.name)).Nodup :=
  h.names'.sublist (records_sublist program')

theorem records (h : program.Within complete program') : program.records ⊆ program'.records :=
  fun _ hm => mem_records.2 (h.types (mem_records.1 hm))

theorem records_subperm (h : program.Within complete program') :
    program.records.Subperm program'.records :=
  h.records_nodup.subperm h.records

theorem records_perm (h : program.Within complete program') (hc : complete) :
    program.records.Perm program'.records :=
  (List.perm_ext_iff_of_nodup h.records_nodup (.of_map _ h.records_nodup')).2 fun _ =>
    ⟨(h.records ·), fun hm => mem_records.2 (h.all hc (mem_records.1 hm))⟩

theorem keeps_builtin (h : program.Within complete program') {name : String}
    (hn : name ∈ builtinTypes) (params : List TypeInfo) :
    program.Keeps program' (.named name params) := by
  intro record hm heq
  cases heq
  exact h.builtin record hm hn

/-- A type of the one program is no other type in the other one. -/
theorem keeps_type (h : program.Within complete program') {name : String}
    (hn : name ∈ program.types.map (·.name)) (params : List TypeInfo) :
    program.Keeps program' (.named name params) := by
  intro record hm heq
  cases heq
  obtain ⟨def_, hd, hname⟩ := List.mem_map.1 hn
  have hsame := List.inj_on_of_nodup_map h.names' (h.types hd) (mem_records.1 hm) hname
  exact mem_records.2 (hsame ▸ hd)

theorem keeps_field (h : program.Within complete program') {record : RecordType}
    (hr : record ∈ program.records) {field : FieldDef} (hf : field ∈ record.fields) :
    program.Keeps program' field.type := by
  cases htype : field.type with
  | unknown => exact fun _ _ heq => by cases heq
  | named name params =>
      rcases h.fields record hr field hf name (by rw [htype, TypeInfo.name?]) with hn | hn
      · exact h.keeps_builtin hn params
      · exact h.keeps_type hn params

end Within

end Program

end Fern
