import Fern.Proofs.EntryParam
import Fern.Proofs.ResolveWithin

/-!
# Programs as what declarations say

`Program.Declared` describes the program of a list of declarations without the
order in which it is built up: its types are a table, each function is resolved
where all types and names are known, and the built-in functions that are not
replaced are there. Conversely there is such a program as soon as the types make
a table, no function is declared twice, and each one can be resolved there.
-/

namespace Fern

/-- The functions that a list of declarations defines. -/
def functionNames (decls : List Declaration) : List String :=
  (functionDecls decls).map (·.name)

namespace Program

/-- A program knows certain types, and the names that declarations define on top
of the built-in ones. -/
structure KnowsOf (decls : List Declaration) (types : List TypeDef) (known : Program) : Prop where
  types_eq : known.types = types
  defined (name : String) :
    (known.find? name).isSome ↔ name ∈ functionNames decls ∨ name ∈ Builtin.surfaceNames

/-- A program is what declarations say. -/
structure Declared (decls : List Declaration) (program : Program) : Prop where
  table : TypeTable (typeDecls decls) program.types
  nodup : (functionNames decls).Nodup
  knows : program.KnowsOf decls program.types
  function {name : String} : name ∈ functionNames decls →
    ∃ decl ∈ functionDecls decls, decl.name = name ∧ ∃ known : Program,
      known.KnowsOf decls program.types ∧ ∃ definition, program.find? name = some definition ∧
        decl.resolve known = .ok definition.expr
  builtin (builtin : Builtin) : builtin.surfaceName ∉ functionNames decls →
    program.find? builtin.surfaceName = some ⟨.builtin builtin.id .unknown, .unknown⟩

variable {program : Program} {decls : List Declaration}

/-! ## The stages -/

theorem find?_withBuiltins_surfaceName (program : Program) (builtin : Builtin) :
    program.withBuiltins.find? builtin.surfaceName =
      some ⟨.builtin builtin.id .unknown, .unknown⟩ := by
  have hne : ∀ {a b : Builtin}, a ≠ b → a.surfaceName ≠ b.surfaceName :=
    fun hab heq => hab (Builtin.surfaceName_injective heq)
  simp only [withBuiltins, Builtin.all, List.foldl_cons, List.foldl_nil]
  cases builtin <;> simp only [find?_define_self, find?_define_of_ne, hne, ne_eq, reduceCtorEq,
    not_false_eq_true]

/-- What is defined after the built-in functions is built-in or was there. -/
theorem isSome_find?_withBuiltins (program : Program) (name : String) :
    (program.withBuiltins.find? name).isSome ↔
      (program.find? name).isSome ∨ name ∈ Builtin.surfaceNames := by
  have hfold : ∀ (builtins : List Builtin) (start : Program),
      ((builtins.foldl (fun p b => p.define b.surfaceName (.builtin b.id .unknown) .unknown)
        start).find? name).isSome ↔
      (start.find? name).isSome ∨ name ∈ builtins.map (·.surfaceName) := by
    intro builtins
    induction builtins with
    | nil => simp
    | cons builtin rest ih =>
        intro start
        rw [List.foldl_cons, ih, List.map_cons, List.mem_cons]
        by_cases hn : name = builtin.surfaceName
        · subst hn
          simp [find?_define_self]
        · rw [find?_define_of_ne _ _ _ hn]
          simp only [hn, false_or]
  exact hfold Builtin.all program

/-- Functions of different names can be announced. -/
theorem announce_ok {seen : List String} {decls : List FunctionDecl} (program : Program)
    (hnodup : (decls.map (·.name)).Nodup) (hnew : ∀ decl ∈ decls, decl.name ∉ seen) :
    ∃ announced, announce program seen decls = .ok announced := by
  induction decls generalizing program seen with
  | nil => exact ⟨program, rfl⟩
  | cons decl rest ih =>
      obtain ⟨hfirst, hrest⟩ := List.nodup_cons.1 hnodup
      obtain ⟨hdecl, hothers⟩ := List.forall_mem_cons.1 hnew
      rw [announce, if_neg fun hm => hdecl (List.contains_iff_mem.1 hm)]
      refine ih _ hrest fun other ho => List.not_mem_cons_of_ne_of_not_mem (fun heq => ?_)
        (hothers other ho)
      exact hfirst (List.mem_map.2 ⟨other, ho, heq⟩)

/-- Functions that can be resolved by whoever knows the same can be added. -/
theorem addFunctions_ok {decls : List FunctionDecl} {program : Program}
    (hknown : ∀ decl ∈ decls, (program.find? decl.name).isSome)
    (hresolve : ∀ decl ∈ decls, ∀ known, program.KnowsSame known →
      ∃ e, decl.resolve known = .ok e) : ∃ final, addFunctions program decls = .ok final := by
  induction decls generalizing program with
  | nil => exact ⟨program, rfl⟩
  | cons decl rest ih =>
      obtain ⟨hdecl, hothers⟩ := List.forall_mem_cons.1 hknown
      obtain ⟨e, he⟩ := hresolve decl List.mem_cons_self program .refl
      have hsame := KnowsSame.define hdecl e e.type
      obtain ⟨final, hfinal⟩ := ih (fun other ho => hsame.defined _ ▸ hothers other ho)
        fun other ho known hk => hresolve other (List.mem_cons_of_mem _ ho) known (hsame.trans hk)
      exact ⟨final, bind_eq_ok.2 ⟨e, he, hfinal⟩⟩

theorem KnowsOf.congr {types : List TypeDef} {p q : Program} (h : p.KnowsOf decls types)
    (hpq : p.KnowsSame q) : q.KnowsOf decls types :=
  ⟨hpq.types ▸ h.types_eq, fun name => hpq.defined name ▸ h.defined name⟩

/-- What the announced functions are added to knows all types and names. -/
theorem knowsOf_of_announce {typed announced : Program} (hdefinitions : typed.definitions = [])
    (h : announce typed.withBuiltins [] (functionDecls decls) = .ok announced) :
    announced.KnowsOf decls typed.types := by
  obtain ⟨htypes, hsome, hother⟩ := find?_announce h
  refine ⟨htypes, fun name => ?_⟩
  by_cases hn : name ∈ functionNames decls
  · obtain ⟨decl, hd, rfl⟩ := List.mem_map.1 hn
    exact ⟨fun _ => .inl hn, fun _ => hsome decl hd⟩
  · have hempty : typed.find? name = none := by rw [find?, hdefinitions, List.lookup_nil]
    rw [hother name hn, isSome_find?_withBuiltins, hempty]
    simp [hn]

/-! ## The program of declarations -/

theorem Declared.of_ofDeclarations (h : ofDeclarations decls = .ok program) :
    program.Declared decls := by
  simp only [ofDeclarations, bind_eq_ok] at h
  obtain ⟨typed, htyped, announced, hannounced, hfinal⟩ := h
  obtain ⟨htable, hdefinitions⟩ := TypeTable.of_declareTypes.1 htyped
  have hknows := knowsOf_of_announce hdefinitions hannounced
  obtain ⟨hnodup, _⟩ := nodup_of_announce hannounced
  obtain ⟨_, hknown, hother⟩ := find?_announce hannounced
  obtain ⟨hsame, hfind⟩ := find?_addFunctions hfinal hknown
  have htypes : typed.types = program.types := hknows.types_eq.symm.trans hsame.types
  have hfinalKnows : program.KnowsOf decls program.types := htypes ▸ hknows.congr hsame
  refine ⟨htypes ▸ htable, hnodup, hfinalKnows, fun {name} hn => ?_, fun builtin hb => ?_⟩
  · obtain ⟨definition, hf⟩ := Option.isSome_iff_exists.1 ((hfinalKnows.defined name).2 (.inl hn))
    rcases hfind name definition hf with ⟨_, hnot⟩ | ⟨decl, hd, known, hk, hname, hr⟩
    · exact absurd hn hnot
    · exact ⟨decl, hd, hname, known, hfinalKnows.congr hk.symm, definition, hf, hr⟩
  · have hmem : builtin.surfaceName ∈ Builtin.surfaceNames :=
      List.mem_map.2 ⟨builtin, Builtin.mem_all builtin, rfl⟩
    obtain ⟨definition, hf⟩ :=
      Option.isSome_iff_exists.1 ((hfinalKnows.defined _).2 (.inr hmem))
    rcases hfind _ definition hf with ⟨hf', _⟩ | ⟨decl, hd, _, _, hname, _⟩
    · rw [hother _ hb, find?_withBuiltins_surfaceName] at hf'
      exact hf.trans hf'.symm
    · exact absurd (List.mem_map.2 ⟨decl, hd, hname⟩) hb

/-- There is a program of declarations that make sense one by one. -/
theorem ofDeclarations_ok {types : List TypeDef} (htable : TypeTable (typeDecls decls) types)
    (hnodup : (functionNames decls).Nodup)
    (hresolve : ∀ decl ∈ functionDecls decls, ∀ known : Program, known.KnowsOf decls types →
      ∃ e, decl.resolve known = .ok e) : ∃ program, ofDeclarations decls = .ok program := by
  have htyped : Program.empty.declareTypes (typeDecls decls) = .ok ⟨[], types⟩ :=
    TypeTable.of_declareTypes.2 ⟨htable, rfl⟩
  obtain ⟨announced, hannounced⟩ := announce_ok (Program.withBuiltins ⟨[], types⟩) hnodup
    fun _ _ => List.not_mem_nil
  have hknows := knowsOf_of_announce rfl hannounced
  obtain ⟨final, hfinal⟩ := addFunctions_ok (find?_announce hannounced).2.1
    fun decl hd known hk => hresolve decl hd known (hknows.congr hk)
  refine ⟨final, ?_⟩
  simp only [ofDeclarations, bind_eq_ok]
  exact ⟨_, htyped, announced, hannounced, hfinal⟩

end Program

/-! ## Functions in two programs -/

/-- A declaration means the same function in two programs, one of which is within
the other. -/
theorem FunctionDecl.resolve_agrees {complete : Prop} {program program' : Program}
    (hp : program.Within complete program') (decl : FunctionDecl) :
    Agrees complete (Expr.SameBeside complete program program' []) (decl.resolve program)
      (decl.resolve program') := by
  have henv : Env.Beside program program' { program, definition := some decl.name }
      { program := program', definition := some decl.name } := ⟨rfl, rfl, rfl⟩
  rw [FunctionDecl.resolve, FunctionDecl.resolve]
  refine (decl.body.resolve_agrees hp (henv.withLocals decl.params)).bind fun body body' hb => ?_
  rw [Env.withLocals_eq] at hb
  have hcurry := curry_agrees hp hb
  dsimp only
  rw [hcurry.isLambda]
  split
  · exact .ok hcurry
  · exact .error

namespace Program

variable {complete : Prop} {decls decls' : List Declaration} {types types' : List TypeDef}

/-- Programs that know two tables, one of which has all types of the other. -/
theorem Within.of_tables (htable : TypeTable (typeDecls decls) types)
    (htable' : TypeTable (typeDecls decls') types') (hsub : types ⊆ types')
    (hall : complete → types' ⊆ types) (hnames : functionNames decls ⊆ functionNames decls')
    (hbuiltin : ∀ record : RecordType, ⟨record.name, .record record.fields⟩ ∈ types' →
      record.name ∈ builtinTypes → ⟨record.name, .record record.fields⟩ ∈ types)
    {known known' : Program} (hk : known.KnowsOf decls types)
    (hk' : known'.KnowsOf decls' types') : known.Within complete known' where
  types := hk.types_eq ▸ hk'.types_eq ▸ hsub
  all := hk.types_eq ▸ hk'.types_eq ▸ hall
  names := hk.types_eq ▸ htable.names
  names' := hk'.types_eq ▸ htable'.names
  constructors := hk'.types_eq ▸ htable'.constructors
  defined _ name h := (hk'.defined name).2 (((hk.defined name).1 h).imp_left (hnames ·))
  builtin record hr hn := by
    rw [mem_records, hk'.types_eq] at hr
    rw [mem_records, hk.types_eq]
    exact hbuiltin record hr hn
  fields record hr field hf name hname := by
    rw [mem_records, hk.types_eq] at hr
    rw [hk.types_eq]
    rcases htable.fieldType hr hf hname with hp | rfl | rfl | hm
    · exact .inl (List.mem_append_left _ hp)
    · exact .inl (by decide)
    · exact .inl (by decide)
    · exact .inr hm

/-- What differs between two programs depends on what they know alone. -/
theorem tolerance_congr {p p' q q' : Program} (h : p.KnowsOf decls types)
    (hq : q.KnowsOf decls types) (h' : p'.KnowsOf decls' types') (hq' : q'.KnowsOf decls' types') :
    tolerance complete p p' = tolerance complete q q' := by
  have hrecords : ∀ {a b : Program}, a.types = b.types → a.records = b.records := records_congr
  have htypes : p.types = q.types := h.types_eq.trans hq.types_eq.symm
  have htypes' : p'.types = q'.types := h'.types_eq.trans hq'.types_eq.symm
  have hdefined : ∀ name, ((p.find? name).isSome : Prop) = (q.find? name).isSome := fun name =>
    propext ((h.defined name).trans (hq.defined name).symm)
  simp only [tolerance, Keeps, typeDef?, hrecords htypes, hrecords htypes', htypes, htypes',
    hdefined]

end Program

end Fern
