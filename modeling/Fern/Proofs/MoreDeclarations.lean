import Fern.Proofs.DeclaredProgram
import Fern.Proofs.FromText

/-!
# More declarations

Declarations that are added behind others leave what is there as it is: types keep
their numbers, and functions and expressions mean the same. Resolution looks at
all record types that there are, so it may learn less of a type next to more of
them, but it takes no other constructor, record type or position for that.

There is one exception. Annotations call the types of functions and tuples
`Function` and `Tuple`, and these names are not kept from declarations: next to a
record type of that name, a function or a tuple is taken for one of its records.
The last theorem is an example of that.
-/

namespace Fern

/-- Expressions may differ in annotations alone. -/
def Tolerance.annotations : Tolerance where
  handles := Eq
  types _ _ := True
  known _ := True

theorem Fault.SameUpTo.eq {tol : Tolerance} {f f' : Fault} (h : f.SameUpTo tol f')
    (htol : ∀ {handle handle'}, tol.handles handle handle' → handle = handle') : f = f' := by
  cases h with
  | same f => rfl
  | noBranch index hhandle => rw [htol hhandle]
  | notSumType hhandle => rw [htol hhandle]

theorem typeDecls_append (decls more : List Declaration) :
    typeDecls (decls ++ more) = typeDecls decls ++ typeDecls more :=
  List.filterMap_append

theorem functionNames_append (decls more : List Declaration) :
    functionNames (decls ++ more) = functionNames decls ++ functionNames more := by
  rw [functionNames, functionDecls, List.filterMap_append, List.map_append]
  rfl

/-- No record type is declared with a name that annotations use for a type without
definition. The names of primitive types are refused in any case. -/
def SparesBuiltinTypes (decls : List Declaration) : Prop :=
  ∀ name fields, .type ⟨name, .record fields⟩ ∈ decls → name ≠ "Function" ∧ name ≠ "Tuple"

namespace Program

variable {decls more : List Declaration} {program program' : Program}

/-- The types of a program keep their places next to more declarations. -/
theorem Declared.types_append (h : program.Declared decls)
    (h' : program'.Declared (decls ++ more)) :
    ∃ others, program'.types = program.types ++ others :=
  h.table.append (typeDecls_append decls more ▸ h'.table)

/-- What a program knows is within what it knows next to more declarations, if
these spare the names of built-in types. -/
theorem within_of_append (h : program.Declared decls) (h' : program'.Declared (decls ++ more))
    (hspares : SparesBuiltinTypes more) {known known' : Program}
    (hk : known.KnowsOf decls program.types)
    (hk' : known'.KnowsOf (decls ++ more) program'.types) : known.Within False known' := by
  obtain ⟨others, htypes⟩ := h.types_append h'
  have hsub : program.types ⊆ program'.types := htypes ▸ List.subset_append_left _ _
  refine .of_tables h.table h'.table hsub False.elim ?_ (fun record hr hn => ?_) hk hk'
  · rw [functionNames_append]
    exact List.subset_append_left _ _
  · obtain ⟨decl, hd, hresolve⟩ := exists_mem_of_forall₂ h'.table.resolved hr
    have hname := TypeDecl.name_of_resolve hresolve
    rw [typeDecls_append] at hd
    rcases List.mem_append.1 hd with hd | hd
    · -- The declaration is one of the first, so its definition is there already.
      obtain ⟨def_, hdef, hdefName⟩ := List.mem_map.1
        (TypeTable.names_eq h.table.resolved ▸ List.mem_map.2 ⟨decl, hd, rfl⟩)
      have hsame := List.inj_on_of_nodup_map h'.table.names (hsub hdef) hr
        (hdefName.trans hname.symm)
      exact hsame ▸ hdef
    · obtain ⟨fields, rfl, -⟩ := TypeDecl.of_resolve_record hresolve
      obtain ⟨hfunction, htuple⟩ := hspares record.name fields (mem_of_mem_typeDecls hd)
      rcases List.mem_append.1 hn with hp | hb
      · exact absurd hp (h'.table.primitives _ hr)
      · simp only [List.mem_cons, List.not_mem_nil, or_false] at hb
        exact absurd hb (not_or.2 ⟨hfunction, htuple⟩)

/-- Next to more declarations programs are the same up to annotations. This is
about names that mean a function or a built-in function in the first program. -/
theorem Declared.sameUpTo_append (h : program.Declared decls)
    (h' : program'.Declared (decls ++ more)) (hspares : SparesBuiltinTypes more) :
    (∀ name ∈ functionNames decls, Option.Rel (fun definition definition' =>
      definition.expr.SameBeside False program program' [] definition'.expr)
      (program.find? name) (program'.find? name)) ∧
    ((∀ name ∈ functionNames more, name ∉ Builtin.surfaceNames) →
      program.SameUpTo (tolerance False program program') program') := by
  have hfunctions : ∀ name ∈ functionNames decls, Option.Rel (fun definition definition' =>
      definition.expr.SameBeside False program program' [] definition'.expr)
      (program.find? name) (program'.find? name) := by
    intro name hn
    have hn' : name ∈ functionNames (decls ++ more) :=
      functionNames_append decls more ▸ List.mem_append_left _ hn
    obtain ⟨decl, hd, hname, known, hk, definition, hf, hr⟩ := h.function hn
    obtain ⟨decl', hd', hname', known', hk', definition', hf', hr'⟩ := h'.function hn'
    have hd'' : decl ∈ functionDecls (decls ++ more) := by
      rw [functionDecls, List.filterMap_append]
      exact List.mem_append_left _ hd
    obtain rfl := List.inj_on_of_nodup_map h'.nodup hd'' hd' (hname.trans hname'.symm)
    have hsame := (decl.resolve_agrees (within_of_append h h' hspares hk hk') _ hr).2 _ hr'
    rw [Expr.SameBeside, tolerance_congr hk h.knows hk' h'.knows] at hsame
    rw [hf, hf']
    exact .some hsame
  refine ⟨hfunctions, fun hbuiltins => ⟨fun hh => ?_, fun hh => hh.1, fun {name} hn => ?_⟩⟩
  · obtain ⟨-, def_, hdef, hdef'⟩ := hh
    rw [hdef, hdef']
  · by_cases hd : name ∈ functionNames decls
    · exact hfunctions name hd
    · have hb := ((h.knows.defined name).1 hn).resolve_left hd
      have hd' : name ∉ functionNames (decls ++ more) := by
        rw [functionNames_append]
        exact fun hm => (List.mem_append.1 hm).elim hd fun hm => hbuiltins name hm hb
      obtain ⟨builtin, -, rfl⟩ := List.mem_map.1 hb
      rw [h.builtin builtin hd, h'.builtin builtin hd']
      exact .some (.of_node types_unknown .builtin)

/-- What differs next to more declarations is annotations alone. -/
theorem within_annotations {others : List TypeDef}
    (htypes : program'.types = program.types ++ others)
    (hnames : (program'.types.map (·.name)).Nodup) :
    (tolerance False program program').Within .annotations where
  handles {handle handle'} hh := by
    have hplace : ∀ i def_, program.types[i]? = some def_ →
        program'.types[id i]? = some def_ := fun i def_ hget => by
      rw [htypes, id, List.getElem?_append_left (List.getElem?_eq_some_iff.1 hget).1]
      exact hget
    obtain ⟨i, hindex, rfl⟩ := Within.handle_eq hplace hnames hh
    exact congrArg (TypeHandle.mk · handle.name) hindex
  types _ := trivial
  known _ := trivial

end Program

/-- More declarations change nothing for what is there. Types keep their handles. If
no record type is declared with the name of a built-in type, the functions that
are there mean the same up to annotations, and so does every expression that is
accepted both before and after. If moreover no built-in function is replaced,
such an expression writes the same and ends in the same way: with the same value
up to annotations inside functions, displayed in the same way, or with the same
fault. -/
theorem same_next_to_more {decls more : List Declaration} {program program' : Program}
    (h : Program.ofDeclarations decls = .ok program)
    (h' : Program.ofDeclarations (decls ++ more) = .ok program') :
    (∃ others, program'.types = program.types ++ others) ∧
    (SparesBuiltinTypes more →
      (∀ name ∈ functionNames decls, ∃ definition definition',
        program.find? name = some definition ∧ program'.find? name = some definition' ∧
          definition.expr.SameUpTo .annotations [] definition'.expr) ∧
      ∀ t e e', program.resolveTerm t = .ok e → program'.resolveTerm t = .ok e' →
        e.SameUpTo .annotations [] e' ∧
        ((∀ name ∈ functionNames more, name ∉ Builtin.surfaceNames) →
          ∀ files debug nesting,
            (Context.evalWithin ⟨program, files, debug⟩ nesting [] e).Alike
              (fun v v' => v.SameUpTo .annotations v' ∧
                v.format program.types = v'.format program'.types) Eq
              (Context.evalWithin ⟨program', files, debug⟩ nesting [] e'))) := by
  have hdeclared := Program.Declared.of_ofDeclarations h
  have hdeclared' := Program.Declared.of_ofDeclarations h'
  obtain ⟨others, htypes⟩ := hdeclared.types_append hdeclared'
  have hwithin := Program.within_annotations htypes hdeclared'.table.names
  refine ⟨⟨others, htypes⟩, fun hspares => ?_⟩
  obtain ⟨hfunctions, hprogram⟩ := hdeclared.sameUpTo_append hdeclared' hspares
  refine ⟨fun name hn => ?_, fun t e e' he he' => ?_⟩
  · have hrel := hfunctions name hn
    have hsome := (hdeclared.knows.defined name).2 (.inl hn)
    generalize program.find? name = found at hrel hsome
    generalize program'.find? name = found' at hrel
    cases hrel with
    | none => cases hsome
    | some hd => exact ⟨_, _, rfl, rfl, hd.mono hwithin⟩
  · have henv : Env.Beside program program' { program } { program := program' } := ⟨rfl, rfl, rfl⟩
    have hsame := (t.resolve_agrees (Program.within_of_append hdeclared hdeclared' hspares
      hdeclared.knows hdeclared'.knows) henv e he).2 e' he'
    refine ⟨hsame.mono hwithin, fun hbuiltins files debug nesting => ?_⟩
    have hp := hprogram hbuiltins
    have hrelates := @relates_sameUpTo _ ⟨program, files, debug⟩ ⟨program', files, debug⟩ hp rfl
    exact (hrelates.evalWithin nesting [] [] e e' ⟨.nil, hsame⟩).mono
      (fun v v' hv => ⟨hv.mono hwithin, hv.format_eq fun hh => hp.variantName hh⟩)
      fun f f' hf => hf.eq hwithin.handles

/-- A field that is in one record type, next to a second record type with it. -/
theorem same_next_to_more_pair :
    ∃ program program' e e',
      Program.ofDeclarations
        [.type ⟨"Box", .record [⟨"content", .name "Int"⟩]⟩,
          .function ⟨"open", ["b"], .field (.identifier "b") "content"⟩] = .ok program ∧
      Program.ofDeclarations
        ([.type ⟨"Box", .record [⟨"content", .name "Int"⟩]⟩,
          .function ⟨"open", ["b"], .field (.identifier "b") "content"⟩] ++
        [.type ⟨"Pair", .record [⟨"content", .name "Int"⟩, ⟨"other", .name "Int"⟩]⟩]) =
          .ok program' ∧
      program.resolveTerm
        (.apply (.identifier "open") [.record [("content", .integer 7)]]) = .ok e ∧
      program'.resolveTerm
        (.apply (.identifier "open") [.record [("content", .integer 7)]]) = .ok e' ∧
      (∃ definition definition', program.find? "open" = some definition ∧
        program'.find? "open" = some definition' ∧
          definition.expr.SameUpTo .annotations [] definition'.expr) ∧
      e.SameUpTo .annotations [] e' ∧ ∀ files debug nesting,
        (Context.evalWithin ⟨program, files, debug⟩ nesting [] e).Alike
          (fun v v' => v.SameUpTo .annotations v' ∧
            v.format program.types = v'.format program'.types) Eq
          (Context.evalWithin ⟨program', files, debug⟩ nesting [] e') := by
  have hok : (Program.ofDeclarations
      [.type ⟨"Box", .record [⟨"content", .name "Int"⟩]⟩,
        .function ⟨"open", ["b"], .field (.identifier "b") "content"⟩]).toOption.any (fun program =>
          (program.resolveTerm (.apply (.identifier "open")
            [.record [("content", .integer 7)]])).toOption.isSome) := by
    decide +kernel
  have hok' : (Program.ofDeclarations
      ([.type ⟨"Box", .record [⟨"content", .name "Int"⟩]⟩,
        .function ⟨"open", ["b"], .field (.identifier "b") "content"⟩] ++
      [.type ⟨"Pair", .record [⟨"content", .name "Int"⟩, ⟨"other", .name "Int"⟩]⟩])).toOption.any
        (fun program => (program.resolveTerm (.apply (.identifier "open")
          [.record [("content", .integer 7)]])).toOption.isSome) := by
    decide +kernel
  obtain ⟨program, hprogram, he⟩ := exists_of_any hok
  obtain ⟨program', hprogram', he'⟩ := exists_of_any hok'
  obtain ⟨e, he⟩ := Option.isSome_iff_exists.1 he
  obtain ⟨e', he'⟩ := Option.isSome_iff_exists.1 he'
  have hprogram := toOption_eq_some.1 hprogram
  have hprogram' := toOption_eq_some.1 hprogram'
  have he := toOption_eq_some.1 he
  have he' := toOption_eq_some.1 he'
  have hspares : SparesBuiltinTypes
      [.type ⟨"Pair", .record [⟨"content", .name "Int"⟩, ⟨"other", .name "Int"⟩]⟩] := by
    intro name fields hm
    cases List.mem_singleton.1 hm
    decide
  obtain ⟨_, hsame⟩ := same_next_to_more hprogram hprogram'
  obtain ⟨hfunctions, hexprs⟩ := hsame hspares
  obtain ⟨hexpr, hruns⟩ := hexprs _ e e' he he'
  exact ⟨program, program', e, e', hprogram, hprogram', he, he',
    hfunctions "open" List.mem_cons_self, hexpr, hruns fun _ hm => absurd hm List.not_mem_nil⟩

/-- The position of the field that the body of a function takes. -/
def Expr.fieldIndex? : Expr → Option Int
  | .lambda _ (.field _ index _) _ => some index
  | _ => none

theorem Expr.SameUpTo.fieldIndex? {tol : Tolerance} {locals : List String} {e e' : Expr}
    (h : e.SameUpTo tol locals e') : e.fieldIndex? = e'.fieldIndex? := by
  cases h.node with
  | lambda hbody => cases hbody.2.node <;> rfl
  | _ => rfl

/-- Next to a record type called `Tuple` a tuple is taken for a record of it: the
field `foo` of `r.p` is the first item of a tuple before, and the second one
after. -/
theorem field_changes_next_to_tuple_type :
    ∃ program program' definition definition',
      Program.ofDeclarations
        [.type ⟨"R", .record [⟨"p", .tuple [.name "Int", .name "Int"]⟩]⟩,
          .type ⟨"Q", .record [⟨"foo", .name "Int"⟩]⟩,
          .function ⟨"f", ["r"], .field (.field (.identifier "r") "p") "foo"⟩] = .ok program ∧
      Program.ofDeclarations
        ([.type ⟨"R", .record [⟨"p", .tuple [.name "Int", .name "Int"]⟩]⟩,
          .type ⟨"Q", .record [⟨"foo", .name "Int"⟩]⟩,
          .function ⟨"f", ["r"], .field (.field (.identifier "r") "p") "foo"⟩] ++
        [.type ⟨"Tuple", .record [⟨"bar", .name "Int"⟩, ⟨"foo", .name "Int"⟩]⟩]) = .ok program' ∧
      program.find? "f" = some definition ∧ program'.find? "f" = some definition' ∧
      ¬definition.expr.SameUpTo .annotations [] definition'.expr := by
  have htest : (Program.ofDeclarations
      [.type ⟨"R", .record [⟨"p", .tuple [.name "Int", .name "Int"]⟩]⟩,
        .type ⟨"Q", .record [⟨"foo", .name "Int"⟩]⟩,
        .function ⟨"f", ["r"], .field (.field (.identifier "r") "p") "foo"⟩]).toOption.any
      (fun program => (program.find? "f").any (·.expr.fieldIndex? = some 0)) := by
    decide +kernel
  have htest' : (Program.ofDeclarations
      ([.type ⟨"R", .record [⟨"p", .tuple [.name "Int", .name "Int"]⟩]⟩,
        .type ⟨"Q", .record [⟨"foo", .name "Int"⟩]⟩,
        .function ⟨"f", ["r"], .field (.field (.identifier "r") "p") "foo"⟩] ++
      [.type ⟨"Tuple", .record [⟨"bar", .name "Int"⟩, ⟨"foo", .name "Int"⟩]⟩])).toOption.any
      (fun program => (program.find? "f").any (·.expr.fieldIndex? = some 1)) := by
    decide +kernel
  obtain ⟨program, hprogram, hf⟩ := exists_of_any htest
  obtain ⟨program', hprogram', hf'⟩ := exists_of_any htest'
  obtain ⟨definition, hfound, hindex⟩ := exists_of_any hf
  obtain ⟨definition', hfound', hindex'⟩ := exists_of_any hf'
  refine ⟨program, program', definition, definition', toOption_eq_some.1 hprogram,
    toOption_eq_some.1 hprogram', hfound, hfound', fun hsame => ?_⟩
  have hsame := hsame.fieldIndex?
  rw [of_decide_eq_true hindex, of_decide_eq_true hindex'] at hsame
  cases hsame

end Fern
