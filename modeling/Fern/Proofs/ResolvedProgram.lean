import Fern.Proofs.ResolvedExpr

/-!
# What resolution guarantees of a program

The names of a program are made known before their bodies are looked at, so a
body is resolved in a table that still holds stand-ins. What a resolved body
relies on is only which types there are and which names are defined, and in both
the table at that moment and the finished one agree. So every definition of a
finished program is a built-in function or a function whose body is resolved in
that very program.
-/

namespace Fern

/-- Two programs know the same types and define the same names, though not
necessarily as the same. -/
structure Program.KnowsSame (p q : Program) : Prop where
  types : p.types = q.types
  defined (name : String) : (p.find? name).isSome = (q.find? name).isSome

namespace Program.KnowsSame

variable {p q r : Program}

theorem refl : p.KnowsSame p := ⟨rfl, fun _ => rfl⟩

theorem trans (h : p.KnowsSame q) (h' : q.KnowsSame r) : p.KnowsSame r :=
  ⟨h.types.trans h'.types, fun name => (h.defined name).trans (h'.defined name)⟩

theorem symm (h : p.KnowsSame q) : q.KnowsSame p :=
  ⟨h.types.symm, fun name => (h.defined name).symm⟩

/-- A name that is known already can be given any definition. -/
theorem define {name : String} (h : (p.find? name).isSome) (expr : Expr) (type : TypeInfo) :
    p.KnowsSame (p.define name expr type) := by
  refine ⟨rfl, fun other => ?_⟩
  by_cases ho : other = name
  · subst ho
    rw [find?_define_self, h]
    rfl
  · rw [find?_define_of_ne _ _ _ ho]

end Program.KnowsSame

/-- What resolved expressions rely on is what programs know. -/
theorem Expr.Resolved.congr {p q : Program} (hpq : p.KnowsSame q) {locals : List String} {e : Expr}
    (h : e.Resolved p locals) : e.Resolved q locals := by
  refine ⟨h.meaningful.mono fun e he => ?_, fun {name} hf => ?_⟩
  · cases e with
    | constructor handle index type =>
        obtain ⟨typeName, variants, hdef, hrange⟩ := he
        refine ⟨typeName, variants, ?_, hrange⟩
        rw [Program.typeDef?, ← hpq.types]
        exact hdef
    | _ => exact he
  · rw [← hpq.defined name]
    exact h.known hf

/-- A definition is a built-in function, or a function resolved in the program
that it belongs to. -/
inductive Definition.Resolved (program : Program) : Definition → Prop
  | builtin {id : String} {exprType type : TypeInfo} (known : (Builtin.ofId? id).isSome) :
      Resolved program ⟨.builtin id exprType, type⟩
  | function {param : String} {body : Expr} {exprType type : TypeInfo}
      (resolved : (Expr.lambda param body exprType).Resolved program []) :
      Resolved program ⟨.lambda param body exprType, type⟩

/-- All definitions of a program are resolved in it. -/
def Program.Resolved (program : Program) : Prop :=
  ∀ name definition, program.find? name = some definition → definition.Resolved program

/-! ## Before the bodies -/

theorem definitions_addTypeDecls {known : List String} {program typed : Program}
    {decls : List TypeDecl} (h : addTypeDecls known program decls = .ok typed) :
    typed.definitions = program.definitions := by
  induction decls generalizing program with
  | nil =>
      cases h
      rfl
  | cons decl rest ih =>
      simp only [addTypeDecls, bind_eq_ok] at h
      obtain ⟨def_, _, hrest⟩ := h
      exact (ih hrest).trans rfl

theorem definitions_declareTypes {program typed : Program} {decls : List TypeDecl}
    (h : program.declareTypes decls = .ok typed) : typed.definitions = program.definitions := by
  simp only [Program.declareTypes, bind_eq_ok] at h
  obtain ⟨_, _, hadd⟩ := h
  exact definitions_addTypeDecls hadd

/-- What the built-in functions add to a program is built-in functions. -/
theorem find?_withBuiltins {program : Program} {name : String} {definition : Definition}
    (h : program.withBuiltins.find? name = some definition) :
    program.find? name = some definition ∨
      ∃ builtin : Builtin, definition = ⟨.builtin builtin.id .unknown, .unknown⟩ := by
  have hfold : ∀ (builtins : List Builtin) (start : Program),
      (builtins.foldl (fun p b => p.define b.surfaceName (.builtin b.id .unknown) .unknown)
        start).find? name = some definition →
      start.find? name = some definition ∨
        ∃ builtin : Builtin, definition = ⟨.builtin builtin.id .unknown, .unknown⟩ := by
    intro builtins
    induction builtins with
    | nil => exact fun _ h => .inl h
    | cons builtin rest ih =>
        intro start h
        rcases ih _ h with hs | hb
        · by_cases hn : name = builtin.surfaceName
          · subst hn
            rw [Program.find?_define_self] at hs
            exact .inr ⟨builtin, (Option.some.inj hs).symm⟩
          · rw [Program.find?_define_of_ne _ _ _ hn] at hs
            exact .inl hs
        · exact .inr hb
  exact hfold Builtin.all program h

/-- Making names known changes what these names mean and nothing else. -/
theorem find?_announce {program announced : Program} {seen : List String}
    {decls : List FunctionDecl} (h : announce program seen decls = .ok announced) :
    announced.types = program.types ∧
      (∀ decl ∈ decls, (announced.find? decl.name).isSome) ∧
      ∀ name, name ∉ decls.map (·.name) → announced.find? name = program.find? name := by
  induction decls generalizing program seen with
  | nil =>
      cases h
      exact ⟨rfl, fun _ hm => absurd hm List.not_mem_nil, fun _ _ => rfl⟩
  | cons decl rest ih =>
      rw [announce] at h
      split at h
      · cases h
      · obtain ⟨htypes, hsome, hother⟩ := ih h
        refine ⟨htypes, List.forall_mem_cons.2 ⟨?_, hsome⟩, fun name hn => ?_⟩
        · by_cases hm : decl.name ∈ rest.map (·.name)
          · obtain ⟨again, hagain, hname⟩ := List.mem_map.1 hm
            exact hname ▸ hsome again hagain
          · rw [hother _ hm, Program.find?_define_self]
            rfl
        · rw [hother name (List.not_mem_of_not_mem_cons hn),
            Program.find?_define_of_ne _ _ _ (List.ne_of_not_mem_cons hn)]

/-! ## The bodies -/

/-- Each definition of a finished program was there before and is of no declared
name, or comes from a declaration, resolved in a program that knows the same. -/
theorem find?_addFunctions {program final : Program} {decls : List FunctionDecl}
    (h : addFunctions program decls = .ok final)
    (hknown : ∀ decl ∈ decls, (program.find? decl.name).isSome) :
    program.KnowsSame final ∧ ∀ name definition, final.find? name = some definition →
      program.find? name = some definition ∧ name ∉ decls.map (·.name) ∨
      ∃ decl ∈ decls, ∃ known : Program, known.KnowsSame final ∧
        decl.name = name ∧ decl.resolve known = .ok definition.expr := by
  induction decls generalizing program with
  | nil =>
      cases h
      exact ⟨.refl, fun _ _ hf => .inl ⟨hf, List.not_mem_nil⟩⟩
  | cons decl rest ih =>
      simp only [addFunctions, bind_eq_ok] at h
      obtain ⟨expr, hexpr, hrest⟩ := h
      obtain ⟨hdecl, hothers⟩ := List.forall_mem_cons.1 hknown
      have hsame := Program.KnowsSame.define hdecl expr expr.type
      obtain ⟨hfinal, hfind⟩ := ih hrest fun other ho => hsame.defined _ ▸ hothers other ho
      refine ⟨hsame.trans hfinal, fun name definition hf => ?_⟩
      rcases hfind name definition hf with ⟨hf, hn⟩ | ⟨other, ho, hother⟩
      · by_cases heq : name = decl.name
        · subst heq
          rw [Program.find?_define_self] at hf
          cases hf
          exact .inr ⟨decl, List.mem_cons_self, program, hsame.trans hfinal, rfl, hexpr⟩
        · rw [Program.find?_define_of_ne _ _ _ heq] at hf
          exact .inl ⟨hf, List.not_mem_cons_of_ne_of_not_mem heq hn⟩
      · exact .inr ⟨other, List.mem_cons_of_mem _ ho, hother⟩

/-- A function declaration that is accepted stands for a resolved function. -/
theorem FunctionDecl.resolve_resolved {program : Program} {decl : FunctionDecl} {e : Expr}
    (ht : decl.body.All Term.HasShape) (h : decl.resolve program = .ok e) :
    e.isLambda ∧ e.Resolved program [] := by
  simp only [FunctionDecl.resolve, bind_eq_ok] at h
  obtain ⟨body, hbody, hrest⟩ := h
  split at hrest
  · next hl =>
    cases hrest
    have hres := Term.resolve_resolved ht hbody
    rw [Env.withLocals_eq] at hres
    exact ⟨hl, hres.curry⟩
  · cases hrest

theorem mem_of_mem_functionDecls {decls : List Declaration} {decl : FunctionDecl}
    (h : decl ∈ functionDecls decls) : .function decl ∈ decls := by
  obtain ⟨source, hm, hs⟩ := List.mem_filterMap.1 h
  cases source with
  | type _ => cases hs
  | function _ =>
      cases hs
      exact hm

theorem mem_of_mem_typeDecls {decls : List Declaration} {decl : TypeDecl}
    (h : decl ∈ typeDecls decls) : .type decl ∈ decls := by
  obtain ⟨source, hm, hs⟩ := List.mem_filterMap.1 h
  cases source with
  | type _ =>
      cases hs
      exact hm
  | function _ => cases hs

/-- Each definition of a program that declarations stand for is a built-in function,
or what a declaration means where the program knows the same. -/
theorem Program.definition_cases {decls : List Declaration} {program : Program}
    (h : Program.ofDeclarations decls = .ok program) {name : String} {definition : Definition}
    (hf : program.find? name = some definition) :
    (∃ builtin : Builtin, definition = ⟨.builtin builtin.id .unknown, .unknown⟩) ∨
      ∃ decl ∈ functionDecls decls, ∃ known : Program, known.KnowsSame program ∧
        decl.name = name ∧ decl.resolve known = .ok definition.expr := by
  simp only [Program.ofDeclarations, bind_eq_ok] at h
  obtain ⟨typed, htyped, announced, hannounced, hfinal⟩ := h
  obtain ⟨_, hknown, hother⟩ := find?_announce hannounced
  obtain ⟨_, hfind⟩ := find?_addFunctions hfinal hknown
  rcases hfind name definition hf with ⟨hf, hn⟩ | hdecl
  · rw [hother name hn] at hf
    rcases find?_withBuiltins hf with hf | hbuiltin
    · rw [Program.find?, definitions_declareTypes htyped] at hf
      cases hf
    · exact .inl hbuiltin
  · exact .inr hdecl

/-- Every program that declarations stand for is resolved. -/
theorem Program.ofDeclarations_resolved {decls : List Declaration} {program : Program}
    (hshape : ∀ decl ∈ decls, decl.All Term.HasShape)
    (h : Program.ofDeclarations decls = .ok program) : program.Resolved := by
  intro name definition hf
  rcases Program.definition_cases h hf with ⟨builtin, rfl⟩ | ⟨decl, hm, known, hsame, _, hr⟩
  · refine .builtin ?_
    rw [Builtin.ofId?_id]
    rfl
  · obtain ⟨expr, type⟩ := definition
    obtain ⟨hl, hres⟩ :=
      FunctionDecl.resolve_resolved (hshape _ (mem_of_mem_functionDecls hm)) hr
    cases expr with
    | lambda param body exprType => exact .function (hres.congr hsame)
    | _ => cases hl

end Fern
