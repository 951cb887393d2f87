import Fern.Proofs.ResolvedProgram

/-!
# The parameter of an entry

Running a program evaluates the body of its entry with nothing bound, so the
first parameter of the entry never gets a value. Here that parameter is read off
the declarations: it is the first parameter of the definition or, if there is
none, that of the function literal in its place. Definitions have different
names, so what a program has under a name comes from the one declaration of it.
-/

namespace Fern

/-- The parameters that a function literal starts with. -/
def Term.leadingParams : Term → List String
  | .lambda params body => params ++ body.leadingParams
  | _ => []

/-- The first parameter of a function declaration. -/
def FunctionDecl.firstParam? (decl : FunctionDecl) : Option String :=
  (decl.params ++ decl.body.leadingParams).head?

/-- The first parameter of the function of a name. -/
def entryParam? (decls : List Declaration) (entry : String) : Option String :=
  ((functionDecls decls).find? fun decl => decl.name == entry).bind (·.firstParam?)

/-- The first parameter of a curried function is the first of its parameters, or
that of its body if there are none. -/
theorem head?_of_curry {params leading : List String} {body inner : Expr} {param : String}
    {type : TypeInfo} (h : curry params body = .lambda param inner type)
    (hleading : body = .lambda param inner type → leading.head? = some param) :
    (params ++ leading).head? = some param := by
  cases params with
  | nil => exact hleading h
  | cons first rest =>
      cases h
      rfl

theorem Term.leadingParams_of_resolve {t : Term} {env : Env} {param : String} {body : Expr}
    {type : TypeInfo} (h : t.resolve env = .ok (.lambda param body type)) :
    t.leadingParams.head? = some param := by
  have hall : t.All fun _ => True := .of_forall (fun _ => trivial) t
  induction hall generalizing env with
  | @intro t _ _ ih =>
  cases t with
  | lambda params inner =>
      simp only [Term.resolve, bind_eq_ok, pure_eq_ok] at h
      obtain ⟨b, hb, hcurry⟩ := h
      refine head?_of_curry hcurry fun heq => ?_
      subst heq
      exact ih inner List.mem_cons_self hb
  | integer n =>
      rw [Term.resolve] at h
      split at h <;> cases h
  | identifier name =>
      rw [Term.resolve, resolveIdentifier] at h
      split at h <;> cases h
  | constructor name =>
      rw [Term.resolve, resolveConstructor] at h
      split at h
      · cases h
      · have hexpr := Except.ok.inj h
        split at hexpr <;> cases hexpr
  | string | boolean | unit | other => cases h
  | tuple | record | field | item | apply | binary | letIn | sequence | conditional | caseOf =>
      simp only [Term.resolve, bind_eq_ok, pure_eq_ok, reduceCtorEq, and_false, exists_false] at h

theorem FunctionDecl.firstParam?_of_resolve {decl : FunctionDecl} {program : Program}
    {param : String} {body : Expr} {type : TypeInfo}
    (h : decl.resolve program = .ok (.lambda param body type)) :
    decl.firstParam? = some param := by
  simp only [FunctionDecl.resolve, bind_eq_ok] at h
  obtain ⟨b, hb, hrest⟩ := h
  split at hrest
  · refine head?_of_curry (Except.ok.inj hrest) fun heq => ?_
    subst heq
    exact Term.leadingParams_of_resolve hb
  · cases hrest

/-- Functions that are announced have different names. -/
theorem nodup_of_announce {program announced : Program} {seen : List String}
    {decls : List FunctionDecl} (h : announce program seen decls = .ok announced) :
    (decls.map (·.name)).Nodup ∧ ∀ decl ∈ decls, decl.name ∉ seen := by
  induction decls generalizing program seen with
  | nil => exact ⟨.nil, fun _ hm => absurd hm List.not_mem_nil⟩
  | cons decl rest ih =>
      rw [announce] at h
      split at h
      · cases h
      · next hseen =>
        obtain ⟨hnodup, hnew⟩ := ih h
        refine ⟨List.nodup_cons.2 ⟨fun hm => ?_, hnodup⟩, List.forall_mem_cons.2 ⟨?_, ?_⟩⟩
        · obtain ⟨other, ho, heq⟩ := List.mem_map.1 hm
          exact hnew other ho (heq ▸ List.mem_cons_self)
        · rw [← List.contains_iff_mem]
          exact hseen
        · exact fun other ho => List.not_mem_of_not_mem_cons (hnew other ho)

/-- A member of a list is found by what tells it from all others. -/
theorem find?_of_nodup {α β : Type} [BEq β] [LawfulBEq β] {key : α → β} {l : List α}
    (h : (l.map key).Nodup) {a : α} (hm : a ∈ l) : l.find? (fun b => key b == key a) = some a := by
  induction l with
  | nil => cases hm
  | cons first rest ih =>
      obtain ⟨hfirst, hrest⟩ := List.nodup_cons.1 h
      rcases List.mem_cons.1 hm with rfl | hm
      · rw [List.find?_cons, beq_self_eq_true]
      · have hne : key first ≠ key a := fun heq => hfirst (List.mem_map.2 ⟨a, hm, heq.symm⟩)
        rw [List.find?_cons, beq_false_of_ne hne]
        exact ih hrest hm

/-- There is one declaration for a name, so its first parameter is that of the
name. -/
theorem entryParam?_of_mem {decls : List Declaration} {program : Program}
    (h : Program.ofDeclarations decls = .ok program) {decl : FunctionDecl}
    (hm : decl ∈ functionDecls decls) : entryParam? decls decl.name = decl.firstParam? := by
  simp only [Program.ofDeclarations, bind_eq_ok] at h
  obtain ⟨_, _, _, hannounced, _⟩ := h
  rw [entryParam?, find?_of_nodup (nodup_of_announce hannounced).1 hm]
  rfl

/-- What a program has as a function under a name has the first parameter of the
declaration of that name. -/
theorem Program.entryParam?_of_find? {decls : List Declaration} {program : Program}
    (h : Program.ofDeclarations decls = .ok program) {entry param : String} {body : Expr}
    {type definition : TypeInfo}
    (hf : program.find? entry = some ⟨.lambda param body type, definition⟩) :
    entryParam? decls entry = some param := by
  rcases Program.definition_cases h hf with ⟨builtin, heq⟩ | ⟨decl, hm, known, _, rfl, hr⟩
  · cases heq
  · rw [entryParam?_of_mem h hm]
    exact FunctionDecl.firstParam?_of_resolve hr

end Fern
