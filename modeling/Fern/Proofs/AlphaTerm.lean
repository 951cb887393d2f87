import Fern.Proofs.AlphaExpr
import Fern.Proofs.ProgramPairs

/-!
# Trees up to the names they bind

The same notion for trees as they are written, and for whole programs: trees that
differ only in names that they bind mean expressions that do, so declarations
that differ only in such names make alike programs, or none of them a program.
-/

namespace Fern

/-- What names stand for below several pairs of binders, the last one
innermost. -/
def NameMatch.binds (m : NameMatch) (pairs : List (String × String)) : NameMatch :=
  pairs.foldl (fun m pair => m.bind pair.1 pair.2) m

section Alike

variable (binder : String → String → Prop)

/-- Two trees differ at most in the names that they bind, which are related, and
in the occurrences of these. -/
inductive Term.Alike : NameMatch → Term → Term → Prop
  | intro {m : NameMatch} {t t' : Term} {inner : Term → Term → Prop}
      {under : List (String × String) → Term → Term → Prop}
      (hinner : ∀ {part part' : Term}, inner part part' → Alike m part part')
      (hbinder : ∀ {pairs : List (String × String)} {part part' : Term},
        under pairs part part' → ∀ pair ∈ pairs, binder pair.1 pair.2)
      (hunder : ∀ {pairs : List (String × String)} {part part' : Term},
        under pairs part part' → Alike (m.binds pairs) part part')
      (node : t.Paired inner under m t') : Alike m t t'

theorem Term.Alike.of_node {binder : String → String → Prop} {m : NameMatch} {t t' : Term}
    (node : t.Paired (Alike binder m) (fun pairs part part' =>
      (∀ pair ∈ pairs, binder pair.1 pair.2) ∧ Alike binder (m.binds pairs) part part') m t') :
    t.Alike binder m t' :=
  .intro id (·.1) (·.2) node

/-- Two declarations are the same type declaration, or they declare functions of
one name that differ at most in the names that they bind. -/
inductive Declaration.Alike (m : NameMatch) : Declaration → Declaration → Prop
  | type (decl : TypeDecl) : Alike m (.type decl) (.type decl)
  | function {name : String} {pairs : List (String × String)} {body body' : Term}
      (hbinder : ∀ pair ∈ pairs, binder pair.1 pair.2)
      (hbody : body.Alike binder (m.binds pairs) body') :
      Alike m (.function ⟨name, pairs.map (·.1), body⟩) (.function ⟨name, pairs.map (·.2), body'⟩)

end Alike

/-- Two places in which names mean the same: the programs know the same, and
names that stand for each other are both local, or both are not and the same. -/
structure Env.Alike (m : NameMatch) (env env' : Env) : Prop where
  known : env.program.KnowsSame env'.program
  locals {name name' : String} : m name name' →
    name ∈ env.locals ∧ name' ∈ env'.locals ∨
      name ∉ env.locals ∧ name' ∉ env'.locals ∧ name = name'

variable {binder : String → String → Prop} {m : NameMatch} {env env' : Env}

theorem Env.Alike.withLocal (h : Env.Alike m env env') (name name' : String) :
    Env.Alike (m.bind name name') (env.withLocal name) (env'.withLocal name') := by
  refine ⟨h.known, fun {x x'} hx => ?_⟩
  rcases hx with ⟨rfl, rfl⟩ | ⟨hne, hne', hx⟩
  · exact .inl ⟨List.mem_cons_self, List.mem_cons_self⟩
  · rcases h.locals hx with ⟨hl, hl'⟩ | ⟨hl, hl', heq⟩
    · exact .inl ⟨List.mem_cons_of_mem _ hl, List.mem_cons_of_mem _ hl'⟩
    · refine .inr ⟨?_, ?_, heq⟩
      · exact List.not_mem_cons_of_ne_of_not_mem hne hl
      · exact List.not_mem_cons_of_ne_of_not_mem hne' hl'

theorem Env.Alike.withLocals (h : Env.Alike m env env') (pairs : List (String × String)) :
    Env.Alike (m.binds pairs) (env.withLocals (pairs.map (·.1)))
      (env'.withLocals (pairs.map (·.2))) := by
  induction pairs generalizing m env env' with
  | nil => exact h
  | cons pair rest ih => exact ih (h.withLocal pair.1 pair.2)

theorem resolveIdentifier_alike (h : Env.Alike m env env') {name name' : String}
    (hn : m name name') :
    Matches (Expr.Alike binder m) (resolveIdentifier env name) (resolveIdentifier env' name') := by
  have hsymbol : (Expr.symbol name .unknown).Alike binder m (.symbol name' .unknown) :=
    .of_node rfl (.symbol hn)
  rw [resolveIdentifier, resolveIdentifier]
  rcases h.locals hn with ⟨hl, hl'⟩ | ⟨hl, hl', rfl⟩
  · rw [if_pos (by simp [hl]), if_pos (by simp [hl'])]
    exact .ok hsymbol
  · rw [h.known.defined name]
    simp only [List.contains_iff_mem, hl, hl', Bool.or_eq_true, false_or]
    split
    · exact .ok hsymbol
    · exact .error

theorem curry_alike {pairs : List (String × String)}
    (hb : ∀ pair ∈ pairs, binder pair.1 pair.2) {body body' : Expr}
    (h : body.Alike binder (m.binds pairs) body') :
    (curry (pairs.map (·.1)) body).Alike binder m (curry (pairs.map (·.2)) body') := by
  induction pairs generalizing m with
  | nil => exact h
  | cons pair rest ih =>
      obtain ⟨hpair, hrest⟩ := List.forall_mem_cons.1 hb
      exact .of_node rfl (.lambda ⟨hpair, ih hrest h⟩)

/-- Alike expressions in one place are made of alike parts in the places that
their nodes make. -/
theorem Expr.Alike.congruent (binder : String → String → Prop) (m : NameMatch) :
    Expr.Congruent (Expr.Alike binder m) (fun pairs e e' =>
      (∀ pair ∈ pairs, binder pair.1 pair.2) ∧ e.Alike binder (m.binds pairs) e') where
  type he := he.type
  node htype hnode :=
    .of_node htype (hnode.mono id (fun hb => ⟨hb.1 _ List.mem_cons_self, hb.2⟩) False.elim id)
  curry hb := curry_alike hb.1 hb.2

/-- Alike trees mean alike expressions. The induction is on how the trees are
alike, which gives the statement for all parts in all places. -/
theorem Term.Alike.resolve {t t' : Term} (h : t.Alike binder m t') (henv : Env.Alike m env env') :
    Matches (Expr.Alike binder m) (t.resolve env) (t'.resolve env') := by
  induction h generalizing env env' with
  | intro _ hbinder _ node hinner hunder =>
      refine node.resolve (Expr.Alike.congruent binder _) henv.known.types
        (fun hp => hinner hp henv) (fun {pairs} _ _ hp => ?_) (resolveIdentifier_alike henv)
      exact (hunder hp (henv.withLocals pairs)).mono fun _ _ hb => ⟨hbinder hp, hb⟩

/-! ## Programs -/

theorem Expr.Alike.isLambda {e e' : Expr} (h : e.Alike binder m e') : e.isLambda = e'.isLambda := by
  cases h.node <;> rfl

/-- Alike function declarations stand for alike functions, where names stand for
nothing but themselves. -/
theorem Declaration.Alike.resolve (hm : ∀ {x x'}, m x x' → x = x') {program program' : Program}
    (hsame : program.KnowsSame program') {decl decl' : FunctionDecl}
    (h : Declaration.Alike binder m (.function decl) (.function decl')) :
    Matches (Expr.Alike binder m) (decl.resolve program) (decl'.resolve program') := by
  cases h with
  | @function name pairs body body' hbinder hbody =>
      have henv : Env.Alike m { program, definition := some name }
          { program := program', definition := some name } :=
        ⟨hsame, fun hx => .inr ⟨List.not_mem_nil, List.not_mem_nil, hm hx⟩⟩
      have hbodies := (hbody.resolve (henv.withLocals pairs)).mono fun _ _ hb =>
        (And.intro hbinder hb)
      exact (FunctionDecl.resolve_matches (Expr.Alike.congruent binder m) Expr.Alike.isLambda
        hbodies).mono fun _ _ he => he.1

/-- Alike declarations stand for alike programs. -/
theorem Program.ofDeclarations_alike (hm : ∀ {x x'}, m x x' → x = x')
    {decls decls' : List Declaration} (h : List.Forall₂ (Declaration.Alike binder m) decls decls') :
    Follows (Program.Alike binder m) (Program.ofDeclarations decls)
      (Program.ofDeclarations decls') := by
  have hpaired : List.Forall₂ (Declaration.Paired fun decl decl' =>
      Declaration.Alike binder m (.function decl) (.function decl')) decls decls' := by
    refine h.imp fun decl decl' hd => ?_
    cases hd with
    | type decl => exact .type decl
    | function hbinder hbody => exact .function (.function hbinder hbody)
  have hname {decl decl' : FunctionDecl}
      (hd : Declaration.Alike binder m (.function decl) (.function decl')) :
      decl.name = decl'.name := by
    cases hd
    rfl
  have hprogram := Program.ofDeclarations_matches hname (fun hd hsame => hd.resolve hm hsame)
    (fun _ _ => .of_node rfl .builtin) hpaired
  exact (hprogram.mono fun _ _ hp => ⟨hp.types, hp.defined⟩).follows

end Fern
