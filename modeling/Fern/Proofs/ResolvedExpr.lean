import Fern.Proofs.ExprParts
import Fern.Proofs.MatchArms
import Fern.Proofs.TermShape

/-!
# What resolution guarantees of an expression

A resolved expression has a meaning at every node: literals fit a word,
operators and built-in functions exist, constructors name variants of the
program, and no node is of a foreign kind. And every name that occurs free is
one of the local names or defined at the top level. `Expr.Resolved` is these two
facts, and `Term.resolve_resolved` says that whatever resolution accepts has
them, provided that the tree is one the grammar builds.
-/

namespace Fern

/-! ## Resolved expressions -/

/-- A node has a meaning in a program, whatever its parts are. -/
def Expr.Meaningful (program : Program) : Expr → Prop
  | .integer n _ => InRange n
  | .binary op _ _ _ => op ∈ Operator.all
  | .constructor handle index _ => program.HasVariant handle index
  | .builtin id _ => (Builtin.ofId? id).isSome
  | .other .. => False
  | _ => True

/-- All of an expression has a meaning, and its free names are known: as local
names or at the top level. -/
structure Expr.Resolved (program : Program) (locals : List String) (e : Expr) : Prop where
  meaningful : e.All (Expr.Meaningful program)
  known {name : String} : e.Free name → name ∈ locals ∨ (program.find? name).isSome

namespace Expr.Resolved

variable {program : Program} {locals : List String} {e : Expr}

/-- The parts of an expression are resolved in the scope that they stand in. -/
theorem part (h : e.Resolved program locals) {binder : Option String} {part : Expr}
    (hm : (binder, part) ∈ e.parts) : part.Resolved program (binder.toList ++ locals) := by
  refine ⟨h.meaningful.part hm, fun {name} hf => ?_⟩
  by_cases hb : binder = some name
  · subst hb
    exact .inl List.mem_cons_self
  · exact (h.known (.inside hm hb hf)).imp_left (List.mem_append_right _)

/-- An expression is resolved if its node is and its parts are. -/
theorem of_parts (here : e.Meaningful program)
    (symbol : ∀ name type, e = .symbol name type → name ∈ locals ∨ (program.find? name).isSome)
    (parts : ∀ binder part, (binder, part) ∈ e.parts →
      part.Resolved program (binder.toList ++ locals)) : e.Resolved program locals := by
  refine ⟨.intro here fun part hm => (parts part.1 part.2 hm).meaningful, fun {name} hf => ?_⟩
  cases hf with
  | symbol type => exact symbol name type rfl
  | inside hm hb hfree =>
      refine ((parts _ _ hm).known hfree).imp_left fun hl => ?_
      rcases List.mem_append.1 hl with hl | hl
      · exact absurd (Option.mem_toList.1 hl) hb
      · exact hl

/-- A node without parts that is no symbol has to be looked at alone. -/
theorem leaf (hp : e.parts = []) (here : e.Meaningful program)
    (hs : ∀ name type, e ≠ .symbol name type) : e.Resolved program locals :=
  of_parts here (fun name type he => absurd he (hs name type))
    fun _ _ hm => absurd (hp ▸ hm) List.not_mem_nil

theorem curry {params : List String} {body : Expr}
    (h : body.Resolved program (params.reverse ++ locals)) :
    (Fern.curry params body).Resolved program locals := by
  induction params generalizing locals with
  | nil => exact h
  | cons param rest ih =>
      rw [List.reverse_cons, List.append_assoc] at h
      refine of_parts trivial (fun _ _ he => by cases he) fun binder part hm => ?_
      cases List.mem_singleton.1 hm
      exact ih h

end Expr.Resolved

/-! ## Where the parts of a resolved expression come from -/

section Resolve

variable {env : Env}

/-- The parts of what a tree means are what its parts mean, with the names that
are bound for them in scope. Constructors and functions are left out: these mean
more than one node. -/
theorem Term.part_of_resolve {t : Term} {e : Expr} (h : t.resolve env = .ok e)
    (hconstructor : ∀ name, t ≠ .constructor name) (hlambda : ∀ params body, t ≠ .lambda params body)
    {binder : Option String} {part : Expr} (hm : (binder, part) ∈ e.parts) :
    ∃ t' ∈ t.parts, t'.resolve (env.withCapture binder) = .ok part := by
  have hlist : ∀ {ts : List Term} {es : List Expr}, Term.resolveAll env ts = .ok es →
      ∀ e' ∈ es, ∃ t' ∈ ts, t'.resolve env = .ok e' := by
    intro ts es hes e' he'
    rw [Term.resolveAll_eq_mapM, mapM_eq_ok] at hes
    exact exists_mem_of_forall₂ hes he'
  cases t with
  | integer n =>
      rw [Term.resolve] at h
      split at h
      · cases h
      · cases h
        cases hm
  | string text | boolean b | unit =>
      cases h
      cases hm
  | identifier name =>
      rw [Term.resolve, resolveIdentifier] at h
      split at h
      · cases h
        cases hm
      · cases h
  | constructor name => exact absurd rfl (hconstructor name)
  | tuple items =>
      simp only [Term.resolve, bind_eq_ok, pure_eq_ok] at h
      obtain ⟨es, hes, rfl⟩ := h
      obtain ⟨e', he', heq⟩ := List.mem_map.1 hm
      cases heq
      exact hlist hes _ he'
  | record fields =>
      simp only [Term.resolve, bind_eq_ok, pure_eq_ok] at h
      obtain ⟨record, _, es, hes, rfl⟩ := h
      obtain ⟨e', he', heq⟩ := List.mem_map.1 hm
      cases heq
      obtain ⟨field, hf, hr⟩ := mem_of_inRecordOrder hes he'
      exact ⟨field.2, List.mem_map.2 ⟨field, hf, rfl⟩, hr⟩
  | field target name =>
      simp only [Term.resolve, bind_eq_ok, pure_eq_ok, Prod.exists] at h
      obtain ⟨target', ht, index, type, _, rfl⟩ := h
      cases List.mem_singleton.1 hm
      exact ⟨target, List.mem_cons_self, ht⟩
  | item target index =>
      simp only [Term.resolve, bind_eq_ok, pure_eq_ok] at h
      obtain ⟨target', ht, rfl⟩ := h
      cases List.mem_singleton.1 hm
      exact ⟨target, List.mem_cons_self, ht⟩
  | apply callee args =>
      simp only [Term.resolve, bind_eq_ok, pure_eq_ok] at h
      obtain ⟨callee', hc, es, hes, rfl⟩ := h
      rcases List.mem_cons.1 hm with heq | hm
      · cases heq
        exact ⟨callee, List.mem_cons_self, hc⟩
      · obtain ⟨e', he', heq⟩ := List.mem_map.1 hm
        cases heq
        obtain ⟨t', ht', hr⟩ := hlist hes _ he'
        exact ⟨t', List.mem_cons_of_mem _ ht', hr⟩
  | binary op lhs rhs =>
      simp only [Term.resolve, bind_eq_ok, pure_eq_ok] at h
      obtain ⟨l, hl, r, hr, rfl⟩ := h
      rcases List.mem_cons.1 hm with heq | hm
      · cases heq
        exact ⟨lhs, by simp [Term.parts], hl⟩
      · cases List.mem_singleton.1 hm
        exact ⟨rhs, by simp [Term.parts], hr⟩
  | sequence first rest =>
      simp only [Term.resolve, bind_eq_ok, pure_eq_ok] at h
      obtain ⟨f, hf, r, hr, rfl⟩ := h
      rcases List.mem_cons.1 hm with heq | hm
      · cases heq
        exact ⟨first, by simp [Term.parts], hf⟩
      · cases List.mem_singleton.1 hm
        exact ⟨rest, by simp [Term.parts], hr⟩
  | letIn name rhs body =>
      simp only [Term.resolve, bind_eq_ok, pure_eq_ok] at h
      obtain ⟨r, hr, b, hb, rfl⟩ := h
      rcases List.mem_cons.1 hm with heq | hm
      · cases heq
        exact ⟨rhs, by simp [Term.parts], hr⟩
      · cases List.mem_singleton.1 hm
        exact ⟨body, by simp [Term.parts], hb⟩
  | conditional cond cons alt =>
      simp only [Term.resolve, bind_eq_ok, pure_eq_ok] at h
      obtain ⟨c, hc, t, ht, a, ha, rfl⟩ := h
      simp only [Expr.parts, List.mem_cons, Prod.mk.injEq, List.not_mem_nil, or_false] at hm
      rcases hm with ⟨rfl, rfl⟩ | ⟨rfl, rfl⟩ | ⟨rfl, rfl⟩
      · exact ⟨cond, by simp [Term.parts], hc⟩
      · exact ⟨cons, by simp [Term.parts], ht⟩
      · exact ⟨alt, by simp [Term.parts], ha⟩
  | caseOf matchee arms =>
      simp only [Term.resolve, bind_eq_ok, pure_eq_ok] at h
      obtain ⟨m, hmatchee, branches, hb, rfl⟩ := h
      obtain ⟨-, handle, name, variants, -, hbranches, -⟩ := branchesFor_eq_ok.1 hb
      rcases List.mem_cons.1 hm with heq | hm
      · cases heq
        exact ⟨matchee, List.mem_cons_self, hmatchee⟩
      · obtain ⟨branch, hbranch, heq⟩ := List.mem_map.1 hm
        cases heq
        obtain ⟨arm, harm, hmeans⟩ := exists_mem_of_forall₂ hbranches hbranch
        rw [Term.resolveArms_eq_map] at harm
        obtain ⟨source, hsource, rfl⟩ := List.mem_map.1 harm
        rw [hmeans.binding]
        exact ⟨source.body, List.mem_cons_of_mem _ (List.mem_map.2 ⟨source, hsource, rfl⟩),
          hmeans.body⟩
  | lambda params body => exact absurd rfl (hlambda params body)
  | other tag content => cases h

/-- A text or a match stands in a tree at its root. -/
def Expr.IsRootOf (env : Env) (t : Term) : Expr → Prop
  | .string text _ => t = .string text
  | .caseOf _ branches _ => ∃ matchee arms, t = .caseOf matchee arms ∧
      branchesFor env (Term.resolveArms env arms) = .ok branches
  | _ => True

/-- Only a text means a text and only a match means a match. Functions are left
out: one without parameters means its body. -/
theorem Term.root_of_resolve {t : Term} {e : Expr} (h : t.resolve env = .ok e)
    (hlambda : ∀ params body, t ≠ .lambda params body) : e.IsRootOf env t := by
  cases t with
  | integer n =>
      rw [Term.resolve] at h
      split at h
      · cases h
      · cases h
        trivial
  | string text =>
      cases h
      rfl
  | boolean b | unit =>
      cases h
      trivial
  | identifier name =>
      rw [Term.resolve, resolveIdentifier] at h
      split at h
      · cases h
        trivial
      · cases h
  | constructor name =>
      rw [Term.resolve, resolveConstructor] at h
      split at h
      · cases h
      · cases h
        split <;> trivial
  | caseOf matchee arms =>
      simp only [Term.resolve, bind_eq_ok, pure_eq_ok] at h
      obtain ⟨_, _, branches, hbranches, rfl⟩ := h
      exact ⟨matchee, arms, rfl, hbranches⟩
  | tuple | item =>
      simp only [Term.resolve, bind_eq_ok, pure_eq_ok] at h
      obtain ⟨_, _, rfl⟩ := h
      trivial
  | record | field | apply | binary | sequence | letIn =>
      simp only [Term.resolve, bind_eq_ok, pure_eq_ok] at h
      obtain ⟨_, _, _, _, rfl⟩ := h
      trivial
  | conditional =>
      simp only [Term.resolve, bind_eq_ok, pure_eq_ok] at h
      obtain ⟨_, _, _, _, _, _, rfl⟩ := h
      trivial
  | lambda params body => exact absurd rfl (hlambda params body)
  | other tag content => cases h

/-! ## Properties of nodes -/

theorem Expr.All.curry {q : Expr → Prop} (hq : ∀ param body, q (.lambda param body .anyFunction))
    {params : List String} {body : Expr} (h : body.All q) : (Fern.curry params body).All q := by
  induction params with
  | nil => exact h
  | cons param rest ih =>
      refine .intro (hq param _) fun part hm => ?_
      obtain rfl := List.mem_singleton.1 hm
      exact ih

theorem resolveConstructor_all {q : Expr → Prop} {name : String} {e : Expr}
    (h : resolveConstructor env name = .ok e)
    (hconstructor : ∀ handle index type, q (.constructor handle index type))
    (happly : ∀ callee args type, q (.apply callee args type)) (hunit : ∀ type, q (.unit type)) :
    e.All q := by
  rw [resolveConstructor] at h
  split at h
  · cases h
  · cases h
    split
    · exact .leaf rfl (hconstructor _ _ _)
    · refine .intro (happly _ _ _) fun part hm => ?_
      rcases List.mem_cons.1 hm with rfl | hm
      · exact .leaf rfl (hconstructor _ _ _)
      · obtain rfl := List.mem_singleton.1 hm
        exact .leaf rfl (hunit _)

/-! ## Resolution accepts nothing else -/

theorem resolveIdentifier_resolved {name : String} {e : Expr}
    (h : resolveIdentifier env name = .ok e) : e.Resolved env.program env.locals := by
  rw [resolveIdentifier] at h
  split at h
  · next hk =>
    cases h
    refine .of_parts trivial (fun found type he => ?_) fun _ _ hm => absurd hm List.not_mem_nil
    cases he
    exact (Bool.or_eq_true_iff.1 hk).imp_left List.contains_iff_mem.1
  · cases h

theorem resolveConstructor_resolved {name : String} {e : Expr}
    (h : resolveConstructor env name = .ok e) : e.Resolved env.program env.locals := by
  rw [resolveConstructor] at h
  split at h
  · cases h
  · next info hinfo =>
    have hc : (Expr.constructor info.handle info.index (.named info.handle.name [])).Resolved
        env.program env.locals :=
      .leaf rfl (hasVariant_of_constructor? hinfo) fun _ _ he => by cases he
    cases h
    split
    · exact hc
    · refine .of_parts trivial (fun _ _ he => by cases he) fun binder part hm => ?_
      rcases List.mem_cons.1 hm with heq | hm
      · cases heq
        exact hc
      · cases List.mem_singleton.1 hm
        exact .leaf rfl trivial fun _ _ he => by cases he

/-- What resolution accepts is resolved. The induction is on the shape of the
tree, which gives the statement for every part in every scope. -/
theorem Term.resolve_resolved {t : Term} (ht : t.All Term.HasShape) {e : Expr}
    (h : t.resolve env = .ok e) : e.Resolved env.program env.locals := by
  induction ht generalizing env e with
  | @intro t here below ih =>
  have hparts : (∀ name, t ≠ .constructor name) → (∀ params body, t ≠ .lambda params body) →
      ∀ binder part, (binder, part) ∈ e.parts →
        part.Resolved env.program (binder.toList ++ env.locals) := by
    intro hconstructor hlambda binder part hm
    obtain ⟨t', ht', hr⟩ := Term.part_of_resolve h hconstructor hlambda hm
    have hres := ih t' ht' hr
    rw [Env.withCapture_eq] at hres
    exact hres
  cases t with
  | integer n =>
      rw [Term.resolve] at h
      split at h
      · cases h
      · next hn =>
        cases h
        refine .leaf rfl ⟨Int.le_trans (by decide) here, Int.not_lt.1 hn⟩ fun _ _ he => ?_
        cases he
  | string text | boolean b | unit =>
      cases h
      exact .leaf rfl trivial fun _ _ he => by cases he
  | identifier name => exact resolveIdentifier_resolved h
  | constructor name => exact resolveConstructor_resolved h
  | tuple items =>
      simp only [Term.resolve, bind_eq_ok, pure_eq_ok] at h
      obtain ⟨es, _, rfl⟩ := h
      exact .of_parts trivial (fun _ _ => nofun) (hparts (fun _ => nofun) fun _ _ => nofun)
  | record fields =>
      simp only [Term.resolve, bind_eq_ok, pure_eq_ok] at h
      obtain ⟨record, _, es, _, rfl⟩ := h
      exact .of_parts trivial (fun _ _ => nofun) (hparts (fun _ => nofun) fun _ _ => nofun)
  | field target name =>
      simp only [Term.resolve, bind_eq_ok, pure_eq_ok, Prod.exists] at h
      obtain ⟨target', _, index, type, _, rfl⟩ := h
      exact .of_parts trivial (fun _ _ => nofun) (hparts (fun _ => nofun) fun _ _ => nofun)
  | item target index =>
      simp only [Term.resolve, bind_eq_ok, pure_eq_ok] at h
      obtain ⟨target', _, rfl⟩ := h
      exact .of_parts trivial (fun _ _ => nofun) (hparts (fun _ => nofun) fun _ _ => nofun)
  | apply callee args =>
      simp only [Term.resolve, bind_eq_ok, pure_eq_ok] at h
      obtain ⟨callee', _, es, _, rfl⟩ := h
      exact .of_parts trivial (fun _ _ => nofun) (hparts (fun _ => nofun) fun _ _ => nofun)
  | binary op lhs rhs =>
      simp only [Term.resolve, bind_eq_ok, pure_eq_ok] at h
      obtain ⟨l, _, r, _, rfl⟩ := h
      exact .of_parts here (fun _ _ => nofun) (hparts (fun _ => nofun) fun _ _ => nofun)
  | sequence first rest =>
      simp only [Term.resolve, bind_eq_ok, pure_eq_ok] at h
      obtain ⟨f, _, r, _, rfl⟩ := h
      exact .of_parts trivial (fun _ _ => nofun) (hparts (fun _ => nofun) fun _ _ => nofun)
  | letIn name rhs body =>
      simp only [Term.resolve, bind_eq_ok, pure_eq_ok] at h
      obtain ⟨r, _, b, _, rfl⟩ := h
      exact .of_parts trivial (fun _ _ => nofun) (hparts (fun _ => nofun) fun _ _ => nofun)
  | conditional cond cons alt =>
      simp only [Term.resolve, bind_eq_ok, pure_eq_ok] at h
      obtain ⟨c, _, t, _, a, _, rfl⟩ := h
      exact .of_parts trivial (fun _ _ => nofun) (hparts (fun _ => nofun) fun _ _ => nofun)
  | caseOf matchee arms =>
      simp only [Term.resolve, bind_eq_ok, pure_eq_ok] at h
      obtain ⟨m, _, branches, _, rfl⟩ := h
      exact .of_parts trivial (fun _ _ => nofun) (hparts (fun _ => nofun) fun _ _ => nofun)
  | lambda params body =>
      simp only [Term.resolve, bind_eq_ok, pure_eq_ok] at h
      obtain ⟨b, hb, rfl⟩ := h
      have hres := ih body List.mem_cons_self hb
      rw [Env.withLocals_eq] at hres
      exact hres.curry
  | other tag content => exact absurd here id

end Resolve

end Fern
