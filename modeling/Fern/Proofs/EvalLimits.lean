import Fern.Proofs.FreeNames
import Fern.Proofs.RunEndings

/-!
# Evaluation within larger limits

A limit either cuts an evaluation short or does not show. What is needed of the steps is only that
they depend on nothing but the scope and the evaluator for what lies inside (`Steady`), so that two
evaluators between which a step cannot tell give steps of which the same holds. This is said of any
way of making steps, because evaluations with steps of their own are compared with the real ones.

Whether a run ends with a fault of some kind does not depend on what was written before it, so a
run that may be cut short is one that is cut short always, or never.
-/

namespace Fern

/-! ## Runs that are cut short -/

namespace Run

variable {α α' α'' : Type} {result : α → α' → Prop} {fault : Fault → Fault → Prop}
  {cut cut' : Fault → Prop} {run : Run α} {run' : Run α'}

theorem Alike.symm {run run' : Run α} (h : run.Alike Eq Eq run') : run'.Alike Eq Eq run := by
  intro console console'
  have hrun := h console' console
  generalize run console' = ended at hrun ⊢
  generalize run' console = ended' at hrun ⊢
  cases hrun with
  | ok written related left right => exact .ok written related.symm right left
  | error written related left right => exact .error written related.symm right left

theorem Alike.trans {run run' run'' : Run α} (h : run.Alike Eq Eq run')
    (h' : run'.Alike Eq Eq run'') : run.Alike Eq Eq run'' := by
  refine (h.meet h'.symm).mono ?_ ?_
  · rintro a a' ⟨b, rfl, rfl⟩
    rfl
  · rintro f f' ⟨g, rfl, rfl⟩
    rfl

/-- A run that does not depend on what was written before ends with a fault of a kind always or
never. -/
theorem Alike.ends_or {run : Run α} (h : run.Alike Eq Eq run) (cut : Fault → Prop) :
    run.Ends (fun _ => False) cut ∨ run.Ends (fun _ => True) fun f => ¬cut f := by
  cases hrun : run {} with
  | ok a after =>
      refine .inr fun console => ?_
      have hagree := h {} console
      rw [hrun] at hagree
      generalize run console = ended at hagree ⊢
      cases hagree
      trivial
  | error f after =>
      have hends (console : Console) : ∃ after', run console = .error f after' := by
        have hagree := h {} console
        rw [hrun] at hagree
        generalize run console = ended at hagree ⊢
        cases hagree with
        | error _ related =>
            subst related
            exact ⟨_, rfl⟩
      by_cases hf : cut f
      · refine .inl fun console => ?_
        obtain ⟨after', hconsole⟩ := hends console
        rw [hconsole]
        exact hf
      · refine .inr fun console => ?_
        obtain ⟨after', hconsole⟩ := hends console
        rw [hconsole]
        exact hf

/-- A run like one that always, or never, ends with a result, and otherwise with a fault of a kind,
ends so itself. -/
theorem Alike.ends_left {ok : Prop} (h : run.Alike result Eq run')
    (h' : run'.Ends (fun _ => ok) cut) : run.Ends (fun _ => ok) cut := by
  intro console
  have hagree := h console {}
  have hends := h' {}
  generalize run console = ended at hagree ⊢
  generalize run' {} = ended' at hagree hends
  cases hagree with
  | ok => exact hends
  | error _ related => exact related ▸ hends

/-- What one of two runs that are alike hands over is part of what goes together. -/
theorem Alike.and_ends {handed : α → Prop} {failed : Fault → Prop} (h : run.Alike result fault run')
    (h' : run.Ends handed failed) :
    run.Alike (fun a a' => result a a' ∧ handed a) fault run' := by
  intro console console'
  have hagree := h console console'
  have hends := h' console
  generalize run console = ended at hagree hends ⊢
  generalize run' console' = ended' at hagree ⊢
  cases hagree with
  | ok written related left right => exact .ok written ⟨related, hends⟩ left right
  | error written related left right => exact .error written related left right

/-- Where one run is always cut short nothing has to be shown. -/
theorem AlikeUnless.of_cut_right (h : run'.Ends (fun _ => False) cut') :
    run.AlikeUnless cut cut' result fault run' := by
  intro console console'
  have hends := h console'
  generalize run' console' = ended' at hends ⊢
  cases ended' with
  | ok a after => exact hends.elim
  | error f after => exact .right hends

/-- Runs that are never cut short are alike. -/
theorem AlikeUnless.uncut (h : run.AlikeUnless cut cut' result fault run')
    (hl : run.Ends (fun _ => True) fun f => ¬cut f)
    (hr : run'.Ends (fun _ => True) fun f => ¬cut' f) : run.Alike result fault run' := by
  intro console console'
  have hagree := h console console'
  have hends := hl console
  have hends' := hr console'
  generalize run console = ended at hagree hends ⊢
  generalize run' console' = ended' at hagree hends' ⊢
  cases hagree with
  | left hcut => exact absurd hcut hends
  | right hcut => exact absurd hcut hends'
  | both h => exact h

theorem ends_uncut (run : Run α) : run.Ends (fun _ => True) fun _ => ¬False := by
  intro console
  cases run console with
  | ok => trivial
  | error => exact id

end Run

/-! ## Steps -/

theorem Context.lookup_alike_self (context : Context) (scope : Scope) (name : String) :
    (context.lookup scope name).Alike Eq Eq (context.lookup scope name) := by
  refine Context.alike_lookup_of_rel (fun _ _ => rfl) (fun _ => rfl) ?_
  cases scope.find? name with
  | none => exact .none
  | some v => exact .some rfl

/-- Evaluation depends on the scope and not on what was written before. -/
theorem Context.relates_self (context : Context) :
    context.Relates context Eq (fun scope scope' e e' => scope = scope' ∧ e = e') Eq Eq where
  files := rfl
  node h := by
    obtain ⟨rfl, rfl⟩ := h
    refine Expr.paired_self _ (fun _ _ => ⟨rfl, rfl⟩) (fun _ _ _ v v' hv => hv ▸ ⟨rfl, rfl⟩)
      (fun name _ _ => context.lookup_alike_self _ name) fun handle index => ?_
    exact Context.alike_makeConstructor rfl (fun _ _ => rfl) (fun _ => rfl) handle index
  closure h := by
    obtain ⟨rfl, heq⟩ := h
    cases heq
    rfl
  value {v v'} h := by
    subst h
    cases v with
    | unit => exact .unit
    | integer n => exact .integer n
    | string text => exact .string text
    | tuple items => exact .tuple (List.forall₂_same.2 fun _ _ => rfl)
    | function param captured body => exact .function fun w w' hw => hw ▸ ⟨rfl, rfl⟩
    | variant handle index payload => exact .variant rfl rfl
    | constructor handle index => exact .constructor rfl
    | builtin id => exact .builtin id
    | other typeName content => exact .other typeName content
  unit := rfl
  integer _ := rfl
  string _ := rfl
  builtin _ := rfl
  tuple hitems := congrArg _ (List.forall₂_eq_eq_eq ▸ hitems)
  variant hhandle hv := hhandle ▸ hv ▸ rfl
  noBranch _ hhandle := hhandle ▸ rfl
  fault _ := rfl

/-- A way of making an evaluator from one for what lies inside does not tell evaluators apart that
are alike. -/
def Steady (step : Evaluator → Evaluator) : Prop :=
  ∀ {cut cut' : Fault → Prop} {eval eval' : Evaluator},
    (∀ scope e, (eval scope e).AlikeUnless cut cut' Eq Eq (eval' scope e)) →
      ∀ scope e, (step eval scope e).AlikeUnless cut cut' Eq Eq (step eval' scope e)

theorem Context.steady_step (context : Context) : Steady context.step := by
  intro cut cut' eval eval' heval scope e
  have hself := context.relates_self
  refine hself.toRelatesValues.step ?_ ⟨rfl, rfl⟩ (hself.node ⟨rfl, rfl⟩)
  rintro scope _ e _ ⟨rfl, rfl⟩
  exact heval scope e

/-- Evaluation within a limit, with steps of some kind. -/
def evalBy (step : Evaluator → Evaluator) : (limit : Nat) → Evaluator
  | 0, _, _ => Run.fail .nesting
  | limit + 1, scope, e => step (evalBy step limit) scope e

theorem Context.eval_eq_evalBy (context : Context) (limit : Nat) :
    context.eval limit = evalBy context.step limit := by
  induction limit with
  | zero => rfl
  | succ limit ih =>
      funext scope e
      rw [Context.eval, evalBy, ih]

section EvalBy

variable {step step' : Evaluator → Evaluator} {cut cut' : Fault → Prop}

/-- Evaluations are alike if single steps are. -/
theorem evalBy_unless (exprs : Scope → Scope → Expr → Expr → Prop)
    {values : Value → Value → Prop} {faults : Fault → Fault → Prop} (hfaults : ∀ f, faults f f)
    (hstep : ∀ {eval eval' : Evaluator},
      (∀ scope scope' e e', exprs scope scope' e e' →
        (eval scope e).AlikeUnless cut cut' values faults (eval' scope' e')) →
      ∀ scope scope' e e', exprs scope scope' e e' →
        (step eval scope e).AlikeUnless cut cut' values faults (step' eval' scope' e'))
    (limit : Nat) (scope scope' : Scope) (e e' : Expr) (he : exprs scope scope' e e') :
    (evalBy step limit scope e).AlikeUnless cut cut' values faults
      (evalBy step' limit scope' e') := by
  induction limit generalizing scope scope' e e' with
  | zero => exact (Run.Alike.fail (hfaults _)).unless
  | succ limit ih => exact hstep ih scope scope' e e' he

/-- An evaluation depends on nothing but the scope. -/
theorem Steady.self (h : Steady step) (limit : Nat) (scope : Scope) (e : Expr) :
    (evalBy step limit scope e).Alike Eq Eq (evalBy step limit scope e) := by
  induction limit generalizing scope e with
  | zero => exact Run.Alike.fail rfl
  | succ limit ih => exact (h (fun scope e => (ih scope e).unless) scope e).alike

/-- An evaluation that ends within a limit in any other way than by exceeding it ends in the same
way within every larger one. -/
theorem Steady.within_larger (h : Steady step) {limit limit' : Nat} (hle : limit ≤ limit')
    (scope : Scope) (e : Expr) :
    (evalBy step limit scope e).AlikeUnless (· = .failed .nesting) (fun _ => False) Eq Eq
      (evalBy step limit' scope e) := by
  induction limit generalizing limit' scope e with
  | zero => exact Run.AlikeUnless.cut_left rfl
  | succ limit ih =>
      obtain ⟨limit', rfl⟩ : ∃ k, limit' = k + 1 := ⟨limit' - 1, by omega⟩
      exact h (fun scope e => ih (Nat.le_of_succ_le_succ hle) scope e) scope e

end EvalBy

end Fern
