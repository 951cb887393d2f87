import Fern.Proofs.LocalGrammar
import Fern.Proofs.ParserYields

/-!
# Where readings end

A repetition ends where no further item can be read, if it is not cut short by its bound. The last
thing that is read of an expression is one that nothing can split, or a selector of it, so an
expression ends where no selector stands: a full stop that touches both an expression and a name is
never the one that ends a declaration.

A bound on what is left goes along with every reading, because the bounds on nesting and on
repetitions are large enough only together with it.
-/

namespace Fern.Parser

open Syntax

variable {α : Type} {p : Parser α}

/-! ## Repetitions -/

/-- All the things that a parser can read one behind the other, and the place behind them. -/
inductive Row (p : Parser α) : Cursor → List α → Cursor → Prop
  | done {c : Cursor} (h : p c = none) : Row p c [] c
  | item {a : α} {all : List α} {c mid last : Cursor} (h : p c = some (a, mid))
      (hrest : Row p mid all last) : Row p c (a :: all) last

/-- A repetition that is not cut short by its bound reads the row. -/
theorem row_of_collect (hp : p.Progresses) {bound : Nat} {c last : Cursor} {all : List α}
    (hb : c.rest.length ≤ bound) (h : collect p bound c = (all, last)) : Row p c all last := by
  induction bound generalizing c all with
  | zero =>
      cases hc : p c with
      | none =>
          cases h
          exact .done hc
      | some result => exact absurd (hp _ _ _ hc) (by omega)
  | succ bound ih =>
      rw [collect] at h
      cases hc : p c with
      | none =>
          rw [hc] at h
          cases h
          exact .done hc
      | some result =>
          obtain ⟨a, mid⟩ := result
          have hlt := hp _ _ _ hc
          rw [hc] at h
          cases h
          exact .item hc (ih (by omega) rfl)

theorem Row.collect_eq (hp : p.Progresses) {bound : Nat} {c last : Cursor} {all : List α}
    (hb : c.rest.length ≤ bound) (h : Row p c all last) : collect p bound c = (all, last) := by
  induction h generalizing bound with
  | done hc => exact collect_of_none hc bound
  | item hc _ ih =>
      have hlt := hp _ _ _ hc
      obtain ⟨bound, rfl⟩ : ∃ k, bound = k + 1 := ⟨bound - 1, by omega⟩
      rw [collect, hc]
      simp only [ih (Nat.le_of_lt_succ (Nat.lt_of_lt_of_le hlt hb))]

theorem Row.rest_le (hp : p.Progresses) {c last : Cursor} {all : List α} (h : Row p c all last) :
    last.rest.length ≤ c.rest.length := by
  induction h with
  | done => exact Nat.le_refl _
  | item hc _ ih => exact Nat.le_trans ih (Nat.le_of_lt (hp _ _ _ hc))

theorem Row.stops {c last : Cursor} {all : List α} (h : Row p c all last) : p last = none := by
  induction h with
  | done hc => exact hc
  | item _ _ ih => exact ih

/-! ## Places -/

/-- Less than so much is left. -/
def Within (n : Nat) (c : Cursor) : Prop := c.rest.length < n

/-- No selector stands here, and less than so much is left. -/
def Settled (n : Nat) (c : Cursor) : Prop := Within n c ∧ selector c = none

/-- From places of one kind, a parser leads to places of another. -/
abbrev Goes (before : Cursor → Prop) (p : Parser α) (after : Cursor → Prop) : Prop :=
  Leads nowhere before p (fun _ => True) after

section Goes

variable {β : Type} {before before' middle after after' : Cursor → Prop} {n bound : Nat}

theorem goes_iff :
    Goes before p after ↔ ∀ c a d, before c → p c = some (a, d) → after d :=
  ⟨fun h c a d hc hr => (h c a d hc hr).1, fun h c a d hc hr => ⟨h c a d hc hr, id, .inr trivial⟩⟩

theorem Goes.bind {next : α → Parser β} (h : Goes before p middle)
    (hnext : ∀ a, Goes middle (next a) after) : Goes before (p >>= next) after :=
  Leads.bind h fun a => (hnext a).mono (fun _ => id) (fun _ hs _ => hs) fun _ => id

theorem Goes.stay {a : α} : Goes before (pure a) before := Leads.stay trivial

theorem Goes.mono (h : Goes before p after) (hbefore : ∀ c, before' c → before c)
    (hafter : ∀ c, after c → after' c) : Goes before' p after' :=
  Leads.mono h hbefore (fun _ => id) hafter

theorem Goes.many (h : Goes middle p middle) (bound : Nat) : Goes middle (many p bound) middle :=
  (Leads.many h bound).mono (fun _ => id) (fun _ _ => trivial) fun _ => id

/-- What takes a character leaves less. -/
theorem Progresses.goes (hp : p.Progresses) : Goes (Within n) p (Within (n - 1)) := by
  refine goes_iff.2 fun c a d hc hr => ?_
  have hlt := hp _ _ _ hr
  unfold Within at hc ⊢
  omega

theorem within_of_pred {c : Cursor} (h : Within (n - 1) c) : Within n c :=
  Nat.lt_of_lt_of_le h (Nat.sub_le n 1)

theorem Settled.of_pred {c : Cursor} (h : Settled (n - 1) c) : Settled n c :=
  ⟨within_of_pred h.1, h.2⟩

theorem Progresses.stays (hp : p.Progresses) : Goes (Within n) p (Within n) :=
  hp.goes.mono (fun _ => id) fun _ => within_of_pred

theorem Goes.optional (h : Goes before p after) (hafter : ∀ c, before c → after c) :
    Goes before (optional p) after :=
  (Leads.optional h hafter).mono (fun _ => id) (fun _ _ => trivial) fun _ => id

end Goes

/-! ## Expressions -/

section Layer

variable {n bound : Nat} {inner : Parser Term}

/-- All the selectors that stand at a place are read there. -/
theorem selectors_settle (hb : n ≤ bound + 1) :
    Goes (Within n) (many selector bound) (Settled n) := by
  have hselector : selector.Progresses := (upToStop.selector (n := 0)).progresses
  refine goes_iff.2 fun c all d hc hr => ?_
  have hrow : Row selector c all d :=
    row_of_collect hselector (Nat.le_of_lt_succ (Nat.lt_of_lt_of_le hc hb)) (Option.some.inj hr)
  exact ⟨Nat.lt_of_le_of_lt (hrow.rest_le hselector) hc, hrow.stops⟩

theorem operatorRow_settles {operand : Parser Term} {operator : Parser Operator}
    (ho : Goes (Within n) operand (Settled n)) (hop : operator.Progresses) (lhs : Term) :
    Goes (Settled n) (operatorRow operand operator bound lhs) (Settled n) := by
  induction bound generalizing lhs with
  | zero => exact .stay
  | succ bound ih =>
      refine goes_iff.2 fun c t d hc hr => ?_
      simp only [operatorRow] at hr
      split at hr
      · cases hr
        exact hc
      · next op mid hoperator =>
        have hmid : Within n mid := goes_iff.1 hop.stays _ _ _ hc.1 hoperator
        split at hr
        · cases hr
        · next rhs last hoperand =>
          exact goes_iff.1 (ih _) _ _ _ (goes_iff.1 ho _ _ _ hmid hoperand) hr

variable (hsteps : Steps (Stop Unselected) 0 inner inner)
  (hi : Goes (Within (n - 1)) inner (Settled (n - 1))) (hb : n ≤ bound + 1)

include hsteps hb

theorem application_settles : Goes (Within n) (application bound inner) (Settled n) := by
  have hatom : Steps (Stop Unselected) 0 (atom bound inner) (atom bound inner) :=
    GrammarComparison.atom (K := upToStop) hsteps (Nat.zero_le _) (Nat.zero_le _)
  have hselection : Goes (Within n) (selection bound inner) (Settled n) :=
    hatom.progresses.stays.bind fun _ => (selectors_settle hb).bind fun _ => .stay
  have hnext : Goes (Settled n) (selection bound inner) (Settled n) :=
    hselection.mono (fun _ hc => hc.1) fun _ => id
  exact hselection.bind fun _ => (hnext.many bound).bind fun _ => .stay

theorem operatorTerm_settles : Goes (Within n) (operatorTerm bound inner) (Settled n) := by
  have levels : ∀ levels : List (List OperatorSign), levels ⊆ operatorLevels →
      ∀ operand : Parser Term, Goes (Within n) operand (Settled n) →
        Goes (Within n) (levels.foldl (operatorLevel bound) operand) (Settled n) := by
    intro levels hlevels
    induction levels with
    | nil => exact fun _ ho => ho
    | cons level rest ih =>
        intro operand ho
        obtain ⟨hlevel, hrest⟩ := List.cons_subset.1 hlevels
        have hop : Steps (Stop Unselected) 0 (levelOperator level) (levelOperator level) :=
          GrammarComparison.levelOperator (K := upToStop) hlevel
        exact ih hrest _ (ho.bind fun lhs => operatorRow_settles ho hop.progresses lhs)
  exact levels operatorLevels (List.Subset.refl _) _ (application_settles hsteps hb)

include hi

/-- Every form of an expression ends with an expression inside it, or is a row of operands. -/
theorem simpleTerm_settles : Goes (Within n) (simpleTerm bound inner) (Settled n) := by
  have hmid : Goes (Within (n - 1)) inner (Within (n - 1)) :=
    hi.mono (fun _ => id) fun _ => And.left
  have hlast : Goes (Within (n - 1)) inner (Settled n) :=
    hi.mono (fun _ => id) fun _ => Settled.of_pred
  have hkeyword {w : String} (h : w ∈ keywords) : (keyword w).Progresses :=
    (upToStop.keyword (n := 0) h).progresses
  have hsign {w : String} (h : w ∈ innerSigns) : (symbol w).Progresses :=
    (upToStop.sign (n := 0) h).progresses
  have hname : name.Progresses := (upToStop.name (n := 0)).progresses
  have hconstructor : constructorName.Progresses := (upToStop.constructorName (n := 0)).progresses
  refine Leads.firstOf fun p hp => ?_
  simp only [List.mem_cons, List.not_mem_nil, or_false] at hp
  rcases hp with rfl | rfl | rfl | rfl | rfl
  · refine (hkeyword (by decide)).goes.bind fun _ => hname.stays.bind fun _ => ?_
    refine (hsign (by decide)).stays.bind fun _ => hmid.bind fun _ => ?_
    exact (hkeyword (by decide)).stays.bind fun _ => hlast.bind fun _ => .stay
  · refine (hkeyword (by decide)).goes.bind fun _ => hmid.bind fun _ => ?_
    refine (hkeyword (by decide)).stays.bind fun _ => hmid.bind fun _ => ?_
    exact (hkeyword (by decide)).stays.bind fun _ => hlast.bind fun _ => .stay
  · have harm : Goes (Within (n - 1)) (arm inner) (Settled (n - 1)) := by
      refine (hsign (by decide)).stays.bind fun _ => hconstructor.stays.bind fun _ => ?_
      refine (hname.stays.optional fun _ => id).bind fun _ => ?_
      exact (hsign (by decide)).stays.bind fun _ => hi.bind fun _ => .stay
    have hnext : Goes (Settled (n - 1)) (arm inner) (Settled (n - 1)) :=
      harm.mono (fun _ => And.left) fun _ => id
    have harms : Goes (Within (n - 1)) (many1 (arm inner) bound) (Settled (n - 1)) :=
      harm.bind fun _ => (hnext.many bound).bind fun _ => .stay
    refine (hkeyword (by decide)).goes.bind fun _ => hmid.bind fun _ => ?_
    refine (hkeyword (by decide)).stays.bind fun _ => ?_
    exact (harms.mono (fun _ => id) fun _ => Settled.of_pred).bind fun _ => .stay
  · have hparams : Goes (Within (n - 1)) (many1 name bound) (Within (n - 1)) :=
      hname.stays.bind fun _ => (hname.stays.many bound).bind fun _ => .stay
    refine (hsign (by decide)).goes.bind fun _ => hparams.bind fun _ => ?_
    exact (hsign (by decide)).stays.bind fun _ => hlast.bind fun _ => .stay
  · exact operatorTerm_settles hsteps hb

theorem termLayer_settles : Goes (Within n) (termLayer bound inner) (Settled n) := by
  have hsimple := simpleTerm_settles hsteps hi hb
  have hsemicolon : (symbol ";").Progresses :=
    (upToStop.sign (n := 0) (by decide : ";" ∈ innerSigns)).progresses
  have hnext : Goes (Settled n) (do symbol ";"; simpleTerm bound inner) (Settled n) :=
    (hsemicolon.stays.mono (fun _ => And.left) fun _ => id).bind fun _ => hsimple
  exact hsimple.bind fun _ => (hnext.many bound).bind fun _ => .stay

end Layer

theorem term_settles {n bound : Nat} (hb : n ≤ bound + 1) :
    Goes (Within n) (term bound) (Settled n) := by
  induction bound generalizing n with
  | zero => exact .fail
  | succ bound ih =>
      have hsteps : Steps (Stop Unselected) 0 (term bound) (term bound) :=
        term_steps (Nat.zero_le _) (Nat.zero_le _)
      exact termLayer_settles hsteps (ih (Nat.sub_le_of_le_add hb)) hb

/-- No selector stands behind what a function is declared as. -/
theorem selector_of_functionHead {bound : Nat} {c d : Cursor} {decl : Declaration}
    (h : functionHead bound c = some (decl, d)) (hb : c.rest.length ≤ bound) :
    selector d = none := by
  have hname : name.Progresses := (upToStop.name (n := 0)).progresses
  have hequals : (symbol "=").Progresses :=
    (upToStop.sign (n := 0) (by decide : "=" ∈ innerSigns)).progresses
  have hhead : Goes (Within (bound + 1)) (functionHead bound) (Settled (bound + 1)) := by
    refine hname.stays.bind fun _ => (hname.stays.many bound).bind fun _ => ?_
    exact hequals.stays.bind fun _ => (term_settles (Nat.le_refl _)).bind fun _ => .stay
  exact (goes_iff.1 hhead _ _ _ (Nat.lt_succ_of_le hb) h).2

end Fern.Parser
