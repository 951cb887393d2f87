import Fern.Proofs.FirstCharacters
import Mathlib.Data.List.Forall2

/-!
# Two readings with two bounds

The readers of the grammar take a bound on nesting and on repetitions, and two bounds that are both
large enough make no difference. What that means depends on where the two readings start: at one
place of one text, or abreast in two texts. So the grammar is gone through once for all comparisons
of readers that a handful of laws hold of, one for each way of putting readers together and one for
each kind of word.

A comparison is made up to an amount of text that is left. Whoever takes a character has less of it
behind that, which is what makes the bounds go down together with the text.

Types have no selectors in them, so the laws for them do without one for selectors. A declaration is
compared without its full stop, for which readers that are abreast have a law of their own.
-/

namespace Fern.Parser

open Syntax

instance : LawfulMonad Parser :=
  .mk' Parser
    (fun p => by
      funext c
      change andThen p done c = p c
      unfold andThen
      cases p c with
      | none => rfl
      | some result => rfl)
    (fun _ _ => rfl)
    (fun p f g => by
      funext c
      change andThen (andThen p f) g c = andThen p (fun a => andThen (f a) g) c
      unfold andThen
      cases p c with
      | none => rfl
      | some result => rfl)

/-! ## Declarations without their full stops -/

def typeHead (bound : Nat) : Parser Declaration := do
  keyword "type"
  let head ← constructorName
  symbol "="
  let body ← .orElse (recordType bound) (sumType bound)
  return .type ⟨head, body⟩

def functionHead (bound : Nat) : Parser Declaration := do
  let function ← name
  let params ← .many name bound
  symbol "="
  let body ← term bound
  return .function ⟨function, params, body⟩

theorem typeDecl_eq (bound : Nat) :
    typeDecl bound = (do let decl ← typeHead bound; symbol "."; return decl) := by
  simp only [typeDecl, typeHead, bind_assoc, pure_bind]

theorem functionDecl_eq (bound : Nat) :
    functionDecl bound = (do let decl ← functionHead bound; symbol "."; return decl) := by
  simp only [functionDecl, functionHead, bind_assoc, pure_bind]

/-! ## Comparisons -/

/-- When two readers count as doing the same where less than some amount of text is left. -/
structure Comparison where
  Reads : {α : Type} → (n : Nat) → (p q : Parser α) → Prop
  /-- They also take at least one character. -/
  Steps : {α : Type} → (n : Nat) → (p q : Parser α) → Prop
  reads {α : Type} {n : Nat} {p q : Parser α} : Steps n p q → Reads n p q
  reads_mono {α : Type} {n m : Nat} {p q : Parser α} : Reads n p q → m ≤ n → Reads m p q
  steps_mono {α : Type} {n m : Nat} {p q : Parser α} : Steps n p q → m ≤ n → Steps m p q
  /-- Up to nothing there is nothing to compare. -/
  reads_zero {α : Type} {p q q' : Parser α} : Reads 0 p q → Reads 0 p q'
  steps_zero {α : Type} {p q q' : Parser α} : Steps 0 p q → Steps 0 p q'
  pure {α : Type} {n : Nat} (a : α) : Reads n (pure a) (pure a)
  bind {α β : Type} {n : Nat} {p q : Parser α} {next next' : α → Parser β} : Reads n p q →
    (∀ a, Reads n (next a) (next' a)) → Reads n (p >>= next) (q >>= next')
  stepBind {α β : Type} {n : Nat} {p q : Parser α} {next next' : α → Parser β} : Steps n p q →
    (∀ a, Reads (n - 1) (next a) (next' a)) → Steps n (p >>= next) (q >>= next')
  /-- What is not there leaves all the text for what comes next. -/
  ifThere {α β : Type} {n : Nat} {p q : Parser α} {next next' : Option α → Parser β} :
    Steps n p q → Reads n (next none) (next' none) →
    (∀ a, Reads (n - 1) (next (some a)) (next' (some a))) →
    Reads n (optional p >>= next) (optional q >>= next')
  fail {α : Type} {n : Nat} : Steps n (fail : Parser α) fail
  orElse {α : Type} {n : Nat} {p q p' q' : Parser α} : Steps n p q → Steps n p' q' →
    Steps n (orElse p p') (orElse q q')
  truth {n : Nat} {w : String} : w ∈ ["true", "false"] → Steps n (keyword w) (keyword w)
  name {n : Nat} : Steps n name name
  constructorName {n : Nat} : Steps n constructorName constructorName
  number {n : Nat} : Steps n number number
  literal {n : Nat} : Steps n literal literal

theorem mem_keywords_of_truth {w : String} (h : w ∈ ["true", "false"]) : w ∈ keywords := by
  have truths : ∀ w ∈ ["true", "false"], w ∈ keywords := by decide
  exact truths w h

/-- The pairs of signs that stand around other words. -/
def bracketSigns : List (String × String) := [("(", ")"), ("\x7b", "\x7d")]

/-- The signs that stand between words of an expression. -/
def innerSigns : List String := signs.filter (· ∉ [".", "(", ")", "\x7b", "\x7d"])

/-- A comparison of the readers of all words of types, those in brackets together with the
brackets. -/
structure TypeComparison extends Comparison where
  sign {n : Nat} {w : String} : w ∈ innerSigns → Steps n (symbol w) (symbol w)
  keyword {n : Nat} {w : String} : w ∈ keywords → Steps n (keyword w) (keyword w)
  enclosed {α β : Type} {n : Nat} {p q : Parser α} {w w' : String} (hpair : (w, w') ∈ bracketSigns)
    (hp : Reads (n - 1) p q) (f : α → β) :
    Steps n (do symbol w; let a ← p; symbol w'; return f a)
      (do symbol w; let a ← q; symbol w'; return f a)

/-- A comparison of the readers of all words. -/
structure GrammarComparison extends TypeComparison where
  selector {n : Nat} : Steps n selector selector

namespace Comparison

variable (K : Comparison) {α β : Type} {n m bound bound' : Nat} {p q : Parser α}

/-! ## Repetitions -/

/-- A repetition is an item and the others behind it, if an item is there. -/
theorem many_succ (p : Parser α) (bound : Nat) :
    Parser.many p (bound + 1) = (do
      match ← Parser.optional p with
      | none => return []
      | some a => return a :: (← Parser.many p bound)) := by
  funext c
  change some (collect p (bound + 1) c) = andThen (Parser.optional p) _ c
  rw [collect]
  unfold andThen Parser.optional
  cases p c with
  | none => rfl
  | some result => rfl

theorem operatorRow_succ (operand : Parser Term) (operator : Parser Operator) (bound : Nat)
    (lhs : Term) :
    Syntax.operatorRow operand operator (bound + 1) lhs = (do
      match ← Parser.optional operator with
      | none => return lhs
      | some op => Syntax.operatorRow operand operator bound (.binary op lhs (← operand))) := by
  funext c
  change _ = andThen (Parser.optional operator) _ c
  simp only [Syntax.operatorRow]
  unfold andThen Parser.optional
  cases operator c with
  | none => rfl
  | some result =>
      obtain ⟨op, mid⟩ := result
      change _ = andThen operand _ mid
      unfold andThen
      simp only
      cases operand mid with
      | none => rfl
      | some last => rfl

variable {K}

theorem optional {next next' : Option α → Parser β} (hp : K.Steps n p q)
    (hnext : ∀ a, K.Reads n (next a) (next' a)) :
    K.Reads n (Parser.optional p >>= next) (Parser.optional q >>= next') :=
  K.ifThere hp (hnext none) fun a => K.reads_mono (hnext (some a)) (Nat.sub_le n 1)

theorem firstOf {parsers parsers' : List (Parser α)}
    (h : List.Forall₂ (K.Steps n) parsers parsers') :
    K.Steps n (Parser.firstOf parsers) (Parser.firstOf parsers') := by
  induction h with
  | nil => exact K.fail
  | cons hp _ ih => exact K.orElse hp ih

/-- A bound that cuts nothing short does not matter. -/
theorem many (hp : K.Steps n p q) (hb : n ≤ bound) (hb' : n ≤ bound') :
    K.Reads n (Parser.many p bound) (Parser.many q bound') := by
  induction bound generalizing n bound' with
  | zero =>
      obtain rfl := Nat.le_zero.1 hb
      exact K.reads_zero (K.pure [])
  | succ bound ih =>
      have item {bound' : Nat} (hb' : n ≤ bound' + 1) :
          K.Reads n (Parser.many p (bound + 1)) (Parser.many q (bound' + 1)) := by
        rw [many_succ, many_succ]
        refine K.ifThere hp (K.pure []) fun a => ?_
        exact K.bind (ih (K.steps_mono hp (Nat.sub_le n 1)) (by omega) (by omega))
          fun others => K.pure (a :: others)
      cases bound' with
      | zero =>
          obtain rfl := Nat.le_zero.1 hb'
          exact K.reads_zero (item (Nat.zero_le 1))
      | succ bound' => exact item hb'

theorem many1 (hp : K.Steps n p q) (hb : n ≤ bound) (hb' : n ≤ bound') :
    K.Steps n (Parser.many1 p bound) (Parser.many1 q bound') := by
  refine K.stepBind hp fun _ => K.bind (many (K.steps_mono hp (Nat.sub_le n 1)) ?_ ?_) fun _ =>
    K.pure _
  · omega
  · omega

theorem separated {separator separator' : Parser Unit} (hp : K.Steps n p q)
    (hs : K.Steps n separator separator') (hb : n ≤ bound) (hb' : n ≤ bound') :
    K.Steps n (Parser.separated p separator bound) (Parser.separated q separator' bound') := by
  have hnext : K.Steps n (do separator; p) (do separator'; q) :=
    K.stepBind hs fun _ => K.reads_mono (K.reads hp) (Nat.sub_le n 1)
  refine K.stepBind hp fun _ => K.bind (many (K.steps_mono hnext (Nat.sub_le n 1)) ?_ ?_) fun _ =>
    K.pure _
  · omega
  · omega

theorem operatorRow {operand operand' : Parser Term} {operator operator' : Parser Operator}
    (ho : K.Steps n operand operand') (hop : K.Steps n operator operator') (hb : n ≤ bound)
    (hb' : n ≤ bound') (lhs : Term) :
    K.Reads n (Syntax.operatorRow operand operator bound lhs)
      (Syntax.operatorRow operand' operator' bound' lhs) := by
  induction bound generalizing n bound' lhs with
  | zero =>
      obtain rfl := Nat.le_zero.1 hb
      exact K.reads_zero (K.pure lhs)
  | succ bound ih =>
      have item {bound' : Nat} (hb' : n ≤ bound' + 1) :
          K.Reads n (Syntax.operatorRow operand operator (bound + 1) lhs)
            (Syntax.operatorRow operand' operator' (bound' + 1) lhs) := by
        rw [operatorRow_succ, operatorRow_succ]
        refine K.ifThere hop (K.pure lhs) fun op => ?_
        have hless := K.steps_mono ho (Nat.sub_le n 1)
        refine K.bind (K.reads hless) fun rhs => ?_
        exact ih hless (K.steps_mono hop (Nat.sub_le n 1)) (by omega) (by omega)
          (.binary op lhs rhs)
      cases bound' with
      | zero =>
          obtain rfl := Nat.le_zero.1 hb'
          exact K.reads_zero (item (Nat.zero_le 1))
      | succ bound' => exact item hb'

/-! ## Nesting -/

/-- Readers whose nesting is bounded compare if each layer does over those with less text left. -/
theorem of_layers {α : Type} {reader : Nat → Parser α} (hzero : reader 0 = Parser.fail)
    (layer : ∀ {n bound bound' : Nat}, K.Steps (n - 1) (reader bound) (reader bound') →
      n ≤ bound + 1 → n ≤ bound' + 1 → K.Steps n (reader (bound + 1)) (reader (bound' + 1)))
    (hb : n ≤ bound) (hb' : n ≤ bound') : K.Steps n (reader bound) (reader bound') := by
  induction bound generalizing bound' n with
  | zero =>
      obtain rfl := Nat.le_zero.1 hb
      rw [hzero]
      exact K.steps_zero K.fail
  | succ bound ih =>
      cases bound' with
      | zero =>
          obtain rfl := Nat.le_zero.1 hb'
          have hinner : K.Steps (0 - 1) (reader bound) (reader 0) :=
            ih (Nat.zero_le _) (Nat.le_refl _)
          exact K.steps_zero (layer hinner (Nat.zero_le _) (Nat.zero_le _))
      | succ bound' =>
          exact layer (ih (Nat.sub_le_of_le_add hb) (Nat.sub_le_of_le_add hb')) hb hb'

/-! ## Operands -/

section Operand

variable {inner inner' : Parser Term}

/-- Readers of what no operator splits compare if they do of what begins with a bracket. -/
theorem atom (hunit : K.Steps n unitTerm unitTerm)
    (htuple : K.Steps n (tupleTerm bound inner) (tupleTerm bound' inner'))
    (hrecord : K.Steps n (recordTerm bound inner) (recordTerm bound' inner')) :
    K.Steps n (atom bound inner) (atom bound' inner') := by
  refine firstOf (.cons hunit (.cons htuple (.cons hrecord (.cons ?string (.cons ?integer
    (.cons ?true (.cons ?false (.cons ?constructor (.cons ?identifier .nil)))))))))
  case string => exact K.stepBind K.literal fun _ => K.pure _
  case integer => exact K.stepBind K.number fun _ => K.pure _
  case true => exact K.stepBind (K.truth (by decide)) fun _ => K.pure _
  case false => exact K.stepBind (K.truth (by decide)) fun _ => K.pure _
  case constructor => exact K.stepBind K.constructorName fun _ => K.pure _
  case identifier => exact K.stepBind K.name fun _ => K.pure _

theorem application (hatom : K.Steps n (Syntax.atom bound inner) (Syntax.atom bound' inner'))
    (hselector : K.Steps n selector selector) (hb : n ≤ bound) (hb' : n ≤ bound') :
    K.Steps n (application bound inner) (application bound' inner') := by
  have hselection : K.Steps n (selection bound inner) (selection bound' inner') := by
    refine K.stepBind hatom fun _ => ?_
    have hselectors := K.steps_mono hselector (Nat.sub_le n 1)
    exact K.bind (many hselectors (by omega) (by omega)) fun _ => K.pure _
  refine K.stepBind hselection fun _ => ?_
  have hargs := K.steps_mono hselection (Nat.sub_le n 1)
  exact K.bind (many hargs (by omega) (by omega)) fun _ => K.pure _

end Operand

end Comparison

namespace TypeComparison

variable {K : TypeComparison} {n bound bound' : Nat}

theorem commaSeparated {α : Type} {item item' : Parser α} (hi : K.Steps n item item')
    (hb : n ≤ bound) (hb' : n ≤ bound') :
    K.Steps n (Parser.separated item (symbol ",") bound)
      (Parser.separated item' (symbol ",") bound') :=
  Comparison.separated hi (K.sign (by decide)) hb hb'

/-! ## Types -/

theorem typeAtom {inner inner' : Parser TypeTerm} (hi : K.Steps (n - 1) inner inner')
    (hb : n ≤ bound) (hb' : n ≤ bound') :
    K.Steps n (typeAtom bound inner) (typeAtom bound' inner') := by
  have hitems := commaSeparated hi (by omega : n - 1 ≤ bound) (by omega : n - 1 ≤ bound')
  refine K.orElse (K.stepBind K.constructorName fun _ => K.pure _) ?_
  exact K.enclosed (by decide) (K.reads hitems) parenthesizedType

theorem typeTerm (hb : n ≤ bound) (hb' : n ≤ bound') :
    K.Steps n (typeTerm bound) (typeTerm bound') := by
  refine Comparison.of_layers rfl (fun {n bound bound'} hi hb hb' => ?_) hb hb'
  have hresult : K.Steps (n - 1) (do symbol "->"; Syntax.typeTerm bound)
      (do symbol "->"; Syntax.typeTerm bound') :=
    K.stepBind (K.sign (by decide)) fun _ => K.reads_mono (K.reads hi) (Nat.sub_le _ 1)
  refine K.stepBind (typeAtom hi hb hb') fun param => Comparison.optional hresult fun result => ?_
  cases result with
  | none => exact K.pure param
  | some result => exact K.pure (TypeTerm.function param result)

theorem recordType (hb : n ≤ bound) (hb' : n ≤ bound') :
    K.Steps n (recordType bound) (recordType bound') := by
  have hfield : K.Steps n (fieldDecl bound) (fieldDecl bound') := by
    refine K.stepBind K.name fun _ => K.bind (K.reads (K.sign (by decide))) fun _ => ?_
    exact K.bind (K.reads_mono (K.reads (typeTerm hb hb')) (Nat.sub_le n 1)) fun _ => K.pure _
  have hfields := commaSeparated hfield hb hb'
  exact K.enclosed (by decide) (K.reads_mono (K.reads hfields) (Nat.sub_le n 1)) TypeDeclBody.record

theorem sumType (hb : n ≤ bound) (hb' : n ≤ bound') :
    K.Steps n (sumType bound) (sumType bound') := by
  have hpayload : K.Steps (n - 1) (Syntax.typeAtom bound (Syntax.typeTerm bound))
      (Syntax.typeAtom bound' (Syntax.typeTerm bound')) :=
    typeAtom (typeTerm (by omega) (by omega)) (by omega) (by omega)
  have hvariant : K.Steps n (variantDecl bound) (variantDecl bound') :=
    K.stepBind K.constructorName fun _ => Comparison.optional hpayload fun _ => K.pure _
  exact K.stepBind (Comparison.separated hvariant (K.sign (by decide)) hb hb') fun _ => K.pure _

theorem typeHead (hb : n ≤ bound) (hb' : n ≤ bound') :
    K.Steps n (typeHead bound) (typeHead bound') := by
  have hbody : K.Steps n (Parser.orElse (Syntax.recordType bound) (Syntax.sumType bound))
      (Parser.orElse (Syntax.recordType bound') (Syntax.sumType bound')) :=
    K.orElse (recordType hb hb') (sumType hb hb')
  refine K.stepBind (K.keyword (by decide)) fun _ => K.bind (K.reads K.constructorName) fun _ => ?_
  refine K.bind (K.reads (K.sign (by decide))) fun _ => ?_
  exact K.bind (K.reads_mono (K.reads hbody) (Nat.sub_le n 1)) fun _ => K.pure _

end TypeComparison

namespace GrammarComparison

variable {K : GrammarComparison} {n bound bound' : Nat}

/-! ## Expressions -/

theorem operatorSign {level : List OperatorSign} (hlevel : level ∈ operatorLevels)
    {sign : OperatorSign} (hsign : sign ∈ level) : K.Steps n sign.read sign.read := by
  have known : ∀ level ∈ operatorLevels, ∀ sign ∈ level,
      if sign.isWord then sign.sign ∈ keywords else sign.sign ∈ innerSigns := by
    decide
  have hk := known level hlevel sign hsign
  unfold OperatorSign.read
  split at hk
  · next hw =>
    rw [if_pos hw]
    exact K.stepBind (K.keyword hk) fun _ => K.pure _
  · next hw =>
    rw [if_neg hw]
    exact K.stepBind (K.sign hk) fun _ => K.pure _

theorem levelOperator {level : List OperatorSign} (h : level ∈ operatorLevels) :
    K.Steps n (levelOperator level) (levelOperator level) := by
  refine Comparison.firstOf (List.forall₂_same.2 fun p hp => ?_)
  obtain ⟨sign, hsign, rfl⟩ := List.mem_map.1 hp
  exact operatorSign h hsign

theorem operatorLevel {operand operand' : Parser Term} (ho : K.Steps n operand operand')
    {level : List OperatorSign} (h : level ∈ operatorLevels) (hb : n ≤ bound) (hb' : n ≤ bound') :
    K.Steps n (operatorLevel bound operand level) (operatorLevel bound' operand' level) := by
  refine K.stepBind ho fun lhs => ?_
  have hless := K.steps_mono ho (Nat.sub_le n 1)
  exact Comparison.operatorRow hless (levelOperator h) (by omega) (by omega) lhs

section Layer

/-! The readers of one layer compare if those for inner expressions do with less text left. -/

variable {inner inner' : Parser Term}

theorem fieldInit (hi : K.Steps n inner inner') :
    K.Steps n (fieldInit inner) (fieldInit inner') := by
  refine K.stepBind K.name fun _ => K.bind (K.reads (K.sign (by decide))) fun _ => ?_
  exact K.bind (K.reads_mono (K.reads hi) (Nat.sub_le n 1)) fun _ => K.pure _

theorem unitTerm : K.Steps n unitTerm unitTerm :=
  K.enclosed (by decide) (K.pure ()) fun _ => Term.unit

theorem tupleTerm (hi : K.Steps (n - 1) inner inner') (hb : n ≤ bound) (hb' : n ≤ bound') :
    K.Steps n (tupleTerm bound inner) (tupleTerm bound' inner') :=
  K.enclosed (by decide) (K.reads (TypeComparison.commaSeparated hi (by omega) (by omega)))
    parenthesized

theorem recordTerm (hi : K.Steps (n - 1) inner inner') (hb : n ≤ bound) (hb' : n ≤ bound') :
    K.Steps n (recordTerm bound inner) (recordTerm bound' inner') :=
  K.enclosed (by decide)
    (K.reads (TypeComparison.commaSeparated (fieldInit hi) (by omega) (by omega))) Term.record

theorem atom (hi : K.Steps (n - 1) inner inner') (hb : n ≤ bound) (hb' : n ≤ bound') :
    K.Steps n (atom bound inner) (atom bound' inner') :=
  Comparison.atom unitTerm (tupleTerm hi hb hb') (recordTerm hi hb hb')

theorem application (hi : K.Steps (n - 1) inner inner') (hb : n ≤ bound) (hb' : n ≤ bound') :
    K.Steps n (application bound inner) (application bound' inner') :=
  Comparison.application (atom hi hb hb') K.selector hb hb'

theorem operatorTerm (hi : K.Steps (n - 1) inner inner') (hb : n ≤ bound) (hb' : n ≤ bound') :
    K.Steps n (operatorTerm bound inner) (operatorTerm bound' inner') := by
  have levels : ∀ levels : List (List OperatorSign), levels ⊆ operatorLevels →
      ∀ operand operand' : Parser Term, K.Steps n operand operand' →
        K.Steps n (levels.foldl (Syntax.operatorLevel bound) operand)
          (levels.foldl (Syntax.operatorLevel bound') operand') := by
    intro levels hlevels
    induction levels with
    | nil => exact fun _ _ ho => ho
    | cons level rest ih =>
        obtain ⟨hlevel, hrest⟩ := List.cons_subset.1 hlevels
        exact fun _ _ ho => ih hrest _ _ (operatorLevel ho hlevel hb hb')
  exact levels operatorLevels (List.Subset.refl _) _ _ (application hi hb hb')

theorem arm (hi : K.Steps n inner inner') : K.Steps n (arm inner) (arm inner') := by
  refine K.stepBind (K.sign (by decide)) fun _ => K.bind (K.reads K.constructorName) fun _ => ?_
  refine Comparison.optional K.name fun _ => K.bind (K.reads (K.sign (by decide))) fun _ => ?_
  exact K.bind (K.reads_mono (K.reads hi) (Nat.sub_le n 1)) fun _ => K.pure _

theorem simpleTerm (hi : K.Steps (n - 1) inner inner') (hb : n ≤ bound) (hb' : n ≤ bound') :
    K.Steps n (simpleTerm bound inner) (simpleTerm bound' inner') := by
  have hinner := K.reads hi
  refine Comparison.firstOf (.cons ?letIn (.cons ?conditional (.cons ?caseOf (.cons ?lambda
    (.cons ?operators .nil)))))
  case letIn =>
      refine K.stepBind (K.keyword (by decide)) fun _ => K.bind (K.reads K.name) fun _ => ?_
      refine K.bind (K.reads (K.sign (by decide))) fun _ => K.bind hinner fun _ => ?_
      exact K.bind (K.reads (K.keyword (by decide))) fun _ => K.bind hinner fun _ => K.pure _
  case conditional =>
      refine K.stepBind (K.keyword (by decide)) fun _ => K.bind hinner fun _ => ?_
      refine K.bind (K.reads (K.keyword (by decide))) fun _ => K.bind hinner fun _ => ?_
      exact K.bind (K.reads (K.keyword (by decide))) fun _ => K.bind hinner fun _ => K.pure _
  case caseOf =>
      refine K.stepBind (K.keyword (by decide)) fun _ => K.bind hinner fun _ => ?_
      refine K.bind (K.reads (K.keyword (by decide))) fun _ => ?_
      exact K.bind (K.reads (Comparison.many1 (arm hi) (by omega) (by omega))) fun _ => K.pure _
  case lambda =>
      refine K.stepBind (K.sign (by decide)) fun _ => ?_
      refine K.bind (K.reads (Comparison.many1 K.name (by omega) (by omega))) fun _ => ?_
      exact K.bind (K.reads (K.sign (by decide))) fun _ => K.bind hinner fun _ => K.pure _
  case operators => exact operatorTerm hi hb hb'

theorem termLayer (hi : K.Steps (n - 1) inner inner') (hb : n ≤ bound) (hb' : n ≤ bound') :
    K.Steps n (termLayer bound inner) (termLayer bound' inner') := by
  have hsimple := simpleTerm hi hb hb'
  have hnext : K.Steps n (do symbol ";"; Syntax.simpleTerm bound inner)
      (do symbol ";"; Syntax.simpleTerm bound' inner') :=
    K.stepBind (K.sign (by decide)) fun _ => K.reads_mono (K.reads hsimple) (Nat.sub_le n 1)
  refine K.stepBind hsimple fun _ => ?_
  have hothers := K.steps_mono hnext (Nat.sub_le n 1)
  exact K.bind (Comparison.many hothers (by omega) (by omega)) fun _ => K.pure _

end Layer

theorem term (hb : n ≤ bound) (hb' : n ≤ bound') : K.Steps n (term bound) (term bound') :=
  Comparison.of_layers rfl termLayer hb hb'

theorem functionHead (hb : n ≤ bound) (hb' : n ≤ bound') :
    K.Steps n (functionHead bound) (functionHead bound') := by
  have hparams : K.Reads n (Parser.many name bound) (Parser.many name bound') :=
    Comparison.many K.name hb hb'
  refine K.stepBind K.name fun _ => K.bind (K.reads_mono hparams (Nat.sub_le n 1)) fun _ => ?_
  refine K.bind (K.reads (K.sign (by decide))) fun _ => ?_
  exact K.bind (K.reads_mono (K.reads (term hb hb')) (Nat.sub_le n 1)) fun _ => K.pure _

end GrammarComparison

end Fern.Parser
