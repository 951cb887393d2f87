import Fern.Proofs.GrammarPairs
import Fern.Proofs.ParserYields
import Fern.Proofs.TermShape
import Mathlib.Data.List.TakeWhile

/-!
# The grammar builds well-shaped trees

Every tree that is read has the shape that `Term.HasShape` describes, at every
node, and its names are of the sorts that names have where they are read. Layer
by layer, a reader builds its node from trees that the reader for inner
expressions has made, so the facts about a layer assume nothing else than that
inner trees fit.

What is assumed of the words of a text, and of the places in it, is a structure
of its own. If no places and no names are told apart, what is left is the shape.
-/

namespace Fern

open Syntax

/-! ## Names in trees -/

/-- The names at a node are of the sort of variables or of that of names that are introduced. -/
def Term.Named (free binding : String → Prop) : Term → Prop
  | .identifier name => free name
  | .record fields => ∀ field ∈ fields, binding field.1
  | .letIn name _ _ => binding name
  | .caseOf _ arms => ∀ arm ∈ arms, ∀ name ∈ arm.binding, binding name
  | .lambda params _ => ∀ param ∈ params, binding param
  | .integer _ | .string _ | .boolean _ | .unit | .constructor _ | .tuple _ | .field .. | .item ..
  | .apply .. | .binary .. | .sequence .. | .conditional .. | .other .. => True

/-- The names of fields that a type declaration introduces are of a sort. -/
def TypeDeclBody.Named (binding : String → Prop) : TypeDeclBody → Prop
  | .sum _ => True
  | .record fields => ∀ field ∈ fields, binding field.name

/-- All names that a declaration introduces and all those in it are of the two sorts. -/
def Declaration.Named (free binding : String → Prop) : Declaration → Prop
  | .type decl => decl.body.Named binding
  | .function decl =>
    binding decl.name ∧ (∀ param ∈ decl.params, binding param) ∧
      decl.body.All (Term.Named free binding)

section Named

variable {free free' binding binding' : String → Prop} (hfree : ∀ name, free name → free' name)
  (hbinding : ∀ name, binding name → binding' name)

include hfree hbinding

theorem Term.Named.imp {t : Term} (h : t.Named free binding) : t.Named free' binding' := by
  cases t with
  | identifier name => exact hfree name h
  | record fields => exact fun field hm => hbinding _ (h field hm)
  | letIn name rhs body => exact hbinding name h
  | caseOf matchee arms => exact fun arm hm name hname => hbinding name (h arm hm name hname)
  | lambda params body => exact fun param hm => hbinding param (h param hm)
  | _ => exact trivial

theorem Declaration.Named.imp {decl : Declaration} (h : decl.Named free binding) :
    decl.Named free' binding' := by
  cases decl with
  | type decl =>
      obtain ⟨name, body⟩ := decl
      cases body with
      | sum variants => exact trivial
      | record fields => exact fun field hm => hbinding _ (h field hm)
  | function decl =>
      obtain ⟨hname, hparams, hbody⟩ := h
      exact ⟨hbinding _ hname, fun param hm => hbinding param (hparams param hm),
        hbody.imp fun _ ht => ht.imp hfree hbinding⟩

end Named

namespace Syntax

open Fern.Parser

/-- All of an expression has the shape that the grammar gives it. -/
abbrev Shaped (t : Term) : Prop := t.All Term.HasShape

/-! ## Words at places -/

/-- What the readers of words lead from and to, and of what sorts the names are that they hand
out. -/
structure WordPlaces where
  stuck : Cursor → Prop
  /-- Where a word may start. -/
  site : Cursor → Prop
  /-- Where a name may start that is introduced. -/
  apart : Cursor → Prop
  free : String → Prop
  binding : String → Prop
  site_of_apart {c : Cursor} : apart c → site c
  symbol {w : String} : w ∈ signs → Leads stuck site (symbol w) (fun _ => True) apart
  keyword {w : String} : w ∈ keywords → Leads stuck site (keyword w) (fun _ => True) apart
  literal : Leads stuck site literal (fun _ => True) apart
  number : Leads stuck site number (fun _ => True) site
  selector : Leads stuck site selector (fun _ => True) site
  constructorName : Leads stuck site constructorName IsCapital apart
  freeName : Leads stuck site name free apart
  bindingName : Leads stuck apart name binding apart

/-- All places and all names are alike. -/
def WordPlaces.alike : WordPlaces where
  stuck := nowhere
  site := anywhere
  apart := anywhere
  free _ := True
  binding _ := True
  site_of_apart := id
  symbol _ := Yields.any
  keyword _ := Yields.any
  literal := Yields.any
  number := Yields.any
  selector := Yields.any
  constructorName := by
    refine yields_iff.2 fun cursor text behind h => ?_
    obtain ⟨c, rest, -, hc, rfl, -⟩ := exists_of_word h
    exact ⟨c, _, String.toList_ofList, hc, fun d hd => List.mem_takeWhile_imp hd⟩
  freeName := Yields.any
  bindingName := Yields.any

theorem constructorName_yields : constructorName.Yields IsCapital :=
  WordPlaces.alike.constructorName

variable (P : WordPlaces)

namespace WordPlaces

/-- From one place where a word may start, a parser leads to another. -/
abbrev Reads {α : Type} (p : Parser α) (sort : α → Prop) : Prop :=
  Leads P.stuck P.site p sort P.site

/-- A node has its shape, and its names are of their sorts. -/
abbrev Node (t : Term) : Prop := t.HasShape ∧ t.Named P.free P.binding

/-- All nodes of an expression have. -/
abbrev Fits (t : Term) : Prop := t.All P.Node

/-- A place apart is one where any word may start. -/
theorem toSite {α : Type} {before : Cursor → Prop} {p : Parser α} {sort : α → Prop}
    (h : Leads P.stuck before p sort P.apart) : Leads P.stuck before p sort P.site :=
  h.mono (fun _ => id) (fun _ => id) fun _ => P.site_of_apart

theorem sign {w : String} (h : w ∈ signs) : P.Reads (Syntax.symbol w) fun _ => True :=
  P.toSite (P.symbol h)

theorem reserved {w : String} (h : w ∈ keywords) : P.Reads (Syntax.keyword w) fun _ => True :=
  P.toSite (P.keyword h)

theorem fromApart {α : Type} {after : Cursor → Prop} {p : Parser α} {sort : α → Prop}
    (h : Leads P.stuck P.site p sort after) : Leads P.stuck P.apart p sort after :=
  h.mono (fun _ => P.site_of_apart) (fun _ => id) fun _ => id

end WordPlaces

variable {P}

/-! ## What nodes are put together from -/

theorem fits_select {target : Term} (h : P.Fits target) (selector : String ⊕ Nat) :
    P.Fits (select target selector) := by
  cases selector with
  | inl name => exact .intro ⟨trivial, trivial⟩ (List.forall_mem_singleton.2 h)
  | inr index => exact .intro ⟨Int.natCast_nonneg index, trivial⟩ (List.forall_mem_singleton.2 h)

theorem fits_foldl_select {target : Term} (h : P.Fits target) (selectors : List (String ⊕ Nat)) :
    P.Fits (selectors.foldl select target) := by
  induction selectors generalizing target with
  | nil => exact h
  | cons selector rest ih => exact ih (fits_select h selector)

theorem fits_parenthesized {items : List Term} (hne : items ≠ []) (h : ∀ t ∈ items, P.Fits t) :
    P.Fits (parenthesized items) := by
  match items with
  | [] => exact absurd rfl hne
  | [item] => exact h item List.mem_cons_self
  | first :: second :: rest => exact .intro ⟨Nat.le_add_left 2 rest.length, trivial⟩ h

theorem fits_juxtaposed {callee : Term} {args : List Term} (hc : P.Fits callee)
    (ha : ∀ t ∈ args, P.Fits t) : P.Fits (juxtaposed callee args) := by
  match args with
  | [] => exact hc
  | first :: rest =>
    exact .intro ⟨List.cons_ne_nil _ _, trivial⟩ (List.forall_mem_cons.2 ⟨hc, ha⟩)

theorem fits_sequenced {first : Term} {others : List Term} (hf : P.Fits first)
    (ho : ∀ t ∈ others, P.Fits t) : P.Fits (sequenced first others) := by
  induction others generalizing first with
  | nil => exact hf
  | cons next rest ih =>
      obtain ⟨hn, hr⟩ := List.forall_mem_cons.1 ho
      exact .intro ⟨trivial, trivial⟩
        (List.forall_mem_cons.2 ⟨hf, List.forall_mem_singleton.2 (ih hn hr)⟩)

/-! ## The layers of the grammar -/

section Layer

variable {bound : Nat} {inner : Parser Term}

theorem levelOperator_leads {level : List OperatorSign} (h : level ∈ operatorLevels) :
    P.Reads (levelOperator level) (· ∈ Operator.all) := by
  have known : ∀ level ∈ operatorLevels, ∀ sign ∈ level, sign.op ∈ Operator.all ∧
      if sign.isWord then sign.sign ∈ keywords else sign.sign ∈ signs := by
    decide
  refine Leads.firstOf fun p hp => ?_
  obtain ⟨sign, hs, rfl⟩ := List.mem_map.1 hp
  obtain ⟨hop, hk⟩ := known level h sign hs
  rw [OperatorSign.read]
  split at hk
  · next hw =>
    rw [if_pos hw]
    exact (P.reserved hk).bind fun _ => .stay fun _ => hop
  · next hw =>
    rw [if_neg hw]
    exact (P.sign hk).bind fun _ => .stay fun _ => hop

theorem operatorRow_leads {operand : Parser Term} {operator : Parser Operator}
    (ho : P.Reads operand P.Fits) (hop : P.Reads operator (· ∈ Operator.all)) (lhs : Term) :
    P.Reads (operatorRow operand operator bound lhs) fun t => P.Fits lhs → P.Fits t := by
  induction bound generalizing lhs with
  | zero => exact .stay id
  | succ bound ih =>
      rw [Comparison.operatorRow_succ]
      refine (hop.optional fun _ => id).bind fun found => ?_
      cases found with
      | none => exact .stay fun _ hl => hl
      | some op =>
          refine ho.bind fun rhs => (ih (.binary op lhs rhs)).mono (fun _ => id) ?_ fun _ => id
          intro t ht hr hop hl
          refine ht (.intro ⟨hop op rfl, trivial⟩ ?_)
          exact List.forall_mem_cons.2 ⟨hl, List.forall_mem_singleton.2 hr⟩

theorem operatorLevel_leads {operand : Parser Term} (ho : P.Reads operand P.Fits)
    {level : List OperatorSign} (h : level ∈ operatorLevels) :
    P.Reads (operatorLevel bound operand level) P.Fits :=
  ho.bind fun lhs => operatorRow_leads ho (levelOperator_leads h) lhs

variable (hi : P.Reads inner P.Fits)

include hi

theorem fieldInit_leads : Leads P.stuck P.apart (fieldInit inner)
    (fun field => P.binding field.1 ∧ P.Fits field.2) P.site := by
  refine (P.toSite P.bindingName).bind fun _ => (P.sign (by decide)).bind fun _ => ?_
  exact hi.bind fun _ => .stay fun hv _ hx => ⟨hx, hv⟩

theorem atom_leads : P.Reads (atom bound inner) P.Fits := by
  refine Leads.firstOf fun p hp => ?_
  simp only [List.mem_cons, List.not_mem_nil, or_false] at hp
  rcases hp with rfl | rfl | rfl | rfl | rfl | rfl | rfl | rfl | rfl
  · refine (P.sign (by decide)).bind fun _ => ?_
    exact (P.sign (by decide)).bind fun _ => .stay fun _ _ => .leaf rfl ⟨trivial, trivial⟩
  · refine (P.sign (by decide)).bind fun _ => ?_
    refine (hi.separated (P.sign (by decide)) bound).bind fun items => ?_
    refine (P.sign (by decide)).bind fun _ => .stay fun _ hitems _ => ?_
    exact fits_parenthesized hitems.1 hitems.2
  · refine (P.symbol (by decide)).bind fun _ => ?_
    refine ((fieldInit_leads hi).separated (P.symbol (by decide)) bound).bind fun fields => ?_
    refine (P.sign (by decide)).bind fun _ => .stay fun _ hf _ => ?_
    refine .intro ⟨hf.1, fun field hm => (hf.2 field hm).1⟩ fun part hm => ?_
    obtain ⟨field, hmem, rfl⟩ := List.mem_map.1 hm
    exact (hf.2 field hmem).2
  · exact (P.toSite P.literal).bind fun _ => .stay fun _ => .leaf rfl ⟨trivial, trivial⟩
  · exact P.number.bind fun n => .stay fun _ => .leaf rfl ⟨Int.natCast_nonneg n, trivial⟩
  · exact (P.reserved (by decide)).bind fun _ => .stay fun _ => .leaf rfl ⟨trivial, trivial⟩
  · exact (P.reserved (by decide)).bind fun _ => .stay fun _ => .leaf rfl ⟨trivial, trivial⟩
  · exact (P.toSite P.constructorName).bind fun _ => .stay fun _ => .leaf rfl ⟨trivial, trivial⟩
  · exact (P.toSite P.freeName).bind fun _ => .stay fun hx => .leaf rfl ⟨trivial, hx⟩

theorem application_leads : P.Reads (application bound inner) P.Fits := by
  have hs : P.Reads (selection bound inner) P.Fits :=
    (atom_leads hi).bind fun _ => (P.selector.many bound).bind fun selectors =>
      .stay fun _ ht => fits_foldl_select ht selectors
  exact hs.bind fun _ => (hs.many bound).bind fun _ => .stay fun ha hc => fits_juxtaposed hc ha

theorem operatorTerm_leads : P.Reads (operatorTerm bound inner) P.Fits := by
  have hfold : ∀ levels : List (List OperatorSign), levels ⊆ operatorLevels →
      ∀ operand : Parser Term, P.Reads operand P.Fits →
        P.Reads (levels.foldl (operatorLevel bound) operand) P.Fits := by
    intro levels
    induction levels with
    | nil => exact fun _ _ ho => ho
    | cons level rest ih =>
        intro hsub operand ho
        obtain ⟨hl, hr⟩ := List.cons_subset.1 hsub
        exact ih hr _ (operatorLevel_leads ho hl)
  exact hfold operatorLevels (List.Subset.refl _) _ (application_leads hi)

theorem arm_leads :
    P.Reads (arm inner) fun a => (∀ x ∈ a.binding, P.binding x) ∧ P.Fits a.body := by
  refine (P.sign (by decide)).bind fun _ => P.constructorName.bind fun _ => ?_
  refine (P.bindingName.optional fun _ => id).bind fun _ => ?_
  refine (P.fromApart (P.sign (by decide))).bind fun _ => ?_
  exact hi.bind fun _ => .stay fun hb _ hbinding _ _ => ⟨hbinding, hb⟩

theorem matchTerm_leads : P.Reads (matchTerm bound inner) P.Fits := by
  refine (P.reserved (by decide)).bind fun _ => hi.bind fun _ => ?_
  refine (P.reserved (by decide)).bind fun _ => ((arm_leads hi).many1 bound).bind fun arms => ?_
  refine .stay fun ha _ hm _ => .intro ⟨ha.1, fun a hmem => (ha.2 a hmem).1⟩ ?_
  refine List.forall_mem_cons.2 ⟨hm, fun part hp => ?_⟩
  obtain ⟨a, hmem, rfl⟩ := List.mem_map.1 hp
  exact (ha.2 a hmem).2

theorem simpleTerm_leads : P.Reads (simpleTerm bound inner) P.Fits := by
  refine Leads.firstOf fun p hp => ?_
  simp only [List.mem_cons, List.not_mem_nil, or_false] at hp
  rcases hp with rfl | rfl | rfl | rfl | rfl
  · refine (P.keyword (by decide)).bind fun _ => (P.toSite P.bindingName).bind fun _ => ?_
    refine (P.sign (by decide)).bind fun _ => hi.bind fun _ => ?_
    refine (P.reserved (by decide)).bind fun _ => hi.bind fun _ => ?_
    refine .stay fun hb _ hr _ hx _ => .intro ⟨trivial, hx⟩ ?_
    exact List.forall_mem_cons.2 ⟨hr, List.forall_mem_singleton.2 hb⟩
  · refine (P.reserved (by decide)).bind fun _ => hi.bind fun _ => ?_
    refine (P.reserved (by decide)).bind fun _ => hi.bind fun _ => ?_
    refine (P.reserved (by decide)).bind fun _ => hi.bind fun _ => ?_
    refine .stay fun he _ ht _ hc _ => .intro ⟨trivial, trivial⟩ ?_
    exact List.forall_mem_cons.2 ⟨hc, List.forall_mem_cons.2 ⟨ht, List.forall_mem_singleton.2 he⟩⟩
  · exact matchTerm_leads hi
  · refine (P.symbol (by decide)).bind fun _ => (P.bindingName.many1 bound).bind fun params => ?_
    refine (P.fromApart (P.sign (by decide))).bind fun _ => hi.bind fun _ => ?_
    exact .stay fun hb _ hp _ => .intro ⟨hp.1, hp.2⟩ (List.forall_mem_singleton.2 hb)
  · exact operatorTerm_leads hi

theorem termLayer_leads : P.Reads (termLayer bound inner) P.Fits := by
  have hnext : P.Reads (do symbol ";"; simpleTerm bound inner) P.Fits :=
    (P.sign (by decide)).bind fun _ =>
      (simpleTerm_leads hi).mono (fun _ => id) (fun _ ht _ => ht) fun _ => id
  exact (simpleTerm_leads hi).bind fun _ => (hnext.many bound).bind fun _ =>
    .stay fun ho hf => fits_sequenced hf ho

end Layer

/-- What is read as an expression fits. -/
theorem term_leads (bound : Nat) : P.Reads (term bound) P.Fits := by
  induction bound with
  | zero => exact .fail
  | succ bound ih => exact termLayer_leads ih

/-! ## Types -/

theorem typeAtom_leads {bound : Nat} {inner : Parser TypeTerm}
    (hi : P.Reads inner TypeTerm.WellFormed) :
    P.Reads (typeAtom bound inner) TypeTerm.WellFormed := by
  refine Leads.orElse ((P.toSite P.constructorName).bind fun _ => .stay fun hn => .name hn) ?_
  refine (P.sign (by decide)).bind fun _ => ?_
  refine (hi.separated (P.sign (by decide)) bound).bind fun items => ?_
  refine (P.sign (by decide)).bind fun _ => .stay fun _ hitems _ => ?_
  obtain ⟨hne, hall⟩ := hitems
  rcases items with _ | ⟨first, _ | ⟨second, others⟩⟩
  · exact absurd rfl hne
  · exact hall first List.mem_cons_self
  · exact .tuple (by simp) hall

/-- Every type that is read is one that can be written. -/
theorem typeTerm_leads (bound : Nat) : P.Reads (typeTerm bound) TypeTerm.WellFormed := by
  induction bound with
  | zero => exact .fail
  | succ bound ih =>
      have hresult : P.Reads (do symbol "->"; typeTerm bound) TypeTerm.WellFormed :=
        (P.sign (by decide)).bind fun _ =>
          ih.mono (fun _ => id) (fun _ ht _ => ht) fun _ => id
      refine (typeAtom_leads ih).bind fun param =>
        (hresult.optional fun _ => id).bind fun found => ?_
      cases found with
      | none => exact .stay fun _ hparam => hparam
      | some result => exact .stay fun hf hparam => .function hparam (hf result rfl)

theorem recordType_leads (bound : Nat) :
    P.Reads (recordType bound) (TypeDeclBody.Named P.binding) := by
  have hfield : Leads P.stuck P.apart (fieldDecl bound) (fun field => P.binding field.name)
      P.site := by
    refine (P.toSite P.bindingName).bind fun _ => (P.sign (by decide)).bind fun _ => ?_
    exact (typeTerm_leads bound).bind fun _ => .stay fun _ _ hx => hx
  refine (P.symbol (by decide)).bind fun _ => ?_
  refine (hfield.separated (P.symbol (by decide)) bound).bind fun _ => ?_
  exact (P.sign (by decide)).bind fun _ => .stay fun _ hf _ => hf.2

theorem sumType_leads (bound : Nat) : P.Reads (sumType bound) (TypeDeclBody.Named P.binding) := by
  have hvariant : P.Reads (variantDecl bound) fun _ => True := by
    refine (P.toSite P.constructorName).bind fun _ => ?_
    exact ((typeAtom_leads (typeTerm_leads bound)).optional fun _ => id).bind fun _ =>
      .stay fun _ _ => trivial
  exact (hvariant.separated (P.sign (by decide)) bound).bind fun _ => .stay fun _ => trivial

/-! ## Declarations -/

/-- A declaration starts apart from what stands before it, and leads to a place of the same kind. -/
theorem declaration_leads (bound : Nat) : Leads P.stuck P.apart (declaration bound)
    (fun decl => decl.All Term.HasShape ∧ decl.Named P.free P.binding) P.apart := by
  have hstop : Leads P.stuck P.site (symbol ".") (fun _ => True) P.apart := P.symbol (by decide)
  refine Leads.orElse ?type ?function
  case type =>
      refine (P.fromApart (P.reserved (by decide))).bind fun _ => ?_
      refine (P.toSite P.constructorName).bind fun _ => ?_
      refine (P.sign (by decide)).bind fun _ => ?_
      refine ((recordType_leads bound).orElse (sumType_leads bound)).bind fun _ =>
        hstop.bind fun _ => ?_
      exact .stay fun _ hbody _ _ _ => ⟨trivial, hbody⟩
  case function =>
      refine P.bindingName.bind fun _ => (P.bindingName.many bound).bind fun _ => ?_
      refine (P.fromApart (P.sign (by decide))).bind fun _ => (term_leads bound).bind fun _ => ?_
      refine hstop.bind fun _ => .stay fun _ hbody _ hparams hname => ?_
      exact ⟨hbody.imp fun _ h => h.1, hname, hparams, hbody.imp fun _ h => h.2⟩

/-! ## Whole texts -/

theorem exists_of_atEnd {α : Type} {text : List Char} {a b : α} {cursor : Cursor}
    (h : atEnd text a cursor = .ok b) : a = b ∧ cursor.skip.rest = [] := by
  rw [atEnd] at h
  split at h
  · next he => exact ⟨Except.ok.inj h, List.isEmpty_iff.1 he⟩
  · cases h

section Texts

variable {text : List Char} (hend : ∀ c, P.stuck c → c.skip.rest ≠ [])

include hend

/-- What is read as all of a text fits, if nothing is left at no stuck place. -/
theorem expressionOf_fits (hstart : P.site (.start text)) {t : Term}
    (h : expressionOf text = .ok t) : P.Fits t := by
  rw [expressionOf] at h
  split at h
  · cases h
  · next result cursor hr =>
    obtain ⟨rfl, hrest⟩ := exists_of_atEnd h
    obtain ⟨-, -, hfits⟩ := term_leads (boundFor text) _ _ _ hstart hr
    exact hfits.resolve_left fun hstuck => hend cursor hstuck hrest

theorem programOf_fits (hstart : P.apart (.start text)) {decls : List Declaration}
    (h : programOf text = .ok decls) :
    ∀ decl ∈ decls, decl.All Term.HasShape ∧ decl.Named P.free P.binding := by
  obtain ⟨-, -, hfits⟩ :=
    (declaration_leads (boundFor text)).collect (boundFor text) hstart
  rw [programOf] at h
  generalize Parser.collect (declaration (boundFor text)) (boundFor text) (.start text) = read
    at h hfits
  obtain ⟨rfl, hrest⟩ := exists_of_atEnd h
  exact hfits.resolve_left fun hstuck => hend _ hstuck hrest

end Texts

/-! ## Wherever it is read -/

theorem typeAtom_yields {bound : Nat} {inner : Parser TypeTerm}
    (hi : inner.Yields TypeTerm.WellFormed) :
    (typeAtom bound inner).Yields TypeTerm.WellFormed :=
  typeAtom_leads (P := .alike) hi

theorem typeTerm_yields (bound : Nat) : (typeTerm bound).Yields TypeTerm.WellFormed :=
  typeTerm_leads (P := .alike) bound

/-- Every expression that is read is shaped. -/
theorem parseExpression_shaped {source : String} {t : Term} (h : parseExpression source = .ok t) :
    Shaped t :=
  (expressionOf_fits (P := .alike) (fun _ h => h.elim) trivial h).imp fun _ h => h.1

/-- So are the bodies of all declarations that are read. -/
theorem parseProgram_shaped {source : String} {decls : List Declaration}
    (h : parseProgram source = .ok decls) : ∀ decl ∈ decls, decl.All Term.HasShape :=
  fun decl hm => (programOf_fits (P := .alike) (fun _ h => h.elim) trivial h decl hm).1

/-- All declarations of a text are of a sort if those that the grammar yields are. -/
theorem parseProgram_yields {sort : Declaration → Prop}
    (hsort : ∀ bound, (declaration bound).Yields sort) {source : String} {decls : List Declaration}
    (h : parseProgram source = .ok decls) : ∀ decl ∈ decls, sort decl := by
  generalize htext : Text.expandTabs source.toList = text at h
  have hall := (hsort (boundFor text)).collect (boundFor text) (.start text)
  rw [parseProgram, htext, programOf] at h
  generalize Parser.collect (declaration (boundFor text)) (boundFor text) (.start text) = read
    at h hall
  obtain ⟨rfl, -⟩ := exists_of_atEnd h
  exact hall

end Syntax

end Fern
