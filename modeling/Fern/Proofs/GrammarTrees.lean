import Fern.Proofs.ConsistentTypes
import Fern.Proofs.MarkedTrees
import Fern.Syntax.Tree

/-!
# The trees of the grammar with their names marked

All trees that are read from texts are marked here. Nothing of their data is changed by that, and
the marks tell which pairs can be taken for something else: no pair begins with a word, but a
variant or a field with its name.

Main statements: `ReadTree.toDatum_eq`, `ReadTree.pairsAreMembers`.
-/

namespace Fern

/-! ## Marks -/

/-- A name as a part of a tree. -/
abbrev Marked.name (name : String) : Marked := .leaf (.name name)

mutual

/-- An expression with its names marked. The grammar builds no node of a tag of its own. -/
def Term.marked : Term → Marked
  | .integer n => .node .integer (.leaf (.int n))
  | .string text => .node .string (.leaf (.word text))
  | .boolean b => .node .boolean (.leaf (.bool b))
  | .unit => .node .unit (.leaf .none)
  | .identifier name => .node .identifier (.name name)
  | .constructor name => .node .constructor (.name name)
  | .tuple items => .node .tuple (.list (Term.allMarked items))
  | .record fields => .node .record (.list (Term.fieldsMarked fields))
  | .field target name => .node .field (.group [target.marked, .name name])
  | .item target index => .node .field (.group [target.marked, .leaf (.int index)])
  | .apply callee args => .node .apply (.group [callee.marked, .list (Term.allMarked args)])
  | .binary op lhs rhs =>
    .node .binary (.group [.leaf (.word op.name), lhs.marked, rhs.marked])
  | .sequence first rest => .node .sequence (.group [first.marked, rest.marked])
  | .letIn name rhs body => .node .letIn (.group [.name name, rhs.marked, body.marked])
  | .conditional cond cons alt =>
    .node .conditional (.group [cond.marked, cons.marked, alt.marked])
  | .caseOf matchee arms =>
    .node .caseOf (.group [matchee.marked, .list (Term.armsMarked arms)])
  | .lambda params body => .node .lambda (.group [.list (params.map .name), body.marked])
  | .other _ _ => .leaf .none

def Term.allMarked : List Term → List Marked
  | [] => []
  | t :: rest => t.marked :: Term.allMarked rest

def Term.fieldsMarked : List (String × Term) → List Marked
  | [] => []
  | (name, t) :: rest => .node .fieldInit (.group [.name name, t.marked]) :: Term.fieldsMarked rest

def Term.armsMarked : List (Arm Term) → List Marked
  | [] => []
  | ⟨head, binding, body⟩ :: rest =>
    .node .arm (.group [.name head, (binding.map .name).getD (.leaf .none), body.marked]) ::
      Term.armsMarked rest

end

mutual

def TypeTerm.marked : TypeTerm → Marked
  | .name n => .node .typeName (.name n)
  | .tuple items => .node .typeTuple (.list (TypeTerm.allMarked items))
  | .function param result => .node .typeFunction (.group [param.marked, result.marked])
  | .other _ _ => .leaf .none

def TypeTerm.allMarked : List TypeTerm → List Marked
  | [] => []
  | t :: rest => t.marked :: TypeTerm.allMarked rest

end

def VariantDecl.marked (decl : VariantDecl) : Marked :=
  .node .variantDecl
    (.group [.name decl.name, (decl.payload.map TypeTerm.marked).getD (.leaf .none)])

def FieldDecl.marked (decl : FieldDecl) : Marked :=
  .node .fieldDecl (.group [.name decl.name, decl.type.marked])

def TypeDeclBody.marked : TypeDeclBody → Marked
  | .sum variants => .node .sumType (.list (variants.map VariantDecl.marked))
  | .record fields => .node .recordType (.list (fields.map FieldDecl.marked))

/-- A declaration with its names marked. -/
def Declaration.marked : Declaration → Marked
  | .type decl =>
    .node .typeDef (.record .name (.name decl.name) [(.body, decl.body.marked)])
  | .function decl =>
    .node .functionDef (.record .name (.name decl.name)
      [(.params, .list (decl.params.map .name)), (.body, decl.body.marked)])

/-! ## Marks and data -/

/-- A name that may be missing. -/
theorem toDatum_binding (binding : Option String) :
    ((binding.map .name).getD (Marked.leaf .none)).toDatum = (binding.map .text).getD .none := by
  cases binding <;> rfl

theorem allToDatum_names (names : List String) :
    Marked.allToDatum (names.map .name) = names.map .text := by
  induction names with
  | nil => rfl
  | cons name rest ih =>
      rw [List.map_cons, Marked.allToDatum, ih]
      rfl

namespace Term

theorem allToDatum_marked {ts : List Term} (h : ∀ t ∈ ts, t.marked.toDatum = t.toDatum) :
    Marked.allToDatum (allMarked ts) = allToDatum ts := by
  induction ts with
  | nil => rfl
  | cons t rest ih =>
      obtain ⟨ht, hrest⟩ := List.forall_mem_cons.1 h
      rw [allMarked, Marked.allToDatum, allToDatum, ht, ih hrest]

theorem fieldsToDatum_marked {fields : List (String × Term)}
    (h : ∀ t ∈ fields.map (·.2), t.marked.toDatum = t.toDatum) :
    Marked.allToDatum (fieldsMarked fields) = fieldsToDatum fields := by
  induction fields with
  | nil => rfl
  | cons field rest ih =>
      obtain ⟨ht, hrest⟩ := List.forall_mem_cons.1 h
      rw [fieldsMarked, Marked.allToDatum, fieldsToDatum, ← ht, ih hrest]
      rfl

theorem armsToDatum_marked {arms : List (Arm Term)}
    (h : ∀ t ∈ arms.map (·.body), t.marked.toDatum = t.toDatum) :
    Marked.allToDatum (armsMarked arms) = armsToDatum arms := by
  induction arms with
  | nil => rfl
  | cons arm rest ih =>
      obtain ⟨ht, hrest⟩ := List.forall_mem_cons.1 h
      rw [armsMarked, Marked.allToDatum, armsToDatum, ← ht, ← toDatum_binding, ih hrest]
      rfl

/-- The marks change nothing of the data of an expression. -/
theorem toDatum_marked {t : Term} (h : t.All HasShape) : t.marked.toDatum = t.toDatum := by
  induction h with
  | @intro t here _ ih =>
    cases t with
    | integer | string | boolean | unit | identifier | constructor => rfl
    | tuple items =>
        have hitems : ∀ t ∈ items, t.marked.toDatum = t.toDatum := ih
        rw [toDatum, ← allToDatum_marked hitems]
        rfl
    | record fields =>
        rw [toDatum, ← fieldsToDatum_marked ih]
        rfl
    | field target | item target =>
        rw [toDatum, ← ih target (List.mem_singleton.2 rfl)]
        rfl
    | apply callee args =>
        obtain ⟨hcallee, hargs⟩ := List.forall_mem_cons.1 ih
        rw [toDatum, ← hcallee, ← allToDatum_marked hargs]
        rfl
    | caseOf matchee arms =>
        obtain ⟨hmatchee, harms⟩ := List.forall_mem_cons.1 ih
        rw [toDatum, ← hmatchee, ← armsToDatum_marked harms]
        rfl
    | binary | sequence | letIn | conditional =>
        simp only [parts, List.forall_mem_cons] at ih
        simp only [toDatum, ← ih]
        rfl
    | lambda params body =>
        rw [toDatum, ← ih body (List.mem_singleton.2 rfl), ← allToDatum_names]
        rfl
    | other => cases here

end Term

namespace TypeTerm

theorem allToDatum_marked {ts : List TypeTerm} (h : ∀ t ∈ ts, t.marked.toDatum = t.toDatum) :
    Marked.allToDatum (allMarked ts) = allToDatum ts := by
  induction ts with
  | nil => rfl
  | cons t rest ih =>
      obtain ⟨ht, hrest⟩ := List.forall_mem_cons.1 h
      rw [allMarked, Marked.allToDatum, allToDatum, ht, ih hrest]

theorem toDatum_marked {t : TypeTerm} (h : t.WellFormed) : t.marked.toDatum = t.toDatum := by
  induction h with
  | name _ => rfl
  | tuple _ _ ih =>
      rw [toDatum, ← allToDatum_marked ih]
      rfl
  | function _ _ ihparam ihresult =>
      rw [toDatum, ← ihparam, ← ihresult]
      rfl

end TypeTerm

theorem VariantDecl.toDatum_marked {decl : VariantDecl}
    (h : ∀ t ∈ decl.payload, t.WellFormed) : decl.marked.toDatum = decl.toDatum := by
  obtain ⟨name, payload⟩ := decl
  cases payload with
  | none => rfl
  | some t =>
      rw [toDatum, Option.map_some, Option.getD_some, ← TypeTerm.toDatum_marked (h t rfl)]
      rfl

theorem FieldDecl.toDatum_marked {decl : FieldDecl} (h : decl.type.WellFormed) :
    decl.marked.toDatum = decl.toDatum := by
  rw [toDatum, ← TypeTerm.toDatum_marked h]
  rfl

/-- The marks change nothing of the data of what stands on the right of a type declaration. -/
theorem TypeDecl.toDatum_marked {decl : TypeDecl} (h : ∀ t ∈ decl.written, t.WellFormed) :
    decl.body.marked.toDatum = decl.body.toDatum := by
  obtain ⟨name, body⟩ := decl
  cases body with
  | sum variants =>
      have hvariants : ∀ variant ∈ variants, variant.marked.toDatum = variant.toDatum := by
        refine fun variant hm => VariantDecl.toDatum_marked fun t ht => h t ?_
        exact List.mem_append_left _ (List.mem_filterMap.2 ⟨variant, hm, ht⟩)
      rw [TypeDeclBody.toDatum, ← List.map_congr_left hvariants, ← Function.comp_def,
        ← List.map_map, ← Marked.allToDatum_eq_map]
      rfl
  | record fields =>
      have hfields : ∀ field ∈ fields, field.marked.toDatum = field.toDatum := by
        refine fun field hm => FieldDecl.toDatum_marked (h _ ?_)
        exact List.mem_append_right _ (List.mem_map_of_mem hm)
      rw [TypeDeclBody.toDatum, ← List.map_congr_left hfields, ← Function.comp_def,
        ← List.map_map, ← Marked.allToDatum_eq_map]
      rfl

/-- The marks change nothing of the data of a declaration that was read. -/
theorem Declaration.IsRead.toDatum_marked {decl : Declaration} (h : decl.IsRead) :
    decl.marked.toDatum = decl.toDatum := by
  cases decl with
  | type decl =>
      rw [toDatum, ← TypeDecl.toDatum_marked (TypeDecl.wellFormed_of_read h)]
      rfl
  | function decl =>
      rw [toDatum, ← Term.toDatum_marked h.shaped, ← allToDatum_names]
      rfl

/-! ## Pairs and members -/

namespace Marked

/-- No pairs begin with words but variants and fields. -/
def PairsAreMembers (m : Marked) : Prop := m.heads = m.memberNames

namespace PairsAreMembers

theorem of_parts {m : Marked} (here : m.head? = m.memberName?)
    (below : ∀ part ∈ m.parts, part.PairsAreMembers) : m.PairsAreMembers := by
  rw [PairsAreMembers, heads, memberNames, collect_eq, collect_eq memberName?, here]
  exact congrArg _ (List.flatMap_congr below)

theorem leaf (l : Leaf) : (leaf l).PairsAreMembers :=
  of_parts rfl fun _ hm => absurd hm List.not_mem_nil

theorem node {tag : NodeTag} {content : Marked} (htag : tag.isMember = false)
    (h : content.PairsAreMembers) : (node tag content).PairsAreMembers := by
  refine of_parts ?_ fun part hm => List.mem_singleton.1 hm ▸ h
  rw [memberName?, htag]
  rfl

theorem member {tag : NodeTag} {content : Marked} (htag : tag.isMember) (name : String)
    (h : content.PairsAreMembers) :
    (Marked.node tag (.group [.name name, content])).PairsAreMembers := by
  have hcontent : content.collect head? = content.collect memberName? := h
  have hmember : (Marked.node tag (.group [.name name, content])).memberName? = some name :=
    if_pos htag
  rw [PairsAreMembers, heads, memberNames]
  simp only [collect_node, collect_group, collect_leaf, List.flatMap_cons, hmember, hcontent]
  rfl

theorem list {items : List Marked} (h : ∀ item ∈ items, item.PairsAreMembers) :
    (list items).PairsAreMembers :=
  of_parts rfl h

theorem pair {first second : Marked} (hhead : (group [first, second]).head? = none)
    (hfirst : first.PairsAreMembers) (hsecond : second.PairsAreMembers) :
    (group [first, second]).PairsAreMembers :=
  of_parts hhead (List.forall_mem_cons.2 ⟨hfirst, List.forall_mem_singleton.2 hsecond⟩)

theorem triple {first second third : Marked} (hfirst : first.PairsAreMembers)
    (hsecond : second.PairsAreMembers) (hthird : third.PairsAreMembers) :
    (group [first, second, third]).PairsAreMembers := by
  have hhead : (group [first, second, third]).head? = none := by cases first <;> rfl
  exact of_parts hhead (List.forall_mem_cons.2
    ⟨hfirst, List.forall_mem_cons.2 ⟨hsecond, List.forall_mem_singleton.2 hthird⟩⟩)

theorem record {key : Key} {value : Marked} {rest : List (Key × Marked)}
    (hvalue : value.PairsAreMembers) (hrest : ∀ m ∈ rest.map (·.2), m.PairsAreMembers) :
    (record key value rest).PairsAreMembers :=
  of_parts rfl (List.forall_mem_cons.2 ⟨hvalue, hrest⟩)

theorem names (names : List String) : (Marked.list (names.map .name)).PairsAreMembers :=
  list (List.forall_mem_map.2 fun _ _ => leaf _)

end PairsAreMembers

end Marked

open Marked (PairsAreMembers)

namespace Term

/-- An expression is no word, so no pair begins with a word where it begins with an expression. -/
theorem head?_marked (t : Term) (content : Marked) :
    (Marked.group [t.marked, content]).head? = none := by
  cases t <;> rfl

theorem pairsAreMembers_all {ts : List Term} (h : ∀ t ∈ ts, t.marked.PairsAreMembers) :
    ∀ m ∈ allMarked ts, m.PairsAreMembers := by
  induction ts with
  | nil => exact fun _ hm => absurd hm List.not_mem_nil
  | cons t rest ih =>
      obtain ⟨ht, hrest⟩ := List.forall_mem_cons.1 h
      exact List.forall_mem_cons.2 ⟨ht, ih hrest⟩

theorem pairsAreMembers_fields {fields : List (String × Term)}
    (h : ∀ t ∈ fields.map (·.2), t.marked.PairsAreMembers) :
    ∀ m ∈ fieldsMarked fields, m.PairsAreMembers := by
  induction fields with
  | nil => exact fun _ hm => absurd hm List.not_mem_nil
  | cons field rest ih =>
      obtain ⟨ht, hrest⟩ := List.forall_mem_cons.1 h
      exact List.forall_mem_cons.2 ⟨.member rfl _ ht, ih hrest⟩

theorem pairsAreMembers_arms {arms : List (Arm Term)}
    (h : ∀ t ∈ arms.map (·.body), t.marked.PairsAreMembers) :
    ∀ m ∈ armsMarked arms, m.PairsAreMembers := by
  induction arms with
  | nil => exact fun _ hm => absurd hm List.not_mem_nil
  | cons arm rest ih =>
      obtain ⟨ht, hrest⟩ := List.forall_mem_cons.1 h
      obtain ⟨head, binding, body⟩ := arm
      have hbinding : ((binding.map .name).getD (Marked.leaf .none)).PairsAreMembers := by
        cases binding <;> exact .leaf _
      exact List.forall_mem_cons.2 ⟨.node rfl (.triple (.leaf _) hbinding ht), ih hrest⟩

/-- In an expression no pairs begin with words but the fields of record literals. -/
theorem pairsAreMembers_marked (t : Term) : t.marked.PairsAreMembers := by
  have h : t.All fun _ => True := .of_forall (fun _ => trivial) t
  induction h with
  | @intro t _ _ ih =>
    cases t with
    | integer | string | boolean | unit | identifier | constructor => exact .node rfl (.leaf _)
    | tuple items => exact .node rfl (.list (pairsAreMembers_all ih))
    | record fields => exact .node rfl (.list (pairsAreMembers_fields ih))
    | field target | item target =>
        have htarget := ih target (List.mem_singleton.2 rfl)
        exact .node rfl (.pair (head?_marked _ _) htarget (.leaf _))
    | apply callee args =>
        obtain ⟨hcallee, hargs⟩ := List.forall_mem_cons.1 ih
        exact .node rfl (.pair (head?_marked _ _) hcallee (.list (pairsAreMembers_all hargs)))
    | caseOf matchee arms =>
        obtain ⟨hmatchee, harms⟩ := List.forall_mem_cons.1 ih
        exact .node rfl (.pair (head?_marked _ _) hmatchee (.list (pairsAreMembers_arms harms)))
    | sequence first rest =>
        obtain ⟨hfirst, hrest⟩ := List.forall_mem_cons.1 ih
        exact .node rfl (.pair (head?_marked _ _) hfirst (hrest _ List.mem_cons_self))
    | binary op lhs rhs =>
        obtain ⟨hlhs, hrhs⟩ := List.forall_mem_cons.1 ih
        exact .node rfl (.triple (.leaf _) hlhs (hrhs _ List.mem_cons_self))
    | letIn name rhs body =>
        obtain ⟨hrhs, hbody⟩ := List.forall_mem_cons.1 ih
        exact .node rfl (.triple (.leaf _) hrhs (hbody _ List.mem_cons_self))
    | conditional cond cons alt =>
        obtain ⟨hcond, hrest⟩ := List.forall_mem_cons.1 ih
        obtain ⟨hcons, halt⟩ := List.forall_mem_cons.1 hrest
        exact .node rfl (.triple hcond hcons (halt _ List.mem_cons_self))
    | lambda params body =>
        exact .node rfl (.pair rfl (.names _) (ih body (List.mem_singleton.2 rfl)))
    | other => exact .leaf _

end Term

namespace TypeTerm

mutual

theorem pairsAreMembers_marked (t : TypeTerm) : t.marked.PairsAreMembers := by
  match t with
  | .name _ => exact .node rfl (.leaf _)
  | .tuple items => exact .node rfl (.list (pairsAreMembers_all items))
  | .function param result =>
      have hhead : (Marked.group [param.marked, result.marked]).head? = none := by
        cases param <;> rfl
      exact .node rfl (.pair hhead (pairsAreMembers_marked param) (pairsAreMembers_marked result))
  | .other _ _ => exact .leaf _

theorem pairsAreMembers_all (ts : List TypeTerm) : ∀ m ∈ allMarked ts, m.PairsAreMembers := by
  match ts with
  | [] => exact fun _ hm => absurd hm List.not_mem_nil
  | t :: rest =>
      exact List.forall_mem_cons.2 ⟨pairsAreMembers_marked t, pairsAreMembers_all rest⟩

end

end TypeTerm

theorem TypeDeclBody.pairsAreMembers_marked (body : TypeDeclBody) :
    body.marked.PairsAreMembers := by
  cases body with
  | sum variants =>
      refine .node rfl (.list (List.forall_mem_map.2 fun variant _ => .member rfl _ ?_))
      cases variant.payload with
      | none => exact .leaf _
      | some t => exact t.pairsAreMembers_marked
  | record fields =>
      refine .node rfl (.list (List.forall_mem_map.2 fun field _ => .member rfl _ ?_))
      exact field.type.pairsAreMembers_marked

theorem Declaration.pairsAreMembers_marked (decl : Declaration) :
    decl.marked.PairsAreMembers := by
  cases decl with
  | type decl =>
      exact .node rfl (.record (.leaf _)
        (List.forall_mem_singleton.2 decl.body.pairsAreMembers_marked))
  | function decl =>
      exact .node rfl (.record (.leaf _) (List.forall_mem_cons.2
        ⟨.names _, List.forall_mem_singleton.2 decl.body.pairsAreMembers_marked⟩))

/-! ## Trees that are read -/

/-- A tree that a text was read as, with its marks and as data. -/
inductive ReadTree : Marked → Datum → Prop
  | declaration {decl : Declaration} (h : decl.IsRead) : ReadTree decl.marked decl.toDatum
  | expression {source : String} {t : Term} (h : Syntax.parseExpression source = .ok t) :
      ReadTree t.marked t.toDatum

/-- The marks change nothing of a tree. -/
theorem ReadTree.toDatum_eq {m : Marked} {datum : Datum} (h : ReadTree m datum) :
    m.toDatum = datum := by
  cases h with
  | declaration h => exact h.toDatum_marked
  | expression h => exact Term.toDatum_marked (Syntax.parseExpression_shaped h)

/-- No pairs in a tree begin with words but its variants and fields. -/
theorem ReadTree.pairsAreMembers {m : Marked} {datum : Datum} (h : ReadTree m datum) :
    m.PairsAreMembers := by
  cases h with
  | declaration => exact Declaration.pairsAreMembers_marked _
  | expression => exact Term.pairsAreMembers_marked _

end Fern
