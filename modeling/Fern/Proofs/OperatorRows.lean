import Fern.Proofs.OperandReading
import Fern.Proofs.OperatorTrees

/-!
# Rows of operators

Operands with operators between them are read as the tree that the levels of the operators call for.
A reader of one level hands out a tree of operators of the tighter levels, as far as they go, and
leaves a row that begins with an operator of a level it does not know. A row of that reader's trees
is read by one operator after the other: what has been read so far is the left side of the next one,
and the tree behind it is the right side, so both are as tight as they have to be.
-/

namespace Fern

open Syntax Fern.Parser

/-! ## Operators with operands -/

/-- An operator with the text of an operand behind it, and what that is read as. -/
structure Link where
  op : Operator
  text : String
  operand : Term

namespace Link

structure Fits (link : Link) : Prop where
  known : link.op ∈ Operator.all
  isOperand : IsOperand link.text link.operand

/-- The texts of an operator and of the operand behind it. -/
def words (link : Link) : List String := [String.ofList link.op.word.chars, link.text]

/-- Operators and operands behind a first one, with a blank in front of each. -/
def tail : List Link → List Char
  | [] => []
  | link :: rest => link.op.before (link.text.toList ++ tail rest)

/-- The operators and the operands, from left to right. -/
def row (links : List Link) : List (Term ⊕ Operator) :=
  links.flatMap fun link => [.inr link.op, .inl link.operand]

theorem row_append (before after : List Link) : row (before ++ after) = row before ++ row after :=
  List.flatMap_append

variable {links before after : List Link}

theorem toList_intercalate_words (first : String) (links : List Link) :
    (" ".intercalate (first :: links.flatMap words)).toList = first.toList ++ tail links := by
  induction links generalizing first with
  | nil => rw [List.flatMap_nil, String.intercalate_singleton, tail, List.append_nil]
  | cons link rest ih =>
      rw [List.flatMap_cons, words, List.cons_append, List.cons_append, List.nil_append,
        String.intercalate_cons_cons, String.intercalate_cons_cons]
      simp only [String.toList_append, ih, String.toList_ofList, tail, Operator.before,
        List.append_assoc]
      rfl

theorem length_tail_append (before after : List Link) :
    (tail after).length ≤ (tail (before ++ after)).length := by
  induction before with
  | nil => exact Nat.le_refl _
  | cons link rest ih =>
      simp only [List.cons_append, tail, Operator.before, List.length_cons, List.length_append]
      omega

theorem length_le_length_tail (links : List Link) : links.length ≤ (tail links).length := by
  induction links with
  | nil => exact Nat.le_refl _
  | cons link rest ih =>
      simp only [tail, Operator.before, List.length_cons, List.length_append]
      omega

/-- What stands behind an operand ends it. -/
theorem operandEnd_tail (h : ∀ link ∈ links, link.Fits) : OperandEnd [] (tail links) := by
  cases links with
  | nil => exact .last
  | cons link rest => exact .operator (h link List.mem_cons_self).known _

theorem tab_not_mem_tail (h : ∀ link ∈ links, link.Fits) : '\t' ∉ tail links := by
  have known : ∀ op ∈ Operator.all, '\t' ∉ op.word.chars := by decide
  induction links with
  | nil => exact List.not_mem_nil
  | cons link rest ih =>
      obtain ⟨hlink, hrest⟩ := List.forall_mem_cons.1 h
      simp only [tail, Operator.before, List.mem_cons, List.mem_append, not_or]
      exact ⟨by decide, known _ hlink.known, by decide, hlink.isOperand.untabbed, ih hrest⟩

end Link

/-! ## Places in front of operators -/

/-- Behind some blanks there are operators with operands, up to the end of the text. -/
def AtLinks (c : Cursor) (links : List Link) : Prop :=
  ∃ gap, IsGap gap ∧ c.rest = gap ++ Link.tail links

theorem skipFrom_gap {gap : List Char} (h : IsGap gap) (previous : Option Char)
    (text : List Char) :
    ∃ before, Cursor.skipFrom false previous (gap ++ text) = Cursor.skipFrom false before text := by
  induction gap generalizing previous with
  | nil => exact ⟨previous, rfl⟩
  | cons c gap ih =>
      obtain ⟨hc, hgap⟩ := List.forall_mem_cons.1 h
      obtain ⟨before, hbefore⟩ := ih hgap (some c)
      refine ⟨before, Eq.trans ?_ hbefore⟩
      simp only [List.mem_cons, List.not_mem_nil, or_false] at hc
      rcases hc with rfl | rfl | rfl | rfl <;> rfl

section Places

variable {α : Type} {p : Parser α} {c : Cursor} {links : List Link} {k : Nat}
  {level : List OperatorSign}

/-- A reader that passes blanks passes those in front of the operators. -/
theorem AtLinks.passes (hc : AtLinks c links) (hp : Skips p) :
    ∃ before, p c = p ⟨before, Link.tail links⟩ := by
  obtain ⟨gap, hgap, hrest⟩ := hc
  obtain ⟨before, hskip⟩ := skipFrom_gap hgap c.previous (Link.tail links)
  refine ⟨before, ?_⟩
  rw [← hp c, ← hp ⟨before, Link.tail links⟩, Cursor.skip, hrest, hskip]
  rfl

theorem AtLinks.skip_nil (hc : AtLinks c []) : c.skip.rest = [] := by
  obtain ⟨gap, hgap, hrest⟩ := hc
  obtain ⟨before, hskip⟩ := skipFrom_gap hgap c.previous []
  rw [Cursor.skip, hrest, Link.tail, hskip]
  rfl

/-- An operator is read on its own level and refused on all others. -/
theorem levelOperator_before (hlevel : operatorLevels[k]? = some level) {op : Operator}
    (hop : op ∈ Operator.all) (previous : Option Char) (text : List Char) :
    levelOperator level ⟨previous, op.before text⟩ =
      if op.level = k then some (op, ⟨op.word.chars.getLast?, ' ' :: text⟩) else none := by
  cases op with
  | other name => simp [Operator.all] at hop
  | _ => rcases k with _ | _ | _ | _ | _ | k <;> cases hlevel <;> rfl

theorem AtLinks.levelOperator_nil (hc : AtLinks c []) (hlevel : operatorLevels[k]? = some level) :
    levelOperator level c = none := by
  refine levelOperator_eq_none (List.mem_of_getElem? hlevel) fun x hx => ?_
  rw [hc.skip_nil] at hx
  cases hx

/-- In front of operators, a level reads the first of them if it knows it. -/
theorem AtLinks.levelOperator_cons {link : Link} {rest : List Link} (hc : AtLinks c (link :: rest))
    (hlevel : operatorLevels[k]? = some level) (hop : link.op ∈ Operator.all) :
    levelOperator level c =
      if link.op.level = k then
        some (link.op, ⟨link.op.word.chars.getLast?, ' ' :: (link.text.toList ++ Link.tail rest)⟩)
      else none := by
  obtain ⟨before, hbefore⟩ := hc.passes (levelOperator_skips level)
  rw [hbefore, Link.tail, levelOperator_before hlevel hop]

end Places

/-! ## Reading rows -/

/-- Behind a row, what has been read is a tree of operators that are tighter than a level, and the
first operator that is left is none of these. -/
inductive ReadsRow (k : Nat) (row : List (Term ⊕ Operator)) (links : List Link) :
    Option (Term × Cursor) → Prop
  | intro (tree : OperatorTree) (before after : List Link) (c : Cursor) (hgrouped : tree.Grouped)
      (hroot : ∀ op ∈ tree.root?, op.level < k) (hlinks : links = before ++ after)
      (hrow : tree.row = row ++ Link.row before) (hafter : ∀ link ∈ after.head?, k ≤ link.op.level)
      (hc : AtLinks c after) : ReadsRow k row links (some (tree.toTerm, c))

/-- A reader of expressions reads rows up to a level, in texts up to a length. -/
def ReadsRows (size k : Nat) (p : Parser Term) : Prop :=
  ∀ (text : String) (t : Term) (links : List Link) (previous : Option Char), IsOperand text t →
    (∀ link ∈ links, link.Fits) → (text.toList ++ Link.tail links).length ≤ size →
    previous.any isKeywordChar = false →
    ReadsRow k [.inl t] links (p ⟨previous, text.toList ++ Link.tail links⟩)

section Rows

variable {size k bound : Nat} {row : List (Term ⊕ Operator)} {before links : List Link}
  {reading : Option (Term × Cursor)} {p : Parser Term} {level : List OperatorSign}

theorem ReadsRow.prepend (h : ReadsRow k (row ++ Link.row before) links reading) :
    ReadsRow k row (before ++ links) reading := by
  cases h with
  | intro tree more after c hgrouped hroot hlinks hrow hafter hc =>
      refine .intro tree (before ++ more) after c hgrouped hroot ?_ ?_ hafter hc
      · rw [hlinks, List.append_assoc]
      · rw [hrow, List.append_assoc, ← Link.row_append]

/-- An application is an operand, and takes none of the operators. -/
theorem readsRows_application (size : Nat) :
    ReadsRows size 0 (application (size + 1) (term size)) := by
  intro text t links previous htext hlinks hsize hprevious
  have hlength : text.toList.length ≤ size := by
    rw [List.length_append] at hsize
    omega
  obtain ⟨gap, d, hread, hrest, hgap⟩ :=
    htext.before (c := ⟨previous, text.toList ++ Link.tail links⟩) (Link.operandEnd_tail hlinks) rfl
      hprevious (Nat.lt_succ_of_le hlength) hlength
  rw [hread]
  exact .intro (.leaf t) [] links d (.leaf t) (fun _ h => by cases h) rfl rfl
    (fun _ _ => Nat.zero_le _) ⟨gap, hgap, hrest⟩

/-- Where no operator of a level is left, a row ends. -/
theorem readsRow_of_none {lhs : OperatorTree} {c : Cursor} (hgrouped : lhs.Grouped)
    (hroot : ∀ op ∈ lhs.root?, op.level < k) (hafter : ∀ link ∈ links.head?, k ≤ link.op.level)
    (hc : AtLinks c links) (hnone : levelOperator level c = none) :
    ReadsRow k lhs.row links (operatorRow p (levelOperator level) bound lhs.toTerm c) := by
  rw [operatorRow_of_none hnone]
  exact .intro lhs [] links c hgrouped hroot rfl (List.append_nil _).symm hafter hc

/-- Behind an operator and a blank, an operand and the tighter operators behind it are read. -/
theorem ReadsRows.behind_operator (hp : ReadsRows size k p) (hskips : Skips p) {link : Link}
    (hlink : link.Fits) (hlinks : ∀ link ∈ links, link.Fits)
    (hsize : (Link.tail (link :: links)).length ≤ size) :
    ReadsRow k [.inl link.operand] links
      (p ⟨link.op.word.chars.getLast?, ' ' :: (link.text.toList ++ Link.tail links)⟩) := by
  rw [hskips.blank]
  refine hp _ _ _ _ hlink.isOperand hlinks ?_ (by decide)
  simp only [Link.tail, Operator.before, List.length_cons, List.length_append] at hsize ⊢
  omega

/-- A row of operators of one level goes on where the reader of its operands stops. -/
theorem readsRow_operatorRow (hlevel : operatorLevels[k]? = some level) (hp : ReadsRows size k p)
    (hskips : Skips p) {lhs : OperatorTree} {c : Cursor} (hlinks : ∀ link ∈ links, link.Fits)
    (hsize : (Link.tail links).length ≤ size) (hbound : links.length ≤ bound)
    (hgrouped : lhs.Grouped) (hroot : ∀ op ∈ lhs.root?, op.level < k + 1)
    (hhead : ∀ link ∈ links.head?, k ≤ link.op.level) (hc : AtLinks c links) :
    ReadsRow (k + 1) lhs.row links (operatorRow p (levelOperator level) bound lhs.toTerm c) := by
  induction bound generalizing lhs c links with
  | zero =>
      obtain rfl := List.length_eq_zero_iff.1 (Nat.le_zero.1 hbound)
      have hnone := hc.levelOperator_nil hlevel
      exact readsRow_of_none hgrouped hroot (fun _ h => by cases h) hc hnone
  | succ bound ih =>
      cases links with
      | nil =>
          have hnone := hc.levelOperator_nil hlevel
          exact readsRow_of_none hgrouped hroot (fun _ h => by cases h) hc hnone
      | cons link rest =>
          obtain ⟨hlink, hrest⟩ := List.forall_mem_cons.1 hlinks
          have hop := hc.levelOperator_cons hlevel hlink.known
          by_cases heq : link.op.level = k
          · rw [if_pos heq] at hop
            have hoperand := hp.behind_operator hskips hlink hrest hsize
            generalize hr : p _ = reading at hoperand
            cases hoperand with
            | intro rhs before after d hrhs hroot' hsplit hrow hafter hd =>
                subst hsplit
                -- What has been read so far is the left side of the operator, and may go on.
                have hnode : (OperatorTree.node link.op lhs rhs).Grouped := by
                  refine .node hgrouped hrhs (fun op h => ?_) fun op h => ?_
                  · exact heq ▸ Nat.le_of_lt_succ (hroot op h)
                  · exact heq ▸ hroot' op h
                have hbelow : ∀ op ∈ (OperatorTree.node link.op lhs rhs).root?,
                    op.level < k + 1 := by
                  rintro op ⟨⟩
                  exact heq ▸ Nat.lt_succ_self _
                have hleft := Nat.le_trans (Link.length_tail_append (link :: before) after) hsize
                have hshort : after.length ≤ bound := by
                  rw [List.length_cons, List.length_append] at hbound
                  omega
                have hmore := ih (fun link h => hrest link (List.mem_append_right _ h)) hleft hshort
                  hnode hbelow hafter hd
                rw [OperatorTree.row, hrow] at hmore
                have hall : ReadsRow (k + 1) (lhs.row ++ Link.row (link :: before)) after _ := hmore
                rw [operatorRow]
                simp only [hop, hr]
                exact hall.prepend
          · rw [if_neg heq] at hop
            have hle : k ≤ link.op.level := hhead link rfl
            refine readsRow_of_none hgrouped hroot (fun other h => ?_) hc hop
            cases h
            omega

/-- One level more is read with the operators of that level. -/
theorem ReadsRows.operatorLevel (hp : ReadsRows size k p) (hskips : Skips p)
    (hlevel : operatorLevels[k]? = some level) :
    ReadsRows size (k + 1) (operatorLevel (size + 1) p level) := by
  intro text t links previous htext hlinks hsize hprevious
  have hread := hp _ _ _ _ htext hlinks hsize hprevious
  generalize hr : p _ = reading at hread
  cases hread with
  | intro lhs before after d hgrouped hroot hsplit hrow hafter hd =>
      subst hsplit
      have hfits : ∀ link ∈ after, link.Fits := fun link h =>
        hlinks link (List.mem_append_right _ h)
      have hleft : (Link.tail after).length ≤ size := by
        have hle := Link.length_tail_append before after
        rw [List.length_append] at hsize
        omega
      have hbound : after.length ≤ size + 1 := by
        have hle := Link.length_le_length_tail after
        omega
      have hbelow : ∀ op ∈ lhs.root?, op.level < k + 1 := fun op h => Nat.lt_succ_of_lt (hroot op h)
      have hmore := readsRow_operatorRow hlevel hp hskips hfits hleft hbound hgrouped hbelow
        hafter hd
      rw [hrow] at hmore
      have hrun : Syntax.operatorLevel (size + 1) p level ⟨previous, _⟩ = _ := bind_of_some hr
      rw [hrun]
      exact hmore.prepend

/-- All levels from one on are read one upon the other. -/
theorem ReadsRows.levels {levels : List (List OperatorSign)} (hp : ReadsRows size k p)
    (hskips : Skips p) (hlevels : operatorLevels.drop k = levels) :
    ReadsRows size (k + levels.length) (levels.foldl (Syntax.operatorLevel (size + 1)) p) := by
  induction levels generalizing k p with
  | nil => exact hp
  | cons level rest ih =>
      have hlevel : operatorLevels[k]? = some level := by
        have hget : (operatorLevels.drop k)[0]? = operatorLevels[k + 0]? := List.getElem?_drop
        rw [hlevels] at hget
        exact hget.symm
      have hrest : operatorLevels.drop (k + 1) = rest := by
        rw [← List.drop_drop, hlevels]
        rfl
      have hmore := ih (hp.operatorLevel hskips hlevel) hskips.bind hrest
      rw [List.length_cons, Nat.add_comm rest.length, ← Nat.add_assoc]
      exact hmore

theorem readsRows_operatorTerm (size : Nat) :
    ReadsRows size operatorLevels.length (operatorTerm (size + 1) (term size)) := by
  have hlevels := (readsRows_application size).levels atom_skips.bind.bind rfl
  rw [List.drop_zero, Nat.zero_add] at hlevels
  exact hlevels

end Rows

/-! ## Whole expressions -/

theorem level_lt_of_mem_all {op : Operator} (h : op ∈ Operator.all) :
    op.level < operatorLevels.length := by
  have levels : ∀ op ∈ Operator.all, op.level < operatorLevels.length := by decide
  exact levels op h

/-- At the end of a text, an expression of operators is all of the expression. -/
theorem term_of_operatorTerm {size : Nat} {c d : Cursor} {t operand : Term} {mid : Cursor}
    (happlication : application (size + 1) (term size) c = some (operand, mid))
    (h : operatorTerm (size + 1) (term size) c = some (t, d)) (hd : d.skip.rest = []) :
    term (size + 1) c = some (t, d) := by
  have hsimple : simpleTerm (size + 1) (term size) c = some (t, d) :=
    (simpleTerm_of_application happlication).trans h
  have hsemicolon : (do symbol ";"; simpleTerm (size + 1) (term size) : Parser Term) d = none := by
    refine (symbol_opens (by decide)).bind d fun x hx => ?_
    rw [hd] at hx
    cases hx
  exact (bind_of_some hsimple).trans ((bind_of_some (many_of_none hsemicolon _)).trans rfl)

/-- A text of operands and operators is read as a tree with their row. -/
theorem exists_tree {first : String} {t : Term} {links : List Link} (hfirst : IsOperand first t)
    (hlinks : ∀ link ∈ links, link.Fits) :
    ∃ tree : OperatorTree, expressionOf (first.toList ++ Link.tail links) = .ok tree.toTerm ∧
      tree.Grouped ∧ tree.row = .inl t :: Link.row links := by
  let text := first.toList ++ Link.tail links
  have happlication := readsRows_application text.length first t links none hfirst hlinks
    (Nat.le_refl _) rfl
  generalize hoperand : application _ _ _ = operand at happlication
  have hread := readsRows_operatorTerm text.length first t links none hfirst hlinks
    (Nat.le_refl _) rfl
  generalize hr : operatorTerm _ _ _ = reading at hread
  cases happlication with
  | intro =>
  cases hread with
  | intro tree before after d hgrouped hroot hsplit hrow hafter hd =>
      cases after with
      | cons link rest =>
          have hmem : link ∈ links := hsplit ▸ List.mem_append_right _ List.mem_cons_self
          have hlink := hlinks link hmem
          exact absurd (hafter link rfl) (Nat.not_le.2 (level_lt_of_mem_all hlink.known))
      | nil =>
          obtain rfl : links = before := hsplit.trans (List.append_nil _)
          have hterm := term_of_operatorTerm hoperand hr hd.skip_nil
          have hstart : term (boundFor text) (.start text) = some (tree.toTerm, d) := hterm
          refine ⟨tree, ?_, hgrouped, hrow⟩
          unfold expressionOf
          rw [hstart]
          simp only [atEnd, hd.skip_nil, List.isEmpty_nil, if_true]

/-- Operands and operators, joined by single blanks, are read as the one tree with these leaves and
operators that is grouped by the levels. -/
theorem parseExpression_groups {first : String} {t : Term} {links : List Link}
    (hfirst : IsOperand first t) (hlinks : ∀ link ∈ links, link.Fits) :
    ∃ tree : OperatorTree,
      parseExpression (" ".intercalate (first :: links.flatMap Link.words)) = .ok tree.toTerm ∧
        tree.Grouped ∧ tree.row = .inl t :: Link.row links ∧
          ∀ other : OperatorTree, other.Grouped → other.row = .inl t :: Link.row links →
            other = tree := by
  obtain ⟨tree, hread, hgrouped, hrow⟩ := exists_tree hfirst hlinks
  have htab : '\t' ∉ first.toList ++ Link.tail links :=
    fun h => (List.mem_append.1 h).elim hfirst.untabbed (Link.tab_not_mem_tail hlinks)
  refine ⟨tree, ?_, hgrouped, hrow, fun other h ho => h.eq_of_row_eq hgrouped (ho.trans hrow.symm)⟩
  rw [parseExpression, Link.toList_intercalate_words, Text.expandTabs,
    Text.expandTabsFrom_of_not_mem htab, hread]

/-- Operators of all levels, with operands of several kinds. -/
theorem parseExpression_groups_levels :
    let links : List Link :=
      [⟨.sub, "f x", .apply (.identifier "f") [.identifier "x"]⟩,
        ⟨.sub, "(b)", .identifier "b"⟩,
        ⟨.mul, "p.n", .field (.identifier "p") "n"⟩, ⟨.lessEq, "2", .integer 2⟩,
        ⟨.or, "true", .boolean true⟩, ⟨.and, "On", .constructor "On"⟩]
    let tree : OperatorTree :=
      .node .or
        (.node .lessEq
          (.node .sub
            (.node .sub (.leaf (.identifier "a"))
              (.leaf (.apply (.identifier "f") [.identifier "x"])))
            (.node .mul (.leaf (.identifier "b")) (.leaf (.field (.identifier "p") "n"))))
          (.leaf (.integer 2)))
        (.node .and (.leaf (.boolean true)) (.leaf (.constructor "On")))
    IsOperand "a" (.identifier "a") ∧ (∀ link ∈ links, link.Fits) ∧ tree.Grouped ∧
      parseExpression "a - f x - (b) * p.n <= 2 or true and On" = .ok tree.toTerm := by
  intro links tree
  have operand {text : String} {t : Term} (htab : '\t' ∉ text.toList) (hhash : '#' ∉ text.toList)
      (hread : parseElement (fun bound => application bound (term bound)) true text = some t) :
      IsOperand text t := ⟨htab, not_endsInComment_of_not_mem hhash, hread⟩
  have hfirst : IsOperand "a" (.identifier "a") := operand (by decide) (by decide) rfl
  have hlinks : ∀ link ∈ links, link.Fits := by
    simp only [links, List.forall_mem_cons, List.not_mem_nil, false_imp_iff, implies_true, and_true]
    refine ⟨⟨by decide, ?_⟩, ⟨by decide, ?_⟩, ⟨by decide, ?_⟩, ⟨by decide, ?_⟩, ⟨by decide, ?_⟩,
      by decide, ?_⟩ <;> exact operand (by decide) (by decide) rfl
  have hgrouped : tree.Grouped := by decide
  have htext : "a - f x - (b) * p.n <= 2 or true and On" =
      " ".intercalate ("a" :: links.flatMap Link.words) := by decide
  obtain ⟨read, hread, -, -, honly⟩ := parseExpression_groups hfirst hlinks
  rw [← honly tree hgrouped rfl, ← htext] at hread
  exact ⟨hfirst, hlinks, hgrouped, hread⟩

end Fern
