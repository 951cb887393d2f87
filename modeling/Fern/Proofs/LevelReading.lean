import Fern.Proofs.FirstCharacters

/-!
# Levels of the grammar

An expression that nothing can split is read on every level of the grammar, as
long as the word behind it is none that the level would go on with. What is
joined by selectors, arguments, an operator or a semicolon is read on the level
for these, from parts that are read one level below.
-/

namespace Fern

open Syntax Fern.Parser

/-! ## Words at the borders of expressions -/

/-- A word that begins an expression that nothing can split. -/
def Word.startsAtom : Word → Bool
  | .sign text => text ∈ ["(", "\x7b"]
  | .keyword text => text ∈ ["true", "false"]
  | .name _ | .constructor _ | .number _ | .literal _ => true
  | .field _ | .item _ => false

/-- A word that begins an expression. -/
def Word.startsTerm (w : Word) : Bool :=
  w.startsAtom || w ∈ [.keyword "let", .keyword "if", .keyword "match", .sign "\\"]

/-- The words that stand behind expressions. -/
def termEnds : List Word :=
  [.sign ")", .sign ",", .sign "\x7d", .sign "|", .sign ".",
    .keyword "in", .keyword "then", .keyword "else", .keyword "with"]

/-- The words that stand behind expressions without semicolons. -/
def simpleEnds : List Word := .sign ";" :: termEnds

/-- The words that stand behind applications. -/
def applicationEnds : List Word := Operator.all.map Operator.word ++ simpleEnds

/-- A row of words goes on with one of some words. -/
def Follow (ends ws : List Word) : Prop := Begins (· ∈ ends) ws

theorem Follow.cons {ends ws : List Word} {w : Word} (h : w ∈ ends) : Follow ends (w :: ws) :=
  Begins.cons (decide_eq_true h)

theorem Follow.mono {ends more ws : List Word} (h : Follow ends ws) (hs : ends ⊆ more) :
    Follow more ws :=
  Begins.mono h fun _ hw => decide_eq_true (hs (of_decide_eq_true hw))

theorem Follow.begins {ends ws : List Word} {test : Word → Bool} (h : Follow ends ws)
    (hends : ∀ w ∈ ends, test w = true) : Begins test ws :=
  Begins.mono h fun w hw => hends w (of_decide_eq_true hw)

theorem startsTerm_of_startsAtom {w : Word} (h : w.startsAtom) : w.startsTerm := by
  rw [Word.startsTerm, h, Bool.true_or]

theorem not_touches_of_startsAtom {w : Word} (h : w.startsAtom) : !w.touches := by
  cases w with
  | field | item => cases h
  | _ => rfl

variable {style : Style} {bound : Nat} {inner : Parser Term} {t : Term} {ws rest : List Word}

/-! ## Refusals -/

theorem atom_refuses (h : Follow applicationEnds ws) : Refuses (atom bound inner) ws := by
  obtain ⟨w, ws, rfl, hw⟩ := h
  have hends : ∀ w ∈ applicationEnds, w.lacksSign "(" = true ∧ w.lacksSign "\x7b" = true ∧
      w.lacksKeyword "true" = true ∧ w.lacksKeyword "false" = true ∧
      w.kind ∉ [.literal, .number, .constructor, .name, .selector] := by decide
  obtain ⟨hopen, hbrace, htrue, hfalse, hkind⟩ := hends w (of_decide_eq_true hw)
  have kind {kinds : List Word.Kind}
      (hs : kinds ⊆ [.literal, .number, .constructor, .name, .selector]) : w.kind ∉ kinds :=
    fun hm => hkind (hs hm)
  refine Refuses.firstOf ?_
  simp only [List.forall_mem_cons, List.not_mem_nil, false_imp_iff, implies_true, and_true]
  refine ⟨?_, ?_, ?_, ?_, ?_, ?_, ?_, ?_, ?_⟩
  · exact (symbol_refuses (by decide) hopen).bind
  · exact (symbol_refuses (by decide) hopen).bind
  · exact (symbol_refuses (by decide) hbrace).bind
  · exact (literal_refuses (kind (by decide))).bind
  · exact (number_refuses (kind (by decide))).bind
  · exact (keyword_refuses (by decide) htrue).bind
  · exact (keyword_refuses (by decide) hfalse).bind
  · exact (constructorName_refuses (kind (by decide))).bind
  · exact (name_refuses (kind (by decide))).bind

/-! ## Selectors and arguments -/

theorem selection_refuses (h : Follow applicationEnds ws) : Refuses (selection bound inner) ws :=
  (atom_refuses h).bind

/-- The word for a selector. -/
def selectorWord : String ⊕ Nat → Word
  | .inl name => .field name
  | .inr index => .item index

theorem selector_reads (selection : String ⊕ Nat) :
    Reads selector selection (selectorWord selection :: ws) ws := by
  cases selection with
  | inl name => exact selector_reads_field
  | inr index => exact selector_reads_item

theorem selection_reads {selectors : List (String ⊕ Nat)}
    (h : Reads (atom bound inner) t ws (selectors.map selectorWord ++ rest))
    (hrest : Begins (fun w => !w.touches) rest) (hbound : selectors.length ≤ bound) :
    Reads (selection bound inner) (selectors.foldl select t) ws rest := by
  have hitems : ∀ item ∈ selectors, ∀ after, True →
      Reads selector item ([selectorWord item] ++ after) after :=
    fun item _ _ _ => selector_reads item
  have hrefuses : Refuses selector rest := by
    obtain ⟨w, rest, rfl, hw⟩ := hrest
    refine selector_refuses fun v hv => ?_
    cases hv
    simpa using hw
  rw [List.map_eq_flatMap] at h
  exact h.bind ((Reads.many hitems (fun _ _ _ => trivial) trivial hrefuses hbound).bind (.pure _ _))

/-- An atom is a selection if no selector follows. -/
theorem selection_reads_atom (h : Reads (atom bound inner) t ws rest)
    (hrest : Begins (fun w => !w.touches) rest) : Reads (selection bound inner) t ws rest := by
  have hnone : Reads (atom bound inner) t ws
      (([] : List (String ⊕ Nat)).map selectorWord ++ rest) := h
  exact selection_reads hnone hrest (Nat.zero_le _)

theorem application_reads {args : List Term} {write : Term → List Word}
    (h : Reads (selection bound inner) t ws (args.flatMap write ++ rest))
    (hargs : ∀ arg ∈ args, ∀ after, Reads (atom bound inner) arg (write arg ++ after) after)
    (hstart : ∀ arg ∈ args, Begins Word.startsAtom (write arg))
    (hrest : Follow applicationEnds rest) (hbound : args.length ≤ bound) :
    Reads (application bound inner) (juxtaposed t args) ws rest := by
  have hitems : ∀ arg ∈ args, ∀ after, Begins (fun w => !w.touches) after →
      Reads (selection bound inner) arg (write arg ++ after) after :=
    fun arg hm after hafter => selection_reads_atom (hargs arg hm after) hafter
  have hfollow : ∀ arg ∈ args, ∀ after, Begins (fun w => !w.touches) (write arg ++ after) :=
    fun arg hm _ => ((hstart arg hm).mono fun _ => not_touches_of_startsAtom).append
  have hbehind : Begins (fun w => !w.touches) rest := hrest.begins (by decide)
  exact h.bind ((Reads.many hitems hfollow hbehind (selection_refuses hrest) hbound).bind
    (.pure _ _))

/-- A selection is an application if no argument follows. -/
theorem application_reads_selection (h : Reads (selection bound inner) t ws rest)
    (hrest : Follow applicationEnds rest) : Reads (application bound inner) t ws rest :=
  h.bind ((Reads.many_nil (selection_refuses hrest)).bind (.pure _ _))

theorem application_reads_atom (h : Reads (atom bound inner) t ws rest)
    (hrest : Follow applicationEnds rest) : Reads (application bound inner) t ws rest := by
  have hbehind : Begins (fun w => !w.touches) rest := hrest.begins (by decide)
  exact application_reads_selection (selection_reads_atom h hbehind) hrest

/-! ## Operators -/

/-- A sign of an operator does not stand where a word does. -/
def Syntax.OperatorSign.lacks (sign : OperatorSign) (w : Word) : Bool :=
  if sign.isWord then w.lacksKeyword sign.sign else w.lacksSign sign.sign

/-- The words of the grammar for operators are those of expressions. -/
theorem operatorSign_known : ∀ level ∈ operatorLevels, ∀ sign ∈ level,
    if sign.isWord then sign.sign ∈ keywords ∧ sign.op.word = .keyword sign.sign
    else sign.sign ∈ signs ∧ sign.op.word = .sign sign.sign := by
  decide

section Levels

variable {level : List OperatorSign} {sign : OperatorSign} {w : Word} {op : Operator}
  {operand : Parser Term} {lhs rhs : Term} {middle right : List Word}

theorem operatorSign_reads (hlevel : level ∈ operatorLevels) (hsign : sign ∈ level) :
    Reads sign.read sign.op (sign.op.word :: ws) ws := by
  have hk := operatorSign_known level hlevel sign hsign
  unfold OperatorSign.read
  split at hk
  · next hw =>
    rw [if_pos hw, hk.2]
    exact (keyword_reads hk.1).bind (.pure _ _)
  · next hw =>
    rw [if_neg hw, hk.2]
    exact (symbol_reads hk.1).bind (.pure _ _)

theorem operatorSign_refuses (hlevel : level ∈ operatorLevels) (hsign : sign ∈ level)
    (hw : sign.lacks w) : Refuses sign.read (w :: ws) := by
  have hk := operatorSign_known level hlevel sign hsign
  unfold OperatorSign.read
  unfold OperatorSign.lacks at hw
  split at hk
  · next h =>
    rw [if_pos h] at hw ⊢
    exact (keyword_refuses hk.1 hw).bind
  · next h =>
    rw [if_neg h] at hw ⊢
    exact (symbol_refuses hk.1 hw).bind

theorem levelOperator_refuses (hlevel : level ∈ operatorLevels)
    (hw : ∀ sign ∈ level, sign.lacks w) : Refuses (levelOperator level) (w :: ws) := by
  refine Refuses.firstOf fun p hp => ?_
  obtain ⟨sign, hsign, rfl⟩ := List.mem_map.1 hp
  exact operatorSign_refuses hlevel hsign (hw sign hsign)

/-- The first sign of a level that stands at a word is read there. -/
theorem levelOperator_reads (hlevel : level ∈ operatorLevels)
    (hfind : level.find? (fun sign => !sign.lacks op.word) = some sign) (hop : sign.op = op) :
    Reads (levelOperator level) op (op.word :: ws) ws := by
  have hsign := List.mem_of_find?_eq_some hfind
  obtain ⟨-, before, others, hsplit, hbefore⟩ := List.find?_eq_some_iff_append.1 hfind
  have hread : Reads sign.read op (op.word :: ws) ws := by
    have h : Reads sign.read sign.op (sign.op.word :: ws) ws := operatorSign_reads hlevel hsign
    rw [hop] at h
    exact h
  rw [levelOperator]
  rw [hsplit] at hlevel ⊢
  rw [List.map_append, List.map_cons]
  refine Reads.firstOf (fun p hp => ?_) hread
  obtain ⟨earlier, hm, rfl⟩ := List.mem_map.1 hp
  have hlacks : earlier.lacks op.word = true := by simpa using hbefore earlier hm
  exact operatorSign_refuses hlevel (List.mem_append_left _ hm) hlacks

theorem operatorRow_stops {operator : Parser Operator} (h : Refuses operator rest) :
    Reads (operatorRow operand operator bound lhs) lhs rest rest :=
  fun cursor hat => ⟨cursor, operatorRow_of_none (h cursor hat) bound lhs, hat⟩

theorem operatorRow_reads {operator : Parser Operator} (hop : Reads operator op middle right)
    (hrhs : Reads operand rhs right rest) (hrest : Refuses operator rest) :
    Reads (operatorRow operand operator (bound + 1) lhs) (.binary op lhs rhs) middle rest := by
  intro cursor hat
  obtain ⟨second, hs, hright⟩ := hop cursor hat
  obtain ⟨third, ht, hbehind⟩ := hrhs second hright
  have hstops : Reads (operatorRow operand operator bound (.binary op lhs rhs))
      (.binary op lhs rhs) rest rest := operatorRow_stops hrest
  obtain ⟨last, hl, hlast⟩ := hstops third hbehind
  exact ⟨last, by simp only [operatorRow, hs, ht, hl], hlast⟩

/-- Levels of operators none of which stands behind an expression pass it on. -/
theorem levels_read {levels : List (List OperatorSign)} (h : Reads operand t ws rest)
    (hrest : ∀ level ∈ levels, Refuses (levelOperator level) rest) :
    Reads (levels.foldl (operatorLevel bound) operand) t ws rest := by
  induction levels generalizing operand with
  | nil => exact h
  | cons level levels ih =>
      obtain ⟨hlevel, hlevels⟩ := List.forall_mem_cons.1 hrest
      exact ih (h.bind (operatorRow_stops hlevel)) hlevels

theorem levelOperator_refuses_of_follow (hlevel : level ∈ operatorLevels)
    (h : Follow simpleEnds rest) : Refuses (levelOperator level) rest := by
  obtain ⟨w, rest, rfl, hw⟩ := h
  have hends : ∀ level ∈ operatorLevels, ∀ w ∈ simpleEnds, ∀ sign ∈ level, sign.lacks w = true := by
    decide
  exact levelOperator_refuses hlevel (hends level hlevel w (of_decide_eq_true hw))

theorem operatorTerm_reads (h : Reads (application bound inner) t ws rest)
    (hrest : Follow simpleEnds rest) : Reads (operatorTerm bound inner) t ws rest :=
  levels_read h fun _ hlevel => levelOperator_refuses_of_follow hlevel hrest

/-- Every operator is read on one level, and is none of the operators of the
tighter ones. -/
theorem exists_level : ∀ op ∈ Operator.all, ∃ i ∈ List.range operatorLevels.length,
    (∀ level ∈ operatorLevels.take i, ∀ sign ∈ level, sign.lacks op.word = true) ∧
      ∃ level ∈ (operatorLevels.drop i).head?,
        (level.find? fun sign => !sign.lacks op.word).map (·.op) = some op := by
  decide

theorem operatorTerm_reads_binary (hop : op ∈ Operator.all)
    (hlhs : Reads (application (bound + 1) inner) lhs ws (op.word :: middle))
    (hrhs : Reads (application (bound + 1) inner) rhs middle rest)
    (hrest : Follow simpleEnds rest) :
    Reads (operatorTerm (bound + 1) inner) (.binary op lhs rhs) ws rest := by
  obtain ⟨i, -, hbefore, level, hlevel, hfind⟩ := exists_level op hop
  obtain ⟨after, hdrop⟩ := List.head?_eq_some_iff.1 hlevel
  obtain ⟨sign, hsign, hsop⟩ := Option.map_eq_some_iff.1 hfind
  have hsplit : operatorLevels = operatorLevels.take i ++ level :: after := by
    rw [← hdrop, List.take_append_drop]
  have hmem : level ∈ operatorLevels := List.mem_of_mem_drop (hdrop ▸ List.mem_cons_self)
  have stops {other : List OperatorSign} (hm : other ∈ operatorLevels) :
      Refuses (levelOperator other) rest := levelOperator_refuses_of_follow hm hrest
  -- The tighter levels read the operands, and the looser ones pass on the whole.
  let operand := (operatorLevels.take i).foldl (operatorLevel (bound + 1))
    (application (bound + 1) inner)
  have hleft : Reads operand lhs ws (op.word :: middle) := levels_read hlhs fun other hm =>
    levelOperator_refuses (List.mem_of_mem_take hm) (hbefore other hm)
  have hright : Reads operand rhs middle rest := levels_read hrhs fun other hm =>
    stops (List.mem_of_mem_take hm)
  have hrow : Reads (operatorLevel (bound + 1) operand level) (.binary op lhs rhs) ws rest :=
    hleft.bind (operatorRow_reads (levelOperator_reads hmem hsign hsop) hright (stops hmem))
  rw [operatorTerm, hsplit, List.foldl_append, List.foldl_cons]
  exact levels_read hrow fun other hm =>
    stops (List.mem_of_mem_drop (hdrop ▸ List.mem_cons_of_mem _ hm))

end Levels

/-! ## Expressions without semicolons and with them -/

/-- An expression that does not begin like one of the forms with a keyword or a
backslash is one of operators. -/
theorem simpleTerm_reads_operatorTerm (h : Reads (operatorTerm bound inner) t ws rest)
    (hstart : Begins Word.startsAtom ws) : Reads (simpleTerm bound inner) t ws rest := by
  obtain ⟨w, others, rfl, hw⟩ := hstart
  have hforms : w.lacksKeyword "let" = true ∧ w.lacksKeyword "if" = true ∧
      w.lacksKeyword "match" = true ∧ w.lacksSign "\\" = true := by
    cases w with
    | sign text =>
        have hs : ∀ text ∈ ["(", "\x7b"], (Word.sign text).lacksSign "\\" = true := by decide
        exact ⟨rfl, rfl, rfl, hs text (of_decide_eq_true hw)⟩
    | keyword text =>
        have hk : ∀ text ∈ ["true", "false"], (text != "let") = true ∧ (text != "if") = true ∧
            (text != "match") = true := by decide
        obtain ⟨hl, hi, hm⟩ := hk text (of_decide_eq_true hw)
        exact ⟨hl, hi, hm, rfl⟩
    | field | item => cases hw
    | _ => exact ⟨rfl, rfl, rfl, rfl⟩
  obtain ⟨hlet, hif, hmatch, hlambda⟩ := hforms
  refine Reads.orElse_right (keyword_refuses (by decide) hlet).bind ?_
  refine Reads.orElse_right (keyword_refuses (by decide) hif).bind ?_
  refine Reads.orElse_right (keyword_refuses (by decide) hmatch).bind ?_
  refine Reads.orElse_right (symbol_refuses (by decide) hlambda).bind ?_
  exact h.orElse_left

theorem simpleTerm_reads_atom (h : Reads (atom bound inner) t ws rest)
    (hstart : Begins Word.startsAtom ws) (hrest : Follow simpleEnds rest) :
    Reads (simpleTerm bound inner) t ws rest := by
  have hends : Follow applicationEnds rest := hrest.mono (List.subset_append_right _ _)
  exact simpleTerm_reads_operatorTerm
    (operatorTerm_reads (application_reads_atom h hends) hrest) hstart

theorem semicolon_refuses (h : Follow termEnds rest) : Refuses (symbol ";") rest :=
  symbol_refuses_of_begins (by decide) (h.begins (by decide))

theorem termLayer_reads_simpleTerm (h : Reads (simpleTerm bound inner) t ws rest)
    (hrest : Follow termEnds rest) : Reads (termLayer bound inner) t ws rest :=
  h.bind ((Reads.many_nil (semicolon_refuses hrest).bind).bind (.pure _ _))

/-- An application that stands alone is read on every level above it. -/
theorem termLayer_reads_application (h : Reads (application bound inner) t ws rest)
    (hstart : Begins Word.startsAtom ws) (hrest : Follow termEnds rest) :
    Reads (termLayer bound inner) t ws rest := by
  have hends : Follow simpleEnds rest := hrest.mono (List.subset_cons_self _ _)
  exact termLayer_reads_simpleTerm
    (simpleTerm_reads_operatorTerm (operatorTerm_reads h hends) hstart) hrest

/-- A selection from an atom is read on every level above it. -/
theorem termLayer_reads_select (selection : String ⊕ Nat)
    (h : Reads (atom (bound + 1) inner) t (ws ++ selectorWord selection :: rest)
      (selectorWord selection :: rest))
    (hstart : Begins Word.startsAtom ws) (hrest : Follow termEnds rest) :
    Reads (termLayer (bound + 1) inner) (select t selection)
      (ws ++ selectorWord selection :: rest) rest := by
  have hends : Follow applicationEnds rest := hrest.mono (by decide)
  have hselectors : Reads (atom (bound + 1) inner) t (ws ++ selectorWord selection :: rest)
      ([selection].map selectorWord ++ rest) := h
  have hread := selection_reads hselectors (hrest.begins (by decide)) (by simp)
  exact termLayer_reads_application (application_reads_selection hread hends) hstart.append hrest

theorem termLayer_reads_sequence {next : Term} {middle : List Word}
    (h : Reads (simpleTerm (bound + 1) inner) t ws (.sign ";" :: middle))
    (hnext : Reads (simpleTerm (bound + 1) inner) next middle rest)
    (hrest : Follow termEnds rest) :
    Reads (termLayer (bound + 1) inner) (.sequence t next) ws rest := by
  have hothers : Reads (do symbol ";"; simpleTerm (bound + 1) inner) next
      (.sign ";" :: middle) rest := (symbol_reads (by decide)).bind hnext
  exact h.bind ((hothers.many_single (semicolon_refuses hrest).bind).bind (.pure _ _))

end Fern
