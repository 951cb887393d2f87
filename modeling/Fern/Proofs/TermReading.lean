import Fern.Proofs.WrittenTerms

/-!
# Reading expressions

The words of an expression are read as that expression. Every part of a compound
expression stands as an atom, so that only one level of the grammar has anything
to do at a time; the levels above it pass the expression on, as the word behind
it is none of theirs.

The induction is on the bound of the grammar and not on the expression: a layer
reads the expressions that have at most as many words as its bound, if the layers
below it do.
-/

namespace Fern

open Syntax Fern.Parser

variable {style : Style} {bound n : Nat} {inner : Parser Term} {t : Term} {w : Word}
  {ws rest : List Word}

/-! ## Brackets -/

theorem Begins.joined {test : Word → Bool} {separator : Word} {rows : List (List Word)}
    (hne : rows ≠ []) (h : ∀ row ∈ rows, Begins test row) :
    Begins test (joined separator rows) := by
  obtain ⟨first, others, rfl⟩ := List.exists_cons_of_ne_nil hne
  exact (h first List.mem_cons_self).append

/-- Things with a sign between each two are read within a bound that is greater than
the number of their words. -/
theorem separated_reads {α : Type} {p : Parser α} {items : List α} {write : α → List Word}
    {sign : String} (ends : List Word) (hsign : sign ∈ signs) (hends : .sign sign ∈ ends)
    (hlen : (joined (.sign sign) (items.map write)).length < bound) (hne : items ≠ [])
    (hitems : ∀ item ∈ items, (write item).length ≤ (joined (.sign sign) (items.map write)).length →
      ∀ after, Follow ends after → Reads p item (write item ++ after) after)
    (hrest : Follow ends rest) (hlacks : Begins (·.lacksSign sign) rest) :
    Reads (separated p (symbol sign) bound) items
      (joined (.sign sign) (items.map write) ++ rest) rest := by
  have hread : ∀ item ∈ items, ∀ after, Follow ends after →
      Reads p item (write item ++ after) after :=
    fun item hm => hitems item hm (length_le_joined_of_mem (List.mem_map_of_mem hm))
  have hcount := length_le_joined (.sign sign) (items.map write)
  rw [List.length_map] at hcount
  exact .separated (fun _ => symbol_reads hsign) hread (fun _ => .cons hends) hrest
    (symbol_refuses_of_begins hsign hlacks) hne (Nat.le_trans hcount hlen)

theorem lacksSign_of_startsTerm (h : w.startsTerm) : w.lacksSign ")" := by
  cases w with
  | sign text =>
      rcases Bool.or_eq_true_iff.1 h with h | h
      · have hs : ∀ text ∈ ["(", "\x7b"], (Word.sign text).lacksSign ")" = true := by decide
        exact hs text (of_decide_eq_true h)
      · have hs : ∀ w ∈ [Word.keyword "let", .keyword "if", .keyword "match", .sign "\\"],
            w.lacksSign ")" = true := by decide
        exact hs _ (of_decide_eq_true h)
  | field | item => simp [Word.startsTerm, Word.startsAtom] at h
  | _ => rfl

theorem atom_reads_parenthesized {items : List Term}
    (h : Reads (separated inner (symbol ",") bound) items ws (.sign ")" :: rest))
    (hstart : Begins Word.startsTerm ws) :
    Reads (atom bound inner) (parenthesized items) (.sign "(" :: ws) rest := by
  have hclose : Refuses (symbol ")") ws :=
    symbol_refuses_of_begins (by decide) (hstart.mono fun _ => lacksSign_of_startsTerm)
  have hunit : Refuses unitTerm (.sign "(" :: ws) :=
    .bind_of_reads (symbol_reads (by decide)) hclose.bind
  have htuple : Reads (tupleTerm bound inner) (parenthesized items) (.sign "(" :: ws) rest :=
    (symbol_reads (by decide)).bind (h.bind ((symbol_reads (by decide)).bind (.pure _ _)))
  exact .orElse_right hunit htuple.orElse_left

theorem atom_reads_unit : Reads (atom bound inner) .unit (.sign "(" :: .sign ")" :: rest) rest := by
  have hunit : Reads unitTerm .unit (.sign "(" :: .sign ")" :: rest) rest :=
    (symbol_reads (by decide)).bind ((symbol_reads (by decide)).bind (.pure _ _))
  exact hunit.orElse_left

theorem atom_reads_record {fields : List (String × Term)}
    (h : Reads (separated (fieldInit inner) (symbol ",") bound) fields ws (.sign "\x7d" :: rest)) :
    Reads (atom bound inner) (.record fields) (.sign "\x7b" :: ws) rest := by
  have hopen : Refuses (symbol "(") (.sign "\x7b" :: ws) := symbol_refuses (by decide) rfl
  have hrecord : Reads (recordTerm bound inner) (.record fields) (.sign "\x7b" :: ws) rest :=
    (symbol_reads (by decide)).bind (h.bind ((symbol_reads (by decide)).bind (.pure _ _)))
  exact .orElse_right hopen.bind (.orElse_right hopen.bind hrecord.orElse_left)

/-! ## Single words -/

theorem atom_reads_word (hopen : w.lacksSign "(") (hbrace : w.lacksSign "\x7b")
    (h : Reads (firstOf
      [ (do return .string (← literal)),
        (do return .integer (← number)),
        (do keyword "true"; return .boolean true),
        (do keyword "false"; return .boolean false),
        (do return .constructor (← constructorName)),
        (do return .identifier (← name)) ]) t (w :: ws) rest) :
    Reads (atom bound inner) t (w :: ws) rest := by
  have hparen : Refuses (symbol "(") (w :: ws) := symbol_refuses (by decide) hopen
  exact .orElse_right hparen.bind (.orElse_right hparen.bind
    (.orElse_right (symbol_refuses (by decide) hbrace).bind h))

theorem atom_reads_string (text : String) :
    Reads (atom bound inner) (.string text) (.literal text :: rest) rest :=
  atom_reads_word rfl rfl (.orElse_left (literal_reads.bind (.pure _ _)))

theorem atom_reads_integer {n : Int} (hn : 0 ≤ n) :
    Reads (atom bound inner) (.integer n) (.number n.toNat :: rest) rest := by
  have hread : Reads (do return .integer (← number)) (Term.integer n)
      (.number n.toNat :: rest) rest := by
    have h : Reads (do return .integer (← number)) (Term.integer n.toNat)
      (.number n.toNat :: rest) rest := number_reads.bind (.pure _ _)
    rw [Int.toNat_of_nonneg hn] at h
    exact h
  exact atom_reads_word rfl rfl (.orElse_right (literal_refuses (by simp [Word.kind])).bind
    (.orElse_left hread))

theorem atom_reads_boolean (b : Bool) : Reads (atom bound inner) (.boolean b)
    (.keyword (if b then "true" else "false") :: rest) rest := by
  refine atom_reads_word rfl rfl (.orElse_right (literal_refuses (by simp [Word.kind])).bind
    (.orElse_right (number_refuses (by simp [Word.kind])).bind ?_))
  cases b with
  | true => exact .orElse_left ((keyword_reads (by decide)).bind (.pure _ _))
  | false =>
      exact .orElse_right (keyword_refuses (by decide) rfl).bind
        (.orElse_left ((keyword_reads (by decide)).bind (.pure _ _)))

theorem atom_reads_constructor (text : String) :
    Reads (atom bound inner) (.constructor text) (.constructor text :: rest) rest := by
  refine atom_reads_word rfl rfl (.orElse_right (literal_refuses (by simp [Word.kind])).bind
    (.orElse_right (number_refuses (by simp [Word.kind])).bind
    (.orElse_right (keyword_refuses (by decide) rfl).bind
    (.orElse_right (keyword_refuses (by decide) rfl).bind ?_))))
  exact .orElse_left (constructorName_reads.bind (.pure _ _))

theorem atom_reads_identifier (text : String) :
    Reads (atom bound inner) (.identifier text) (.name text :: rest) rest := by
  refine atom_reads_word rfl rfl (.orElse_right (literal_refuses (by simp [Word.kind])).bind
    (.orElse_right (number_refuses (by simp [Word.kind])).bind
    (.orElse_right (keyword_refuses (by decide) rfl).bind
    (.orElse_right (keyword_refuses (by decide) rfl).bind
    (.orElse_right (constructorName_refuses (by simp [Word.kind])).bind ?_)))))
  exact .orElse_left (name_reads.bind (.pure _ _))

/-! ## Forms with keywords -/

section Forms

variable {cond cons alt body rhs matchee : Term} {first second : List Word}

theorem letTerm_reads {x : String} (hrhs : Reads inner rhs ws (.keyword "in" :: first))
    (hbody : Reads inner body first rest) :
    Reads (simpleTerm bound inner) (.letIn x rhs body)
      (.keyword "let" :: .name x :: .sign "=" :: ws) rest := by
  have hlet : Reads (letTerm inner) (.letIn x rhs body)
      (.keyword "let" :: .name x :: .sign "=" :: ws) rest :=
    (keyword_reads (by decide)).bind (name_reads.bind ((symbol_reads (by decide)).bind
      (hrhs.bind ((keyword_reads (by decide)).bind (hbody.bind (.pure _ _))))))
  exact hlet.orElse_left

theorem ifTerm_reads (hcond : Reads inner cond ws (.keyword "then" :: first))
    (hcons : Reads inner cons first (.keyword "else" :: second))
    (halt : Reads inner alt second rest) :
    Reads (simpleTerm bound inner) (.conditional cond cons alt) (.keyword "if" :: ws) rest := by
  have hif : Reads (ifTerm inner) (.conditional cond cons alt) (.keyword "if" :: ws) rest :=
    (keyword_reads (by decide)).bind (hcond.bind ((keyword_reads (by decide)).bind
      (hcons.bind ((keyword_reads (by decide)).bind (halt.bind (.pure _ _))))))
  exact .orElse_right (keyword_refuses (by decide) rfl).bind hif.orElse_left

theorem arm_reads {armOf : Arm Term} (hbody : Reads inner armOf.body ws rest) :
    Reads (arm inner) armOf (.sign "|" :: .constructor armOf.constructor ::
      (armOf.binding.toList.map .name ++ .sign "->" :: ws)) rest := by
  obtain ⟨head, binding, body⟩ := armOf
  have hbinding : Reads (optional name) binding
      (binding.toList.map .name ++ .sign "->" :: ws) (.sign "->" :: ws) := by
    cases binding with
    | none => exact .optional_none (name_refuses (by simp [Word.kind]))
    | some x => exact .optional_some name_reads
  exact (symbol_reads (by decide)).bind (constructorName_reads.bind
    (hbinding.bind ((symbol_reads (by decide)).bind (hbody.bind (.pure _ _)))))

theorem matchTerm_reads {arms : List (Arm Term)} (hne : arms ≠ []) (hbound : arms.length ≤ bound)
    (hmatchee : Reads inner matchee ws
      (.keyword "with" :: (arms.flatMap (armWords style) ++ rest)))
    (hbodies : ∀ arm ∈ arms, ∀ after, Follow termEnds after →
      Reads inner arm.body (arm.body.wordsAt style .part ++ after) after)
    (hrest : Follow termEnds rest) (hbar : Begins (·.lacksSign "|") rest) :
    Reads (simpleTerm bound inner) (.caseOf matchee arms) (.keyword "match" :: ws) rest := by
  have harms : ∀ item ∈ arms, ∀ after, Follow termEnds after →
      Reads (arm inner) item (armWords style item ++ after) after := by
    intro item hitem after hafter
    rw [armWords, List.cons_append, List.cons_append, List.cons_append, List.cons_append,
      List.append_assoc, List.cons_append]
    exact arm_reads (hbodies item hitem after hafter)
  have hrefuses : Refuses (arm inner) rest := (symbol_refuses_of_begins (by decide) hbar).bind
  have hrow : Reads (many1 (arm inner) bound) arms (arms.flatMap (armWords style) ++ rest) rest :=
    .many1 harms (fun _ _ _ => .cons (by decide)) hrest hrefuses hne hbound
  have hmatch : Reads (matchTerm bound inner) (.caseOf matchee arms)
      (.keyword "match" :: ws) rest :=
    (keyword_reads (by decide)).bind (hmatchee.bind ((keyword_reads (by decide)).bind
      (hrow.bind (.pure _ _))))
  exact .orElse_right (keyword_refuses (by decide) rfl).bind
    (.orElse_right (keyword_refuses (by decide) rfl).bind hmatch.orElse_left)

theorem lambdaTerm_reads {params : List String} (hne : params ≠ [])
    (hbound : params.length ≤ bound) (hbody : Reads inner body ws rest) :
    Reads (simpleTerm bound inner) (.lambda params body)
      (.sign "\\" :: (params.map .name ++ .sign "->" :: ws)) rest := by
  have hparams : ∀ x ∈ params, ∀ after, True → Reads name x ([.name x] ++ after) after :=
    fun x _ after _ => name_reads
  have hrow : Reads (many1 name bound) params
      (params.map .name ++ .sign "->" :: ws) (.sign "->" :: ws) := by
    rw [List.map_eq_flatMap]
    exact .many1 hparams (fun _ _ _ => trivial) trivial (name_refuses (by simp [Word.kind])) hne
      hbound
  have hlambda : Reads (lambdaTerm bound inner) (.lambda params body)
      (.sign "\\" :: (params.map .name ++ .sign "->" :: ws)) rest :=
    (symbol_reads (by decide)).bind (hrow.bind ((symbol_reads (by decide)).bind
      (hbody.bind (.pure _ _))))
  exact .orElse_right (keyword_refuses (by decide) rfl).bind
    (.orElse_right (keyword_refuses (by decide) rfl).bind
    (.orElse_right (keyword_refuses (by decide) rfl).bind hlambda.orElse_left))

end Forms

/-! ## Layers -/

/-- The words that stand behind an expression that is all of something. -/
def wholeEnds : List Word := [.sign ")", .sign "."]

/-- A parser reads the expressions that are well formed and have at most a number
of words. One that is no atom may only stand where it is all of something: a match
would go on with the arms of a match around it. -/
structure ReadsUpTo (style : Style) (n : Nat) (inner : Parser Term) : Prop where
  part : ∀ t wrap, t.WellFormed → (wrap = true ∨ t.isCompound = false) →
    (enclose wrap (t.words style)).length ≤ n → ∀ rest, Follow termEnds rest →
      Reads inner t (enclose wrap (t.words style) ++ rest) rest
  whole : ∀ t, t.WellFormed → (t.words style).length ≤ n → ∀ rest, Follow wholeEnds rest →
    Reads inner t (t.words style ++ rest) rest

/-- The parts of an expression with one word more than a bound are read within it. -/
theorem ReadsUpTo.parts (h : ReadsUpTo style n inner) (hwf : t.WellFormed)
    (hlen : (t.words style).length ≤ n + 1) {part : Term} (hm : part ∈ t.parts)
    (hrest : Follow termEnds rest) :
    Reads inner part (part.wordsAt style t.partsPlace ++ rest) rest := by
  have hlt := Term.length_part_lt style hwf hm
  refine h.part part _ (hwf.part hm) (Place.wraps_of_ne_whole Term.partsPlace_ne_whole) ?_ rest
    hrest
  show (part.wordsAt style t.partsPlace).length ≤ n
  omega

theorem parenthesized_of_two_le {items : List Term} (h : 2 ≤ items.length) :
    parenthesized items = .tuple items := by
  match items, h with
  | _ :: _ :: _, _ => rfl

theorem ReadsUpTo.tuple {items : List Term} (h : ReadsUpTo style n inner)
    (hwf : (Term.tuple items).WellFormed) (hlen : ((Term.tuple items).words style).length ≤ n + 1) :
    Reads (atom (n + 1) inner) (.tuple items) ((Term.tuple items).words style ++ rest) rest := by
  have hsize : 2 ≤ items.length := hwf.here.1
  have hne : items ≠ [] := List.ne_nil_of_length_pos (by omega)
  have hitems : ∀ item ∈ items, ∀ after, Follow termEnds after →
      Reads inner item (item.wordsAt style .part ++ after) after :=
    fun item hm after hafter => h.parts hwf hlen hm hafter
  rw [Term.words, Term.wordsAll_eq] at hlen ⊢
  rw [List.length_append, List.length_cons, List.length_singleton] at hlen
  have hrow : Reads (separated inner (symbol ",") (n + 1)) items
      (joined (.sign ",") (items.map (Term.wordsAt style .part)) ++ .sign ")" :: rest)
      (.sign ")" :: rest) :=
    separated_reads termEnds (by decide) (by decide) (by omega) hne
      (fun item hm _ => hitems item hm) (.cons (by decide)) (.cons rfl)
  have hstart : Begins Word.startsTerm
      (joined (.sign ",") (items.map (Term.wordsAt style .part))) := by
    refine .joined (by simpa using hne) fun row hrow => ?_
    obtain ⟨item, hitem, rfl⟩ := List.mem_map.1 hrow
    have hatom : Begins Word.startsAtom (item.wordsAt style .part) :=
      Term.begins_wordsAt (by decide) (hwf.part hitem).here.1
    exact hatom.mono fun _ => startsTerm_of_startsAtom
  have hread := atom_reads_parenthesized hrow hstart.append
  rw [parenthesized_of_two_le hsize] at hread
  rw [List.cons_append, List.cons_append, List.append_assoc]
  exact hread

theorem ReadsUpTo.record {fields : List (String × Term)} (h : ReadsUpTo style n inner)
    (hwf : (Term.record fields).WellFormed)
    (hlen : ((Term.record fields).words style).length ≤ n + 1) :
    Reads (atom (n + 1) inner) (.record fields)
      ((Term.record fields).words style ++ rest) rest := by
  have hne : fields ≠ [] := hwf.here.1
  have hfields : ∀ field ∈ fields, ∀ after, Follow termEnds after →
      Reads (fieldInit inner) field (fieldWords style field ++ after) after := by
    intro field hm after hafter
    have hvalue : Reads inner field.2 (field.2.wordsAt style .part ++ after) after :=
      h.parts hwf hlen (List.mem_map_of_mem hm) hafter
    exact name_reads.bind ((symbol_reads (by decide)).bind (hvalue.bind (.pure _ _)))
  rw [Term.words, Term.wordsFields_eq] at hlen ⊢
  rw [List.length_append, List.length_cons, List.length_singleton] at hlen
  have hrow : Reads (separated (fieldInit inner) (symbol ",") (n + 1)) fields
      (joined (.sign ",") (fields.map (fieldWords style)) ++ .sign "\x7d" :: rest)
      (.sign "\x7d" :: rest) :=
    separated_reads termEnds (by decide) (by decide) (by omega) hne
      (fun field hm _ => hfields field hm) (.cons (by decide)) (.cons rfl)
  rw [List.cons_append, List.cons_append, List.append_assoc]
  exact atom_reads_record hrow

/-- What stands as an atom is read as one. -/
theorem atom_reads (h : ReadsUpTo style n inner) (hwf : t.WellFormed) {wrap : Bool}
    (hatom : wrap = true ∨ t.isCompound = false)
    (hlen : (enclose wrap (t.words style)).length ≤ n + 1) :
    Reads (atom (n + 1) inner) t (enclose wrap (t.words style) ++ rest) rest := by
  cases wrap with
  | true =>
      rw [enclose, if_pos rfl, List.length_append, List.length_cons, List.length_singleton] at hlen
      rw [enclose, if_pos rfl, List.cons_append, List.cons_append, List.append_assoc]
      have hrow : Reads (separated inner (symbol ",") (n + 1)) [t]
          (t.words style ++ .sign ")" :: rest) (.sign ")" :: rest) :=
        .separated_single (h.whole t hwf (by omega) _ (.cons (by decide)))
          (symbol_refuses (by decide) rfl)
      exact atom_reads_parenthesized hrow (Term.begins_words style hwf).append
  | false =>
      have hc := hatom.resolve_left Bool.false_ne_true
      have hshape := hwf.here.1
      rw [enclose, if_neg Bool.false_ne_true] at hlen ⊢
      cases t with
      | integer n => exact atom_reads_integer hshape
      | string text => exact atom_reads_string text
      | boolean b => exact atom_reads_boolean b
      | unit => exact atom_reads_unit
      | identifier text => exact atom_reads_identifier text
      | constructor text => exact atom_reads_constructor text
      | tuple items => exact h.tuple hwf hlen
      | record fields => exact h.record hwf hlen
      | other => exact hshape.elim
      | _ => cases hc

/-- The parts of an expression with one word more than a bound are read as atoms. -/
theorem ReadsUpTo.atoms (h : ReadsUpTo style n inner) (hwf : t.WellFormed)
    (hlen : (t.words style).length ≤ n + 1) {part : Term} (hm : part ∈ t.parts) :
    Reads (atom (n + 1) inner) part (part.wordsAt style t.partsPlace ++ rest) rest := by
  have hlt := Term.length_part_lt style hwf hm
  refine atom_reads h (hwf.part hm) (Place.wraps_of_ne_whole Term.partsPlace_ne_whole) ?_
  show (part.wordsAt style t.partsPlace).length ≤ n + 1
  omega

theorem ReadsUpTo.apply {callee : Term} {args : List Term} (h : ReadsUpTo style n inner)
    (hwf : (Term.apply callee args).WellFormed)
    (hlen : ((Term.apply callee args).words style).length ≤ n + 1) (hrest : Follow termEnds rest) :
    Reads (termLayer (n + 1) inner) (.apply callee args)
      ((Term.apply callee args).words style ++ rest) rest := by
  have hne : args ≠ [] := hwf.here.1
  have hargs : ∀ arg ∈ args, ∀ after,
      Reads (atom (n + 1) inner) arg (arg.wordsAt style .part ++ after) after :=
    fun arg hm after => h.atoms hwf hlen (List.mem_cons_of_mem _ hm)
  have hstart : ∀ arg ∈ args, Begins Word.startsAtom (arg.wordsAt style .part) := fun arg hm =>
    Term.begins_wordsAt (by decide) (hwf.part (List.mem_cons_of_mem _ hm)).here.1
  have hends : Follow applicationEnds rest := hrest.mono (by decide)
  have hwords : (Term.apply callee args).words style ++ rest =
      callee.wordsAt style .part ++ (args.flatMap (Term.wordsAt style .part) ++ rest) := by
    rw [Term.words, Term.wordsAll_eq, ← List.flatMap_def, List.append_assoc, Term.wordsAt]
  have hbound : args.length ≤ n + 1 := by
    have hle := length_le_flatMap_of_begins fun arg hm => ⟨Word.startsAtom, hstart arg hm⟩
    rw [Term.words, Term.wordsAll_eq, ← List.flatMap_def, List.length_append] at hlen
    omega
  have hcallee : Reads (selection (n + 1) inner) callee
      (callee.wordsAt style .part ++ (args.flatMap (Term.wordsAt style .part) ++ rest))
      (args.flatMap (Term.wordsAt style .part) ++ rest) := by
    refine selection_reads_atom (h.atoms hwf hlen List.mem_cons_self) ?_
    obtain ⟨arg, others, rfl⟩ := List.exists_cons_of_ne_nil hne
    rw [List.flatMap_cons]
    exact ((hstart arg List.mem_cons_self).mono fun _ => not_touches_of_startsAtom).append.append
  have hread := application_reads hcallee hargs hstart hends hbound
  have hjuxtaposed : juxtaposed callee args = .apply callee args := by
    obtain ⟨arg, others, rfl⟩ := List.exists_cons_of_ne_nil hne
    rfl
  rw [hjuxtaposed] at hread
  rw [hwords]
  exact termLayer_reads_application hread
    (Term.begins_wordsAt (by decide) (hwf.part List.mem_cons_self).here.1).append hrest

/-- A layer reads the compound expressions whose parts the layers below it read. -/
theorem ReadsUpTo.compound (h : ReadsUpTo style n inner) (hwf : t.WellFormed)
    (hc : t.isCompound = true) (hlen : (t.words style).length ≤ n + 1)
    (hrest : Follow wholeEnds rest) :
    Reads (termLayer (n + 1) inner) t (t.words style ++ rest) rest := by
  have hends : Follow termEnds rest := hrest.mono (by decide)
  have hshape := hwf.here.1
  have hparts {part : Term} (hm : part ∈ t.parts) {after : List Word}
      (hafter : Follow termEnds after) :
      Reads inner part (part.wordsAt style t.partsPlace ++ after) after :=
    h.parts hwf hlen hm hafter
  have hatoms {part : Term} (hm : part ∈ t.parts) {after : List Word} :
      Reads (atom (n + 1) inner) part (part.wordsAt style t.partsPlace ++ after) after :=
    h.atoms hwf hlen hm
  have hbegins {part : Term} (hm : part ∈ t.parts) :
      Begins Word.startsAtom (part.wordsAt style t.partsPlace) :=
    Term.begins_wordsAt Term.partsPlace_ne_whole (hwf.part hm).here.1
  cases t with
  | field target name =>
      rw [Term.words, List.append_assoc]
      exact termLayer_reads_select (.inl name) (hatoms List.mem_cons_self)
        (hbegins List.mem_cons_self) hends
  | item target index =>
      have hread := termLayer_reads_select (.inr index.toNat) (hatoms List.mem_cons_self)
        (hbegins List.mem_cons_self) hends
      rw [show select target (.inr index.toNat) = .item target index by
        rw [select, Int.toNat_of_nonneg hshape]] at hread
      rw [Term.words, List.append_assoc]
      exact hread
  | apply callee args => exact h.apply hwf hlen hends
  | binary op lhs rhs =>
      have hop : op.word ∈ applicationEnds := List.mem_append_left _ (List.mem_map_of_mem hshape)
      have hrhs := List.mem_cons_of_mem lhs (List.mem_cons_self (a := rhs) (l := []))
      have hread := operatorTerm_reads_binary hshape
        (application_reads_atom (hatoms List.mem_cons_self) (.cons hop))
        (application_reads_atom (hatoms hrhs) (hends.mono (by decide))) (hends.mono (by decide))
      rw [Term.words, List.append_assoc, List.cons_append]
      exact termLayer_reads_simpleTerm
        (simpleTerm_reads_operatorTerm hread (hbegins List.mem_cons_self).append) hends
  | sequence first next =>
      have hnext := List.mem_cons_of_mem first (List.mem_cons_self (a := next) (l := []))
      have hsecond : Reads (simpleTerm (n + 1) inner) next
          (next.wordsAt style .part ++ rest) rest :=
        simpleTerm_reads_atom (hatoms hnext) (hbegins hnext).append (hends.mono (by decide))
      have hfirst : Reads (simpleTerm (n + 1) inner) first
          (first.wordsAt style .part ++ .sign ";" :: (next.wordsAt style .part ++ rest))
          (.sign ";" :: (next.wordsAt style .part ++ rest)) :=
        simpleTerm_reads_atom (hatoms List.mem_cons_self) (hbegins List.mem_cons_self).append
          (.cons (by decide))
      rw [Term.words, List.append_assoc, List.cons_append]
      exact termLayer_reads_sequence hfirst hsecond hends
  | letIn x rhs body =>
      have hbody := List.mem_cons_of_mem rhs (List.mem_cons_self (a := body) (l := []))
      rw [Term.words, List.append_assoc, List.append_assoc, List.cons_append]
      exact termLayer_reads_simpleTerm
        (letTerm_reads (hparts List.mem_cons_self (.cons (by decide))) (hparts hbody hends)) hends
  | conditional cond cons alt =>
      have hcons := List.mem_cons_of_mem cond (List.mem_cons_self (a := cons) (l := [alt]))
      have halt := List.mem_cons_of_mem cond
        (List.mem_cons_of_mem cons (List.mem_cons_self (a := alt) (l := [])))
      rw [Term.words, List.append_assoc, List.append_assoc, List.cons_append, List.cons_append,
        List.cons_append]
      exact termLayer_reads_simpleTerm
        (ifTerm_reads (hparts List.mem_cons_self (.cons (by decide)))
          (hparts hcons (.cons (by decide))) (hparts halt hends)) hends
  | caseOf matchee arms =>
      have hbodies : ∀ arm ∈ arms, ∀ after, Follow termEnds after →
          Reads inner arm.body (arm.body.wordsAt style .part ++ after) after :=
        fun arm hm after hafter =>
          hparts (List.mem_cons_of_mem _ (List.mem_map_of_mem hm)) hafter
      rw [Term.words, Term.wordsArms_eq, ← List.flatMap_def] at hlen ⊢
      have hbound : arms.length ≤ n + 1 := by
        have hle : arms.length ≤ (arms.flatMap (armWords style)).length :=
          length_le_flatMap_of_begins fun arm _ => ⟨fun _ => true, .cons rfl⟩
        rw [List.length_append, List.length_cons, List.length_cons] at hlen
        omega
      rw [List.append_assoc, List.cons_append, List.cons_append]
      exact termLayer_reads_simpleTerm
        (matchTerm_reads hshape hbound (hparts List.mem_cons_self (.cons (by decide))) hbodies hends
          (hrest.begins (by decide))) hends
  | lambda params body =>
      have hbound : params.length ≤ n + 1 := by
        rw [Term.words, List.length_append, List.length_cons, List.length_map] at hlen
        omega
      rw [Term.words, List.append_assoc, List.cons_append, List.cons_append]
      exact termLayer_reads_simpleTerm
        (lambdaTerm_reads hshape hbound (hparts List.mem_cons_self hends)) hends
  | other => exact hshape.elim
  | _ => cases hc

/-- The grammar reads every well-formed expression within a bound that is no smaller
than the number of its words. -/
theorem term_readsUpTo (style : Style) (n : Nat) : ReadsUpTo style n (term n) := by
  induction n with
  | zero =>
      have none {t : Term} (hwf : t.WellFormed) (hlen : (t.words style).length ≤ 0) : False := by
        obtain ⟨w, others, hw, -⟩ := Term.begins_words style hwf
        rw [hw, List.length_cons] at hlen
        omega
      refine ⟨fun t wrap hwf _ hlen => ?_, fun t hwf hlen => (none hwf hlen).elim⟩
      exact (none hwf (Nat.le_trans length_le_enclose hlen)).elim
  | succ n ih =>
      have part : ∀ t wrap, t.WellFormed → (wrap = true ∨ t.isCompound = false) →
          (enclose wrap (t.words style)).length ≤ n + 1 → ∀ rest, Follow termEnds rest →
            Reads (term (n + 1)) t (enclose wrap (t.words style) ++ rest) rest := by
        intro t wrap hwf hatom hlen rest hrest
        exact termLayer_reads_simpleTerm
          (simpleTerm_reads_atom (atom_reads ih hwf hatom hlen)
            (Term.begins_enclose hwf.here.1 hatom).append (hrest.mono (by decide))) hrest
      refine ⟨part, fun t hwf hlen rest hrest => ?_⟩
      by_cases hc : t.isCompound = true
      · exact ih.compound hwf hc hlen hrest
      · exact part t false hwf (.inr (Bool.eq_false_iff.2 hc)) hlen rest (hrest.mono (by decide))

end Fern
