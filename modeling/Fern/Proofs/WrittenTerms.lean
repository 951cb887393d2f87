import Fern.Proofs.LevelReading

/-!
# The rows of words of trees

What can be told of the words of a tree without reading them: all of them are
words of the grammar, the first one shows what follows, and there are at least as
many as there are parts.
-/

namespace Fern

open Syntax

/-! ## Rows -/

theorem Word.fits_sign {text : String} (h : text ∈ signs) : (Word.sign text).Fits := h

theorem Word.fits_keyword {text : String} (h : text ∈ keywords) : (Word.keyword text).Fits := h

/-- All words of a row are words of the grammar. -/
def FitsAll (ws : List Word) : Prop := ∀ w ∈ ws, w.Fits

theorem FitsAll.nil : FitsAll [] := nofun

theorem FitsAll.cons {w : Word} {ws : List Word} (h : w.Fits) (hs : FitsAll ws) :
    FitsAll (w :: ws) := List.forall_mem_cons.2 ⟨h, hs⟩

theorem FitsAll.append {before behind : List Word} (h : FitsAll before) (hs : FitsAll behind) :
    FitsAll (before ++ behind) := List.forall_mem_append.2 ⟨h, hs⟩

theorem FitsAll.flatMap {α : Type} {write : α → List Word} {items : List α}
    (h : ∀ item ∈ items, FitsAll (write item)) : FitsAll (items.flatMap write) := by
  intro w hw
  obtain ⟨item, hitem, hw⟩ := List.mem_flatMap.1 hw
  exact h item hitem w hw

theorem FitsAll.names {names : List String} (h : ∀ name ∈ names, IsVariable name) :
    FitsAll (names.map .name) := by
  intro w hw
  obtain ⟨name, hname, rfl⟩ := List.mem_map.1 hw
  exact h name hname

/-- What is not all of something stands as an atom. -/
theorem Place.wraps_of_ne_whole {place : Place} {compound optional : Bool}
    (h : place ≠ .whole) : place.wraps compound optional = true ∨ compound = false := by
  cases place with
  | whole => exact absurd rfl h
  | part | target =>
      cases compound with
      | false => exact .inr rfl
      | true => exact .inl rfl

section Rows

variable {α : Type} {separator : Word} {rows : List (List Word)} {row ws : List Word} {wrap : Bool}

/-- A row has as many words as there are parts, if every part begins with one. -/
theorem length_le_flatMap_of_begins {write : α → List Word} {items : List α}
    (h : ∀ item ∈ items, ∃ test, Begins test (write item)) :
    items.length ≤ (items.flatMap write).length := by
  refine length_le_flatMap_of_ne_nil fun item hitem => ?_
  obtain ⟨test, w, others, hw, -⟩ := h item hitem
  exact hw ▸ List.cons_ne_nil w others

theorem length_le_joined_of_mem (h : row ∈ rows) :
    row.length ≤ (joined separator rows).length := by
  cases rows with
  | nil => cases h
  | cons first others =>
      rw [joined, List.length_append]
      rcases List.mem_cons.1 h with rfl | h
      · omega
      · have hrow : (separator :: row).length ≤
            (others.flatMap (separator :: ·)).length := length_le_flatMap h
        rw [List.length_cons] at hrow
        omega

theorem length_le_joined (separator : Word) (rows : List (List Word)) :
    rows.length ≤ (joined separator rows).length + 1 := by
  cases rows with
  | nil => exact Nat.zero_le _
  | cons first others =>
      have hothers : others.length ≤ (others.flatMap (separator :: ·)).length :=
        length_le_flatMap_of_ne_nil fun row _ => List.cons_ne_nil separator row
      rw [joined, List.length_append, List.length_cons]
      omega

theorem FitsAll.joined (hs : separator.Fits) (h : ∀ row ∈ rows, FitsAll row) :
    FitsAll (joined separator rows) := by
  cases rows with
  | nil => exact .nil
  | cons first others =>
      obtain ⟨hfirst, hothers⟩ := List.forall_mem_cons.1 h
      exact .append hfirst (.flatMap fun row hrow => .cons hs (hothers row hrow))

theorem FitsAll.enclose (h : FitsAll ws) : FitsAll (enclose wrap ws) := by
  cases wrap with
  | false => exact h
  | true =>
      have hopen : (Word.sign "(").Fits := Word.fits_sign (by decide)
      have hclose : (Word.sign ")").Fits := Word.fits_sign (by decide)
      exact .append (.cons hopen h) (.cons hclose .nil)

theorem length_le_enclose : ws.length ≤ (enclose wrap ws).length := by
  cases wrap with
  | false => exact Nat.le_refl _
  | true =>
      rw [enclose, if_pos rfl, List.length_append, List.length_cons]
      omega

end Rows

/-! ## Expressions -/

variable {style : Style} {t : Term}

def fieldWords (style : Style) (field : String × Term) : List Word :=
  .name field.1 :: .sign "=" :: field.2.wordsAt style .part

def armWords (style : Style) (arm : Arm Term) : List Word :=
  .sign "|" :: .constructor arm.constructor :: arm.binding.toList.map .name ++
    .sign "->" :: arm.body.wordsAt style .part

theorem Term.wordsAll_eq (items : List Term) :
    Term.wordsAll style items = items.map (Term.wordsAt style .part) := by
  induction items with
  | nil => rw [Term.wordsAll, List.map_nil]
  | cons t items ih => rw [Term.wordsAll, ih, List.map_cons, Term.wordsAt]

theorem Term.wordsFields_eq (fields : List (String × Term)) :
    Term.wordsFields style fields = fields.map (fieldWords style) := by
  induction fields with
  | nil => rw [Term.wordsFields, List.map_nil]
  | cons field fields ih => rw [Term.wordsFields, ih, List.map_cons, fieldWords, Term.wordsAt]

theorem Term.wordsArms_eq (arms : List (Arm Term)) :
    Term.wordsArms style arms = arms.map (armWords style) := by
  induction arms with
  | nil => rw [Term.wordsArms, List.map_nil]
  | cons arm arms ih => rw [Term.wordsArms, ih, List.map_cons, armWords, Term.wordsAt]

theorem Operator.fits_word {op : Operator} (h : op ∈ Operator.all) : op.word.Fits := by
  have hwords : ∀ op ∈ Operator.all,
      op.word ∈ signs.map Word.sign ∨ op.word ∈ keywords.map Word.keyword := by decide
  rcases hwords op h with h | h
  · obtain ⟨text, htext, he⟩ := List.mem_map.1 h
    exact he ▸ Word.fits_sign htext
  · obtain ⟨text, htext, he⟩ := List.mem_map.1 h
    exact he ▸ Word.fits_keyword htext

/-- Every word of a well-formed expression is one that the grammar knows. -/
theorem Term.fits_words (h : t.WellFormed) : FitsAll (t.words style) := by
  induction h with
  | @intro t here _ ih =>
      obtain ⟨hshape, hnamed⟩ := here
      have part {place : Place} {part : Term} (hm : part ∈ t.parts) :
          FitsAll (part.wordsAt style place) := FitsAll.enclose (ih part hm)
      have sign {text : String} (hs : text ∈ signs) : FitsAll [Word.sign text] :=
        .cons (Word.fits_sign hs) .nil
      cases t with
      | integer | string => exact .cons trivial .nil
      | boolean b =>
          refine .cons (Word.fits_keyword ?_) .nil
          cases b <;> decide
      | unit => exact .cons (Word.fits_sign (by decide)) (sign (by decide))
      | identifier name => exact .cons hnamed .nil
      | constructor name => exact .cons hnamed .nil
      | tuple items =>
          rw [words, wordsAll_eq]
          refine .append (.cons (Word.fits_sign (by decide)) ?_) (sign (by decide))
          refine .joined (Word.fits_sign (by decide)) fun row hrow => ?_
          obtain ⟨item, hitem, rfl⟩ := List.mem_map.1 hrow
          exact part hitem
      | record fields =>
          rw [words, wordsFields_eq]
          refine .append (.cons (Word.fits_sign (by decide)) ?_) (sign (by decide))
          refine .joined (Word.fits_sign (by decide)) fun row hrow => ?_
          obtain ⟨field, hfield, rfl⟩ := List.mem_map.1 hrow
          exact .cons (hnamed field hfield) (.cons (Word.fits_sign (by decide))
            (part (List.mem_map_of_mem hfield)))
      | field target name => exact .append (part List.mem_cons_self) (.cons hnamed .nil)
      | item target index => exact .append (part List.mem_cons_self) (.cons trivial .nil)
      | apply callee args =>
          rw [words, wordsAll_eq, ← List.flatMap_def]
          exact .append (part List.mem_cons_self)
            (.flatMap fun arg harg => part (List.mem_cons_of_mem _ harg))
      | binary op lhs rhs =>
          exact .append (part List.mem_cons_self) (.cons (Operator.fits_word hshape)
            (part (List.mem_cons_of_mem _ List.mem_cons_self)))
      | sequence first rest =>
          exact .append (part List.mem_cons_self) (.cons (Word.fits_sign (by decide))
            (part (List.mem_cons_of_mem _ List.mem_cons_self)))
      | letIn name rhs body =>
          refine .append (.append ?_ (part List.mem_cons_self)) (.cons
            (Word.fits_keyword (by decide)) (part (List.mem_cons_of_mem _ List.mem_cons_self)))
          exact .cons (Word.fits_keyword (by decide)) (.cons hnamed (sign (by decide)))
      | conditional cond cons alt =>
          refine .append (.append ?_ ?_) ?_
          · exact .cons (Word.fits_keyword (by decide)) (part List.mem_cons_self)
          · exact .cons (Word.fits_keyword (by decide))
              (part (List.mem_cons_of_mem _ List.mem_cons_self))
          · exact .cons (Word.fits_keyword (by decide))
              (part (List.mem_cons_of_mem _ (List.mem_cons_of_mem _ List.mem_cons_self)))
      | caseOf matchee arms =>
          rw [words, wordsArms_eq, ← List.flatMap_def]
          refine .append (.cons (Word.fits_keyword (by decide)) (part List.mem_cons_self))
            (.cons (Word.fits_keyword (by decide)) (.flatMap fun arm harm => ?_))
          obtain ⟨hhead, hbinding⟩ := hnamed arm harm
          have hnames : FitsAll (arm.binding.toList.map .name) :=
            .names fun name hname => hbinding name (Option.mem_toList.1 hname)
          refine .append (.cons (Word.fits_sign (by decide)) (.cons hhead hnames))
            (.cons (Word.fits_sign (by decide)) (part ?_))
          exact List.mem_cons_of_mem _ (List.mem_map_of_mem harm)
      | lambda params body =>
          exact .append (.cons (Word.fits_sign (by decide)) (.names hnamed))
            (.cons (Word.fits_sign (by decide)) (part List.mem_cons_self))
      | other => exact hshape.elim

/-! ## First words -/

theorem Term.begins_words_of_atom (hshape : t.HasShape) (hc : t.isCompound = false) :
    Begins Word.startsAtom (t.words style) := by
  cases t with
  | integer | string | unit | identifier | constructor | tuple | record => exact .cons rfl
  | boolean b => cases b <;> exact .cons rfl
  | other => exact hshape.elim
  | _ => cases hc

/-- What stands as an atom begins like one. -/
theorem Term.begins_enclose {wrap : Bool} (hshape : t.HasShape)
    (hw : wrap = true ∨ t.isCompound = false) :
    Begins Word.startsAtom (enclose wrap (t.words style)) := by
  cases wrap with
  | true => exact .cons rfl
  | false => exact begins_words_of_atom hshape (hw.resolve_left Bool.false_ne_true)

theorem Term.begins_wordsAt {place : Place} (hp : place ≠ .whole) (hshape : t.HasShape) :
    Begins Word.startsAtom (t.wordsAt style place) :=
  begins_enclose hshape (Place.wraps_of_ne_whole hp)

theorem Term.begins_words (style : Style) (h : t.WellFormed) :
    Begins Word.startsTerm (t.words style) := by
  have atom {ws : List Word} (h : Begins Word.startsAtom ws) : Begins Word.startsTerm ws :=
    h.mono fun _ => startsTerm_of_startsAtom
  have part {place : Place} {part : Term} (hp : place ≠ .whole) (hm : part ∈ t.parts) :
      Begins Word.startsTerm (part.wordsAt style place) :=
    atom (begins_wordsAt hp (h.part hm).here.1)
  cases t with
  | field target _ | item target _ =>
      exact (part (show Place.target ≠ .whole by decide) List.mem_cons_self).append
  | apply | binary | sequence =>
      exact (part (show Place.part ≠ .whole by decide) List.mem_cons_self).append
  | letIn | conditional | caseOf | lambda => exact .cons rfl
  | other => exact h.here.1.elim
  | _ => exact atom (begins_words_of_atom h.here.1 rfl)

/-! ## Numbers of words -/

/-- The place at which the parts of an expression stand. -/
def Term.partsPlace : Term → Place
  | .field .. | .item .. => .target
  | _ => .part

theorem Term.partsPlace_ne_whole : t.partsPlace ≠ .whole := by
  unfold partsPlace
  split <;> decide

theorem Term.wordsAt_pos (style : Style) (place : Place) (h : t.WellFormed) :
    0 < (t.wordsAt style place).length := by
  obtain ⟨w, others, hw, -⟩ := begins_words style h
  have hle : (t.words style).length ≤ (t.wordsAt style place).length := length_le_enclose
  rw [hw, List.length_cons] at hle
  omega

/-- A part of an expression has fewer words. -/
theorem Term.length_part_lt (style : Style) (hwf : t.WellFormed) {part : Term}
    (h : part ∈ t.parts) : (part.wordsAt style t.partsPlace).length < (t.words style).length := by
  cases t with
  | tuple items =>
      show (part.wordsAt style .part).length < _
      have hle : (part.wordsAt style .part).length ≤
          (joined (.sign ",") (items.map (wordsAt style .part))).length :=
        length_le_joined_of_mem (List.mem_map_of_mem h)
      rw [words, wordsAll_eq, List.length_append, List.length_cons]
      omega
  | record fields =>
      show (part.wordsAt style .part).length < _
      obtain ⟨field, hfield, rfl⟩ := List.mem_map.1 h
      have hle : (fieldWords style field).length ≤
          (joined (.sign ",") (fields.map (fieldWords style))).length :=
        length_le_joined_of_mem (List.mem_map_of_mem hfield)
      rw [fieldWords, List.length_cons, List.length_cons] at hle
      rw [words, wordsFields_eq, List.length_append, List.length_cons]
      omega
  | field target name =>
      show (part.wordsAt style .target).length < _
      cases List.mem_singleton.1 h
      rw [words, List.length_append, List.length_singleton, wordsAt]
      omega
  | item target index =>
      show (part.wordsAt style .target).length < _
      cases List.mem_singleton.1 h
      rw [words, List.length_append, List.length_singleton, wordsAt]
      omega
  | apply callee args =>
      show (part.wordsAt style .part).length < _
      rw [words, wordsAll_eq, ← List.flatMap_def, List.length_append]
      show _ < (callee.wordsAt style .part).length + _
      have harg {arg : Term} (hm : arg ∈ args) : (arg.wordsAt style .part).length ≤
          (args.flatMap (wordsAt style .part)).length := length_le_flatMap hm
      rcases List.mem_cons.1 h with rfl | hm
      · -- There is an argument, and it has a word.
        obtain ⟨arg, harg'⟩ := List.exists_mem_of_ne_nil args hwf.here.1
        have hle := harg harg'
        have hpos := wordsAt_pos style .part
          (hwf.part (List.mem_cons_of_mem _ harg'))
        omega
      · have hle := harg hm
        have hpos := wordsAt_pos style .part (hwf.part List.mem_cons_self)
        omega
  | binary op lhs rhs =>
      show (part.wordsAt style .part).length < _
      rw [words, List.length_append, List.length_cons]
      show _ < (lhs.wordsAt style .part).length + ((rhs.wordsAt style .part).length + 1)
      simp only [parts, List.mem_cons, List.not_mem_nil, or_false] at h
      rcases h with rfl | rfl <;> omega
  | sequence first rest =>
      show (part.wordsAt style .part).length < _
      rw [words, List.length_append, List.length_cons]
      show _ < (first.wordsAt style .part).length + ((rest.wordsAt style .part).length + 1)
      simp only [parts, List.mem_cons, List.not_mem_nil, or_false] at h
      rcases h with rfl | rfl <;> omega
  | letIn name rhs body =>
      show (part.wordsAt style .part).length < _
      rw [words, List.length_append, List.length_append, List.length_cons]
      show _ < 3 + (rhs.wordsAt style .part).length + ((body.wordsAt style .part).length + 1)
      simp only [parts, List.mem_cons, List.not_mem_nil, or_false] at h
      rcases h with rfl | rfl <;> omega
  | conditional cond cons alt =>
      show (part.wordsAt style .part).length < _
      rw [words, List.length_append, List.length_append, List.length_cons, List.length_cons,
        List.length_cons]
      show _ < (cond.wordsAt style .part).length + 1 + ((cons.wordsAt style .part).length + 1) +
        ((alt.wordsAt style .part).length + 1)
      simp only [parts, List.mem_cons, List.not_mem_nil, or_false] at h
      rcases h with rfl | rfl | rfl <;> omega
  | caseOf matchee arms =>
      show (part.wordsAt style .part).length < _
      rw [words, wordsArms_eq, ← List.flatMap_def, List.length_append, List.length_cons,
        List.length_cons]
      show _ < (matchee.wordsAt style .part).length + 1 + _
      rcases List.mem_cons.1 h with rfl | h
      · omega
      · obtain ⟨arm, harm, rfl⟩ := List.mem_map.1 h
        have hle : (armWords style arm).length ≤ (arms.flatMap (armWords style)).length :=
          length_le_flatMap harm
        have hbody : (arm.body.wordsAt style .part).length < (armWords style arm).length := by
          rw [armWords, List.length_append]
          show _ < _ + ((arm.body.wordsAt style .part).length + 1)
          omega
        omega
  | lambda params body =>
      show (part.wordsAt style .part).length < _
      cases List.mem_singleton.1 h
      rw [words, List.length_append, List.length_cons, List.length_cons]
      show _ < _ + ((part.wordsAt style .part).length + 1)
      omega
  | integer | string | boolean | unit | identifier | constructor | other => cases h

end Fern
