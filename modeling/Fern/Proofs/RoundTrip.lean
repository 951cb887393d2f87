import Fern.Proofs.TypeReading
import Fern.Syntax.Parse

/-!
# Programs are read as they are written

Writing down declarations and reading the text gives the declarations back,
whatever blanks and comments there are between the words and wherever there are
parentheses that the grammar does not ask for.
-/

namespace Fern

open Syntax Fern.Parser

variable {style : Style} {bound : Nat} {rest : List Word}

/-! ## Declared types -/

theorem variantDecl_reads {decl : VariantDecl}
    (hwf : ∀ payload ∈ decl.payload, payload.WellFormed)
    (hlen : (decl.words style).length ≤ bound)
    (hrest : Follow [.sign "|", .sign "."] rest) :
    Reads (variantDecl bound) decl (decl.words style ++ rest) rest := by
  obtain ⟨head, payload⟩ := decl
  have hpayload : Reads (optional (typeAtom bound (typeTerm bound))) payload
      (payload.toList.flatMap (TypeTerm.wordsAt style .part) ++ rest) rest := by
    cases payload with
    | none =>
        obtain ⟨w, rest, rfl, hw⟩ := hrest
        have hends : ∀ w ∈ [Word.sign "|", .sign "."], w.lacksSign "(" = true ∧
            w.kind ∉ [.constructor, .selector] := by decide
        obtain ⟨hopen, hkind⟩ := hends w (of_decide_eq_true hw)
        have hatom : Refuses (typeAtom bound (typeTerm bound)) (w :: rest) :=
          (constructorName_refuses hkind).bind.orElse (symbol_refuses (by decide) hopen).bind
        exact .optional_none hatom
    | some t =>
        have hshort : (t.wordsAt style .part).length + 1 ≤ bound := by
          rw [VariantDecl.words, List.length_cons] at hlen
          simpa using hlen
        have hatom : Reads (typeAtom bound (typeTerm bound)) t
            (t.wordsAt style .part ++ rest) rest := by
          refine typeAtom_reads (typeTerm_readsUpTo style bound) (hwf t rfl)
            (Place.wraps_of_ne_whole (by decide)) ?_ ?_
          · show (t.wordsAt style .part).length ≤ bound + 1
            omega
          · show (t.wordsAt style .part).length ≤ bound
            omega
        rw [Option.toList_some, List.flatMap_singleton]
        exact .optional_some hatom
  exact constructorName_reads.bind (hpayload.bind (.pure _ _))

theorem fieldDecl_reads {decl : FieldDecl} (hwf : decl.type.WellFormed)
    (hlen : (decl.words style).length ≤ bound) (hrest : Follow typeEnds rest) :
    Reads (fieldDecl bound) decl (decl.words style ++ rest) rest := by
  obtain ⟨field, type⟩ := decl
  have htype : Reads (typeTerm bound) type (type.wordsAt style .whole ++ rest) rest := by
    have hshort : (type.wordsAt style .whole).length + 2 ≤ bound := hlen
    exact typeTerm_readsUpTo style bound type _ hwf (Nat.le_of_add_right_le hshort) rest hrest
  exact name_reads.bind ((symbol_reads (by decide)).bind (htype.bind (.pure _ _)))

theorem typeDeclBody_reads {body : TypeDeclBody} (hwf : body.WellFormed)
    (hlen : (body.words style).length < bound) :
    Reads (orElse (recordType bound) (sumType bound)) body
      (body.words style ++ .sign "." :: rest) (.sign "." :: rest) := by
  cases body with
  | sum variants =>
      obtain ⟨hne, hvariants⟩ := hwf
      rw [TypeDeclBody.words] at hlen ⊢
      have hrow : Reads (separated (variantDecl bound) (symbol "|") bound) variants
          (joined (.sign "|") (variants.map (VariantDecl.words style)) ++ .sign "." :: rest)
          (.sign "." :: rest) := by
        refine separated_reads [.sign "|", .sign "."] (by decide) (by decide) hlen hne
          (fun decl hm hle after => ?_) (.cons (by decide)) (.cons rfl)
        exact variantDecl_reads (hvariants decl hm).2 (by omega)
      have hbegins : Begins (·.lacksSign "\x7b")
          (joined (.sign "|") (variants.map (VariantDecl.words style))) := by
        refine .joined (by simpa using hne) fun row hm => ?_
        obtain ⟨decl, -, rfl⟩ := List.mem_map.1 hm
        exact .cons rfl
      have hrecord : Refuses (recordType bound)
          (joined (.sign "|") (variants.map (VariantDecl.words style)) ++ .sign "." :: rest) :=
        (symbol_refuses_of_begins (by decide) hbegins.append).bind
      exact .orElse_right hrecord (hrow.bind (.pure _ _))
  | record fields =>
      obtain ⟨hne, hfields⟩ := hwf
      rw [TypeDeclBody.words] at hlen ⊢
      rw [List.length_append, List.length_cons, List.length_singleton] at hlen
      have hrow : Reads (separated (fieldDecl bound) (symbol ",") bound) fields
          (joined (.sign ",") (fields.map (FieldDecl.words style)) ++
            .sign "\x7d" :: .sign "." :: rest) (.sign "\x7d" :: .sign "." :: rest) := by
        refine separated_reads typeEnds (by decide) (by decide) (by omega) hne
          (fun decl hm hle after => ?_) (.cons (by decide)) (.cons rfl)
        exact fieldDecl_reads (hfields decl hm).2 (by omega)
      rw [List.cons_append, List.cons_append, List.append_assoc]
      exact .orElse_left ((symbol_reads (by decide)).bind
        (hrow.bind ((symbol_reads (by decide)).bind (.pure _ _))))

/-! ## Declarations -/

theorem ReadsUpTo.wordsAt_whole {inner : Parser Term} {t : Term} (h : ReadsUpTo style bound inner)
    (hwf : t.WellFormed) (hlen : (t.wordsAt style .whole).length ≤ bound)
    (hrest : Follow wholeEnds rest) : Reads inner t (t.wordsAt style .whole ++ rest) rest := by
  rw [Term.wordsAt] at hlen ⊢
  cases hw : style.wraps .whole t with
  | true =>
      rw [hw] at hlen
      exact h.part t true hwf (.inl rfl) hlen rest (hrest.mono (by decide))
  | false =>
      rw [hw] at hlen
      exact h.whole t hwf hlen rest hrest

theorem functionDecl_reads {decl : FunctionDecl} (hwf : decl.body.WellFormed)
    (hlen : ((Declaration.function decl).words style).length ≤ bound) :
    Reads (functionDecl bound) (.function decl)
      ((Declaration.function decl).words style ++ rest) rest := by
  obtain ⟨function, params, body⟩ := decl
  rw [Declaration.words, List.length_append, List.length_append, List.length_cons,
    List.length_cons, List.length_map] at hlen
  change params.length + 1 + ((body.wordsAt style .whole).length + 1) + 1 ≤ bound at hlen
  have hname : ∀ x ∈ params, ∀ after, True → Reads name x ([.name x] ++ after) after :=
    fun x _ after _ => name_reads
  have hparams {after : List Word} : Reads (many name bound) params
      (params.map .name ++ .sign "=" :: after) (.sign "=" :: after) := by
    rw [List.map_eq_flatMap]
    exact .many hname (fun _ _ _ => trivial) trivial (name_refuses (by simp [Word.kind])) (by omega)
  have hbody : Reads (term bound) body (body.wordsAt style .whole ++ .sign "." :: rest)
      (.sign "." :: rest) :=
    (term_readsUpTo style bound).wordsAt_whole hwf (by omega) (.cons (by decide))
  rw [Declaration.words, List.append_assoc, List.append_assoc, List.cons_append, List.cons_append]
  exact name_reads.bind (hparams.bind ((symbol_reads (by decide)).bind
    (hbody.bind ((symbol_reads (by decide)).bind (.pure _ _)))))

theorem typeDecl_reads {decl : TypeDecl} (hwf : decl.body.WellFormed)
    (hlen : ((Declaration.type decl).words style).length ≤ bound) :
    Reads (typeDecl bound) (.type decl) ((Declaration.type decl).words style ++ rest) rest := by
  obtain ⟨head, body⟩ := decl
  rw [Declaration.words, List.length_append, List.length_append] at hlen
  have hbody : Reads (orElse (recordType bound) (sumType bound)) body
      (body.words style ++ .sign "." :: rest) (.sign "." :: rest) :=
    typeDeclBody_reads hwf (by simp only [List.length_cons, List.length_nil] at hlen; omega)
  rw [Declaration.words, List.append_assoc, List.append_assoc]
  exact (keyword_reads (by decide)).bind (constructorName_reads.bind
    ((symbol_reads (by decide)).bind (hbody.bind ((symbol_reads (by decide)).bind (.pure _ _)))))

/-- A declaration is read from its words within a bound that is no smaller than
their number. -/
theorem declaration_reads {decl : Declaration} (hwf : decl.WellFormed)
    (hlen : (decl.words style).length ≤ bound) :
    Reads (declaration bound) decl (decl.words style ++ rest) rest := by
  cases decl with
  | type decl => exact .orElse_left (typeDecl_reads hwf.2 hlen)
  | function decl =>
      exact .orElse_right (keyword_refuses (by decide) rfl).bind
        (functionDecl_reads hwf.2.2 hlen)

theorem declaration_refuses_nil : Refuses (declaration bound) [] := by
  have hkeyword : Refuses (keyword "type") [] := by
    refine .token_nil fun previous => ?_
    unfold keywordHere
    split <;> rfl
  have hname : Refuses name [] := .token_nil fun previous => by
    show (if _ then none else none) = none
    exact ite_self _
  exact hkeyword.bind.orElse hname.bind

/-- Every word of a well-formed declaration is one that the grammar knows. -/
theorem Declaration.fits_words {decl : Declaration} (h : decl.WellFormed) :
    FitsAll (decl.words style) := by
  have fullStop : FitsAll [.sign "."] := .cons (Word.fits_sign (by decide)) .nil
  cases decl with
  | type decl =>
      obtain ⟨head, body⟩ := decl
      obtain ⟨hhead, hbody⟩ := h
      refine .append (.append (.cons (Word.fits_keyword (by decide)) (.cons hhead
        (.cons (Word.fits_sign (by decide)) .nil))) ?_) fullStop
      cases body with
      | sum variants =>
          refine .joined (Word.fits_sign (by decide)) fun row hm => ?_
          obtain ⟨variant, hv, rfl⟩ := List.mem_map.1 hm
          obtain ⟨hname, hpayload⟩ := hbody.2 variant hv
          exact .cons hname (.flatMap fun payload hp =>
            .enclose (TypeTerm.fits_words (hpayload payload (Option.mem_toList.1 hp))))
      | record fields =>
          refine .append (.cons (Word.fits_sign (by decide)) ?_)
            (.cons (Word.fits_sign (by decide)) .nil)
          refine .joined (Word.fits_sign (by decide)) fun row hm => ?_
          obtain ⟨field, hf, rfl⟩ := List.mem_map.1 hm
          obtain ⟨hname, htype⟩ := hbody.2 field hf
          exact .cons hname (.cons (Word.fits_sign (by decide))
            (.enclose (TypeTerm.fits_words htype)))
  | function decl =>
      obtain ⟨hname, hparams, hbody⟩ := h
      exact .append (.append (.cons hname (.names hparams)) (.cons (Word.fits_sign (by decide))
        (.enclose (Term.fits_words hbody)))) fullStop

/-! ## Programs -/

theorem Layout.length_le {start : Bool} {ws : List Word} {text : List Char}
    (h : Layout start ws text) (hfits : FitsAll ws) : ws.length ≤ text.length := by
  have pos {w : Word} (hw : w.Fits) : 0 < w.chars.length := by
    obtain ⟨c, rest, hc, -⟩ := Word.chars_cons hw
    rw [hc, List.length_cons]
    omega
  induction h with
  | done => exact Nat.zero_le _
  | touching _ _ ih =>
      obtain ⟨hw, hws⟩ := List.forall_mem_cons.1 hfits
      have hlt := pos hw
      have hle := ih hws
      rw [List.length_cons, List.length_append]
      omega
  | apart _ _ _ _ ih =>
      obtain ⟨hw, hws⟩ := List.forall_mem_cons.1 hfits
      have hlt := pos hw
      have hle := ih hws
      rw [List.length_cons, List.length_append, List.length_append]
      omega

/-- Every program that can be written is read back from every text it is written as,
whatever the blanks and comments between its words are. -/
theorem parseProgram_of_layout (style : Style) {decls : List Declaration} {source : String}
    (hwf : ∀ decl ∈ decls, decl.WellFormed)
    (hlayout : Layout true (decls.flatMap (Declaration.words style)) source.toList) :
    parseProgram source = .ok decls := by
  have hfits : FitsAll (decls.flatMap (Declaration.words style)) :=
    .flatMap fun decl hd => Declaration.fits_words (hwf decl hd)
  have hexpanded := hlayout.expandTabs hfits 0
  have hlen := hexpanded.length_le hfits
  rw [parseProgram, programOf]
  change Layout true _ (Text.expandTabs source.toList) at hexpanded
  change _ ≤ (Text.expandTabs source.toList).length at hlen
  generalize Text.expandTabs source.toList = text at hexpanded hlen
  have hitems : ∀ decl ∈ decls, ∀ after, True →
      Reads (declaration (boundFor text)) decl (decl.words style ++ after) after := by
    intro decl hd after _
    have hle : (decl.words style).length ≤ (decls.flatMap (Declaration.words style)).length :=
      length_le_flatMap hd
    exact declaration_reads (hwf decl hd) (by rw [boundFor]; omega)
  have hcount : decls.length ≤ boundFor text := by
    have hle : decls.length ≤ (decls.flatMap (Declaration.words style)).length := by
      refine length_le_flatMap_of_begins fun decl _ => ⟨fun _ => true, ?_⟩
      cases decl <;> exact .cons rfl
    rw [boundFor]
    omega
  have hat : At (decls.flatMap (Declaration.words style) ++ []) (.start text) := by
    rw [List.append_nil]
    exact ⟨hfits, hexpanded⟩
  obtain ⟨last, hl, hend⟩ :=
    collect_reads hitems (fun _ _ _ => trivial) trivial declaration_refuses_nil hcount hat
  simp only [hl]
  rw [atEnd, hend.skip_nil]
  rfl

/-- The words of a row with a blank before each. -/
def spaced (ws : List Word) : List Char :=
  ws.flatMap fun w => if w.touches then w.chars else ' ' :: w.chars

/-- Every row of words has a layout. -/
theorem Layout.of_spaced {start : Bool} {ws : List Word} {text : List Char}
    (h : text = spaced ws) : Layout start ws text := by
  rw [h]
  clear h
  induction ws generalizing start with
  | nil => exact .done .nil
  | cons w ws ih =>
      rw [spaced, List.flatMap_cons]
      cases ht : w.touches with
      | true => exact .touching ht ih
      | false => exact .apart ht (.blank (by decide) .nil) nofun ih

/-- A name that no keyword begins can be the name of a variable. -/
theorem IsVariable.of_begins {text : String} (h : BeginsAs isNameStart text)
    (hk : ∀ keyword ∈ keywords, ¬ keyword.toList <+: text.toList) : IsVariable text :=
  ⟨h, fun keyword hm behind he => absurd ⟨behind, he.symm⟩ (hk keyword hm)⟩

/-- A function with a selection from a name in parentheses, and a type with a variant
that carries functions. -/
theorem parseProgram_of_layout_selection :
    parseProgram " f x = ( ( x ).y ) + 1 . type T = A | B ( T -> T ) ." =
      .ok [.function ⟨"f", ["x"], .binary .add (.field (.identifier "x") "y") (.integer 1)⟩,
        .type ⟨"T", .sum [⟨"A", none⟩, ⟨"B", some (.function (.name "T") (.name "T"))⟩]⟩] := by
  have hf : IsVariable "f" := .of_begins ⟨'f', [], rfl, rfl, nofun⟩ (by decide)
  have hx : IsVariable "x" := .of_begins ⟨'x', [], rfl, rfl, nofun⟩ (by decide)
  have hT : IsCapital "T" := ⟨'T', [], rfl, rfl, nofun⟩
  have hname : (Term.identifier "x").WellFormed := .leaf rfl ⟨trivial, hx⟩
  have hfield : (Term.field (.identifier "x") "y").WellFormed :=
    .intro ⟨trivial, 'y', [], rfl, rfl, nofun⟩ (List.forall_mem_singleton.2 hname)
  have hadd : Operator.add ∈ Operator.all := by decide
  have hone : (Term.integer 1).WellFormed := .leaf rfl ⟨Int.one_nonneg, trivial⟩
  have hbody : (Term.binary .add (.field (.identifier "x") "y") (.integer 1)).WellFormed :=
    .intro ⟨hadd, trivial⟩
      (List.forall_mem_cons.2 ⟨hfield, List.forall_mem_singleton.2 hone⟩)
  have harrow : (TypeTerm.function (.name "T") (.name "T")).WellFormed :=
    .function (.name hT) (.name hT)
  let style : Style := ⟨fun place _ => place = .target, fun _ _ => false⟩
  refine parseProgram_of_layout style ?_ ?_
  · refine List.forall_mem_cons.2 ⟨⟨hf, List.forall_mem_singleton.2 hx, hbody⟩,
      List.forall_mem_singleton.2 ⟨hT, List.cons_ne_nil _ _, ?_⟩⟩
    refine List.forall_mem_cons.2 ⟨⟨⟨'A', [], rfl, rfl, nofun⟩, nofun⟩,
      List.forall_mem_singleton.2 ⟨⟨'B', [], rfl, rfl, nofun⟩, ?_⟩⟩
    rintro _ ⟨⟩
    exact harrow
  · exact .of_spaced (by decide)

end Fern
