import Fern.Proofs.DataEvaluation
import Fern.Proofs.DeclaredProgram
import Fern.Proofs.FromText

/-!
# Displayed data reads back

The display of data is read as the expression of that data, and from there resolution and evaluation
lead back to the data. What reading needs of the program is that its variants have names with a
capital, which those of every program from a text do.

Two readings of a display are shown together. As all of an expression it is read in any case; as an
atom it is read if it is not the name of a variant with a payload behind it, and it is then that the
display of a payload stands in parentheses.
-/

namespace Fern

open Syntax Fern.Parser

/-! ## Names of variants -/

/-- The variants of a declared body have names with a capital. -/
def TypeDeclBody.Capital : TypeDeclBody → Prop
  | .sum variants => ∀ variant ∈ variants, IsCapital variant.name
  | .record _ => True

def Declaration.Capital : Declaration → Prop
  | .type decl => decl.body.Capital
  | .function _ => True

theorem declaration_yields_capital (bound : Nat) :
    (declaration bound).Yields Declaration.Capital := by
  have hvariant : (variantDecl bound).Yields fun variant => IsCapital variant.name :=
    constructorName_yields.bind fun _ hhead => Yields.any.bind fun _ _ => Yields.pure hhead
  have hsum : (sumType bound).Yields TypeDeclBody.Capital :=
    (hvariant.separated _ bound).bind fun _ hvariants => Yields.pure hvariants.2
  have hrecord : (recordType bound).Yields TypeDeclBody.Capital :=
    Yields.any.bind fun _ _ => Yields.any.bind fun _ _ => Yields.any.bind fun _ _ =>
      Yields.pure trivial
  refine Yields.orElse ?_ ?_
  · refine Yields.any.bind fun _ _ => Yields.any.bind fun _ _ => Yields.any.bind fun _ _ => ?_
    exact (hrecord.orElse hsum).bind fun _ hbody => Yields.any.bind fun _ _ => Yields.pure hbody
  · refine Yields.any.bind fun _ _ => Yields.any.bind fun _ _ => Yields.any.bind fun _ _ => ?_
    exact Yields.any.bind fun _ _ => Yields.any.bind fun _ _ => Yields.pure trivial

theorem isCapital_of_resolve {known taken : List String} {decl : TypeDecl} {def_ : TypeDef}
    (hcapital : decl.body.Capital) (h : decl.resolve known taken = .ok def_) :
    ∀ variant ∈ def_.variants, IsCapital variant.name := by
  unfold TypeDecl.resolve at h
  intro variant hvariant
  split at h
  · next decls hbody =>
    rw [hbody] at hcapital
    simp only [bind_eq_ok, pure_eq_ok] at h
    obtain ⟨variants, hvariants, rfl⟩ := h
    obtain ⟨vdecl, hvdecl, hname, -⟩ :=
      exists_mem_of_forall₂ (resolveVariants_eq_ok.1 hvariants).1 hvariant
    exact hname ▸ hcapital vdecl hvdecl
  · simp only [bind_eq_ok, pure_eq_ok] at h
    obtain ⟨fields, -, rfl⟩ := h
    exact absurd hvariant List.not_mem_nil

/-- The variants of a program from a text have names with a capital, all different. -/
theorem Program.variants_of_ofText? {source : String} {program : Program}
    (h : Program.ofText? source = some program) :
    (∀ def_ ∈ program.types, ∀ variant ∈ def_.variants, IsCapital variant.name) ∧
      (constructorNames program.types).Nodup := by
  obtain ⟨decls, hread, hdecls⟩ := Option.bind_eq_some_iff.1 h
  have hcapital := parseProgram_yields declaration_yields_capital (toOption_eq_some.1 hread)
  have htable := (Declared.of_ofDeclarations (toOption_eq_some.1 hdecls)).table
  refine ⟨fun def_ hdef => ?_, htable.constructors⟩
  obtain ⟨decl, hdecl, hresolve⟩ := exists_mem_of_forall₂ htable.resolved hdef
  exact isCapital_of_resolve (hcapital _ (mem_of_mem_typeDecls hdecl)) hresolve

/-! ## Reading -/

theorem length_le_commaSeparated {text : List Char} {texts : List (List Char)} (h : text ∈ texts) :
    text.length ≤ (commaSeparated texts).length := by
  obtain ⟨first, others, rfl⟩ := List.exists_cons_of_ne_nil (List.ne_nil_of_mem h)
  rw [commaSeparated, List.length_append]
  rcases List.mem_cons.1 h with rfl | h
  · exact Nat.le_add_right _ _
  · have hpart : (',' :: ' ' :: text).length ≤
        (others.flatMap fun text => ',' :: ' ' :: text).length :=
      @length_le_flatMap _ _ (fun text => ',' :: ' ' :: text) others text h
    rw [List.length_cons, List.length_cons] at hpart
    omega

theorem length_le_length_commaSeparated (first : List Char) (others : List (List Char)) :
    others.length ≤ (commaSeparated (first :: others)).length := by
  have hle : others.length ≤ (others.flatMap fun text => ',' :: ' ' :: text).length :=
    length_le_flatMap_of_ne_nil fun _ _ => List.cons_ne_nil _ _
  rw [commaSeparated, List.length_append]
  omega

theorem not_mem_commaSeparated {c : Char} (hcomma : c ≠ ',') (hblank : c ≠ ' ')
    {texts : List (List Char)} (h : ∀ text ∈ texts, c ∉ text) : c ∉ commaSeparated texts := by
  cases texts with
  | nil => exact List.not_mem_nil
  | cons first others =>
      obtain ⟨hfirst, hothers⟩ := List.forall_mem_cons.1 h
      intro hm
      rcases List.mem_append.1 hm with hm | hm
      · exact hfirst hm
      · obtain ⟨text, htext, hm⟩ := List.mem_flatMap.1 hm
        simp only [List.mem_cons, hcomma, hblank, false_or] at hm
        exact hothers text htext hm

namespace Value

section Reading

variable {program : Program} {v : Value}

/-- The display of a value is read as its expression, within a bound no smaller than its length, as
all of an expression and, unless it takes a payload along, as an atom. -/
structure ReadsBack (types : List TypeDef) (v : Value) : Prop where
  begins : BeginsData (v.chars types)
  term : ∀ bound, (v.chars types).length ≤ bound →
    ReadsText (Syntax.term bound) (v.toTerm types) (v.chars types)
  atom : v.isLoadedVariant = false → ∀ bound, (v.chars types).length ≤ bound + 1 →
    ReadsText (Syntax.atom (bound + 1) (Syntax.term bound)) (v.toTerm types) (v.chars types)

variable {types : List TypeDef}

/-- What is read as an atom is read as all of an expression. -/
theorem ReadsBack.of_atom (hbegins : BeginsData (v.chars types))
    (hatom : ∀ bound, (v.chars types).length ≤ bound + 1 →
      ReadsText (Syntax.atom (bound + 1) (Syntax.term bound)) (v.toTerm types) (v.chars types)) :
    ReadsBack types v := by
  refine ⟨hbegins, fun bound hbound => ?_, fun _ => hatom⟩
  have hpos := List.length_pos_iff.2 hbegins.ne_nil
  obtain ⟨bound, rfl⟩ : ∃ k, bound = k + 1 := ⟨bound - 1, by omega⟩
  exact (hatom bound hbound).term

theorem ReadsBack.unit : ReadsBack types .unit := by
  have hchars : "()".toList = ['(', ')'] := by decide
  exact .of_atom ⟨'(', [')'], hchars, rfl⟩ fun _ _ => readsText_unit

theorem ReadsBack.integer {n : Int} (hpos : 0 ≤ n) : ReadsBack types (.integer n) := by
  obtain ⟨c, others, hdigits⟩ :=
    List.exists_cons_of_ne_nil (Nat.toDigits_ne_nil (n := n.toNat) (b := 10))
  have hc : c.isDigit := isDigit_of_mem_toDigits (hdigits ▸ List.mem_cons_self)
  have hbegins : BeginsData (Nat.toDigits 10 n.toNat) :=
    ⟨c, others, hdigits, by simp [opensData, hc]⟩
  rw [← chars_integer hpos] at hbegins
  refine .of_atom hbegins fun bound _ => ?_
  have hread : ReadsText (Syntax.atom (bound + 1) (Syntax.term bound)) (.integer n.toNat)
      (Nat.toDigits 10 n.toNat) := readsText_number n.toNat
  rwa [Int.toNat_of_nonneg hpos, ← chars_integer hpos] at hread

theorem ReadsBack.string {text : String} (h : '\r' ∉ text.toList) :
    ReadsBack types (.string text) := by
  refine .of_atom ⟨'"', _, chars_string h, rfl⟩ fun bound _ => ?_
  rw [chars_string h]
  exact readsText_literal text

theorem ReadsBack.tuple {items : List Value} (hsize : 2 ≤ items.length)
    (h : ∀ item ∈ items, ReadsBack types item) : ReadsBack types (.tuple items) := by
  obtain ⟨first, second, others, rfl⟩ :
      ∃ first second others, items = first :: second :: others := by
    match items, hsize with
    | first :: second :: others, _ => exact ⟨first, second, others, rfl⟩
  have hfirst := (h first List.mem_cons_self).begins
  refine .of_atom ⟨'(', _, chars_tuple _, rfl⟩ fun bound hbound => ?_
  have hterm : (Value.tuple (first :: second :: others)).toTerm types =
      parenthesized ((first :: second :: others).map (toTerm types)) := by
    rw [toTerm, allToTerm_eq_map]
    rfl
  rw [chars_tuple] at hbound ⊢
  rw [List.length_append, List.length_cons, List.length_singleton] at hbound
  rw [hterm]
  refine readsText_parenthesized (term_skips bound) (fun item hitem => ?_) ?_ hfirst.visible
    hfirst.ne_nil
  · have hle := length_le_commaSeparated (List.mem_map_of_mem (f := chars types) hitem)
    exact (h item hitem).term bound (by omega)
  · have hle := length_le_length_commaSeparated (first.chars types)
      ((second :: others).map (chars types))
    rw [List.length_map] at hle
    rw [List.map_cons] at hbound
    omega

/-- A payload is read as an atom, in parentheses if it takes a payload along itself. -/
theorem ReadsBack.payload (h : ReadsBack types v) {bound : Nat}
    (hbound : (if v.isLoadedVariant then '(' :: v.chars types ++ [')'] else v.chars types).length ≤
      bound + 1) :
    ReadsText (Syntax.atom (bound + 1) (Syntax.term bound)) (v.toTerm types)
      (if v.isLoadedVariant then '(' :: v.chars types ++ [')'] else v.chars types) := by
  cases hloaded : v.isLoadedVariant with
  | false =>
      rw [hloaded, if_neg Bool.false_ne_true] at hbound
      rw [if_neg Bool.false_ne_true]
      exact h.atom hloaded bound hbound
  | true =>
      rw [hloaded, if_pos rfl, List.length_append, List.length_cons,
        List.length_singleton] at hbound
      rw [if_pos rfl]
      have hread : ReadsText (Syntax.atom (bound + 1) (Syntax.term bound))
          (parenthesized ([v].map (toTerm types)))
          ('(' :: commaSeparated ([v].map (chars types)) ++ [')']) := by
        refine readsText_parenthesized (term_skips bound) (fun item hitem => ?_) (Nat.zero_le _)
          h.begins.visible h.begins.ne_nil
        cases List.mem_singleton.1 hitem
        exact h.term bound (by omega)
      have hchars : commaSeparated ([v].map (chars types)) = v.chars types := List.append_nil _
      rwa [hchars] at hread

section Variants

variable {handle : TypeHandle} {index : Int}

theorem beginsData_of_isCapital {name : String} (h : IsCapital name) (more : List Char) :
    BeginsData (name.toList ++ more) := by
  obtain ⟨c, others, hc, hupper, -⟩ := h
  exact ⟨c, others ++ more, by rw [hc]; rfl, by simp [opensData, hupper]⟩

theorem ReadsBack.bare (hname : IsCapital (variantName types handle index)) :
    ReadsBack types (.variant handle index .unit) := by
  have hbegins := beginsData_of_isCapital hname []
  rw [List.append_nil, ← chars_bare] at hbegins
  refine .of_atom hbegins fun bound _ previous rest hrest => ?_
  refine atom_of_constructorName hname (fun d hd => ?_) previous
  rcases hrest d hd with rfl | rfl <;> rfl

theorem ReadsBack.loaded {payload : Value} (hname : IsCapital (variantName types handle index))
    (hunit : payload.isUnit = false) (h : ReadsBack types payload) :
    ReadsBack types (.variant handle index payload) := by
  have hterm : (Value.variant handle index payload).toTerm types =
      .apply (.constructor (variantName types handle index)) [payload.toTerm types] := by
    rw [toTerm, if_neg (by rw [hunit]; decide)]
  refine ⟨?_, fun bound hbound => ?_, fun hbare => ?_⟩
  · rw [chars_loaded _ _ hunit]
    exact beginsData_of_isCapital hname _
  · rw [chars_loaded _ _ hunit] at hbound ⊢
    rw [List.length_append, List.length_cons] at hbound
    obtain ⟨bound, rfl⟩ : ∃ k, bound = k + 1 := ⟨bound - 1, by omega⟩
    rw [hterm]
    exact .apply hname (h.payload (by omega))
  · rw [isLoadedVariant, hunit] at hbare
    cases hbare

end Variants

section Capitals

variable (hcapital : ∀ def_ ∈ program.types, ∀ variant ∈ def_.variants, IsCapital variant.name)

include hcapital

theorem isCapital_variantName {place index : Nat} {def_ : TypeDef} {variant : Variant}
    (hdef : program.types[place]? = some def_) (hvariant : def_.variants[index]? = some variant) :
    IsCapital (variantName program.types ⟨place, def_.name⟩ index) := by
  rw [variantName_of_getElem? hdef hvariant]
  exact hcapital def_ (List.mem_of_getElem? hdef) variant (List.mem_of_getElem? hvariant)

/-- The display of data reads back if the names of variants have a capital. -/
theorem IsData.readsBack (h : v.IsData program) : ReadsBack program.types v := by
  induction h with
  | unit => exact .unit
  | integer hpos _ => exact .integer hpos
  | string htext => exact .string htext
  | tuple hsize _ ih => exact .tuple hsize ih
  | bare hdef hvariant => exact .bare (isCapital_variantName hcapital hdef hvariant)
  | loaded hdef hvariant _ _ hunit ih =>
      exact .loaded (isCapital_variantName hcapital hdef hvariant) hunit ih

/-- No tab stands in the display of data, so expanding tabs leaves it as it is. -/
theorem IsData.tab_not_mem (h : v.IsData program) : '\t' ∉ v.chars program.types := by
  have named {name : String} (hname : IsCapital name) : '\t' ∉ name.toList :=
    @Word.tab_not_mem (.constructor name) hname
  induction h with
  | unit =>
      rw [chars_unit]
      decide
  | @integer n hpos _ =>
      rw [chars_integer hpos]
      exact @Word.tab_not_mem (.number n.toNat) trivial
  | @string text htext =>
      rw [chars_string htext]
      exact @Word.tab_not_mem (.literal text) trivial
  | @tuple items _ _ ih =>
      have hitems : '\t' ∉ commaSeparated (items.map (chars program.types)) := by
        refine not_mem_commaSeparated (by decide) (by decide) fun text htext => ?_
        obtain ⟨item, hitem, rfl⟩ := List.mem_map.1 htext
        exact ih item hitem
      rw [chars_tuple]
      simp [hitems]
  | bare hdef hvariant =>
      rw [chars_bare]
      exact named (isCapital_variantName hcapital hdef hvariant)
  | loaded hdef hvariant _ _ hunit ih =>
      have hname := named (isCapital_variantName hcapital hdef hvariant)
      rw [chars_loaded _ _ hunit]
      split <;> simp [hname, ih]

theorem IsData.parseExpression (h : v.IsData program) :
    Syntax.parseExpression (v.format program.types) = .ok (v.toTerm program.types) := by
  have htabs : Text.expandTabs (v.format program.types).toList = v.chars program.types :=
    Text.expandTabsFrom_of_not_mem (h.tab_not_mem hcapital) 0
  have hbound : (v.chars program.types).length ≤ boundFor (v.chars program.types) := Nat.le_succ _
  obtain ⟨last, hlast⟩ :=
    (h.readsBack hcapital).term (boundFor (v.chars program.types)) hbound none [] closing_nil
  rw [List.append_nil] at hlast
  rw [Syntax.parseExpression, htabs, expressionOf, Cursor.start, hlast]
  rfl

end Capitals

end Reading

end Value

/-- Data of a program from a text is displayed by the text of an expression of that program, whose
value it is. -/
theorem displayed_data_reads_back {source : String} {program : Program}
    (hprogram : Program.ofText? source = some program) {v : Value} (hv : v.IsData program) :
    ∃ t e, Syntax.parseExpression (v.format program.types) = .ok t ∧
      program.resolveTerm t = .ok e ∧
      ∀ files debug limit, v.depth ≤ limit → ∃ console,
        ((⟨program, files, debug⟩ : Context).eval limit [] e).run {} = .ok v console ∧
          console.output = "" := by
  obtain ⟨hcapital, hnames⟩ := Program.variants_of_ofText? hprogram
  obtain ⟨e, he, hmakes⟩ := @Value.IsData.resolve program { program } hnames rfl v hv
  refine ⟨v.toTerm program.types, e, hv.parseExpression hcapital, he, ?_⟩
  intro files debug limit hlimit
  exact hmakes files debug limit hlimit [] {}

/-- A tuple of a variant inside another one, a variant without payload and a text. -/
theorem displayed_data_reads_back_options :
    ∃ program, Program.ofText? "type Opt = Some Int | None." = some program ∧
      let some' : Value → Value := .variant ⟨0, "Opt"⟩ 0
      let v : Value := .tuple [some' (some' (.integer 3)), .variant ⟨0, "Opt"⟩ 1 .unit,
        .string "a\tb"]
      v.format program.types = "(Some (Some 3), None, \"a\\tb\")" ∧
        ∃ t e, Syntax.parseExpression (v.format program.types) = .ok t ∧
          program.resolveTerm t = .ok e ∧
          ∀ files debug limit, 4 ≤ limit → ∃ console,
            ((⟨program, files, debug⟩ : Context).eval limit [] e).run {} = .ok v console ∧
              console.output = "" := by
  let some' : Value → Value := .variant ⟨0, "Opt"⟩ 0
  let v : Value := .tuple [some' (some' (.integer 3)), .variant ⟨0, "Opt"⟩ 1 .unit, .string "a\tb"]
  have htest : (Program.ofText? "type Opt = Some Int | None.").any fun program =>
      program.types[0]?.any (fun def_ => def_.name = "Opt" &&
        def_.variants[0]?.any (·.payload.isSome) && def_.variants[1]?.any (·.payload.isNone)) &&
      v.format program.types = "(Some (Some 3), None, \"a\\tb\")" := by
    decide +kernel
  obtain ⟨program, hprogram, htest⟩ := exists_of_any htest
  simp only [Bool.and_eq_true, decide_eq_true_eq] at htest
  obtain ⟨htypes, hformat⟩ := htest
  obtain ⟨def_, hdef, hvariants⟩ := exists_of_any htypes
  simp only [Bool.and_eq_true, decide_eq_true_eq] at hvariants
  obtain ⟨⟨hname, hfirst⟩, hsecond⟩ := hvariants
  obtain ⟨first, hfirst, hsome⟩ := exists_of_any hfirst
  obtain ⟨second, hsecond, hnone⟩ := exists_of_any hsecond
  have hnone : second.payload = none := Option.isNone_iff_eq_none.1 hnone
  have hloaded {payload : Value} (hpayload : payload.IsData program)
      (hunit : payload.isUnit = false) : (some' payload).IsData program := by
    have hdata := Value.IsData.loaded hdef hfirst hsome hpayload hunit
    rwa [hname] at hdata
  have hbare : (Value.variant ⟨0, "Opt"⟩ 1 .unit).IsData program := by
    have hdata := Value.IsData.bare hdef hsecond hnone
    rwa [hname] at hdata
  have hdata : v.IsData program := by
    refine .tuple (by decide) fun item hitem => ?_
    simp only [List.mem_cons, List.not_mem_nil, or_false] at hitem
    rcases hitem with rfl | rfl | rfl
    · exact hloaded (hloaded (.integer (by decide) (by decide)) rfl) rfl
    · exact hbare
    · exact .string (by decide)
  exact ⟨program, hprogram, hformat, displayed_data_reads_back hprogram hdata⟩

end Fern
