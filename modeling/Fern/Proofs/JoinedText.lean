import Fern.Proofs.BoundedReading
import Fern.Proofs.LocalDeclarations
import Fern.Syntax.Parse

/-!
# Programs one behind the other

Two texts that are programs are one program when a line feed stands between them: that of the
declarations of the first and then those of the second. The first is read as it was, because nothing
comes to touch its last full stop; behind that there are blanks and comments, and the line feed ends
the last of these. If the second text is no program, reading goes as far in it as it did alone.

A reading of a text is a row of declarations from its start to a place behind which, blanks and
comments passed, there is nothing or something that is no declaration. Rows know no bounds, which
makes them easy to put together.
-/

namespace Fern

namespace Syntax

open Fern.Parser

theorem declaration_progresses (bound : Nat) : (declaration bound).Progresses :=
  (declaration_coincides (Nat.zero_le bound) (Nat.zero_le bound)).progresses

/-! ## Blanks and comments -/

/-- Nothing but blanks and comments is left at a place. -/
def Blank (c : Cursor) : Prop := c.skip.rest = []

/-- What is left at a place does not depend on what stands before it. -/
theorem Blank.of_rest_eq {c c' : Cursor} (h : Blank c) (hrest : c'.rest = c.rest) : Blank c' := by
  obtain ⟨previous, text⟩ := c
  obtain ⟨previous', text'⟩ := c'
  cases hrest
  cases text with
  | nil => rfl
  | cons x rest =>
      unfold Blank Cursor.skip Cursor.skipFrom at h ⊢
      split at h
      · next hx => rwa [if_pos hx]
      · next hx =>
        rw [if_neg hx]
        rw [if_neg Bool.false_ne_true] at h ⊢
        split at h
        · next hb => rwa [if_pos hb]
        · next hb =>
          rw [if_neg hb]
          split at h
          · next hh => rwa [if_pos hh]
          · cases h

/-- Behind blanks and comments at the end of a text, nothing makes a selector of the full stop that
stands before them if what is added does not. -/
theorem Blank.noSelector {c : Cursor} (h : Blank c) {more : List Char} (hmore : NoSelector more) :
    NoSelector (c.rest ++ more) := by
  obtain ⟨previous, text⟩ := c
  cases text with
  | nil => exact hmore
  | cons x rest =>
      intro y hy
      cases hy
      rw [Blank, Cursor.skip, Cursor.skipFrom] at h
      split at h
      · next hx => subst hx; decide
      · rw [if_neg Bool.false_ne_true] at h
        split at h
        · next hx =>
          simp only [Bool.or_eq_true, decide_eq_true_eq] at hx
          rcases hx with (rfl | rfl) | rfl <;> decide
        · split at h
          · next hx => subst hx; decide
          · cases h

/-- A line feed ends whatever comment stands at the end of a text. -/
theorem skipFrom_line_feed {inComment : Bool} {previous : Option Char} {text : List Char}
    (h : (Cursor.skipFrom inComment previous text).rest = []) (more : List Char) :
    Cursor.skipFrom inComment previous (text ++ '\n' :: more) =
      Cursor.skipFrom false (some '\n') more := by
  induction text generalizing inComment previous with
  | nil => rw [List.nil_append, Cursor.skipFrom, if_pos rfl]
  | cons x rest ih =>
      unfold Cursor.skipFrom at h
      rw [List.cons_append, Cursor.skipFrom]
      split at h
      · next hx => rw [if_pos hx, ih h]
      · next hx =>
        rw [if_neg hx]
        split at h
        · next hi => rw [if_pos hi, ih h]
        · next hi =>
          rw [if_neg hi]
          split at h
          · next hb => rw [if_pos hb, ih h]
          · next hb =>
            rw [if_neg hb]
            split at h
            · next hh => rw [if_pos hh, ih h]
            · cases h

/-! ## Whole texts -/

/-- From a place on there are declarations up to a rest that is none and begins with no blank. -/
def Reaches (bound : Nat) (c : Cursor) (decls : List Declaration) (rest : List Char) : Prop :=
  ∃ last, Row (declaration bound) c decls last ∧ last.skip.rest = rest

/-- From a place on there are declarations up to the end of the text. -/
def ReadsWhole (bound : Nat) (c : Cursor) (decls : List Declaration) : Prop :=
  ∃ last, Row (declaration bound) c decls last ∧ Blank last

theorem Reaches.programOf_eq {text rest : List Char} {decls : List Declaration}
    (h : Reaches (boundFor text) (.start text) decls rest) :
    programOf text =
      if rest.isEmpty then .ok decls else .error (.leftover (text.length - rest.length)) := by
  obtain ⟨last, hrow, rfl⟩ := h
  have hb : (Cursor.start text).rest.length ≤ boundFor text := Nat.le_succ _
  unfold programOf
  rw [hrow.collect_eq (declaration_progresses _) hb]
  rfl

theorem exists_reaches (text : List Char) :
    ∃ decls rest, Reaches (boundFor text) (.start text) decls rest := by
  have hb : (Cursor.start text).rest.length ≤ boundFor text := Nat.le_succ _
  exact ⟨_, _, _, row_of_collect (declaration_progresses _) hb rfl, rfl⟩

theorem programOf_eq_ok {text : List Char} {decls : List Declaration} :
    programOf text = .ok decls ↔ ReadsWhole (boundFor text) (.start text) decls := by
  constructor
  · intro h
    obtain ⟨all, rest, hr⟩ := exists_reaches text
    rw [hr.programOf_eq] at h
    split at h
    · next hrest =>
      cases h
      obtain rfl := List.isEmpty_iff.1 hrest
      exact hr
    · cases h
  · intro h
    have hr : Reaches (boundFor text) (.start text) decls [] := h
    exact hr.programOf_eq

theorem programOf_eq_error {text : List Char} {fault : ParseFault} :
    programOf text = .error fault ↔
      ∃ decls rest, Reaches (boundFor text) (.start text) decls rest ∧ rest ≠ [] ∧
        fault = .leftover (text.length - rest.length) := by
  constructor
  · intro h
    obtain ⟨all, rest, hr⟩ := exists_reaches text
    rw [hr.programOf_eq] at h
    split at h
    · cases h
    · next hrest =>
      cases h
      exact ⟨all, rest, hr, fun he => hrest (List.isEmpty_iff.2 he), rfl⟩
  · rintro ⟨decls, rest, hr, hne, rfl⟩
    rw [hr.programOf_eq, if_neg (fun he => hne (List.isEmpty_iff.1 he))]

/-- Declarations are read in the same way behind anything that a keyword may follow. -/
theorem Reaches.of_behind {bound bound' : Nat} {c c' : Cursor} {decls : List Declaration}
    {rest : List Char} (h : Reaches bound c decls rest) (hc : Behind c c')
    (hb : c.rest.length < bound) (hb' : c.rest.length < bound') :
    Reaches bound' c' decls rest := by
  obtain ⟨last, hrow, rfl⟩ := h
  induction hrow generalizing c' with
  | done hnone => exact ⟨c', .done ((declaration_eq hc hb hb').symm.trans hnone), hc.skip.rest.symm⟩
  | item hsome _ ih =>
      have hlt := declaration_progresses _ _ _ _ hsome
      obtain ⟨last', hrow', hlast⟩ := ih ⟨rfl, rfl⟩ (by omega) (by omega)
      exact ⟨last', .item ((declaration_eq hc hb hb').symm.trans hsome) hrow', hlast⟩

/-- Where a reading starts among the blanks before its first declaration does not matter. -/
theorem Reaches.of_skip_eq {bound : Nat} {c c' : Cursor} {decls : List Declaration}
    {rest : List Char} (h : Reaches bound c decls rest) (hskip : c'.skip = c.skip) :
    Reaches bound c' decls rest := by
  have hsame : declaration bound c' = declaration bound c := by
    rw [← declaration_skips, hskip, declaration_skips]
  obtain ⟨last, hrow, rfl⟩ := h
  cases hrow with
  | done hnone => exact ⟨c', .done (hsame.trans hnone), by rw [hskip]⟩
  | item hsome hrest => exact ⟨last, .item (hsame.trans hsome) hrest, rfl⟩

/-- A row of declarations ends behind a full stop. -/
theorem full_stop_of_row {bound : Nat} {c last : Cursor} {decls : List Declaration}
    (h : Row (declaration bound) c decls last) (hb : c.rest.length ≤ bound) (hne : decls ≠ []) :
    ∃ u, Balanced u ∧ c.rest = u ++ '.' :: last.rest := by
  induction h with
  | done => exact absurd rfl hne
  | @item decl decls c mid last hdecl hrow ih =>
      have hlt := declaration_progresses _ _ _ _ hdecl
      obtain ⟨u, hu, hc, -⟩ := declaration_in_front hdecl hb
      cases hrow with
      | done => exact ⟨u, hu, hc⟩
      | item =>
          obtain ⟨v, hv, hlast⟩ := ih (by omega) (List.cons_ne_nil _ _)
          refine ⟨u ++ '.' :: v, hu.append (.bare (by decide) hv), ?_⟩
          rw [hc, hlast, List.append_assoc, List.cons_append]

/-- Declarations are read in front of any other text that does not come to touch the last full stop,
and behind them what is read there. -/
theorem reaches_in_front {bound : Nat} {c last : Cursor} {decls : List Declaration}
    (h : Row (declaration bound) c decls last) (hb : c.rest.length ≤ bound) :
    ∃ u, c.rest = u ++ last.rest ∧ ∀ c' more bound' others rest,
      SameFront u last.rest more c c' → c'.rest.length ≤ bound' →
      (∀ e : Cursor, e.rest = more → Reaches bound' e others rest) →
      Reaches bound' c' (decls ++ others) rest := by
  induction h with
  | done => exact ⟨[], rfl, fun c' _ _ _ _ hsame _ hothers => hothers c' hsame.rest'⟩
  | @item decl decls c mid last hdecl _ ih =>
      have hlt := declaration_progresses _ _ _ _ hdecl
      obtain ⟨u, -, hu, hfront⟩ := declaration_in_front hdecl hb
      have hc : c.rest = u ++ ['.'] ++ mid.rest := by
        rw [hu, List.append_assoc, List.singleton_append]
      obtain ⟨v, hv, hbehind⟩ := ih (by omega)
      have hmid := previous_of_declaration hdecl hb
      refine ⟨u ++ ['.'] ++ v, by rw [hc, hv, ← List.append_assoc],
        fun c' more bound' others rest hsame hb' hothers => ?_⟩
      have hrest : c'.rest = u ++ ['.'] ++ (v ++ more) := by rw [hsame.rest', List.append_assoc]
      have hselector : NoSelector mid.rest → NoSelector (v ++ more) :=
        fun hs => (hv ▸ hs).append hsame.selector
      have hread := hfront c' (v ++ more) bound' ⟨hc, hrest, hsame.previous, hselector⟩ hb'
      rw [hrest, List.length_append] at hb'
      obtain ⟨last', hrow', hlast'⟩ := hbehind ⟨some '.', v ++ more⟩ more bound' others rest
        ⟨hv, rfl, by rw [hmid], hsame.selector⟩ (Nat.le_trans (Nat.le_add_left _ _) hb') hothers
      exact ⟨last', .item hread hrow', hlast'⟩

/-- Declarations that end a text are read in front of a longer one too, up to what is left of the
first. -/
theorem ReadsWhole.append {bound bound' : Nat} {c c' : Cursor} {decls others : List Declaration}
    {more rest : List Char} (h : ReadsWhole bound c decls) (hrest : c'.rest = c.rest ++ more)
    (hprevious : c.previous.any isKeywordChar = c'.previous.any isKeywordChar)
    (hmore : NoSelector more) (hb : c.rest.length ≤ bound) (hb' : c'.rest.length ≤ bound')
    (hothers : ∀ last e, Blank last → e.rest = last.rest ++ more → Reaches bound' e others rest) :
    Reaches bound' c' (decls ++ others) rest := by
  obtain ⟨last, hrow, hlast⟩ := h
  obtain ⟨u, hu, hfront⟩ := reaches_in_front hrow hb
  have hrest' : c'.rest = u ++ (last.rest ++ more) := by rw [hrest, hu, List.append_assoc]
  exact hfront c' (last.rest ++ more) bound' others rest
    ⟨hu, hrest', hprevious, fun _ => hlast.noSelector hmore⟩ hb' fun e => hothers last e hlast

/-- Behind a program and a line feed, a text is read as far as it is read alone. -/
theorem reaches_append {before behind rest : List Char} {decls others : List Declaration}
    (h : programOf before = .ok decls)
    (ho : Reaches (boundFor behind) (.start behind) others rest) :
    Reaches (boundFor (before ++ '\n' :: behind)) (.start (before ++ '\n' :: behind))
      (decls ++ others) rest := by
  have line : NoSelector ('\n' :: behind) := by
    intro c hc
    cases hc
    decide
  have hbound : behind.length < boundFor (before ++ '\n' :: behind) := by
    rw [boundFor, List.length_append, List.length_cons]
    omega
  have hsecond : Reaches (boundFor (before ++ '\n' :: behind)) ⟨some '\n', behind⟩ others rest :=
    ho.of_behind ⟨rfl, rfl⟩ (Nat.lt_succ_self _) hbound
  refine (programOf_eq_ok.1 h).append rfl rfl line (Nat.le_succ _) (Nat.le_succ _)
    fun last e hlast he => hsecond.of_skip_eq ?_
  have hleft : Blank ⟨e.previous, last.rest⟩ := hlast.of_rest_eq rfl
  rw [Cursor.skip, he, skipFrom_line_feed hleft]
  rfl

/-- Two programs with a line feed between them are one. -/
theorem programOf_append {before behind : List Char} {decls others : List Declaration}
    (h : programOf before = .ok decls) (ho : programOf behind = .ok others) :
    programOf (before ++ '\n' :: behind) = .ok (decls ++ others) :=
  programOf_eq_ok.2 (reaches_append h (programOf_eq_ok.1 ho))

theorem expandTabs_append (before behind : List Char) :
    Text.expandTabs (before ++ '\n' :: behind) =
      Text.expandTabs before ++ '\n' :: Text.expandTabs behind := by
  obtain ⟨next, h⟩ := expandTabsFrom_append 0 before ('\n' :: behind)
  rw [Text.expandTabs, h, Text.expandTabsFrom, if_neg (by decide), if_pos (by decide)]
  rfl

theorem expandTabs_line (before behind : String) :
    Text.expandTabs (before ++ "\n" ++ behind).toList =
      Text.expandTabs before.toList ++ '\n' :: Text.expandTabs behind.toList := by
  rw [String.toList_append, String.toList_append, List.append_assoc]
  exact expandTabs_append before.toList behind.toList

theorem parseProgram_append {before behind : String} {decls others : List Declaration}
    (h : parseProgram before = .ok decls) (ho : parseProgram behind = .ok others) :
    parseProgram (before ++ "\n" ++ behind) = .ok (decls ++ others) := by
  rw [parseProgram, expandTabs_line]
  exact programOf_append h ho

theorem parseProgram_empty : parseProgram "" = .ok [] := rfl

/-- A program that is added as the last of some texts joined by line feeds adds its declarations. -/
theorem parseProgram_intercalate_concat {texts : List String} {text : String}
    {decls others : List Declaration} (h : parseProgram ("\n".intercalate texts) = .ok decls)
    (ho : parseProgram text = .ok others) :
    parseProgram ("\n".intercalate (texts ++ [text])) = .ok (decls ++ others) := by
  by_cases hne : texts = []
  · subst hne
    rw [String.intercalate_nil, parseProgram_empty] at h
    cases h
    rw [List.nil_append, String.intercalate_singleton, ho, List.nil_append]
  · rw [String.intercalate_append_of_ne_nil hne (List.cons_ne_nil _ _),
      String.intercalate_singleton]
    exact parseProgram_append h ho

end Syntax

end Fern
