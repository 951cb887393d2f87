import Fern.Proofs.TermReading

/-!
# Reading types

The words of a type are read as that type. Types have two levels only, and an
arrow is never behind a type that is all of something, so that there is nothing
to be said about places.
-/

namespace Fern

open Syntax Fern.Parser

variable {style : Style} {bound n : Nat} {inner : Parser TypeTerm} {t : TypeTerm}
  {ws rest : List Word}

/-! ## The words of types -/

/-- The words that stand behind types. -/
def typeEnds : List Word := [.sign ")", .sign ",", .sign "\x7d", .sign "|", .sign "."]

theorem TypeTerm.wordsAll_eq (items : List TypeTerm) :
    TypeTerm.wordsAll style items = items.map (TypeTerm.wordsAt style .part) := by
  induction items with
  | nil => rw [TypeTerm.wordsAll, List.map_nil]
  | cons t items ih => rw [TypeTerm.wordsAll, ih, List.map_cons, TypeTerm.wordsAt]

/-- Every word of a well-formed type is one that the grammar knows. -/
theorem TypeTerm.fits_words (h : t.WellFormed) : FitsAll (t.words style) := by
  induction h with
  | name hname => exact .cons hname .nil
  | @tuple items _ _ ih =>
      rw [words, wordsAll_eq]
      refine .append (.cons (Word.fits_sign (by decide)) (.joined (Word.fits_sign (by decide)) ?_))
        (.cons (Word.fits_sign (by decide)) .nil)
      intro row hrow
      obtain ⟨item, hitem, rfl⟩ := List.mem_map.1 hrow
      exact .enclose (ih item hitem)
  | function _ _ ihparam ihresult =>
      exact .append (.enclose ihparam) (.cons (Word.fits_sign (by decide)) (.enclose ihresult))

theorem TypeTerm.words_pos (style : Style) (h : t.WellFormed) : 0 < (t.words style).length := by
  cases h with
  | name => exact Nat.zero_lt_one
  | tuple =>
      rw [words, List.length_append, List.length_cons]
      omega
  | function =>
      rw [words, List.length_append, List.length_cons]
      omega

/-! ## Reading them -/

/-- A parser reads the types that are well formed and have at most a number of words. -/
def TypesUpTo (style : Style) (n : Nat) (inner : Parser TypeTerm) : Prop :=
  ∀ t wrap, t.WellFormed → (enclose wrap (t.words style)).length ≤ n → ∀ rest,
    Follow typeEnds rest → Reads inner t (enclose wrap (t.words style) ++ rest) rest

theorem typeAtom_reads_parenthesized {items : List TypeTerm}
    (h : Reads (separated inner (symbol ",") bound) items ws (.sign ")" :: rest)) :
    Reads (typeAtom bound inner) (parenthesizedType items) (.sign "(" :: ws) rest := by
  have hrefuses : Refuses constructorName (.sign "(" :: ws) :=
    constructorName_refuses (by simp [Word.kind])
  refine .orElse_right hrefuses.bind ?_
  exact (symbol_reads (by decide)).bind (h.bind ((symbol_reads (by decide)).bind (.pure _ _)))

/-- What stands as an atom is read as one. -/
theorem typeAtom_reads (h : TypesUpTo style n inner) (hwf : t.WellFormed) {wrap : Bool}
    (hatom : wrap = true ∨ t.isCompound = false)
    (hlen : (enclose wrap (t.words style)).length ≤ n + 1)
    (hbound : (enclose wrap (t.words style)).length ≤ bound) :
    Reads (typeAtom bound inner) t (enclose wrap (t.words style) ++ rest) rest := by
  cases wrap with
  | true =>
      rw [enclose, if_pos rfl, List.length_append, List.length_cons, List.length_singleton] at hlen
      rw [enclose, if_pos rfl, List.cons_append, List.cons_append, List.append_assoc]
      have hread : Reads inner t (enclose false (t.words style) ++ .sign ")" :: rest)
          (.sign ")" :: rest) := by
        refine h t false hwf ?_ _ (.cons (by decide))
        show (t.words style).length ≤ n
        omega
      exact typeAtom_reads_parenthesized
        (.separated_single hread (symbol_refuses (by decide) rfl))
  | false =>
      have hc := hatom.resolve_left Bool.false_ne_true
      rw [enclose, if_neg Bool.false_ne_true] at hlen hbound ⊢
      cases hwf with
      | name => exact .orElse_left (constructorName_reads.bind (.pure _ _))
      | @tuple items hsize hitems =>
          have hne : items ≠ [] := List.ne_nil_of_length_pos (by omega)
          rw [TypeTerm.words, TypeTerm.wordsAll_eq] at hlen hbound ⊢
          rw [List.length_append, List.length_cons, List.length_singleton] at hlen hbound
          have hrow : Reads (separated inner (symbol ",") bound) items
              (joined (.sign ",") (items.map (TypeTerm.wordsAt style .part)) ++ .sign ")" :: rest)
              (.sign ")" :: rest) := by
            refine separated_reads typeEnds (by decide) (by decide) (by omega) hne
              (fun item hm hle => ?_) (.cons (by decide)) (.cons rfl)
            refine h item _ (hitems item hm) ?_
            show (item.wordsAt style .part).length ≤ n
            omega
          have hread := typeAtom_reads_parenthesized hrow
          have hnode : parenthesizedType items = .tuple items := by
            cases items with
            | nil => cases hsize
            | cons first rest =>
                cases rest with
                | nil => cases Nat.le_of_succ_le_succ hsize
                | cons second rest => rfl
          rw [hnode] at hread
          rw [List.cons_append, List.cons_append, List.append_assoc]
          exact hread
      | function => cases hc

/-- The grammar reads every well-formed type within a bound that is no smaller than
the number of its words. -/
theorem typeTerm_readsUpTo (style : Style) (n : Nat) : TypesUpTo style n (typeTerm n) := by
  induction n with
  | zero =>
      intro t wrap hwf hlen
      have hpos := TypeTerm.words_pos style hwf
      have hle : (t.words style).length ≤ (enclose wrap (t.words style)).length := length_le_enclose
      omega
  | succ n ih =>
      intro t wrap hwf hlen rest hrest
      have hlacks : Begins (·.lacksSign "->") rest := hrest.begins (by decide)
      by_cases hatom : wrap = true ∨ t.isCompound = false
      · have hnone : Refuses (do symbol "->"; typeTerm n) rest :=
          (symbol_refuses_of_begins (by decide) hlacks).bind
        exact (typeAtom_reads ih hwf hatom hlen hlen).bind
          ((Reads.optional_none hnone).bind (.pure _ _))
      · obtain ⟨hw, hc⟩ := not_or.1 hatom
        rw [Bool.eq_false_iff.2 hw] at hlen ⊢
        cases hwf with
        | name | tuple => exact absurd rfl hc
        | @function param result hparam hresult =>
            have hsum : (param.wordsAt style .part).length +
                ((result.wordsAt style .part).length + 1) ≤ n + 1 := by
              rw [enclose, if_neg Bool.false_ne_true, TypeTerm.words, List.length_append,
                List.length_cons] at hlen
              exact hlen
            have hread : Reads (typeAtom (n + 1) (typeTerm n)) param
                (param.wordsAt style .part ++ .sign "->" :: (result.wordsAt style .part ++ rest))
                (.sign "->" :: (result.wordsAt style .part ++ rest)) := by
              refine typeAtom_reads ih hparam (Place.wraps_of_ne_whole (by decide)) ?_ ?_
              · show (param.wordsAt style .part).length ≤ n + 1
                omega
              · show (param.wordsAt style .part).length ≤ n + 1
                omega
            have hbehind : Reads (typeTerm n) result (result.wordsAt style .part ++ rest) rest := by
              refine ih result _ hresult ?_ rest hrest
              show (result.wordsAt style .part).length ≤ n
              omega
            have harrow : Reads (do symbol "->"; typeTerm n) result
                (.sign "->" :: (result.wordsAt style .part ++ rest)) rest :=
              (symbol_reads (by decide)).bind hbehind
            rw [enclose, if_neg Bool.false_ne_true, TypeTerm.words, List.append_assoc,
              List.cons_append]
            exact hread.bind ((Reads.optional_some harrow).bind (.pure _ _))

end Fern
