import Fern.Proofs.Layout

/-!
# Parsers on rows of words

What a parser does at a place of a text is said by the words that stand there,
whatever their layout: it reads a thing and leaves some of the words, or it
refuses. Both are carried through the combinators here, so that the grammar can
be followed word by word.
-/

namespace Fern

open Syntax

/-- The text from a place on has the given words. -/
structure At (ws : List Word) (cursor : Cursor) : Prop where
  fits : ∀ w ∈ ws, w.Fits
  layout : Layout cursor.previous.isNone ws cursor.rest

/-! ## Passing blanks and comments -/

theorem skipFrom_comment {text : List Char} (h : '\n' ∉ text) (previous : Option Char)
    (rest : List Char) : Cursor.skipFrom true previous (text ++ '\n' :: rest) =
      Cursor.skipFrom false (some '\n') rest := by
  induction text generalizing previous with
  | nil => rw [List.nil_append, Cursor.skipFrom, if_pos rfl]
  | cons c text ih =>
      obtain ⟨hc, htext⟩ := not_or.1 fun hm => h (List.mem_cons.2 hm)
      rw [List.cons_append, Cursor.skipFrom, if_neg (Ne.symm hc), if_pos rfl, ih htext]

/-- Skipping passes all blanks and comments up to a place where it stays. -/
theorem Fill.skipFrom_append {gap rest : List Char} (h : Fill gap)
    (hrest : ∀ previous, Cursor.skipFrom false previous rest = ⟨previous, rest⟩)
    (previous : Option Char) :
    ∃ passed, Cursor.skipFrom false previous (gap ++ rest) = ⟨passed, rest⟩ ∧
      (gap = [] ∧ passed = previous ∨ passed.any isKeywordChar = false) := by
  induction h generalizing previous with
  | nil => exact ⟨previous, hrest previous, .inl ⟨rfl, rfl⟩⟩
  | @blank c gap hc _ ih =>
      obtain ⟨passed, hp, hk⟩ := ih (some c)
      have hck : isKeywordChar c = false := by
        simp only [List.mem_cons, List.not_mem_nil, or_false] at hc
        rcases hc with rfl | rfl | rfl | rfl <;> decide
      refine ⟨passed, ?_, .inr ?_⟩
      · rw [List.cons_append, Cursor.skipFrom, ← hp]
        simp only [List.mem_cons, List.not_mem_nil, or_false] at hc
        rcases hc with rfl | rfl | rfl | rfl <;> rfl
      · rcases hk with ⟨-, rfl⟩ | hk
        · exact hck
        · exact hk
  | @comment text gap htext _ ih =>
      obtain ⟨passed, hp, hk⟩ := ih (some '\n')
      refine ⟨passed, ?_, .inr ?_⟩
      · rw [List.append_assoc, List.cons_append, List.cons_append, Cursor.skipFrom,
          if_neg (by decide), if_neg (by decide), if_neg (by decide), if_pos rfl,
          skipFrom_comment htext, hp]
      · rcases hk with ⟨-, rfl⟩ | hk
        · decide
        · exact hk

/-- Skipping leads from a place to the characters of the word that stands there. -/
theorem At.skip {w : Word} {ws : List Word} {cursor : Cursor} (h : At (w :: ws) cursor)
    (hw : w.touches = false) :
    ∃ previous behind, cursor.skip = ⟨previous, w.chars ++ behind⟩ ∧
      previous.any isKeywordChar = false ∧ Layout false ws behind := by
  obtain ⟨previous, text⟩ := cursor
  obtain ⟨hfits, hlayout⟩ := h
  generalize hwords : w :: ws = words at hlayout
  cases hlayout with
  | done => cases hwords
  | touching ht => cases hwords; exact absurd ht (by rw [hw]; decide)
  | @apart _ gap _ _ behind _ hgap hstart hbehind =>
      cases hwords
      obtain ⟨c, rest, hc, ho⟩ := Word.chars_cons (hfits w List.mem_cons_self)
      have hblank := Word.Kind.not_blank_of_opens ho
      have stay (p : Option Char) :
          Cursor.skipFrom false p (w.chars ++ behind) = ⟨p, w.chars ++ behind⟩ := by
        simp only [List.mem_cons, List.not_mem_nil, or_false, not_or] at hblank
        obtain ⟨hs, ht, hn, hr, hh⟩ := hblank
        rw [hc, List.cons_append, Cursor.skipFrom, if_neg hn, if_neg Bool.false_ne_true,
          if_neg (by simp [hs, ht, hr]), if_neg hh]
      obtain ⟨passed, hp, hk⟩ := hgap.skipFrom_append stay previous
      refine ⟨passed, behind, ?_, ?_, hbehind⟩
      · show Cursor.skipFrom false previous (gap ++ w.chars ++ behind) = _
        rw [List.append_assoc, hp]
      · rcases hk with ⟨hg, he⟩ | hk
        · have hn : previous = none := Option.isNone_iff_eq_none.1 (hstart hg)
          rw [he, hn]
          rfl
        · exact hk

/-- Where there are no more words, skipping leads to the end of the text. -/
theorem At.skip_nil {cursor : Cursor} (h : At [] cursor) : cursor.skip.rest = [] := by
  obtain ⟨previous, text⟩ := cursor
  cases h.layout with
  | done hgap =>
      have stay (p : Option Char) : Cursor.skipFrom false p [] = ⟨p, []⟩ := rfl
      obtain ⟨passed, hp, -⟩ := hgap.skipFrom_append stay previous
      rw [List.append_nil] at hp
      rw [Cursor.skip, hp]

/-! ## First words -/

/-- A row of words begins with one that passes a test. -/
def Begins (test : Word → Bool) (ws : List Word) : Prop := ∃ w others, ws = w :: others ∧ test w

section Begins

variable {test other : Word → Bool} {w : Word} {ws behind : List Word}

theorem Begins.cons (h : test w) : Begins test (w :: ws) := ⟨w, ws, rfl, h⟩

theorem Begins.append (h : Begins test ws) : Begins test (ws ++ behind) := by
  obtain ⟨w, others, rfl, hw⟩ := h
  exact .cons hw

theorem Begins.mono (h : Begins test ws) (hto : ∀ w, test w → other w) : Begins other ws := by
  obtain ⟨w, others, rfl, hw⟩ := h
  exact .cons (hto w hw)

end Begins

/-! ## Reading and refusing -/

namespace Parser

variable {α β : Type}

/-- Where one row of words stands, a parser reads a thing and leaves another row. -/
def Reads (p : Parser α) (a : α) (ws behind : List Word) : Prop :=
  ∀ cursor, At ws cursor → ∃ next, p cursor = some (a, next) ∧ At behind next

/-- Where a row of words stands, a parser fails. -/
def Refuses (p : Parser α) (ws : List Word) : Prop :=
  ∀ cursor, At ws cursor → p cursor = none

section Places

/-! The ways of putting parsers together, at a place where one of them is known to fail or to
read. -/

variable {p q : Parser α} {next : α → Parser β} {parsers : List (Parser α)} {cursor after : Cursor}
  {a : α}

theorem bind_eq_none (h : p cursor = none) : (p >>= next) cursor = none := by
  show andThen p next cursor = none
  rw [andThen, h]

theorem bind_of_some (h : p cursor = some (a, after)) : (p >>= next) cursor = next a after := by
  show andThen p next cursor = _
  rw [andThen, h]

theorem orElse_of_none (h : p cursor = none) : orElse p q cursor = q cursor := by
  rw [orElse, h]

theorem orElse_of_some {r : α × Cursor} (h : p cursor = some r) : orElse p q cursor = some r := by
  rw [orElse, h]

theorem firstOf_of_some {r : α × Cursor} (h : p cursor = some r) :
    firstOf (p :: parsers) cursor = some r := orElse_of_some h

theorem firstOf_of_none (h : p cursor = none) :
    firstOf (p :: parsers) cursor = firstOf parsers cursor := orElse_of_none h

theorem firstOf_eq_none (h : ∀ p ∈ parsers, p cursor = none) : firstOf parsers cursor = none := by
  induction parsers with
  | nil => rfl
  | cons p parsers ih =>
      obtain ⟨hp, hparsers⟩ := List.forall_mem_cons.1 h
      exact (firstOf_of_none hp).trans (ih hparsers)

theorem collect_of_none (h : p cursor = none) (bound : Nat) :
    collect p bound cursor = ([], cursor) := by
  cases bound with
  | zero => rfl
  | succ bound => rw [collect, h]

theorem many_of_none (h : p cursor = none) (bound : Nat) :
    many p bound cursor = some ([], cursor) := by
  rw [many, collect_of_none h]

theorem many_of_some (h : p cursor = some (a, after)) {bound : Nat} {all : List α} {last : Cursor}
    (hrest : many p bound after = some (all, last)) :
    many p (bound + 1) cursor = some (a :: all, last) := by
  have hrest := Option.some.inj hrest
  simp only [many, collect, h, hrest]

end Places

section Combinators

variable {p q : Parser α} {next : α → Parser β} {a : α} {b : β} {ws middle behind : List Word}

theorem Reads.pure (a : α) (ws : List Word) : Reads (pure a : Parser α) a ws ws :=
  fun cursor hat => ⟨cursor, rfl, hat⟩

theorem Reads.bind (hp : Reads p a ws middle) (hnext : Reads (next a) b middle behind) :
    Reads (p >>= next) b ws behind := by
  intro cursor hat
  obtain ⟨between, hc, hmiddle⟩ := hp cursor hat
  obtain ⟨last, hl, hbehind⟩ := hnext between hmiddle
  exact ⟨last, bind_eq_some.2 ⟨a, between, hc, hl⟩, hbehind⟩

theorem Refuses.bind (hp : Refuses p ws) : Refuses (p >>= next) ws :=
  fun cursor hat => bind_eq_none (hp cursor hat)

/-- A row of parsers refuses what the second one refuses. -/
theorem Refuses.bind_of_reads (hp : Reads p a ws middle) (hnext : Refuses (next a) middle) :
    Refuses (p >>= next) ws := by
  intro cursor hat
  obtain ⟨between, hc, hmiddle⟩ := hp cursor hat
  rw [bind_of_some hc]
  exact hnext between hmiddle

theorem Reads.orElse_left (hp : Reads p a ws behind) : Reads (orElse p q) a ws behind := by
  intro cursor hat
  obtain ⟨last, hl, hbehind⟩ := hp cursor hat
  exact ⟨last, orElse_of_some hl, hbehind⟩

theorem Reads.orElse_right (hp : Refuses p ws) (hq : Reads q a ws behind) :
    Reads (orElse p q) a ws behind := by
  intro cursor hat
  obtain ⟨last, hl, hbehind⟩ := hq cursor hat
  exact ⟨last, (orElse_of_none (hp cursor hat)).trans hl, hbehind⟩

theorem Refuses.orElse (hp : Refuses p ws) (hq : Refuses q ws) : Refuses (orElse p q) ws :=
  fun cursor hat => (orElse_of_none (hp cursor hat)).trans (hq cursor hat)

/-- The first of some parsers that does not refuse reads. -/
theorem Reads.firstOf {before others : List (Parser α)} (hbefore : ∀ q ∈ before, Refuses q ws)
    (hp : Reads p a ws behind) : Reads (firstOf (before ++ p :: others)) a ws behind := by
  induction before with
  | nil => exact hp.orElse_left
  | cons q before ih =>
      obtain ⟨hq, hbefore⟩ := List.forall_mem_cons.1 hbefore
      exact Reads.orElse_right hq (ih hbefore)

theorem Refuses.firstOf {parsers : List (Parser α)} (h : ∀ q ∈ parsers, Refuses q ws) :
    Refuses (firstOf parsers) ws :=
  fun cursor hat => firstOf_eq_none fun q hq => h q hq cursor hat

theorem Reads.optional_some (hp : Reads p a ws behind) :
    Reads (optional p) (some a) ws behind := by
  intro cursor hat
  obtain ⟨last, hl, hbehind⟩ := hp cursor hat
  exact ⟨last, by rw [optional, hl], hbehind⟩

theorem Reads.optional_none (hp : Refuses p ws) : Reads (optional p) none ws ws := by
  intro cursor hat
  exact ⟨cursor, by rw [optional, hp cursor hat], hat⟩

end Combinators

section Repetitions

/-! A repetition reads things that are written one behind the other. Where one of
them ends is seen from the words that follow it. -/

variable {p : Parser α} {write : α → List Word} {follow : List Word → Prop} {items : List α}
  {rest : List Word} {bound : Nat}

theorem collect_reads
    (hitems : ∀ item ∈ items, ∀ after, follow after → Reads p item (write item ++ after) after)
    (hfollow : ∀ item ∈ items, ∀ after, follow (write item ++ after)) (hrest : follow rest)
    (hrefuses : Refuses p rest) (hbound : items.length ≤ bound) {cursor : Cursor}
    (hat : At (items.flatMap write ++ rest) cursor) :
    ∃ last, collect p bound cursor = (items, last) ∧ At rest last := by
  induction items generalizing bound cursor with
  | nil => exact ⟨cursor, collect_of_none (hrefuses cursor hat) bound, hat⟩
  | cons item items ih =>
      obtain ⟨hitem, hitems⟩ := List.forall_mem_cons.1 hitems
      obtain ⟨-, hothers⟩ := List.forall_mem_cons.1 hfollow
      obtain ⟨bound, rfl⟩ : ∃ k, bound = k + 1 := ⟨bound - 1, by
        rw [List.length_cons] at hbound
        omega⟩
      rw [List.flatMap_cons, List.append_assoc] at hat
      have hafter : follow (items.flatMap write ++ rest) := by
        cases items with
        | nil => exact hrest
        | cons other items =>
            rw [List.flatMap_cons, List.append_assoc]
            exact hothers other List.mem_cons_self _
      obtain ⟨between, hc, hmiddle⟩ := hitem _ hafter cursor hat
      obtain ⟨last, hl, hbehind⟩ := ih hitems hothers (Nat.le_of_succ_le_succ hbound) hmiddle
      exact ⟨last, by rw [collect, hc]; simp only [hl], hbehind⟩

theorem Reads.many
    (hitems : ∀ item ∈ items, ∀ after, follow after → Reads p item (write item ++ after) after)
    (hfollow : ∀ item ∈ items, ∀ after, follow (write item ++ after)) (hrest : follow rest)
    (hrefuses : Refuses p rest) (hbound : items.length ≤ bound) :
    Reads (many p bound) items (items.flatMap write ++ rest) rest := by
  intro cursor hat
  obtain ⟨last, hl, hbehind⟩ := collect_reads hitems hfollow hrest hrefuses hbound hat
  exact ⟨last, by rw [Parser.many, hl], hbehind⟩

theorem Reads.many_nil (hrefuses : Refuses p rest) : Reads (Parser.many p bound) [] rest rest :=
  fun cursor hat => ⟨cursor, many_of_none (hrefuses cursor hat) bound, hat⟩

theorem Reads.many_single {a : α} {ws : List Word} (h : Reads p a ws rest)
    (hrefuses : Refuses p rest) : Reads (Parser.many p (bound + 1)) [a] ws rest := by
  intro cursor hat
  obtain ⟨between, hc, hmiddle⟩ := h cursor hat
  have hnil : Reads (Parser.many p bound) [] rest rest := .many_nil hrefuses
  obtain ⟨last, hl, hlast⟩ := hnil between hmiddle
  exact ⟨last, many_of_some hc hl, hlast⟩

theorem Reads.many1
    (hitems : ∀ item ∈ items, ∀ after, follow after → Reads p item (write item ++ after) after)
    (hfollow : ∀ item ∈ items, ∀ after, follow (write item ++ after)) (hrest : follow rest)
    (hrefuses : Refuses p rest) (hne : items ≠ []) (hbound : items.length ≤ bound) :
    Reads (many1 p bound) items (items.flatMap write ++ rest) rest := by
  obtain ⟨item, items, rfl⟩ := List.exists_cons_of_ne_nil hne
  obtain ⟨hitem, hitems⟩ := List.forall_mem_cons.1 hitems
  obtain ⟨-, hothers⟩ := List.forall_mem_cons.1 hfollow
  have hafter : follow (items.flatMap write ++ rest) := by
    cases items with
    | nil => exact hrest
    | cons other items =>
        rw [List.flatMap_cons, List.append_assoc]
        exact hothers other List.mem_cons_self _
  rw [List.flatMap_cons, List.append_assoc]
  refine (hitem _ hafter).bind (.bind ?_ (.pure _ _))
  exact .many hitems hothers hrest hrefuses (Nat.le_of_succ_le hbound)

theorem Reads.separated {separator : Word} {passes : Parser Unit}
    (hpasses : ∀ ws, Reads passes () (separator :: ws) ws)
    (hitems : ∀ item ∈ items, ∀ after, follow after → Reads p item (write item ++ after) after)
    (hfollow : ∀ ws, follow (separator :: ws)) (hrest : follow rest)
    (hrefuses : Refuses passes rest) (hne : items ≠ []) (hbound : items.length ≤ bound) :
    Reads (separated p passes bound) items (joined separator (items.map write) ++ rest) rest := by
  obtain ⟨item, items, rfl⟩ := List.exists_cons_of_ne_nil hne
  obtain ⟨hitem, hitems⟩ := List.forall_mem_cons.1 hitems
  have hjoined : joined separator ((item :: items).map write) ++ rest =
      write item ++ (items.flatMap (fun other => separator :: write other) ++ rest) := by
    rw [List.map_cons, joined, List.append_assoc, List.flatMap_map]
  have hafter : follow (items.flatMap (fun other => separator :: write other) ++ rest) := by
    cases items with
    | nil => exact hrest
    | cons other items => exact hfollow _
  rw [hjoined]
  have hnext : ∀ other ∈ items, ∀ after, follow after →
      Reads (do passes; p) other (separator :: write other ++ after) after := by
    intro other hother after hafter
    exact (hpasses _).bind (hitems other hother after hafter)
  refine (hitem _ hafter).bind (.bind (.many hnext ?_ hrest ?_ ?_) (.pure _ _))
  · exact fun other _ after => hfollow _
  · exact hrefuses.bind
  · exact Nat.le_of_succ_le hbound

theorem Reads.separated_single {passes : Parser Unit} {a : α} {ws : List Word}
    (h : Reads p a ws rest) (hrefuses : Refuses passes rest) :
    Reads (Parser.separated p passes bound) [a] ws rest :=
  h.bind (.bind (.many_nil hrefuses.bind) (.pure _ _))

end Repetitions

/-- A word that does not touch the one before it is read where skipping leads. -/
theorem Reads.token {p : Parser α} {a : α} {w : Word} {ws : List Word} (hw : w.touches = false)
    (h : w.Fits → ∀ previous behind, previous.any isKeywordChar = false → Bounded behind →
      ∃ c, p ⟨previous, w.chars ++ behind⟩ = some (a, ⟨some c, behind⟩)) :
    Reads (.token p) a (w :: ws) ws := by
  intro cursor hat
  obtain ⟨hfit, hfits⟩ := List.forall_mem_cons.1 hat.fits
  obtain ⟨previous, behind, hskip, hprevious, hbehind⟩ := hat.skip hw
  obtain ⟨c, hc⟩ := h hfit previous behind hprevious hbehind.bounded
  exact ⟨⟨some c, behind⟩, by rw [Parser.token, hskip, hc], hfits, hbehind⟩

theorem Refuses.token {p : Parser α} {w : Word} {ws : List Word} (hw : w.touches = false)
    (h : w.Fits → ∀ previous behind, previous.any isKeywordChar = false → Bounded behind →
      p ⟨previous, w.chars ++ behind⟩ = none) : Refuses (.token p) (w :: ws) := by
  intro cursor hat
  obtain ⟨previous, behind, hskip, hprevious, hbehind⟩ := hat.skip hw
  rw [Parser.token, hskip]
  exact h (hat.fits w List.mem_cons_self) previous behind hprevious hbehind.bounded

theorem Refuses.token_nil {p : Parser α} (h : ∀ previous, p ⟨previous, []⟩ = none) :
    Refuses (.token p) [] := by
  intro cursor hat
  rw [Parser.token, show cursor.skip = ⟨cursor.skip.previous, []⟩ by rw [← hat.skip_nil]]
  exact h _

end Parser

end Fern
