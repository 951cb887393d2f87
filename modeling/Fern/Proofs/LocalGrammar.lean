import Fern.Proofs.GrammarPairs
import Fern.Proofs.LocalWords

/-!
# Reading expressions and types up to a full stop

Reading abreast is a comparison of readers, by the lemmas on combinators and on words. So the bounds
on nesting and on repetitions only have to be as large as the text in front of the full stop.

A type has no selectors in it and is read up to any full stop. An expression could go on with one,
so it is read up to a full stop that does not begin one.
-/

namespace Fern.Parser

open Syntax

variable {kind : List Char → Prop} {n bound bound' : Nat}

/-- A sign of the grammar. -/
theorem sign_steps {w : String} (h : w ∈ innerSigns) :
    Steps (Stop kind) n (symbol w) (symbol w) := by
  have known : ∀ w ∈ innerSigns, isBareWord w.toList ∧ begins w '.' = false := by decide
  obtain ⟨hbare, hdot⟩ := known w h
  have hopens : Opens (symbol w) (begins w) := symbol_opens (isBareWord_iff.1 hbare).1
  exact symbol_steps bars_stop hbare (hopens.endsAt_stop hdot)

theorem keyword_steps_stop {w : String} (h : w ∈ keywords) :
    Steps (Stop kind) n (keyword w) (keyword w) := by
  have known : ∀ w ∈ keywords, w.toList ≠ [] ∧ begins w '.' = false := by decide
  obtain ⟨hne, hdot⟩ := known w h
  exact keyword_steps bars_stop h ((keyword_opens hne).endsAt_stop hdot)

theorem exists_of_bracketSigns {w w' : String} (h : (w, w') ∈ bracketSigns) :
    ∃ l r, w.toList = [l] ∧ w'.toList = [r] ∧ (l, r) ∈ brackets := by
  have chars : ∀ pair ∈ bracketSigns, ∃ char ∈ brackets,
      pair.1.toList = [char.1] ∧ pair.2.toList = [char.2] := by
    decide
  obtain ⟨⟨l, r⟩, hpair, hl, hr⟩ := chars _ h
  exact ⟨l, r, hl, hr, hpair⟩

/-- What is read between signs that are brackets is read alike if it is up to the closing one. -/
theorem Local.enclosedBySigns {α β : Type} {B : Tails} {p q : Parser α} {w w' : String}
    (hB : Bars B) (hpair : (w, w') ∈ bracketSigns) (hends : EndsAt B (symbol w) (symbol w))
    (hp : Local (Stop kind) (n - 1) p q) (f : α → β) :
    Steps B n (do symbol w; let a ← p; symbol w'; return f a)
      (do symbol w; let a ← q; symbol w'; return f a) := by
  obtain ⟨l, r, hw, hw', hlr⟩ := exists_of_bracketSigns hpair
  exact hp.enclosed hB hw hw' hlr hends f

/-- Reading up to a full stop or a closing bracket compares the readers of types. -/
def upTo (kind : List Char → Prop) : TypeComparison where
  Reads := Local (Stop kind)
  Steps := Steps (Stop kind)
  reads := Steps.toLocal
  reads_mono := Local.mono
  steps_mono := Steps.mono
  reads_zero := Local.of_zero
  steps_zero := Steps.of_zero
  pure := .pure
  bind := Local.bind
  stepBind := Steps.bind
  ifThere := Local.ifThere
  fail := .fail
  orElse := Steps.orElse
  sign := sign_steps
  keyword := keyword_steps_stop
  enclosed := by
    intro α β n p q w w' hpair hp f
    have known : ∀ pair ∈ bracketSigns, pair.1.toList ≠ [] ∧ begins pair.1 '.' = false := by decide
    obtain ⟨hne, hdot⟩ := known _ hpair
    exact hp.enclosedBySigns bars_stop hpair ((symbol_opens hne).endsAt_stop hdot) f
  truth := fun h => keyword_steps_stop (mem_keywords_of_truth h)
  name := name_steps bars_stop (name_opens.endsAt_stop (by decide))
  constructorName := constructorName_steps bars_stop ((word_opens _ _).endsAt_stop (by decide))
  number := number_steps bars_stop (number_opens.endsAt_stop (by decide))
  literal := literal_steps bars_stop (literal_opens.endsAt_stop (by decide))

/-- If selectors are left alone, it compares the readers of expressions too. -/
def upToStop : GrammarComparison where
  toTypeComparison := upTo Unselected
  selector := selector_steps bars_stop barsSelectors_stop

/-- Expressions are read up to a full stop or a closing bracket in the same way by all bounds that
are no smaller than the text before it. -/
theorem term_steps (hb : n ≤ bound) (hb' : n ≤ bound') :
    Steps (Stop Unselected) n (term bound) (term bound') :=
  GrammarComparison.term (K := upToStop) hb hb'

end Fern.Parser
