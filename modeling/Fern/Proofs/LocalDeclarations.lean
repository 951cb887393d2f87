import Fern.Proofs.ReadingEnds

/-!
# What stands behind a declaration

A declaration is read in the same way whatever stands behind its full stop, so a text may be cut
off there or go on differently. There is one condition: no name and no number may come to touch the
full stop unless one did before. It is needed for functions only, whose full stop would begin a
selector then; and if one did touch it before, there were blanks or comments in front of it.
-/

namespace Fern.Parser

open Syntax

variable {α : Type} {p q : Parser α} {kind : List Char → Prop} {n bound bound' : Nat}
  {gap more : List Char} {c c' d mid : Cursor} {a : α}

/-! ## Full stops -/

theorem full_stop_reads (hgap : Fill gap) (hrest : c.rest = gap ++ '.' :: more) :
    symbol "." c = some ((), ⟨some '.', more⟩) := by
  have hdot : Visible ('.' :: more) := visible_cons (by decide) more
  obtain ⟨passed, hskip, -⟩ := hgap.skipFrom_append hdot c.previous
  have hc : c.skip = ⟨passed, '.' :: more⟩ := by rw [Cursor.skip, hrest, hskip]
  change symbolHere "." c.skip = _
  rw [hc]
  exact symbolHere_cons rfl passed more

theorem exists_of_full_stop {u : Unit} (h : symbol "." c = some (u, d)) :
    ∃ gap, Fill gap ∧ c.rest = gap ++ '.' :: d.rest := by
  have hskip : c.skip.rest = '.' :: d.rest := rest_of_symbolHere rfl h
  obtain ⟨gap, hfill, hgap⟩ := fill_of_skip (hskip ▸ List.cons_ne_nil _ _)
  exact ⟨gap, hfill, hgap.trans (congrArg (gap ++ ·) hskip)⟩

/-- What has a full stop behind it ends in front of blanks, comments and the full stop. -/
theorem Local.before_stop (hp : Local (Stop kind) n p p)
    (h : (do let a ← p; symbol "."; return a) c = some (a, mid)) :
    ∃ u gap e, Balanced u ∧ Fill gap ∧ c.rest = u ++ (gap ++ '.' :: mid.rest) ∧
      p c = some (a, e) ∧ e.rest = gap ++ '.' :: mid.rest := by
  obtain ⟨b, e, hread, h⟩ := bind_eq_some.1 h
  obtain ⟨_, d, hstop, h⟩ := bind_eq_some.1 h
  cases h
  obtain ⟨u, hu, hc⟩ := hp.takes _ _ _ hread
  obtain ⟨gap, hgap, he⟩ := exists_of_full_stop hstop
  exact ⟨u, gap, e, hu, hgap, he ▸ hc, hread, he⟩

/-- What ends there is read in front of a full stop with any text behind that. -/
theorem Local.reads_stop (hp : Local (Stop kind) n p q) {u t : List Char}
    (hread : p c = some (a, d)) (hd : d.rest = t) (hgap : Fill gap)
    (htails : Stop kind t (gap ++ '.' :: more)) (hu : Abreast t (gap ++ '.' :: more) u c c')
    (hlen : u.length < n) :
    (do let a ← q; symbol "."; return a) c' = some (a, ⟨some '.', more⟩) := by
  have hr := hp.agrees htails u c c' hu hlen
  rw [hread] at hr
  generalize hread' : q c' = r at hr
  cases hr with
  | @some _ v _ d' hv =>
      have hnil : v.length = 0 := by
        have hlength := hv.length
        rw [hd] at hlength
        omega
      obtain rfl := List.length_eq_zero_iff.1 hnil
      have hstop := full_stop_reads hgap hv.rest'
      exact (bind_of_some hread').trans ((bind_of_some hstop).trans rfl)

/-! ## Declarations -/

/-- Two places before the same text, with other texts behind it, the second of which makes a selector
of a full stop only if the first does. -/
structure SameFront (u s s' : List Char) (c c' : Cursor) : Prop where
  rest : c.rest = u ++ s
  rest' : c'.rest = u ++ s'
  previous : c.previous.any isKeywordChar = c'.previous.any isKeywordChar
  selector : NoSelector s → NoSelector s'

/-- What has a full stop behind it is read in front of any other text, as far as the two full stops
are tails of one kind. -/
theorem reads_in_front {head : Nat → Parser α}
    (hsteps : ∀ {n bound bound' : Nat}, n ≤ bound → n ≤ bound' →
      Steps (Stop kind) n (head bound) (head bound'))
    (h : (do let a ← head bound; symbol "."; return a) c = some (a, mid))
    (hb : c.rest.length ≤ bound)
    (htails : ∀ {gap e more}, head bound c = some (a, e) → e.rest = gap ++ '.' :: mid.rest →
      Fill gap → (NoSelector mid.rest → NoSelector more) →
      Stop kind (gap ++ '.' :: mid.rest) (gap ++ '.' :: more)) :
    ∃ u, Balanced u ∧ c.rest = u ++ '.' :: mid.rest ∧ ∀ c' more bound',
      SameFront (u ++ ['.']) mid.rest more c c' → c'.rest.length ≤ bound' →
      (do let a ← head bound'; symbol "."; return a) c' = some (a, ⟨some '.', more⟩) := by
  obtain ⟨u, gap, e, hu, hgap, hc, hread, he⟩ :=
    (hsteps (Nat.zero_le _) (Nat.zero_le _)).toLocal.before_stop h
  refine ⟨u ++ gap, hu.append (balanced_of_fill hgap), by rw [hc, List.append_assoc],
    fun c' more bound' hfront hb' => ?_⟩
  have hc' : c'.rest = u ++ (gap ++ '.' :: more) := by
    rw [hfront.rest', List.append_assoc, List.append_assoc, List.singleton_append]
  have habreast : Abreast _ _ u c c' := ⟨hu, hc, hc', hfront.previous⟩
  rw [hc, List.length_append, List.length_append, List.length_cons] at hb
  rw [hc', List.length_append, List.length_append, List.length_cons] at hb'
  have hhead : Steps (Stop kind) (u.length + 1) (head bound) (head bound') :=
    hsteps (by omega) (by omega)
  exact hhead.toLocal.reads_stop hread he hgap (htails hread he hgap hfront.selector) habreast
    (Nat.lt_succ_self _)

/-- What begins with a name is no type declaration. -/
theorem declaration_of_function {result : Declaration × Cursor}
    (h : functionDecl bound c = some result) : declaration bound c = some result := by
  obtain ⟨function, d, hname, -⟩ := bind_eq_some.1 h
  have hkeyword : keyword "type" c = none := by
    cases hk : keyword "type" c with
    | none => rfl
    | some r =>
        rw [name_of_keyword (by decide) hk] at hname
        cases hname
  have htype : typeDecl bound c = none := bind_eq_none hkeyword
  exact orElse_eq_some.2 (.inr ⟨htype, h⟩)

/-- A declaration is read in front of any other text that does not come to touch its full stop. -/
theorem declaration_in_front {decl : Declaration} (h : declaration bound c = some (decl, mid))
    (hb : c.rest.length ≤ bound) :
    ∃ u, Balanced u ∧ c.rest = u ++ '.' :: mid.rest ∧ ∀ c' more bound',
      SameFront (u ++ ['.']) mid.rest more c c' → c'.rest.length ≤ bound' →
      declaration bound' c' = some (decl, ⟨some '.', more⟩) := by
  rcases orElse_eq_some.1 h with htype | ⟨-, hfunction⟩
  · rw [typeDecl_eq] at htype
    obtain ⟨u, hu, hc, hfront⟩ := reads_in_front (TypeComparison.typeHead (K := upTo fun _ => True))
      htype hb fun _ _ hgap _ => .dot hgap trivial trivial
    refine ⟨u, hu, hc, fun c' more bound' hsame hb' => orElse_eq_some.2 (.inl ?_)⟩
    rw [typeDecl_eq]
    exact hfront c' more bound' hsame hb'
  · rw [functionDecl_eq] at hfunction
    obtain ⟨u, hu, hc, hfront⟩ := reads_in_front (GrammarComparison.functionHead (K := upToStop))
      hfunction hb fun {gap e more} hread he hgap hselector => by
        have hfree : gap = [] → NoSelector mid.rest := by
          rintro rfl
          obtain ⟨previous, text⟩ := e
          obtain rfl : text = '.' :: mid.rest := he
          exact noSelector_of_selector (selector_of_functionHead hread hb)
        exact .dot hgap (unselected_dot hgap hfree)
          (unselected_dot hgap fun hnil => hselector (hfree hnil))
    refine ⟨u, hu, hc, fun c' more bound' hsame hb' => declaration_of_function ?_⟩
    rw [functionDecl_eq]
    exact hfront c' more bound' hsame hb'

theorem previous_of_declaration {decl : Declaration} (h : declaration bound c = some (decl, mid))
    (hb : c.rest.length ≤ bound) : mid.previous = some '.' := by
  obtain ⟨u, -, hu, hfront⟩ := declaration_in_front h hb
  have hc : c.rest = u ++ ['.'] ++ mid.rest := by rw [hu, List.append_assoc, List.singleton_append]
  have hsame := hfront c mid.rest bound ⟨hc, hc, rfl, id⟩ hb
  rw [h] at hsame
  exact congrArg (fun r => r.2.previous) (Option.some.inj hsame)

end Fern.Parser
