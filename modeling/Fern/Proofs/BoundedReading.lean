import Fern.Proofs.LocalGrammar

/-!
# Bounds that do not matter

At one place of one text, two readers of the grammar that differ in their bounds do the very same,
whether they succeed or fail, as long as both bounds exceed the text that is left. That needs no
full stop and no closed text, as reading abreast does, so it also says where a text that is no
program stops being one.

What stands before a place is looked at by the first word only, and only for whether a keyword may
follow it.
-/

namespace Fern.Parser

open Syntax

variable {α β : Type} {n m bound bound' : Nat} {p q p' q' : Parser α} {next next' : α → Parser β}

/-- Two parsers do the same where less than so much is left, and leave no more than there was. -/
structure Coincides (n : Nat) (p q : Parser α) : Prop where
  shortens : ∀ c a d, p c = some (a, d) → d.rest.length ≤ c.rest.length
  agrees : ∀ c, c.rest.length < n → p c = q c

/-- They also take at least one character. -/
structure CoincidesStep (n : Nat) (p q : Parser α) : Prop extends Coincides n p q where
  progresses : p.Progresses

theorem CoincidesStep.of_progresses (h : p.Progresses) (hq : ∀ c, c.rest.length < n → p c = q c) :
    CoincidesStep n p q where
  shortens := fun c a d hc => Nat.le_of_lt (h c a d hc)
  agrees := hq
  progresses := h

theorem CoincidesStep.same (h : p.Progresses) : CoincidesStep n p p :=
  .of_progresses h fun _ _ => rfl

/-- What a word takes it takes in every comparison. -/
theorem CoincidesStep.of_steps (h : Steps (Stop Unselected) 0 p p) : CoincidesStep n p p :=
  .same h.progresses

theorem Coincides.mono (h : Coincides n p q) (hm : m ≤ n) : Coincides m p q :=
  ⟨h.shortens, fun c hc => h.agrees c (Nat.lt_of_lt_of_le hc hm)⟩

theorem Coincides.of_zero (h : Coincides 0 p q) : Coincides 0 p q' :=
  ⟨h.shortens, fun _ hc => absurd hc (Nat.not_lt_zero _)⟩

theorem Coincides.pure (a : α) : Coincides n (pure a) (pure a) where
  shortens := by
    intro c b d h
    cases h
    exact Nat.le_refl _
  agrees := fun _ _ => rfl

theorem shortens_bind (hp : ∀ c a d, p c = some (a, d) → d.rest.length ≤ c.rest.length)
    (hnext : ∀ a c b d, next a c = some (b, d) → d.rest.length ≤ c.rest.length) {c d : Cursor}
    {b : β} (h : (p >>= next) c = some (b, d)) : d.rest.length ≤ c.rest.length := by
  obtain ⟨a, mid, ha, hb⟩ := bind_eq_some.1 h
  exact Nat.le_trans (hnext a _ _ _ hb) (hp _ _ _ ha)

/-- How a reading goes on after a first one that is the same. -/
theorem bind_congr {c c' : Cursor} (hp : p c = q c')
    (hnext : ∀ a d, p c = some (a, d) → next a d = next' a d) :
    (p >>= next) c = (q >>= next') c' := by
  change andThen p next c = andThen q next' c'
  unfold andThen
  rw [← hp]
  cases hc : p c with
  | none => rfl
  | some result => exact hnext _ _ hc

theorem Coincides.bind (hp : Coincides n p q) (hnext : ∀ a, Coincides n (next a) (next' a)) :
    Coincides n (p >>= next) (q >>= next') where
  shortens := fun _ _ _ h => shortens_bind hp.shortens (fun a => (hnext a).shortens) h
  agrees := by
    intro c hlen
    refine bind_congr (hp.agrees c hlen) fun a d hc => ?_
    exact (hnext a).agrees d (Nat.lt_of_le_of_lt (hp.shortens _ _ _ hc) hlen)

theorem CoincidesStep.bind (hp : CoincidesStep n p q)
    (hnext : ∀ a, Coincides (n - 1) (next a) (next' a)) :
    CoincidesStep n (p >>= next) (q >>= next') := by
  refine .of_progresses (fun c b d h => ?_) fun c hlen => ?_
  · obtain ⟨a, mid, ha, hb⟩ := bind_eq_some.1 h
    exact Nat.lt_of_le_of_lt ((hnext a).shortens _ _ _ hb) (hp.progresses _ _ _ ha)
  · refine bind_congr (hp.agrees c hlen) fun a d hc => ?_
    have hlt := hp.progresses _ _ _ hc
    exact (hnext a).agrees d (by omega)

theorem CoincidesStep.orElse (hp : CoincidesStep n p q) (hp' : CoincidesStep n p' q') :
    CoincidesStep n (orElse p p') (orElse q q') := by
  refine .of_progresses (fun c a d h => ?_) fun c hlen => ?_
  · exact (orElse_eq_some.1 h).elim (hp.progresses c a d) fun h => hp'.progresses c a d h.2
  · unfold Parser.orElse
    rw [hp.agrees c hlen, hp'.agrees c hlen]

theorem Coincides.ifThere {next next' : Option α → Parser β} (hp : CoincidesStep n p q)
    (hnone : Coincides n (next none) (next' none))
    (hsome : ∀ a, Coincides (n - 1) (next (some a)) (next' (some a))) :
    Coincides n (optional p >>= next) (optional q >>= next') where
  shortens := by
    refine fun c b d => shortens_bind (fun c o mid ho => ?_) fun o => ?_
    · unfold Parser.optional at ho
      split at ho
      · cases ho
        exact Nat.le_refl _
      · next hc =>
        cases ho
        exact hp.shortens _ _ _ hc
    · cases o with
      | none => exact hnone.shortens
      | some a => exact (hsome a).shortens
  agrees := by
    intro c hlen
    change andThen (Parser.optional p) next c = andThen (Parser.optional q) next' c
    unfold andThen Parser.optional
    rw [← hp.agrees c hlen]
    cases hc : p c with
    | none => exact hnone.agrees c hlen
    | some result =>
        have hlt := hp.progresses _ _ _ hc
        exact (hsome _).agrees _ (by omega)

theorem Coincides.enclosed {w w' : String} (hpair : (w, w') ∈ bracketSigns)
    (hp : Coincides (n - 1) p q) (f : α → β) :
    CoincidesStep n (do symbol w; let a ← p; symbol w'; return f a)
      (do symbol w; let a ← q; symbol w'; return f a) := by
  obtain ⟨l, r, hw, hw', -⟩ := exists_of_bracketSigns hpair
  have hopen : CoincidesStep n (symbol w) (symbol w) := .same (symbol_progresses hw)
  have hclose : CoincidesStep (n - 1) (symbol w') (symbol w') := .same (symbol_progresses hw')
  exact hopen.bind fun _ => hp.bind fun a => hclose.toCoincides.bind fun _ => .pure (f a)

/-- Reading at one place compares readers. -/
def atOnePlace : GrammarComparison where
  Reads := Coincides
  Steps := CoincidesStep
  reads := CoincidesStep.toCoincides
  reads_mono := Coincides.mono
  steps_mono := fun h hm => { h with toCoincides := h.toCoincides.mono hm }
  reads_zero := Coincides.of_zero
  steps_zero := fun h => { h with toCoincides := h.toCoincides.of_zero }
  pure := .pure
  bind := Coincides.bind
  stepBind := CoincidesStep.bind
  ifThere := Coincides.ifThere
  fail := .same fun _ _ _ h => nomatch h
  orElse := CoincidesStep.orElse
  sign := fun h => .of_steps (upToStop.sign h)
  keyword := fun h => .of_steps (upToStop.keyword h)
  enclosed := Coincides.enclosed
  truth := fun h => .of_steps (upToStop.truth h)
  name := .of_steps upToStop.name
  constructorName := .of_steps upToStop.constructorName
  number := .of_steps upToStop.number
  literal := .of_steps upToStop.literal
  selector := .of_steps upToStop.selector

theorem declaration_coincides (hb : n ≤ bound) (hb' : n ≤ bound') :
    CoincidesStep n (declaration bound) (declaration bound') := by
  have hstop (decl : Declaration) :
      Coincides (n - 1) (do symbol "."; return decl) (do symbol "."; return decl) :=
    Coincides.bind (CoincidesStep.same (symbol_progresses rfl)).toCoincides fun _ => .pure decl
  refine CoincidesStep.orElse ?type ?function
  case type =>
      have hhead : CoincidesStep n (typeHead bound) (typeHead bound') :=
        TypeComparison.typeHead (K := atOnePlace.toTypeComparison) hb hb'
      rw [typeDecl_eq, typeDecl_eq]
      exact hhead.bind hstop
  case function =>
      have hhead : CoincidesStep n (functionHead bound) (functionHead bound') :=
        GrammarComparison.functionHead (K := atOnePlace) hb hb'
      rw [functionDecl_eq, functionDecl_eq]
      exact hhead.bind hstop

/-! ## What stands before a place -/

/-- Two places in front of one text, which a keyword may follow both or none. -/
structure Behind (c c' : Cursor) : Prop where
  rest : c.rest = c'.rest
  previous : c.previous.any isKeywordChar = c'.previous.any isKeywordChar

theorem Behind.skip {c c' : Cursor} (h : Behind c c') : Behind c.skip c'.skip := by
  obtain ⟨previous, text⟩ := c
  obtain ⟨previous', text'⟩ := c'
  obtain ⟨rfl, hp⟩ := h
  cases text with
  | nil => exact ⟨rfl, hp⟩
  | cons x rest =>
      rw [Cursor.skip, Cursor.skip, Cursor.skipFrom, Cursor.skipFrom]
      split
      · exact ⟨rfl, rfl⟩
      · split
        · exact ⟨rfl, rfl⟩
        · split
          · exact ⟨rfl, rfl⟩
          · split
            · exact ⟨rfl, rfl⟩
            · exact ⟨rfl, hp⟩

theorem accept_behind {w : List Char} (hw : w ≠ []) {c c' : Cursor} (h : Behind c c') :
    c.accept w = c'.accept w := by
  unfold Cursor.accept
  rw [h.rest, List.getLast?_eq_some_getLast hw]
  rfl

theorem keywordHere_behind {w : String} (hw : w ∈ keywords) {c c' : Cursor} (h : Behind c c') :
    keywordHere w c = keywordHere w c' := by
  have hne : w.toList ≠ [] := (isBareWord_iff.1 (isBareWord_of_keyword w hw)).1
  unfold keywordHere
  rw [h.previous, accept_behind hne h]

theorem keyword_behind {w : String} (hw : w ∈ keywords) {c c' : Cursor} (h : Behind c c') :
    keyword w c = keyword w c' :=
  keywordHere_behind hw h.skip

theorem name_behind {c c' : Cursor} (h : Behind c c') : name c = name c' := by
  have hskip := h.skip
  have hat : atKeyword c.skip = atKeyword c'.skip := by
    unfold atKeyword
    rw [Bool.eq_iff_iff, List.any_eq_true, List.any_eq_true]
    exact exists_congr fun w => and_congr_right fun hw => by rw [keywordHere_behind hw hskip]
  simp only [name, token, word, hat, hskip.rest]

theorem declaration_behind {c c' : Cursor} (h : Behind c c') (bound : Nat) :
    declaration bound c = declaration bound c' := by
  have htype : typeDecl bound c = typeDecl bound c' :=
    bind_congr (keyword_behind (by decide) h) fun _ _ _ => rfl
  have hfunction : functionDecl bound c = functionDecl bound c' :=
    bind_congr (name_behind h) fun _ _ _ => rfl
  unfold declaration orElse
  rw [htype, hfunction]

/-- Declarations are read at a place in one way, by all bounds that exceed the text that is left and
whatever stands before it. -/
theorem declaration_eq {c c' : Cursor} (h : Behind c c') (hb : c.rest.length < bound)
    (hb' : c.rest.length < bound') : declaration bound c = declaration bound' c' := by
  rw [← declaration_behind h]
  exact (declaration_coincides (n := c.rest.length + 1) hb hb').agrees c (Nat.lt_succ_self _)

end Fern.Parser
