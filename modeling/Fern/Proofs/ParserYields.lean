import Fern.Syntax.Parse

/-!
# What a parser hands out

From places of one kind, a parser leads to places of another and hands out things of one sort. The
ways of putting parsers together carry this over, so a fact about all trees that the grammar builds
is shown layer by layer. Some facts hold of whole texts only: a place may be stuck, so that what has
been read in front of it goes for nothing unless nothing more is to be read. That a reading leads
from a stuck place to stuck places only is carried along, whatever the sort of what was read before.

If no places are told apart, what is left is that all that a parser reads, wherever it reads it, is
of one sort.
-/

namespace Fern.Parser

variable {α β : Type}

/-- From places of one kind, a parser leads to places of another, to a stuck one from a stuck one,
and what it reads is of one sort unless it leads to a stuck one. -/
def Leads (stuck before : Cursor → Prop) (p : Parser α) (sort : α → Prop)
    (after : Cursor → Prop) : Prop :=
  ∀ c a d, before c → p c = some (a, d) → after d ∧ (stuck c → stuck d) ∧ (stuck d ∨ sort a)

section Leads

variable {stuck before before' middle after after' : Cursor → Prop} {p q : Parser α}
  {sort sort' : α → Prop}

theorem Leads.mono (h : Leads stuck before p sort after) (hbefore : ∀ c, before' c → before c)
    (hsort : ∀ a, sort a → sort' a) (hafter : ∀ c, after c → after' c) :
    Leads stuck before' p sort' after' := by
  intro c a d hc hr
  obtain ⟨hd, hstuck, ha⟩ := h c a d (hbefore c hc) hr
  exact ⟨hafter d hd, hstuck, ha.imp_right (hsort a)⟩

theorem Leads.pure {a : α} (h : sort a) (hafter : ∀ c, before c → after c) :
    Leads stuck before (pure a) sort after := by
  intro c b d hc hr
  cases hr
  exact ⟨hafter c hc, id, .inr h⟩

theorem Leads.stay {a : α} (h : sort a) : Leads stuck before (Pure.pure a) sort before :=
  .pure h fun _ => id

theorem Leads.fail : Leads stuck before (fail : Parser α) sort after := by
  intro c a d hc hr
  cases hr

/-- What is read first has its sort where that counts, and what is read next may rely on it. -/
theorem Leads.bind {sort' : β → Prop} {next : α → Parser β} (h : Leads stuck before p sort middle)
    (hnext : ∀ a, Leads stuck middle (next a) (fun b => sort a → sort' b) after) :
    Leads stuck before (p >>= next) sort' after := by
  intro c b d hc hr
  obtain ⟨a, mid, ha, hb⟩ := bind_eq_some.1 hr
  obtain ⟨hmid, hstuck, hsort⟩ := h c a mid hc ha
  obtain ⟨hd, hstuck', hsort'⟩ := hnext a mid b d hmid hb
  refine ⟨hd, hstuck' ∘ hstuck, ?_⟩
  rcases hsort with hm | hs
  · exact .inl (hstuck' hm)
  · exact hsort'.imp_right fun hb => hb hs

theorem Leads.orElse (hp : Leads stuck before p sort after) (hq : Leads stuck before q sort after) :
    Leads stuck before (p.orElse q) sort after := by
  intro c a d hc hr
  rcases orElse_eq_some.1 hr with h | ⟨_, h⟩
  · exact hp c a d hc h
  · exact hq c a d hc h

theorem Leads.firstOf {parsers : List (Parser α)}
    (h : ∀ p ∈ parsers, Leads stuck before p sort after) :
    Leads stuck before (firstOf parsers) sort after := by
  induction parsers with
  | nil => exact .fail
  | cons p rest ih =>
      obtain ⟨hp, hrest⟩ := List.forall_mem_cons.1 h
      exact hp.orElse (ih hrest)

theorem Leads.optional (h : Leads stuck before p sort after) (hafter : ∀ c, before c → after c) :
    Leads stuck before (optional p) (fun found => ∀ a ∈ found, sort a) after := by
  intro c found d hc hr
  unfold Parser.optional at hr
  split at hr
  · cases hr
    refine ⟨hafter c hc, id, .inr fun a ha => ?_⟩
    cases ha
  · next first mid hfirst =>
    cases hr
    obtain ⟨hd, hstuck, hsort⟩ := h c first d hc hfirst
    refine ⟨hd, hstuck, hsort.imp_right fun hs a ha => ?_⟩
    cases ha
    exact hs

/-- The place behind a repetition is of the kind that every item starts from and leads to. -/
theorem Leads.collect (h : Leads stuck middle p sort middle) (bound : Nat) {c : Cursor}
    (hc : middle c) :
    middle (collect p bound c).2 ∧ (stuck c → stuck (collect p bound c).2) ∧
      (stuck (collect p bound c).2 ∨ ∀ a ∈ (collect p bound c).1, sort a) := by
  induction bound generalizing c with
  | zero =>
      refine ⟨hc, id, .inr fun a ha => ?_⟩
      cases ha
  | succ bound ih =>
      rw [Parser.collect]
      cases hr : p c with
      | none =>
          refine ⟨hc, id, .inr fun a ha => ?_⟩
          cases ha
      | some result =>
          obtain ⟨hmid, hstuck, hsort⟩ := h _ _ _ hc hr
          obtain ⟨hd, hstuck', hothers⟩ := ih hmid
          refine ⟨hd, hstuck' ∘ hstuck, ?_⟩
          rcases hsort with hm | hs
          · exact .inl (hstuck' hm)
          · exact hothers.imp_right fun ho => List.forall_mem_cons.2 ⟨hs, ho⟩

theorem Leads.many (h : Leads stuck middle p sort middle) (bound : Nat) :
    Leads stuck middle (many p bound) (fun all => ∀ a ∈ all, sort a) middle := by
  intro c all d hc hr
  have hall := h.collect bound hc
  rw [Option.some.inj hr] at hall
  exact hall

/-- A repetition that needs one item has one. -/
theorem Leads.many1 (h : Leads stuck middle p sort middle) (bound : Nat) :
    Leads stuck middle (many1 p bound) (fun all => all ≠ [] ∧ ∀ a ∈ all, sort a) middle :=
  h.bind fun _ => (h.many bound).bind fun _ =>
    .stay fun ho ha => ⟨List.cons_ne_nil _ _, List.forall_mem_cons.2 ⟨ha, ho⟩⟩

theorem Leads.separated {separator : Parser Unit} (h : Leads stuck before p sort after)
    (hs : Leads stuck after separator (fun _ => True) before) (bound : Nat) :
    Leads stuck before (separated p separator bound)
      (fun all => all ≠ [] ∧ ∀ a ∈ all, sort a) after := by
  have hnext : Leads stuck after (do separator; p) sort after :=
    hs.bind fun _ => h.mono (fun _ => id) (fun _ hs _ => hs) fun _ => id
  exact h.bind fun _ => (hnext.many bound).bind fun _ =>
    .stay fun ho ha => ⟨List.cons_ne_nil _ _, List.forall_mem_cons.2 ⟨ha, ho⟩⟩

end Leads

/-! ## Wherever it reads -/

/-- Any place. -/
def anywhere (_ : Cursor) : Prop := True

/-- No place. -/
def nowhere (_ : Cursor) : Prop := False

/-- All that a parser reads is of one sort. -/
def Yields (p : Parser α) (sort : α → Prop) : Prop := Leads nowhere anywhere p sort anywhere

section Yields

variable {p : Parser α} {sort : α → Prop}

theorem yields_iff : p.Yields sort ↔ ∀ c a d, p c = some (a, d) → sort a := by
  refine ⟨fun h c a d hr => ?_, fun h c a d _ hr => ⟨trivial, id, .inr (h c a d hr)⟩⟩
  exact (h c a d trivial hr).2.2.resolve_left id

theorem Yields.any : p.Yields fun _ => True := yields_iff.2 fun _ _ _ _ => trivial

theorem Yields.pure {a : α} (h : sort a) : Yields (pure a) sort := Leads.stay h

theorem Yields.bind {sort' : β → Prop} {next : α → Parser β} (h : p.Yields sort)
    (hn : ∀ a, sort a → (next a).Yields sort') : (p >>= next).Yields sort' :=
  Leads.bind h fun a => yields_iff.2 fun c b d hb ha => yields_iff.1 (hn a ha) c b d hb

theorem Yields.orElse {q : Parser α} (hp : p.Yields sort) (hq : q.Yields sort) :
    (p.orElse q).Yields sort :=
  Leads.orElse hp hq

theorem Yields.optional (h : p.Yields sort) :
    (optional p).Yields fun found => ∀ a ∈ found, sort a :=
  Leads.optional h fun _ => id

/-- So is all that it reads one behind the other. -/
theorem Yields.collect (h : p.Yields sort) (bound : Nat) (c : Cursor) :
    ∀ a ∈ (Parser.collect p bound c).1, sort a :=
  (Leads.collect h bound trivial).2.2.resolve_left id

theorem Yields.separated (h : p.Yields sort) (separator : Parser Unit) (bound : Nat) :
    (separated p separator bound).Yields fun all => all ≠ [] ∧ ∀ a ∈ all, sort a :=
  Leads.separated h Yields.any bound

end Yields

end Fern.Parser
