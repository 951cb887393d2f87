import Fern.Proofs.AlphaTerm
import Fern.Proofs.EntryParam
import Fern.Proofs.RenamedRuns

/-!
# Renaming a local name

A local name can be called anything that is not in use. `Term.rename` replaces a
name where it occurs free, `RenamesBinder` is the renaming of a `let`, of a
parameter or of a capture somewhere in a tree together with the occurrences that
it binds. If the new name occurs nowhere, the renamed tree differs from the old
one only in a name that it binds, and so renamed declarations make a program that
runs alike, up to the renaming in the functions that come of it. These may have
captured one binding more, which another one of its name hid before it was renamed.
-/

namespace Fern

namespace Term

mutual

/-- The tree with a name replaced wherever it occurs free. -/
def rename (old new : String) : Term → Term
  | .integer n => .integer n
  | .string text => .string text
  | .boolean b => .boolean b
  | .unit => .unit
  | .identifier name => .identifier (if name = old then new else name)
  | .constructor name => .constructor name
  | .tuple items => .tuple (renameAll old new items)
  | .record fields => .record (renameFields old new fields)
  | .field target name => .field (target.rename old new) name
  | .item target index => .item (target.rename old new) index
  | .apply callee args => .apply (callee.rename old new) (renameAll old new args)
  | .binary op lhs rhs => .binary op (lhs.rename old new) (rhs.rename old new)
  | .sequence first rest =>
    .sequence (first.rename old new) (if sequenceName = old then rest else rest.rename old new)
  | .letIn name rhs body =>
    .letIn name (rhs.rename old new) (if name = old then body else body.rename old new)
  | .conditional cond cons alt =>
    .conditional (cond.rename old new) (cons.rename old new) (alt.rename old new)
  | .caseOf matchee arms => .caseOf (matchee.rename old new) (renameArms old new arms)
  | .lambda params body => .lambda params (if old ∈ params then body else body.rename old new)
  | .other tag content => .other tag content

def renameAll (old new : String) : List Term → List Term
  | [] => []
  | t :: rest => t.rename old new :: renameAll old new rest

def renameFields (old new : String) : List (String × Term) → List (String × Term)
  | [] => []
  | (name, t) :: rest => (name, t.rename old new) :: renameFields old new rest

/-- The arms of a match with a name replaced in the bodies that do not capture
it. -/
def renameArms (old new : String) : List (Arm Term) → List (Arm Term)
  | [] => []
  | ⟨head, binding, body⟩ :: rest =>
    ⟨head, binding, if captureOf binding = some old then body else body.rename old new⟩ ::
      renameArms old new rest

end

/-- A name is used in a tree: it occurs, or it is bound. -/
inductive Mentions (name : String) : Term → Prop
  | identifier : Mentions name (.identifier name)
  | binder {t : Term} (mem : name ∈ t.binders) : Mentions name t
  | inside {t part : Term} (mem : part ∈ t.parts) (mentions : Mentions name part) : Mentions name t

theorem Mentions.eq_of_identifier {name other : String}
    (h : (Term.identifier other).Mentions name) : other = name := by
  generalize ht : Term.identifier other = t at h
  cases h with
  | identifier => exact Term.identifier.inj ht
  | binder hm =>
      subst ht
      cases hm
  | inside hm _ =>
      subst ht
      cases hm

section NotMentions

variable {name : String} {t rhs body : Term}

theorem not_mentions (hname : t ≠ .identifier name) (hbinders : name ∉ t.binders)
    (hparts : ∀ part ∈ t.parts, ¬part.Mentions name) : ¬t.Mentions name := by
  intro h
  cases h with
  | identifier => exact hname rfl
  | binder hm => exact hbinders hm
  | inside hm h => exact hparts _ hm h

theorem not_mentions_integer (n : Int) : ¬(Term.integer n).Mentions name :=
  not_mentions (by simp) List.not_mem_nil fun _ hm => absurd hm List.not_mem_nil

theorem not_mentions_let {other : String} (hother : other ≠ name) (hrhs : ¬rhs.Mentions name)
    (hbody : ¬body.Mentions name) : ¬(Term.letIn other rhs body).Mentions name :=
  not_mentions (by simp) (fun hm => hother (List.mem_singleton.1 hm).symm)
    (List.forall_mem_cons.2 ⟨hrhs, List.forall_mem_singleton.2 hbody⟩)

theorem not_mentions_lambda {params : List String} (hparams : name ∉ params)
    (hbody : ¬body.Mentions name) : ¬(Term.lambda params body).Mentions name :=
  not_mentions (by simp) hparams (List.forall_mem_singleton.2 hbody)

end NotMentions

/-- The second tree is the first with a new name for what a `let`, a parameter or
a capture somewhere in it binds. In each part of a node there may be one. -/
inductive RenamesBinder (old new : String) : Term → Term → Prop
  | letIn (rhs body : Term) :
      RenamesBinder old new (.letIn old rhs body) (.letIn new rhs (body.rename old new))
  | lambda (before behind : List String) (body : Term) :
      RenamesBinder old new (.lambda (before ++ old :: behind) body)
        (.lambda (before ++ new :: behind)
          (if old ∈ behind then body else body.rename old new))
  | capture (matchee : Term) (before behind : List (Arm Term)) (head : String) (body : Term)
      (hold : old ≠ "_") :
      RenamesBinder old new (.caseOf matchee (before ++ ⟨head, some old, body⟩ :: behind))
        (.caseOf matchee (before ++ ⟨head, some new, body.rename old new⟩ :: behind))
  | inside {t t' : Term} {changed : Term → Term → Prop}
      (hchanged : ∀ {a a' : Term}, changed a a' → RenamesBinder old new a a')
      (node : t.Paired (fun a a' => a = a' ∨ changed a a')
        (fun pairs a a' => (∀ pair ∈ pairs, pair.1 = pair.2) ∧ (a = a' ∨ changed a a')) Eq t') :
      RenamesBinder old new t t'

end Term

/-! ## Renamed trees are alike -/

namespace NameMatch

variable {m : NameMatch} {old new : String}

/-- Names other than the new one stand for themselves. -/
def Fixes (m : NameMatch) (new : String) : Prop := ∀ name, name ≠ new → m name name

/-- The old name stands for the new one, other names for themselves. -/
structure Sends (m : NameMatch) (old new : String) : Prop where
  old_new : m old new
  other {name : String} : name ≠ old → name ≠ new → m name name

theorem Fixes.bind (h : m.Fixes new) {name : String} : (m.bind name name).Fixes new := by
  intro x hx
  by_cases hn : x = name
  · exact .inl ⟨hn, hn⟩
  · exact .inr ⟨hn, hn, h x hx⟩

theorem Fixes.bind_old (h : m.Fixes new) : (m.bind old new).Sends old new :=
  ⟨.inl ⟨rfl, rfl⟩, fun hold hnew => .inr ⟨hold, hnew, h _ hnew⟩⟩

theorem Sends.bind (h : m.Sends old new) {name : String} (hold : name ≠ old) (hnew : name ≠ new) :
    (m.bind name name).Sends old new := by
  refine ⟨.inr ⟨hold.symm, hnew.symm, h.old_new⟩, fun {x} hxo hxn => ?_⟩
  by_cases hn : x = name
  · exact .inl ⟨hn, hn⟩
  · exact .inr ⟨hn, hn, h.other hxo hxn⟩

theorem Sends.bind_old (h : m.Sends old new) : (m.bind old old).Fixes new := by
  intro x hx
  by_cases hn : x = old
  · exact .inl ⟨hn, hn⟩
  · exact .inr ⟨hn, hn, h.other hn hx⟩

variable {pairs : List (String × String)}

theorem Fixes.binds (h : m.Fixes new) (hsame : ∀ pair ∈ pairs, pair.1 = pair.2) :
    (m.binds pairs).Fixes new := by
  induction pairs generalizing m with
  | nil => exact h
  | cons pair rest ih =>
      obtain ⟨hpair, hrest⟩ := List.forall_mem_cons.1 hsame
      refine ih (m := m.bind pair.1 pair.2) ?_ hrest
      rw [← hpair]
      exact h.bind

/-- Below binders that are the same on both sides the old name is still sent to
the new one, or it has been bound again. -/
theorem Sends.binds (h : m.Sends old new) (hsame : ∀ pair ∈ pairs, pair.1 = pair.2)
    (hnew : ∀ pair ∈ pairs, pair.1 ≠ new) :
    (old ∉ pairs.map (·.1) → (m.binds pairs).Sends old new) ∧
      (old ∈ pairs.map (·.1) → (m.binds pairs).Fixes new) := by
  induction pairs generalizing m with
  | nil => exact ⟨fun _ => h, fun hm => absurd hm List.not_mem_nil⟩
  | cons pair rest ih =>
      obtain ⟨name, name'⟩ := pair
      obtain ⟨hpair, hrest⟩ := List.forall_mem_cons.1 hsame
      obtain rfl : name = name' := hpair
      obtain ⟨hn, hnews⟩ := List.forall_mem_cons.1 hnew
      by_cases heq : name = old
      · subst heq
        refine ⟨fun hm => absurd List.mem_cons_self hm, fun _ => ?_⟩
        exact Fixes.binds (m := m.bind name name) h.bind_old hrest
      · obtain ⟨hout, hin⟩ := ih (m := m.bind name name) (h.bind heq hn) hrest hnews
        refine ⟨fun hm => hout (List.not_mem_of_not_mem_cons hm), fun hm => hin ?_⟩
        exact (List.mem_cons.1 hm).resolve_left fun he => heq he.symm

end NameMatch

variable {old new : String}

namespace Term

theorem renameAll_eq_map (ts : List Term) : renameAll old new ts = ts.map (rename old new) := by
  induction ts with
  | nil => rfl
  | cons t rest ih => rw [renameAll, ih, List.map_cons]

theorem renameFields_eq_map (fields : List (String × Term)) :
    renameFields old new fields = fields.map fun field => (field.1, field.2.rename old new) := by
  induction fields with
  | nil => rfl
  | cons field rest ih => rw [renameFields, ih, List.map_cons]

theorem renameArms_eq_map (arms : List (Arm Term)) :
    renameArms old new arms = arms.map fun arm =>
      ⟨arm.constructor, arm.binding,
        if captureOf arm.binding = some old then arm.body else arm.body.rename old new⟩ := by
  induction arms with
  | nil => rfl
  | cons arm rest ih => rw [renameArms, ih, List.map_cons]

/-- A node is paired with the renamed one. -/
theorem Paired.rename (old new : String) (t : Term) :
    t.Paired (fun a a' => a' = a.rename old new)
      (fun pairs a a' => (∀ pair ∈ pairs, pair.1 = pair.2) ∧
        a' = if old ∈ pairs.map (·.1) then a else a.rename old new)
      (fun name name' => name' = if name = old then new else name) (t.rename old new) := by
  have hone : ∀ name : String, ∀ pair ∈ [(name, name)], pair.1 = pair.2 := fun name =>
    List.forall_mem_singleton.2 rfl
  have hif : ∀ (name : String) (a : Term), (if name = old then a else a.rename old new) =
      if old ∈ [(name, name)].map (·.1) then a else a.rename old new := by
    intro name a
    simp only [List.map_cons, List.map_nil, List.mem_singleton, eq_comm]
  cases t with
  | integer n => exact .integer n
  | string text => exact .string text
  | boolean b => exact .boolean b
  | unit => exact .unit
  | identifier name => exact .identifier rfl
  | constructor name => exact .constructor name
  | tuple items =>
      rw [Term.rename, renameAll_eq_map]
      exact .tuple (List.forall₂_map_right_iff.2 (List.forall₂_same.2 fun _ _ => rfl))
  | record fields =>
      rw [Term.rename, renameFields_eq_map]
      exact .record (List.forall₂_map_right_iff.2 (List.forall₂_same.2 fun _ _ => ⟨rfl, rfl⟩))
  | field target name => exact .field rfl
  | item target index => exact .item rfl
  | apply callee args =>
      rw [Term.rename, renameAll_eq_map]
      exact .apply rfl (List.forall₂_map_right_iff.2 (List.forall₂_same.2 fun _ _ => rfl))
  | binary op lhs rhs => exact .binary rfl rfl
  | sequence first rest => exact .sequence rfl ⟨hone _, hif _ _⟩
  | letIn name rhs body => exact .letIn rfl ⟨hone name, hif _ _⟩
  | conditional cond cons alt => exact .conditional rfl rfl rfl
  | caseOf matchee arms =>
      rw [Term.rename, renameArms_eq_map]
      refine .caseOf rfl (List.forall₂_map_right_iff.2 (List.forall₂_same.2 fun arm _ => ?_))
      obtain ⟨head, binding, body⟩ := arm
      rcases captureOf_cases binding with hnone | ⟨name, hname, rfl⟩
      · refine .plain hnone ⟨fun _ hp => absurd hp List.not_mem_nil, ?_⟩
        rw [hnone]
        rfl
      · refine .capture hname hname ⟨hone name, ?_⟩
        rw [captureOf_some hname, ← hif]
        simp only [Option.some.injEq]
  | lambda params body =>
      rw [Term.rename]
      refine .lambda_same ⟨eq_of_mem_samePairs, ?_⟩
      rw [samePairs_fst]
  | other tag content => exact .other tag content

variable {m : NameMatch} {t t' : Term} {binder : String → String → Prop}

/-- Names that a tree binds or that its parts use are not the new one. -/
theorem ne_of_binder (hfresh : ¬t.Mentions new) {pairs : List (String × String)}
    (hp : ∀ pair ∈ pairs, pair.1 ∈ t.binders) : ∀ pair ∈ pairs, pair.1 ≠ new := by
  intro pair hm heq
  exact hfresh (.binder (heq ▸ hp pair hm))

section Binder

-- What is asked of binders must allow that names but the new one are bound as themselves.
variable (hbinder : ∀ name, name ≠ new → binder name name)
include hbinder

theorem binder_of_same {pairs : List (String × String)} (hsame : ∀ pair ∈ pairs, pair.1 = pair.2)
    (hne : ∀ pair ∈ pairs, pair.1 ≠ new) : ∀ pair ∈ pairs, binder pair.1 pair.2 :=
  fun pair hm => hsame pair hm ▸ hbinder pair.1 (hne pair hm)

/-- A tree in which the new name is not used is like itself. -/
theorem Alike.same (hm : m.Fixes new) (hfresh : ¬t.Mentions new) : t.Alike binder m t := by
  have hall : t.All fun _ => True := .of_forall (fun _ => trivial) t
  induction hall generalizing m with
  | @intro t _ _ ih =>
  have hpart : ∀ part ∈ t.parts, ¬part.Mentions new := fun part hp hmention =>
    hfresh (.inside hp hmention)
  refine .of_node ((Paired.same t).imp (fun {a a'} hp heq => ?_)
    (fun {pairs a a'} hp hbinders hunder => ?_) fun {n n'} ht heq => ?_)
  · subst heq
    exact ih a hp hm (hpart a hp)
  · obtain ⟨hsame, rfl⟩ := hunder
    exact ⟨binder_of_same hbinder hsame (ne_of_binder hfresh hbinders),
      ih a hp (hm.binds hsame) (hpart a hp)⟩
  · subst ht heq
    refine hm n fun hn => hfresh ?_
    subst hn
    exact .identifier

/-- A tree in which the new name is not used is like the renamed one, where the
old name stands for the new one. -/
theorem Alike.rename (hm : m.Sends old new) (hfresh : ¬t.Mentions new) :
    t.Alike binder m (t.rename old new) := by
  have hall : t.All fun _ => True := .of_forall (fun _ => trivial) t
  induction hall generalizing m with
  | @intro t _ _ ih =>
  have hpart : ∀ part ∈ t.parts, ¬part.Mentions new := fun part hp hmention =>
    hfresh (.inside hp hmention)
  refine .of_node ((Paired.rename old new t).imp (fun {a a'} hp heq => ?_)
    (fun {pairs a a'} hp hbinders hunder => ?_) fun {n n'} ht heq => ?_)
  · subst heq
    exact ih a hp hm (hpart a hp)
  · obtain ⟨hsame, rfl⟩ := hunder
    have hne := ne_of_binder hfresh hbinders
    obtain ⟨hout, hin⟩ := hm.binds hsame hne
    refine ⟨binder_of_same hbinder hsame hne, ?_⟩
    by_cases hold : old ∈ pairs.map (·.1)
    · rw [if_pos hold]
      exact .same hbinder (hin hold) (hpart a hp)
    · rw [if_neg hold]
      exact ih a hp (hout hold) (hpart a hp)
  · subst ht heq
    by_cases hold : n = old
    · subst hold
      rw [if_pos rfl]
      exact hm.old_new
    · rw [if_neg hold]
      refine hm.other hold fun hn => hfresh ?_
      subst hn
      exact .identifier

/-- So is an arm that does not use the new name. -/
theorem Alike.arm_same (hm : m.Fixes new) {arm : Arm Term}
    (hcapture : captureOf arm.binding ≠ some new) (hfresh : ¬arm.body.Mentions new) :
    arm.Paired (fun pairs a a' => (∀ pair ∈ pairs, binder pair.1 pair.2) ∧
      a.Alike binder (m.binds pairs) a') arm := by
  obtain ⟨head, binding, body⟩ := arm
  rcases captureOf_cases binding with hnone | ⟨name, hname, rfl⟩
  · exact .plain hnone ⟨fun _ hp => absurd hp List.not_mem_nil, .same hbinder hm hfresh⟩
  · rw [captureOf_some hname] at hcapture
    have hself := hbinder name fun heq => hcapture (congrArg some heq)
    exact .capture hname hname
      ⟨List.forall_mem_singleton.2 hself, .same hbinder hm.bind hfresh⟩

end Binder

/-- The parameters of a function, of which one gets a new name. -/
def renamedParams (before behind : List String) (old new : String) : List (String × String) :=
  samePairs before ++ (old, new) :: samePairs behind

theorem renamedParams_fst (before behind : List String) (old new : String) :
    (renamedParams before behind old new).map (·.1) = before ++ old :: behind := by
  simp [renamedParams]

theorem renamedParams_snd (before behind : List String) (old new : String) :
    (renamedParams before behind old new).map (·.2) = before ++ new :: behind := by
  simp [renamedParams]

theorem ne_of_mem_samePairs {names : List String} (h : new ∉ names) :
    ∀ pair ∈ samePairs names, pair.1 ≠ new := by
  intro pair hp heq
  obtain ⟨name, hname, rfl⟩ := List.mem_map.1 hp
  exact h (heq ▸ hname)

section Binder

variable (hbinder : ∀ name, name ≠ new → binder name name)
include hbinder

theorem binder_of_mem_renamedParams (hrenamed : binder old new) {before behind : List String}
    (hbefore : new ∉ before) (hbehind : new ∉ behind) :
    ∀ pair ∈ renamedParams before behind old new, binder pair.1 pair.2 := by
  intro pair hp
  rcases List.mem_append.1 hp with hp | hp
  · exact binder_of_same hbinder eq_of_mem_samePairs (ne_of_mem_samePairs hbefore) pair hp
  · rcases List.mem_cons.1 hp with rfl | hp
    · exact hrenamed
    · exact binder_of_same hbinder eq_of_mem_samePairs (ne_of_mem_samePairs hbehind) pair hp

/-- The body of a function below its parameters, where a later parameter of the
old name hides the renamed one. -/
theorem Alike.below_params {before behind : List String} (hm : m.Fixes new)
    (hbehind : new ∉ behind) (hfresh : ¬t.Mentions new) :
    t.Alike binder (m.binds (renamedParams before behind old new))
      (if old ∈ behind then t else t.rename old new) := by
  have hsends : ((m.binds (samePairs before)).bind old new).Sends old new :=
    (hm.binds eq_of_mem_samePairs).bind_old
  obtain ⟨hout, hin⟩ := hsends.binds eq_of_mem_samePairs (ne_of_mem_samePairs hbehind)
  rw [samePairs_fst] at hout hin
  rw [NameMatch.binds, renamedParams, List.foldl_append, List.foldl_cons, ← NameMatch.binds,
    ← NameMatch.binds]
  by_cases hold : old ∈ behind
  · rw [if_pos hold]
    exact .same hbinder (hin hold) hfresh
  · rw [if_neg hold]
    exact .rename hbinder (hout hold) hfresh

/-- Renaming a binder to a name that is not used makes an alike tree. -/
theorem RenamesBinder.alike (hrenamed : old ≠ new → binder old new)
    (h : t.RenamesBinder old new t') (hnew : new ≠ "_") (hm : m.Fixes new)
    (hfresh : ¬t.Mentions new) : t.Alike binder m t' := by
  induction h generalizing m with
  | letIn rhs body =>
      have hold : old ≠ new := fun heq => hfresh (heq ▸ .binder List.mem_cons_self)
      refine .of_node (.letIn (.same hbinder hm fun h => hfresh (.inside (by simp [parts]) h))
        ⟨List.forall_mem_singleton.2 (hrenamed hold), .rename hbinder hm.bind_old fun h => ?_⟩)
      exact hfresh (.inside (by simp [parts]) h)
  | lambda before behind body =>
      have hparams : new ∉ before ++ old :: behind := fun hb => hfresh (.binder hb)
      simp only [List.mem_append, List.mem_cons, not_or] at hparams
      obtain ⟨hbefore, hold, hbehind⟩ := hparams
      have hbody : ¬body.Mentions new := fun h => hfresh (.inside List.mem_cons_self h)
      rw [← renamedParams_fst before behind old new, ← renamedParams_snd before behind old new]
      exact .of_node (.lambda ⟨binder_of_mem_renamedParams hbinder (hrenamed (Ne.symm hold))
        hbefore hbehind, .below_params hbinder hm hbehind hbody⟩)
  | capture matchee before behind head body hold =>
      have hfree {arm : Arm Term} (ha : arm ∈ before ++ ⟨head, some old, body⟩ :: behind) :
          captureOf arm.binding ≠ some new ∧ ¬arm.body.Mentions new := by
        refine ⟨fun h => hfresh (.binder (List.mem_filterMap.2 ⟨arm, ha, h⟩)), fun h => ?_⟩
        exact hfresh (.inside (List.mem_cons_of_mem _ (List.mem_map.2 ⟨arm, ha, rfl⟩)) h)
      have hself := hfree (List.mem_append_right _ List.mem_cons_self)
      have hne : old ≠ new := fun heq => hself.1 (heq ▸ captureOf_some hold)
      refine .of_node (.caseOf
        (.same hbinder hm fun h => hfresh (.inside List.mem_cons_self h))
        (List.rel_append (List.forall₂_same.2 fun arm ha => ?_)
          (.cons ?_ (List.forall₂_same.2 fun arm ha => ?_))))
      · obtain ⟨hcapture, hbody⟩ := hfree (List.mem_append_left _ ha)
        exact Alike.arm_same hbinder hm hcapture hbody
      · exact .capture hold hnew ⟨List.forall_mem_singleton.2 (hrenamed hne),
          .rename hbinder hm.bind_old hself.2⟩
      · obtain ⟨hcapture, hbody⟩ := hfree (List.mem_append_right _ (List.mem_cons_of_mem _ ha))
        exact Alike.arm_same hbinder hm hcapture hbody
  | @inside t t' changed _ node ih =>
      have hpart : ∀ a ∈ t.parts, ¬a.Mentions new := fun a hp hmention =>
        hfresh (.inside hp hmention)
      refine .of_node (node.imp (fun {a a'} hp h => ?_) (fun {pairs a a'} hp hbinders h => ?_)
        fun {n n'} ht heq => ?_)
      · rcases h with rfl | h
        · exact .same hbinder hm (hpart a hp)
        · exact ih h hm (hpart a hp)
      · refine ⟨binder_of_same hbinder h.1 (ne_of_binder hfresh hbinders), ?_⟩
        rcases h.2 with rfl | hchanged
        · exact .same hbinder (hm.binds h.1) (hpart a hp)
        · exact ih hchanged (hm.binds h.1) (hpart a hp)
      · subst ht heq
        refine hm n fun hn => hfresh ?_
        subst hn
        exact .identifier

end Binder

end Term

/-! ## Renamed declarations run alike -/

/-- A name is used in a declaration: it is a parameter, or the body uses it. -/
def Declaration.Mentions (name : String) : Declaration → Prop
  | .type _ => False
  | .function decl => name ∈ decl.params ∨ decl.body.Mentions name

/-- The second declaration is the first with a new name for a parameter or for
what something in the body binds. -/
inductive Declaration.RenamesBinder (old new : String) : Declaration → Declaration → Prop
  | param (name : String) (before behind : List String) (body : Term) :
      RenamesBinder old new (.function ⟨name, before ++ old :: behind, body⟩)
        (.function ⟨name, before ++ new :: behind,
          if old ∈ behind then body else body.rename old new⟩)
  | body {name : String} {params : List String} {body body' : Term}
      (hbody : body.RenamesBinder old new body') :
      RenamesBinder old new (.function ⟨name, params, body⟩) (.function ⟨name, params, body'⟩)

theorem fixes_eq : NameMatch.Fixes Eq new := fun _ _ => rfl

theorem fixes_sending : (NameMatch.sending old new old).Fixes new := fun _ hne =>
  ⟨hne, (ite_eq_right_iff.2 Eq.symm).symm⟩

section Declaration

variable {binder : String → String → Prop} {m : NameMatch}

theorem Declaration.Alike.of_body {name : String} {params : List String} {body body' : Term}
    (hparams : ∀ pair ∈ samePairs params, binder pair.1 pair.2)
    (hbody : body.Alike binder (m.binds (samePairs params)) body') :
    Declaration.Alike binder m (.function ⟨name, params, body⟩)
      (.function ⟨name, params, body'⟩) := by
  have halike : Declaration.Alike binder m
      (.function ⟨name, (samePairs params).map (·.1), body⟩)
      (.function ⟨name, (samePairs params).map (·.2), body'⟩) :=
    .function hparams hbody
  rwa [samePairs_fst, samePairs_snd] at halike

variable (hbinder : ∀ name, name ≠ new → binder name name) (hm : m.Fixes new)
include hbinder hm

theorem Declaration.Alike.same {decl : Declaration} (hfresh : ¬decl.Mentions new) :
    decl.Alike binder m decl := by
  cases decl with
  | type decl => exact .type decl
  | function decl =>
      have hparams : ∀ pair ∈ samePairs decl.params, pair.1 ≠ new :=
        Term.ne_of_mem_samePairs fun h => hfresh (.inl h)
      exact .of_body (Term.binder_of_same hbinder eq_of_mem_samePairs hparams)
        (.same hbinder (hm.binds eq_of_mem_samePairs) fun h => hfresh (.inr h))

theorem Declaration.RenamesBinder.alike (hrenamed : old ≠ new → binder old new)
    {decl decl' : Declaration} (h : decl.RenamesBinder old new decl') (hnew : new ≠ "_")
    (hfresh : ¬decl.Mentions new) : decl.Alike binder m decl' := by
  cases h with
  | param name before behind body =>
      have hparams : new ∉ before ++ old :: behind := fun hb => hfresh (.inl hb)
      simp only [List.mem_append, List.mem_cons, not_or] at hparams
      obtain ⟨hbefore, hold, hbehind⟩ := hparams
      rw [← Term.renamedParams_fst before behind old new,
        ← Term.renamedParams_snd before behind old new]
      exact .function (Term.binder_of_mem_renamedParams hbinder (hrenamed (Ne.symm hold)) hbefore
        hbehind) (.below_params hbinder hm hbehind fun h => hfresh (.inr h))
  | body hbody =>
      have hparams := Term.ne_of_mem_samePairs fun h => hfresh (.inl h)
      exact .of_body (Term.binder_of_same hbinder eq_of_mem_samePairs hparams)
        (hbody.alike hbinder hrenamed hnew (hm.binds eq_of_mem_samePairs) fun h => hfresh (.inr h))

end Declaration

/-- What a local name is called does not matter. If declarations stand for a
program, then so do the declarations in which one `let`, parameter or capture has
a new name that is not used in them, and every entry whose own parameter has kept
its name writes the same and ends in the same way: with the same fault, or with
values in which functions differ at most by the renaming. What these have captured
is the same up to the renaming, but where the renamed binder and one of the old
name are both in force, the one that is not meant has been captured as well. -/
theorem alike_of_renaming {old new : String} (before behind : List Declaration)
    {decl decl' : Declaration} (hrename : decl.RenamesBinder old new decl') (hnew : new ≠ "_")
    (hfresh : ∀ other ∈ before ++ decl :: behind, ¬other.Mentions new) {program : Program}
    (hprogram : Program.ofDeclarations (before ++ decl :: behind) = .ok program) :
    ∃ program', Program.ofDeclarations (before ++ decl' :: behind) = .ok program' ∧
      ∀ entry, entryParam? (before ++ decl' :: behind) entry =
          entryParam? (before ++ decl :: behind) entry →
        ∀ files debug nesting,
          (Context.runWith ⟨program, files, debug⟩
            (Context.evalWithin ⟨program, files, debug⟩ nesting) entry).Alike
            (Value.RenamedTo old new program') Eq
            (Context.runWith ⟨program', files, debug⟩
              (Context.evalWithin ⟨program', files, debug⟩ nesting) entry) := by
  have hbinder : ∀ name, name ≠ new → FreshlyRenamed old new name name := fun _ hne =>
    ⟨hne, .inl rfl⟩
  have hsame {other : Declaration} (ho : ¬other.Mentions new) :
      other.Alike (FreshlyRenamed old new) (NameMatch.sending old new old) other :=
    .same hbinder fixes_sending ho
  have hdecls : List.Forall₂
      (Declaration.Alike (FreshlyRenamed old new) (NameMatch.sending old new old))
      (before ++ decl :: behind) (before ++ decl' :: behind) := by
    obtain ⟨hbefore, hothers⟩ := List.forall_mem_append.1 hfresh
    obtain ⟨hdecl, hbehind⟩ := List.forall_mem_cons.1 hothers
    refine List.rel_append (List.forall₂_same.2 fun other hm => hsame (hbefore other hm))
      (.cons ?_ (List.forall₂_same.2 fun other hm => hsame (hbehind other hm)))
    exact hrename.alike hbinder fixes_sending (fun hne => ⟨hne, .inr ⟨rfl, rfl⟩⟩) hnew hdecl
  obtain ⟨program', hprogram', halike⟩ :=
    Program.ofDeclarations_alike NameMatch.eq_of_sending_old hdecls program hprogram
  refine ⟨program', hprogram', fun entry hentry files debug nesting => ?_⟩
  refine renamed_runWith ⟨program, files, debug⟩ ⟨program', files, debug⟩ halike rfl nesting
    fun param body type definition param' body' type' definition' hf hf' => ?_
  have hparam := Program.entryParam?_of_find? hprogram hf
  have hparam' := Program.entryParam?_of_find? hprogram' hf'
  rw [hparam, hparam'] at hentry
  exact (Option.some.inj hentry).symm

/-- An entry that gives a function which has captured the name of a `let`. -/
theorem alike_of_renaming_let :
    ∃ program program',
      Program.ofDeclarations [.function ⟨"main", ["u"],
        .letIn "x" (.integer 1) (.lambda ["y"] (.identifier "x"))⟩] = .ok program ∧
      Program.ofDeclarations [.function ⟨"main", ["u"],
        .letIn "z" (.integer 1) (.lambda ["y"] (.identifier "z"))⟩] = .ok program' ∧
      ∀ files debug nesting,
        (Context.runWith ⟨program, files, debug⟩
          (Context.evalWithin ⟨program, files, debug⟩ nesting) "main").Alike
          (Value.RenamedTo "x" "z" program') Eq
          (Context.runWith ⟨program', files, debug⟩
            (Context.evalWithin ⟨program', files, debug⟩ nesting) "main") := by
  have hrename : Declaration.RenamesBinder "x" "z"
      (.function ⟨"main", ["u"], .letIn "x" (.integer 1) (.lambda ["y"] (.identifier "x"))⟩)
      (.function ⟨"main", ["u"], .letIn "z" (.integer 1) (.lambda ["y"] (.identifier "z"))⟩) :=
    .body (.letIn (.integer 1) (.lambda ["y"] (.identifier "x")))
  have hnot : ¬(Declaration.function ⟨"main", ["u"],
      .letIn "x" (.integer 1) (.lambda ["y"] (.identifier "x"))⟩).Mentions "z" := by
    rintro (hparam | hbody)
    · exact absurd hparam (by decide)
    · refine Term.not_mentions_let (by decide) (Term.not_mentions_integer 1) ?_ hbody
      exact Term.not_mentions_lambda (by decide) fun h => absurd h.eq_of_identifier (by decide)
  have hok : (Program.ofDeclarations [.function ⟨"main", ["u"],
      .letIn "x" (.integer 1) (.lambda ["y"] (.identifier "x"))⟩]).toOption.isSome := by
    decide +kernel
  obtain ⟨program, hprogram⟩ := Option.isSome_iff_exists.1 hok
  have hprogram := toOption_eq_some.1 hprogram
  obtain ⟨program', hprogram', halike⟩ := alike_of_renaming [] [] hrename (by decide)
    (List.forall_mem_singleton.2 hnot) hprogram
  exact ⟨program, program', hprogram, hprogram', halike "main" rfl⟩

/-- A run ends with a function that has captured these names. -/
def Run.captures (names : List String) (run : Run Value) : Bool :=
  match run {} with
  | .ok (.function _ captured _) _ => (Scope.visible captured).map (·.1) == names
  | _ => false

theorem Run.exists_of_captures {names : List String} {run : Run Value}
    (h : Run.captures names run) : ∃ param captured body console,
      run {} = .ok (.function param captured body) console ∧
        (Scope.visible captured).map (·.1) = names := by
  unfold captures at h
  split at h
  · next param captured body console heq => exact ⟨param, captured, body, console, heq, eq_of_beq h⟩
  · cases h

/-- A binding hides an outer one of its own name, but not one of another name. If of
two binders of one name the outer one is renamed, a function inside them captures
both, and so more than it does without the renaming. -/
theorem hidden_binding_is_captured :
    let decl : Declaration := .function ⟨"main", ["u"], .letIn "x" (.integer 1)
      (.letIn "x" (.integer 2) (.lambda ["y"] (.identifier "x")))⟩
    let decl' : Declaration := .function ⟨"main", ["u"], .letIn "z" (.integer 1)
      (.letIn "x" (.integer 2) (.lambda ["y"] (.identifier "x")))⟩
    decl.RenamesBinder "x" "z" decl' ∧ ¬decl.Mentions "z" ∧
      entryParam? [decl'] "main" = entryParam? [decl] "main" ∧
      ∃ program program', Program.ofDeclarations [decl] = .ok program ∧
        Program.ofDeclarations [decl'] = .ok program' ∧
        ∃ param captured body console param' captured' body' console',
          Context.runWith ⟨program, .ofVisits [], false⟩
            (Context.evalWithin ⟨program, .ofVisits [], false⟩ (.ok 10)) "main" {} =
              .ok (.function param captured body) console ∧
          Context.runWith ⟨program', .ofVisits [], false⟩
            (Context.evalWithin ⟨program', .ofVisits [], false⟩ (.ok 10)) "main" {} =
              .ok (.function param' captured' body') console' ∧
          (Scope.visible captured).map (·.1) = ["x"] ∧
          (Scope.visible captured').map (·.1) = ["x", "z"] ∧
          ∀ rename : String → String,
            ¬((Scope.visible captured).map fun binding => rename binding.1).Perm
              ((Scope.visible captured').map (·.1)) := by
  intro decl decl'
  have hnot : ¬decl.Mentions "z" := by
    rintro (hparam | hbody)
    · exact absurd hparam (by decide)
    · refine Term.not_mentions_let (by decide) (Term.not_mentions_integer 1)
        (Term.not_mentions_let (by decide) (Term.not_mentions_integer 2) ?_) hbody
      exact Term.not_mentions_lambda (by decide) fun h => absurd h.eq_of_identifier (by decide)
  have htest : (Program.ofDeclarations [decl]).toOption.any fun program => Run.captures ["x"]
      (Context.runWith ⟨program, .ofVisits [], false⟩
        (Context.evalWithin ⟨program, .ofVisits [], false⟩ (.ok 10)) "main") := by
    decide +kernel
  have htest' : (Program.ofDeclarations [decl']).toOption.any fun program =>
      Run.captures ["x", "z"] (Context.runWith ⟨program, .ofVisits [], false⟩
        (Context.evalWithin ⟨program, .ofVisits [], false⟩ (.ok 10)) "main") := by
    decide +kernel
  obtain ⟨program, hsome, hcaptures⟩ := (Option.any_eq_true ..).1 htest
  obtain ⟨program', hsome', hcaptures'⟩ := (Option.any_eq_true ..).1 htest'
  obtain ⟨param, captured, body, console, hrun, hnames⟩ := Run.exists_of_captures hcaptures
  obtain ⟨param', captured', body', console', hrun', hnames'⟩ := Run.exists_of_captures hcaptures'
  refine ⟨.body (.letIn (.integer 1) _), hnot, rfl, program, program', toOption_eq_some.1 hsome,
    toOption_eq_some.1 hsome', param, captured, body, console, param', captured', body', console',
    hrun, hrun', hnames, hnames', fun rename hperm => ?_⟩
  have hlength := hperm.length_eq
  rw [List.length_map, ← List.length_map (·.1), hnames, hnames'] at hlength
  cases hlength

end Fern
