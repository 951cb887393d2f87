import Mathlib.Data.List.Forall2
import Fern.Resolve.Program

/-!
# Taking resolution apart

Resolution is a chain of steps each of which may refuse. `bind_eq_ok` undoes one
step of such a chain, and the functions that go through a list are maps, so what
is known of each member is known of the whole.
-/

namespace Fern

section Except

variable {ε α β : Type}

theorem bind_eq_ok {x : Except ε α} {next : α → Except ε β} {b : β} :
    x >>= next = .ok b ↔ ∃ a, x = .ok a ∧ next a = .ok b := by
  cases x with
  | error e =>
      refine ⟨fun h => ?_, fun ⟨_, h, _⟩ => ?_⟩
      · cases h
      · cases h
  | ok a =>
      refine ⟨fun h => ⟨a, rfl, h⟩, fun ⟨_, h, hn⟩ => ?_⟩
      cases h
      exact hn

theorem pure_eq_ok {a b : α} : (pure a : Except ε α) = .ok b ↔ a = b :=
  ⟨fun h => Except.ok.inj h, fun h => congrArg _ h⟩

theorem toOption_eq_some {x : Except ε α} {a : α} :
    x.toOption = some a ↔ x = .ok a := by
  cases x with
  | ok b => exact ⟨fun h => congrArg _ (Option.some.inj h), fun h => congrArg _ (Except.ok.inj h)⟩
  | error e =>
      refine ⟨fun h => ?_, fun h => ?_⟩
      · cases h
      · cases h

/-- A list is taken through a function that may refuse exactly if each of its
members is. -/
theorem mapM_eq_ok {f : α → Except ε β} {l : List α} {l' : List β} :
    l.mapM f = .ok l' ↔ List.Forall₂ (fun a b => f a = .ok b) l l' := by
  induction l generalizing l' with
  | nil =>
      rw [List.mapM_nil, pure_eq_ok, List.forall₂_nil_left_iff]
      exact eq_comm
  | cons a rest ih =>
      rw [List.mapM_cons, List.forall₂_cons_left_iff, bind_eq_ok]
      refine exists_congr fun b => ?_
      simp only [bind_eq_ok, pure_eq_ok, ih]
      exact ⟨fun ⟨ha, others, ho, he⟩ => ⟨others, ha, ho, he.symm⟩,
        fun ⟨others, ha, ho, he⟩ => ⟨ha, others, ho, he.symm⟩⟩

end Except

/-- The members on the right of a matching have partners on the left. -/
theorem exists_mem_of_forall₂ {α β : Type} {r : α → β → Prop} {l : List α} {l' : List β}
    (h : List.Forall₂ r l l') {b : β} (hb : b ∈ l') : ∃ a ∈ l, r a b := by
  induction h with
  | nil => cases hb
  | cons hr _ ih =>
      rcases List.mem_cons.1 hb with rfl | hb
      · exact ⟨_, List.mem_cons_self, hr⟩
      · obtain ⟨a, ha, hab⟩ := ih hb
        exact ⟨a, List.mem_cons_of_mem _ ha, hab⟩

/-- A list can be matched with another one exactly if each of its members can. -/
theorem exists_forall₂_iff {α β : Type} {r : α → β → Prop} {l : List α} :
    (∃ l', List.Forall₂ r l l') ↔ ∀ a ∈ l, ∃ b, r a b := by
  induction l with
  | nil => exact ⟨fun _ _ hm => absurd hm List.not_mem_nil, fun _ => ⟨[], .nil⟩⟩
  | cons a rest ih =>
      rw [List.forall_mem_cons, ← ih]
      constructor
      · rintro ⟨_, hall⟩
        cases hall with
        | cons hr hrest => exact ⟨⟨_, hr⟩, _, hrest⟩
      · rintro ⟨⟨b, hr⟩, others, hrest⟩
        exact ⟨b :: others, .cons hr hrest⟩

/-- A member is matched with the one at the same position. -/
theorem getElem?_of_forall₂ {α β : Type} {r : α → β → Prop} {l : List α} {l' : List β}
    (h : List.Forall₂ r l l') {index : Nat} {a : α} (ha : l[index]? = some a) :
    ∃ b, l'[index]? = some b ∧ r a b := by
  obtain ⟨hlt, rfl⟩ := List.getElem?_eq_some_iff.1 ha
  have hlt' : index < l'.length := h.length_eq ▸ hlt
  exact ⟨_, List.getElem?_eq_getElem hlt', (List.forall₂_iff_get.1 h).2 index hlt hlt'⟩

/-- What matched members have in common the lists have. -/
theorem map_eq_of_forall₂ {α β γ : Type} {r : α → β → Prop} {f : α → γ} {g : β → γ} {l : List α}
    {l' : List β} (h : List.Forall₂ r l l') (hfg : ∀ a b, r a b → f a = g b) :
    l.map f = l'.map g := by
  induction h with
  | nil => rfl
  | cons hr _ ih => rw [List.map_cons, List.map_cons, hfg _ _ hr, ih]

/-! ## Resolution of lists -/

theorem Term.resolveAll_eq_mapM (env : Env) (ts : List Term) :
    Term.resolveAll env ts = ts.mapM (Term.resolve env) := by
  induction ts with
  | nil => rfl
  | cons t rest ih =>
      rw [Term.resolveAll, List.mapM_cons, ih]

theorem Term.resolveFields_eq_map (env : Env) (fields : List (String × Term)) :
    Term.resolveFields env fields = fields.map fun field => (field.1, field.2.resolve env) := by
  induction fields with
  | nil => rfl
  | cons field rest ih =>
      rw [Term.resolveFields, ih, List.map_cons]

theorem Term.resolveArms_eq_map (env : Env) (arms : List (Arm Term)) :
    Term.resolveArms env arms = arms.map fun arm =>
      ⟨arm.constructor, arm.binding, arm.body.resolve (env.withCapture (captureOf arm.binding))⟩ := by
  induction arms with
  | nil => rfl
  | cons arm rest ih =>
      rw [Term.resolveArms, ih, List.map_cons]

theorem Env.withLocals_eq (env : Env) (names : List String) :
    env.withLocals names = { env with locals := names.reverse ++ env.locals } := by
  induction names generalizing env with
  | nil => rfl
  | cons name rest ih =>
      rw [Env.withLocals, List.foldl_cons, ← Env.withLocals, ih, Env.withLocal,
        List.reverse_cons, List.append_assoc, List.singleton_append]

theorem Env.withCapture_eq (env : Env) (capture : Option String) :
    env.withCapture capture = { env with locals := capture.toList ++ env.locals } := by
  cases capture with
  | none => rfl
  | some name => rfl

/-- A literal's values are those of its fields. -/
theorem mem_of_inRecordOrder {env : Env} {record : RecordType} {fields : List (String × Term)}
    {items : List Expr} (h : inRecordOrder record (Term.resolveFields env fields) = .ok items)
    {e : Expr} (he : e ∈ items) : ∃ field ∈ fields, field.2.resolve env = .ok e := by
  rw [inRecordOrder, mapM_eq_ok] at h
  obtain ⟨result, hr, hid⟩ := exists_mem_of_forall₂ h he
  obtain ⟨name, _, hl⟩ := List.mem_filterMap.1 hr
  have hmem := mem_of_lookup hl
  rw [Term.resolveFields_eq_map] at hmem
  obtain ⟨field, hf, hpair⟩ := List.mem_map.1 hmem
  exact ⟨field, hf, (congrArg Prod.snd hpair).trans hid⟩

end Fern
