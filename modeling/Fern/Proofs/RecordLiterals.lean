import Fern.Proofs.SharedTypes

/-!
# Record literals

A literal belongs to the one record type with exactly its fields, and what it means
holds the values in the order of that type. The names of the fields decide which type
that is and where each value goes; the order in which they are written does not.
-/

namespace Fern

/-! ## Repeated names -/

section EraseDups

variable {α : Type} [BEq α] [LawfulBEq α]

theorem eraseDups_of_nodup {l : List α} (h : l.Nodup) : l.eraseDups = l := by
  induction l with
  | nil => rfl
  | cons a rest ih =>
      obtain ⟨hfirst, hrest⟩ := List.nodup_cons.1 h
      have hkept : rest.filter (fun b => !b == a) = rest :=
        List.filter_eq_self.2 fun b hb => by
          simpa using fun heq : b = a => hfirst (heq ▸ hb)
      rw [List.eraseDups_cons, hkept, ih hrest]

omit [LawfulBEq α] in
theorem length_eraseDups_le (l : List α) : l.eraseDups.length ≤ l.length := by
  cases l with
  | nil => exact Nat.zero_le _
  | cons a rest =>
      have hrest := length_eraseDups_le (rest.filter fun b => !b == a)
      have hfilter := List.length_filter_le (fun b => !b == a) rest
      rw [List.eraseDups_cons, List.length_cons, List.length_cons]
      omega
termination_by l.length
decreasing_by
  exact Nat.lt_succ_of_le (List.length_filter_le _ _)

/-- A list loses nothing if repetitions are left out exactly if there are none. -/
theorem length_eraseDups_eq_iff {l : List α} : l.eraseDups.length = l.length ↔ l.Nodup := by
  refine ⟨fun h => ?_, fun h => congrArg List.length (eraseDups_of_nodup h)⟩
  induction l with
  | nil => exact .nil
  | cons a rest ih =>
      rw [List.eraseDups_cons, List.length_cons, List.length_cons, Nat.add_right_cancel_iff] at h
      -- The rest is as long without what equals the first member, so nothing does.
      have hle := length_eraseDups_le (rest.filter fun b => !b == a)
      have hfilter := List.length_filter_le (fun b => !b == a) rest
      have hkept : rest.filter (fun b => !b == a) = rest :=
        List.filter_sublist.eq_of_length (by omega)
      rw [hkept] at h
      refine List.nodup_cons.2 ⟨fun hm => ?_, ih h⟩
      simpa using List.filter_eq_self.1 hkept a hm

end EraseDups

/-! ## The type of a literal -/

section Literals

variable {env : Env}

/-- A literal belongs to a record type if that is the only one with its fields. -/
theorem recordFor_eq_ok {names : List String} {record : RecordType} :
    recordFor env names = .ok record ↔ names.Nodup ∧
      env.program.records.filter (fun record => record.fieldNames.isPerm names) = [record] := by
  rw [recordFor]
  split
  · next hrepeated =>
    exact ⟨fun h => (nomatch h), fun h => absurd (length_eraseDups_eq_iff.2 h.1) hrepeated⟩
  · next hnodup =>
    have hnodup := length_eraseDups_eq_iff.1 (not_not.1 hnodup)
    split
    · next only hone =>
      rw [hone, List.cons.injEq, Except.ok.injEq]
      exact ⟨fun h => ⟨hnodup, h, rfl⟩, fun h => h.2.1⟩
    · next hnone =>
      rw [hnone]
      exact ⟨fun h => (nomatch h), fun h => (nomatch h.2)⟩
    · next several hone _ =>
      exact ⟨fun h => (nomatch h), fun h => absurd h.2 (hone record)⟩

theorem recordFor_mem {names : List String} {record : RecordType}
    (h : recordFor env names = .ok record) :
    record ∈ env.program.records ∧ record.fieldNames.Perm names := by
  have hmem : record ∈ env.program.records.filter fun record => record.fieldNames.isPerm names :=
    (recordFor_eq_ok.1 h).2 ▸ List.mem_singleton_self record
  exact ⟨List.mem_of_mem_filter hmem, List.isPerm_iff.1 (List.mem_filter.1 hmem).2⟩

/-! ## The values of a literal -/

/-- Where no name occurs twice, a look-up finds what is there. -/
theorem lookup_resolveFields (env : Env) {fields : List (String × Term)}
    (hnodup : (fields.map (·.1)).Nodup) {name : String} {t : Term} (hm : (name, t) ∈ fields) :
    (Term.resolveFields env fields).lookup name = some (t.resolve env) := by
  rw [Term.resolveFields_eq_map]
  refine Program.lookup_of_nodup ?_ (List.mem_map.2 ⟨(name, t), hm, rfl⟩)
  rw [List.map_map]
  exact hnodup

/-- The values of a literal are those of its fields, in the order of its type. -/
theorem inRecordOrder_eq_ok {record : RecordType} {fields : List (String × Term)}
    (hperm : record.fieldNames.Perm (fields.map (·.1))) (hnodup : (fields.map (·.1)).Nodup)
    {items : List Expr} :
    inRecordOrder record (Term.resolveFields env fields) = .ok items ↔
      List.Forall₂ (fun name item => ∃ t, (name, t) ∈ fields ∧ t.resolve env = .ok item)
        record.fieldNames items := by
  rw [inRecordOrder, mapM_eq_ok]
  have hsub := hperm.subset
  generalize record.fieldNames = names at hsub
  induction names generalizing items with
  | nil => simp only [List.filterMap_nil, List.forall₂_nil_left_iff]
  | cons name rest ih =>
      obtain ⟨⟨_, t⟩, hm, rfl⟩ := List.mem_map.1 (hsub List.mem_cons_self)
      have hfound := lookup_resolveFields env hnodup hm
      rw [List.filterMap_cons, hfound, List.forall₂_cons_left_iff, List.forall₂_cons_left_iff]
      refine exists_congr fun item => exists_congr fun others => and_congr ?_ (and_congr_left' ?_)
      · constructor
        · exact fun h => ⟨t, hm, h⟩
        · rintro ⟨t', hm', h⟩
          -- Each name has one value.
          have hsame := hfound.symm.trans (lookup_resolveFields env hnodup hm')
          exact (Option.some.inj hsame).trans h
      · exact ih fun other ho => hsub (List.mem_cons_of_mem _ ho)

/-- What a literal means: it belongs to a record type, and its values are those of the
fields of that type. -/
theorem Term.resolve_record_eq_ok {fields : List (String × Term)} {e : Expr} :
    (Term.record fields).resolve env = .ok e ↔ ∃ record items,
      recordFor env (fields.map (·.1)) = .ok record ∧
      List.Forall₂ (fun name item => ∃ t, (name, t) ∈ fields ∧ t.resolve env = .ok item)
        record.fieldNames items ∧
      e = .record items (.named record.name []) := by
  simp only [Term.resolve, bind_eq_ok, pure_eq_ok]
  refine exists_congr fun record => ?_
  constructor
  · rintro ⟨hrecord, items, hitems, rfl⟩
    have hnodup := (recordFor_eq_ok.1 hrecord).1
    exact ⟨items, hrecord, (inRecordOrder_eq_ok (recordFor_mem hrecord).2 hnodup).1 hitems, rfl⟩
  · rintro ⟨items, hrecord, hitems, rfl⟩
    have hnodup := (recordFor_eq_ok.1 hrecord).1
    exact ⟨hrecord, items, (inRecordOrder_eq_ok (recordFor_mem hrecord).2 hnodup).2 hitems, rfl⟩

/-- What stands at the position of a field is what the field is written with. -/
theorem Term.item_of_position {names : List String} {fields : List (String × Term)}
    (hnodup : (fields.map (·.1)).Nodup) {items : List Expr}
    (hitems : List.Forall₂ (fun name item => ∃ t, (name, t) ∈ fields ∧ t.resolve env = .ok item)
      names items)
    {index : Nat} {name : String} (hindex : names[index]? = some name) {t : Term}
    (ht : (name, t) ∈ fields) :
    ∃ item, items[index]? = some item ∧ t.resolve env = .ok item := by
  obtain ⟨item, hitem, t', ht', hresolve⟩ := getElem?_of_forall₂ hitems hindex
  obtain ⟨-, rfl⟩ := Prod.mk.inj (List.inj_on_of_nodup_map hnodup ht' ht rfl)
  exact ⟨item, hitem, hresolve⟩

end Literals

end Fern
