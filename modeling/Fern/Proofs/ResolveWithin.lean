import Fern.Proofs.ResolvePairs
import Fern.Proofs.SharedTypes

/-!
# Resolution next to more types

One tree is resolved in two programs, of which the second one has all types of
the first. `Agrees` says of two steps of resolution that they give related
results if both accept, and that the second one accepts what the first one does
if the two programs have the same types. The walk over the forms of trees says
this of `Term.resolve`; what it needs of the types is `Program.Within`.
-/

namespace Fern

section Agrees

variable {ε α α' β β' : Type} {complete : Prop}

/-- If the first step accepts and the second does too, then the results are
related. If the programs have the same types, the second step does accept. -/
def Agrees (complete : Prop) (result : α → α' → Prop) (x : Except ε α) (x' : Except ε α') : Prop :=
  ∀ a, x = .ok a → (complete → ∃ a', x' = .ok a') ∧ ∀ a', x' = .ok a' → result a a'

variable {result : α → α' → Prop}

theorem Agrees.ok {a : α} {a' : α'} (h : result a a') :
    Agrees complete result (.ok a : Except ε α) (.ok a' : Except ε α') := by
  rintro _ ⟨⟩
  refine ⟨fun _ => ⟨a', rfl⟩, ?_⟩
  rintro _ ⟨⟩
  exact h

theorem Agrees.error {e : ε} {x' : Except ε α'} :
    Agrees complete result (.error e : Except ε α) x' :=
  fun _ h => nomatch h

theorem Agrees.bind {mid : β → β' → Prop} {x : Except ε β} {x' : Except ε β'}
    {next : β → Except ε α} {next' : β' → Except ε α'} (h : Agrees complete mid x x')
    (hnext : ∀ b b', mid b b' → Agrees complete result (next b) (next' b')) :
    Agrees complete result (x >>= next) (x' >>= next') := by
  intro a ha
  obtain ⟨b, hb, ha⟩ := bind_eq_ok.1 ha
  obtain ⟨haccepts, hrel⟩ := h b hb
  refine ⟨fun hc => ?_, fun a' ha' => ?_⟩
  · obtain ⟨b', hb'⟩ := haccepts hc
    obtain ⟨a', ha'⟩ := (hnext b b' (hrel b' hb') a ha).1 hc
    exact ⟨a', bind_eq_ok.2 ⟨b', hb', ha'⟩⟩
  · obtain ⟨b', hb', ha'⟩ := bind_eq_ok.1 ha'
    exact (hnext b b' (hrel b' hb') a ha).2 a' ha'

theorem Agrees.mono {result' : α → α' → Prop} {x : Except ε α} {x' : Except ε α'}
    (h : Agrees complete result x x') (hr : ∀ a a', result a a' → result' a a') :
    Agrees complete result' x x' :=
  fun a ha => ⟨(h a ha).1, fun a' ha' => hr a a' ((h a ha).2 a' ha')⟩

theorem Agrees.passesThrough :
    @PassesThrough (Except ε) (Except ε) _ _ fun _ _ => Agrees complete where
  result := .ok
  sequence := .bind

end Agrees

/-! ## Record types -/

/-- A field of one of the record types that a program has. -/
def fieldAmong (env : Env) (name : String) : Except ResolveError (Nat × TypeInfo) :=
  match env.program.records.filterMap (·.field? name) with
  | [] => env.refuse (.unknownField name)
  | [found] => .ok found
  | found :: others =>
    if others.all (·.1 == found.1) then .ok (found.1, .unknown)
    else env.refuse (.fieldPositions name)

section Fields

variable {env : Env}

/-- One record type has the field, or several do, all at the same position. -/
theorem fieldAmong_eq_ok {name : String} {found : Nat × TypeInfo} :
    fieldAmong env name = .ok found ↔
      env.program.records.filterMap (·.field? name) = [found] ∨
      2 ≤ (env.program.records.filterMap (·.field? name)).length ∧
        (∀ other ∈ env.program.records.filterMap (·.field? name), other.1 = found.1) ∧
        found.2 = .unknown := by
  rw [fieldAmong]
  generalize env.program.records.filterMap (·.field? name) = fields
  match fields with
  | [] => simp [Env.refuse]
  | [only] => simp
  | first :: second :: others =>
      dsimp only
      split
      · next hall =>
        have hsame : ∀ other ∈ first :: second :: others, other.1 = first.1 :=
          List.forall_mem_cons.2 ⟨rfl, fun other ho =>
            beq_iff_eq.1 (List.all_eq_true.1 hall other ho)⟩
        rw [Except.ok.injEq]
        constructor
        · rintro rfl
          exact .inr ⟨by simp, hsame, rfl⟩
        · rintro (h | ⟨-, hfound, hunknown⟩)
          · simp at h
          · exact Prod.ext (hfound first List.mem_cons_self) hunknown.symm
      · next hall =>
        refine ⟨fun h => (nomatch h), ?_⟩
        rintro (h | ⟨-, hfound, -⟩)
        · simp at h
        · refine absurd (List.all_eq_true.2 fun other ho => ?_) hall
          rw [beq_iff_eq, hfound other (List.mem_cons_of_mem _ ho),
            hfound first List.mem_cons_self]

/-- A field of a record type that the annotation of the target names. -/
theorem fieldFor_of_record (hnodup : (env.program.records.map (·.name)).Nodup) {target : TypeInfo}
    {record : RecordType} (hr : record ∈ env.program.records)
    (htarget : target.name? = some record.name) {name : String} {found : Nat × TypeInfo}
    (hfound : record.field? name = some found) : fieldFor env target name = .ok found := by
  have hknown : env.program.records.filter (fun other => target.name? == some other.name) =
      [record] := by
    rw [htarget]
    generalize env.program.records = records at hnodup hr
    induction records with
    | nil => cases hr
    | cons first rest ih =>
        obtain ⟨hfirst, hrest⟩ := List.nodup_cons.1 hnodup
        rcases List.mem_cons.1 hr with rfl | hr
        · rw [List.filter_cons_of_pos (by simp), List.filter_eq_nil_iff.2 fun other ho heq => ?_]
          rw [beq_iff_eq, Option.some.injEq] at heq
          exact hfirst (List.mem_map.2 ⟨other, ho, heq.symm⟩)
        · rw [List.filter_cons_of_neg fun heq => ?_, ih hrest hr]
          rw [beq_iff_eq, Option.some.injEq] at heq
          exact hfirst (List.mem_map.2 ⟨record, hr, heq⟩)
  simp only [fieldFor, hknown, List.findSome?_cons, hfound]

/-- A field of a target of which no record type with that field is known. -/
theorem fieldFor_of_none {target : TypeInfo} {name : String}
    (h : ∀ record ∈ env.program.records, target.name? = some record.name →
      record.field? name = none) : fieldFor env target name = fieldAmong env name := by
  have hnone : (env.program.records.filter fun record =>
      target.name? == some record.name).findSome? (·.field? name) = none := by
    rw [List.findSome?_eq_none_iff]
    intro record hm
    obtain ⟨hr, hname⟩ := List.mem_filter.1 hm
    exact h record hr (beq_iff_eq.1 hname)
  rw [fieldFor, hnone]
  rfl

/-- Every field among the record types is where the one that is found is, and of
its type if that is known. -/
theorem fieldAmong_of_mem {name : String} {found other : Nat × TypeInfo}
    (h : fieldAmong env name = .ok found)
    (hm : other ∈ env.program.records.filterMap (·.field? name)) :
    other.1 = found.1 ∧ (found.2 = other.2 ∨ found.2 = .unknown) := by
  rcases fieldAmong_eq_ok.1 h with hone | ⟨-, hall, hunknown⟩
  · rw [hone, List.mem_singleton] at hm
    exact ⟨congrArg _ hm, .inl (congrArg _ hm.symm)⟩
  · exact ⟨hall other hm, .inr hunknown⟩

theorem mem_of_field? {record : RecordType} {name : String} {found : Nat × TypeInfo}
    (h : record.field? name = some found) : ∃ field ∈ record.fields, field.type = found.2 := by
  obtain ⟨⟨field, index⟩, hfind, rfl⟩ := Option.map_eq_some_iff.1 h
  exact ⟨field, List.fst_mem_of_mem_zipIdx (List.mem_of_find?_eq_some hfind), rfl⟩

end Fields

/-! ## Types -/

namespace Program

variable {program program' : Program} {complete : Prop}

theorem keeps_unknown : program.Keeps program' .unknown := fun _ _ heq => nomatch heq

theorem types_of_keeps {type : TypeInfo} (h : program.Keeps program' type) :
    (tolerance complete program program').types type type :=
  ⟨h, .inl rfl⟩

theorem types_unknown : (tolerance complete program program').types .unknown .unknown :=
  types_of_keeps keeps_unknown

namespace Within

variable (h : program.Within complete program')
include h

theorem types_builtin {name : String} (hn : name ∈ builtinTypes) (params : List TypeInfo) :
    (tolerance complete program program').types (.named name params) (.named name params) :=
  types_of_keeps (h.keeps_builtin hn params)

theorem keeps_found {record : RecordType} (hr : record ∈ program.records) {name : String}
    {found : Nat × TypeInfo} (hfound : record.field? name = some found) :
    program.Keeps program' found.2 := by
  obtain ⟨field, hf, hfield⟩ := mem_of_field? hfound
  exact hfield ▸ h.keeps_field hr hf

end Within

end Program

section Within

variable {complete : Prop} {env env' : Env}
  (h : env.program.Within complete env'.program)
include h

/-- A literal belongs to the same record type. -/
theorem recordFor_agrees (names : List String) :
    Agrees complete (fun record record' => record = record' ∧ record ∈ env.program.records)
      (recordFor env names) (recordFor env' names) := by
  rw [recordFor, recordFor]
  split
  · exact .error
  · have hsub := h.records_subperm.filter fun record => record.fieldNames.isPerm names
    have hperm := fun hc => (h.records_perm hc).filter fun record => record.fieldNames.isPerm names
    split
    · next record hone =>
      rw [hone] at hsub hperm
      have hmem : record ∈ env.program.records :=
        List.mem_of_mem_filter (hone ▸ List.mem_singleton_self record)
      rintro _ ⟨⟩
      refine ⟨fun hc => ⟨record, ?_⟩, fun record' hrecord' => ⟨?_, hmem⟩⟩
      · rw [(hperm hc).singleton_eq.symm]
      · split at hrecord'
        · next other hother =>
          cases hrecord'
          rw [hother, List.singleton_subperm_iff] at hsub
          exact List.mem_singleton.1 hsub
        · cases hrecord'
        · cases hrecord'
    · exact .error
    · exact .error

theorem mem_filterMap_field? {name : String} {found : Nat × TypeInfo}
    (hm : found ∈ env.program.records.filterMap (·.field? name)) :
    found ∈ env'.program.records.filterMap (·.field? name) := by
  obtain ⟨record, hr, hfound⟩ := List.mem_filterMap.1 hm
  exact List.mem_filterMap.2 ⟨record, h.records hr, hfound⟩

/-- A field among the record types is found at the same position. Next to more
types its own type may be lost. -/
theorem fieldAmong_agrees (name : String) :
    Agrees complete (fun found found' => found.1 = found'.1 ∧
      (Program.tolerance complete env.program env'.program).types found.2 found'.2)
      (fieldAmong env name) (fieldAmong env' name) := by
  intro found hfound
  have hcases := fieldAmong_eq_ok.1 hfound
  have hsame : complete → fieldAmong env' name = .ok found := by
    intro hc
    have hperm := (h.records_perm hc).filterMap (·.field? name)
    rw [fieldAmong_eq_ok]
    rcases hcases with hone | ⟨hlength, hall, hunknown⟩
    · rw [hone] at hperm
      exact .inl hperm.singleton_eq.symm
    · exact .inr ⟨hperm.length_eq ▸ hlength, fun other ho => hall other (hperm.mem_iff.2 ho),
        hunknown⟩
  refine ⟨fun hc => ⟨found, hsame hc⟩, fun found' hfound' => ?_⟩
  rcases hcases with hone | ⟨hlength, hall, hunknown⟩
  · have hm : found ∈ env.program.records.filterMap (·.field? name) :=
      hone ▸ List.mem_singleton_self found
    obtain ⟨record, hr, hfield⟩ := List.mem_filterMap.1 hm
    obtain ⟨hindex, htype⟩ := fieldAmong_of_mem hfound' (mem_filterMap_field? h hm)
    refine ⟨hindex, h.keeps_found hr hfield, ?_⟩
    by_cases hc : complete
    · exact .inl (congrArg Prod.snd (Except.ok.inj (hfound'.symm.trans (hsame hc))))
    · exact htype.imp_right fun hu => ⟨hc, hu⟩
  · obtain ⟨other, ho⟩ : ∃ other, other ∈ env.program.records.filterMap (·.field? name) :=
      List.exists_mem_of_length_pos (by omega)
    obtain ⟨hindex, _⟩ := fieldAmong_of_mem hfound' (mem_filterMap_field? h ho)
    refine ⟨(hall other ho).symm.trans hindex, hunknown ▸ ?_⟩
    rcases fieldAmong_eq_ok.1 hfound' with hone' | ⟨-, -, hunknown'⟩
    · -- Several record types do not become one.
      obtain ⟨part, hperm, hpart⟩ := h.records_subperm
      have hsame := (hperm.filterMap (·.field? name)).length_eq
      have hle := (hpart.filterMap (·.field? name)).length_le
      rw [hone', List.length_singleton] at hle
      omega
    · rw [hunknown']
      exact Program.types_unknown

/-- A field of targets whose annotations agree is found at the same position. -/
theorem fieldFor_agrees {target target' : TypeInfo} (name : String)
    (ht : (Program.tolerance complete env.program env'.program).types target target') :
    Agrees complete (fun found found' => found.1 = found'.1 ∧
      (Program.tolerance complete env.program env'.program).types found.2 found'.2)
      (fieldFor env target name) (fieldFor env' target' name) := by
  obtain ⟨hkeeps, htarget⟩ := ht
  by_cases hrecord : ∃ record ∈ env.program.records, target.name? = some record.name ∧
      (record.field? name).isSome
  · obtain ⟨record, hr, hname, hsome⟩ := hrecord
    obtain ⟨found, hfound⟩ := Option.isSome_iff_exists.1 hsome
    rw [fieldFor_of_record (h.names.sublist (Program.records_sublist _)) hr hname hfound]
    rcases htarget with rfl | ⟨hc, rfl⟩
    · rw [fieldFor_of_record h.records_nodup' (h.records hr) hname hfound]
      exact .ok ⟨rfl, Program.types_of_keeps (h.keeps_found hr hfound)⟩
    · -- Where the annotation is lost, all record types with the field have it at this position.
      have hlost : ∀ record ∈ env'.program.records, TypeInfo.unknown.name? = some record.name →
          record.field? name = none := fun _ _ heq => nomatch heq
      rw [fieldFor_of_none hlost]
      rintro _ ⟨⟩
      refine ⟨fun hcomplete => absurd hcomplete hc, fun found' hfound' => ?_⟩
      obtain ⟨hindex, htype⟩ := fieldAmong_of_mem hfound'
        (mem_filterMap_field? h (List.mem_filterMap.2 ⟨record, hr, hfound⟩))
      exact ⟨hindex, h.keeps_found hr hfound, htype.imp_right fun hu => ⟨hc, hu⟩⟩
  · have hnone : ∀ record ∈ env.program.records, target.name? = some record.name →
        record.field? name = none := fun record hr hname => by
      by_contra hsome
      exact hrecord ⟨record, hr, hname, Option.isSome_iff_ne_none.2 hsome⟩
    rw [fieldFor_of_none hnone, fieldFor_of_none]
    · exact fieldAmong_agrees h name
    · rcases htarget with rfl | ⟨_, rfl⟩
      · exact fun record hr hname => hnone record (hkeeps record hr hname) hname
      · exact fun _ _ heq => nomatch heq

/-! ## Matches -/

theorem armFor_agrees {soFar soFar' : ArmsSoFar}
    (hs : soFar.Paired (Program.tolerance complete env.program env'.program).handles soFar')
    (head : String) :
    Agrees complete (fun info info' =>
      (Program.tolerance complete env.program env'.program).handles info.handle info'.handle ∧
        info.index = info'.index) (armFor env soFar head) (armFor env' soFar' head) := by
  rw [armFor, armFor]
  split
  · exact .error
  · next info hinfo =>
    obtain ⟨info', hinfo', hhandle, hindex, -⟩ := h.constructor? hinfo
    rw [hinfo']
    have hforeign : soFar.handle.filter (· != info.handle) = none →
        soFar'.handle.filter (· != info'.handle) = none := by
      obtain ⟨handle, seen⟩ := soFar
      obtain ⟨handle', seen'⟩ := soFar'
      cases hs.handle with
      | none => exact id
      | some hh =>
          have hiff := h.handle_eq_iff hh hhandle
          simp only [Option.filter_some, ite_eq_right_iff, bne_iff_ne, ne_eq, reduceCtorEq,
            imp_false, not_not]
          exact hiff.1
    split
    · exact .error
    · next hnone =>
      dsimp only
      rw [hforeign hnone, hs.seen, hindex]
      dsimp only
      split
      · exact .error
      · exact .ok ⟨hhandle, hindex⟩

/-- Matches with the same arms, whose bodies agree, have branches that do. -/
theorem branchesFor_agrees {branch : Branch Expr → Branch Expr → Prop}
    {arms arms' : List ResolvedArm}
    (ha : List.Forall₂ (fun arm arm' => arm.constructor = arm'.constructor ∧
      ∀ index, Agrees complete (fun body body' => branch ⟨index, captureOf arm.binding, body⟩
        ⟨index, captureOf arm'.binding, body'⟩) arm.body arm'.body) arms arms') :
    Agrees complete (List.Forall₂ branch) (branchesFor env arms) (branchesFor env' arms') := by
  refine (Agrees.passesThrough.branchesFrom (armFor_agrees h) ha ⟨.none, rfl⟩).bind
    fun found found' hfound => ?_
  obtain ⟨⟨handle, seen⟩, branches⟩ := found
  obtain ⟨⟨handle', seen'⟩, branches'⟩ := found'
  obtain ⟨⟨hhandle, rfl⟩, hbranches⟩ := hfound
  dsimp only at hhandle ⊢
  cases hhandle with
  | none => exact .error
  | @some handle handle' hh =>
      have hmissing : missingVariants env handle seen = missingVariants env' handle' seen := by
        obtain ⟨-, def_, hdef, hdef'⟩ := hh
        rw [missingVariants, missingVariants, hdef, hdef']
      dsimp only
      rw [hmissing]
      split
      · exact .ok hbranches
      · exact .error

end Within

/-! ## Expressions -/

/-- The same place in two programs. -/
structure Env.Beside (program program' : Program) (env env' : Env) : Prop where
  left : env.program = program
  right : env'.program = program'
  locals : env.locals = env'.locals

/-- Two expressions are the same but for what differs between two programs. -/
abbrev Expr.SameBeside (complete : Prop) (program program' : Program) (locals : List String)
    (e e' : Expr) : Prop :=
  e.SameUpTo (Program.tolerance complete program program') locals e'

section Expressions

variable {complete : Prop} {program program' : Program} {env env' : Env}

namespace Env.Beside

theorem withLocal (h : env.Beside program program' env') (name : String) :
    (env.withLocal name).Beside program program' (env'.withLocal name) :=
  ⟨h.left, h.right, congrArg (name :: ·) h.locals⟩

theorem withLocals (h : env.Beside program program' env') (names : List String) :
    (env.withLocals names).Beside program program' (env'.withLocals names) := by
  rw [Env.withLocals_eq, Env.withLocals_eq]
  exact ⟨h.left, h.right, congrArg (names.reverse ++ ·) h.locals⟩

end Env.Beside

/-- Arms agree if their bodies do, whatever they capture. -/
theorem arms_agree {arms : List (Arm Term)} (henv : env.Beside program program' env')
    (h : ∀ arm ∈ arms, ∀ env env' : Env, env.Beside program program' env' →
      Agrees complete (Expr.SameBeside complete program program' env.locals)
        (arm.body.resolve env) (arm.body.resolve env')) :
    List.Forall₂ (fun (arm arm' : ResolvedArm) =>
      arm.constructor = arm'.constructor ∧ ∀ index, Agrees complete (fun body body' =>
        Branch.Paired (Expr.SameBeside complete program program' env.locals)
          (fun name name' part part' => name = name' ∧
            part.SameBeside complete program program' (name :: env.locals) part')
          ⟨index, captureOf arm.binding, body⟩ ⟨index, captureOf arm'.binding, body'⟩)
        arm.body arm'.body)
      (arms.map fun arm => ⟨arm.constructor, arm.binding,
        arm.body.resolve (env.withCapture (captureOf arm.binding))⟩)
      (arms.map fun arm => ⟨arm.constructor, arm.binding,
        arm.body.resolve (env'.withCapture (captureOf arm.binding))⟩) := by
  rw [List.forall₂_map_left_iff, List.forall₂_map_right_iff]
  refine List.forall₂_same.2 fun arm hm => ⟨rfl, fun index => ?_⟩
  dsimp only
  cases captureOf arm.binding with
  | none => exact (h arm hm env env' henv).mono fun b b' hb => .plain hb
  | some name =>
      exact (h arm hm _ _ (henv.withLocal name)).mono fun b b' hb => .capture ⟨rfl, hb⟩

variable (hp : program.Within complete program')
include hp

theorem resolveIdentifier_agrees (henv : env.Beside program program' env') (name : String) :
    Agrees complete (Expr.SameBeside complete program program' env.locals)
      (resolveIdentifier env name) (resolveIdentifier env' name) := by
  obtain ⟨rfl, rfl, hlocals⟩ := henv
  have hsymbol : ∀ hn : name ∈ env.locals ∨ (env.program.find? name).isSome,
      Expr.SameBeside complete env.program env'.program env.locals (.symbol name .unknown)
        (.symbol name .unknown) :=
    fun hn => .of_node Program.types_unknown (.symbol ⟨rfl, hn⟩)
  rw [resolveIdentifier, resolveIdentifier, ← hlocals]
  simp only [Bool.or_eq_true, List.contains_iff_mem]
  split
  · next hn =>
    rintro _ ⟨⟩
    refine ⟨fun hc => ⟨_, if_pos (hn.imp_right (hp.defined hc name))⟩, fun e' he' => ?_⟩
    split at he'
    · cases he'
      exact hsymbol hn
    · cases he'
  · exact .error

theorem resolveConstructor_agrees (henv : env.Beside program program' env') (name : String) :
    Agrees complete (Expr.SameBeside complete program program' env.locals)
      (resolveConstructor env name) (resolveConstructor env' name) := by
  obtain ⟨rfl, rfl, -⟩ := henv
  rw [resolveConstructor, resolveConstructor]
  split
  · exact .error
  · next info hinfo =>
    obtain ⟨info', hinfo', hhandle, hindex, hpayload, htype⟩ := hp.constructor? hinfo
    have htypes : (Program.tolerance complete env.program env'.program).types
        (.named info.handle.name []) (.named info.handle.name []) :=
      Program.types_of_keeps (hp.keeps_type htype [])
    have hconstructor : Expr.SameBeside complete env.program env'.program env.locals
        (.constructor info.handle info.index (.named info.handle.name []))
        (.constructor info'.handle info'.index (.named info'.handle.name [])) := by
      rw [← hindex, ← hhandle.1]
      exact .of_node htypes (.constructor ⟨hhandle, rfl⟩)
    rw [hinfo']
    dsimp only
    rw [← hpayload]
    refine .ok ?_
    split
    · exact hconstructor
    · rw [← hhandle.1] at hconstructor ⊢
      refine .of_node htypes (.apply hconstructor (.cons (.of_node ?_ .unit) .nil))
      exact hp.types_builtin (by decide) []

theorem curry_agrees {params locals : List String} {body body' : Expr}
    (h : body.SameBeside complete program program' (params.reverse ++ locals) body') :
    (curry params body).SameBeside complete program program' locals (curry params body') := by
  induction params generalizing locals with
  | nil => exact h
  | cons param rest ih =>
      rw [List.reverse_cons, List.append_assoc] at h
      exact .of_node (hp.types_builtin (by decide) []) (.lambda ⟨rfl, ih h⟩)

/-- One tree means the same in two programs, one of which is within the other. The
induction is on the tree, which gives the statement for all parts in all
places. -/
theorem Term.resolve_agrees (t : Term) (henv : env.Beside program program' env') :
    Agrees complete (Expr.SameBeside complete program program' env.locals) (t.resolve env)
      (t.resolve env') := by
  have hall : t.All fun _ => True := .of_forall (fun _ => trivial) t
  induction hall generalizing env env' with
  | @intro t _ _ ih =>
  have hlist : ∀ {ts : List Term}, (∀ part ∈ ts, part ∈ t.parts) →
      Agrees complete (List.Forall₂ (Expr.SameBeside complete program program' env.locals))
        (Term.resolveAll env ts) (Term.resolveAll env' ts) := fun hsub => by
    have hsame : List.Forall₂ (fun part part' => part = part' ∧ part ∈ t.parts) _ _ :=
      List.forall₂_same.2 fun part hm => ⟨rfl, hsub part hm⟩
    rw [resolveAll_eq_mapM, resolveAll_eq_mapM]
    refine Agrees.passesThrough.mapM hsame fun part _ hpart => ?_
    obtain ⟨rfl, hm⟩ := hpart
    exact ih part hm henv
  cases t with
  | integer n =>
      rw [Term.resolve, Term.resolve]
      split
      · exact .error
      · exact .ok (.of_node (hp.types_builtin (by decide) []) .integer)
  | string text => exact .ok (.of_node (hp.types_builtin (by decide) []) .string)
  | boolean b => exact .ok (.of_node (hp.types_builtin (by decide) []) .boolean)
  | unit => exact .ok (.of_node (hp.types_builtin (by decide) []) .unit)
  | identifier name => exact resolveIdentifier_agrees hp henv name
  | constructor name => exact resolveConstructor_agrees hp henv name
  | tuple items =>
      rw [Term.resolve, Term.resolve]
      exact (hlist fun _ hm => hm).bind fun es es' hes =>
        .ok (.of_node Program.types_unknown (.tuple hes))
  | record fields =>
      cases henv.left
      cases henv.right
      rw [Term.resolve, Term.resolve, resolveFields_eq_map, resolveFields_eq_map]
      refine (recordFor_agrees hp _).bind fun record _ hrecord => ?_
      obtain ⟨rfl, hrecord⟩ := hrecord
      have hvalues : List.Forall₂ (fun value value' => value.1 = value'.1 ∧
          Agrees complete (Expr.SameBeside complete env.program env'.program env.locals)
            value.2 value'.2)
          (fields.map fun field => (field.1, field.2.resolve env))
          (fields.map fun field => (field.1, field.2.resolve env')) := by
        rw [List.forall₂_map_left_iff, List.forall₂_map_right_iff]
        exact List.forall₂_same.2 fun field hf =>
          ⟨rfl, ih field.2 (List.mem_map.2 ⟨field, hf, rfl⟩) henv⟩
      refine (Agrees.passesThrough.inRecordOrder hvalues record).bind fun es es' hes => ?_
      refine .ok (.of_node (Program.types_of_keeps (hp.keeps_type ?_ [])) (.record hes))
      exact (Program.records_sublist _).subset (List.mem_map.2 ⟨record, hrecord, rfl⟩)
  | field target name =>
      cases henv.left
      cases henv.right
      rw [Term.resolve, Term.resolve]
      refine (ih target List.mem_cons_self henv).bind fun e e' he => ?_
      refine (fieldFor_agrees hp name he.type).bind fun found found' hfound => ?_
      obtain ⟨index, type⟩ := found
      obtain ⟨index', type'⟩ := found'
      obtain ⟨rfl, htype⟩ := hfound
      exact .ok (.of_node htype (.field he))
  | item target index =>
      rw [Term.resolve, Term.resolve]
      exact (ih target List.mem_cons_self henv).bind fun e e' he =>
        .ok (.of_node Program.types_unknown (.field he))
  | apply callee args =>
      rw [Term.resolve, Term.resolve]
      refine (ih callee List.mem_cons_self henv).bind fun e e' he => ?_
      refine (hlist fun _ hm => List.mem_cons_of_mem _ hm).bind fun es es' hes => ?_
      exact .ok (.of_node Program.types_unknown (.apply he hes))
  | binary op lhs rhs =>
      rw [Term.resolve, Term.resolve]
      refine (ih lhs (by simp [parts]) henv).bind fun l l' hl => ?_
      refine (ih rhs (by simp [parts]) henv).bind fun r r' hr => ?_
      refine .ok (.of_node ?_ (.binary hl hr))
      rw [Expr.type, Expr.type, Operator.resultType]
      split
      · exact hp.types_builtin (by decide) []
      · exact hp.types_builtin (by decide) []
  | sequence first rest =>
      rw [Term.resolve, Term.resolve]
      refine (ih first (by simp [parts]) henv).bind fun f f' hf => ?_
      refine (ih rest (by simp [parts]) (henv.withLocal _)).bind fun r r' hr => ?_
      exact .ok (.of_node Program.types_unknown (.letIn hf ⟨rfl, hr⟩))
  | letIn name rhs body =>
      rw [Term.resolve, Term.resolve]
      refine (ih rhs (by simp [parts]) henv).bind fun r r' hr => ?_
      refine (ih body (by simp [parts]) (henv.withLocal _)).bind fun b b' hb => ?_
      exact .ok (.of_node Program.types_unknown (.letIn hr ⟨rfl, hb⟩))
  | conditional cond cons alt =>
      rw [Term.resolve, Term.resolve]
      refine (ih cond (by simp [parts]) henv).bind fun c c' hc => ?_
      refine (ih cons (by simp [parts]) henv).bind fun t t' ht => ?_
      refine (ih alt (by simp [parts]) henv).bind fun a a' ha => ?_
      exact .ok (.of_node Program.types_unknown (.conditional hc ht ha))
  | caseOf matchee arms =>
      rw [Term.resolve, Term.resolve, resolveArms_eq_map, resolveArms_eq_map]
      refine (ih matchee List.mem_cons_self henv).bind fun e e' he => ?_
      have hbodies := arms_agree henv fun arm hm _ _ hbeside =>
        ih arm.body (List.mem_cons_of_mem _ (List.mem_map.2 ⟨arm, hm, rfl⟩)) hbeside
      cases henv.left
      cases henv.right
      exact (branchesFor_agrees hp hbodies).bind fun branches branches' hbranches =>
        .ok (.of_node Program.types_unknown (.caseOf he hbranches))
  | lambda params body =>
      rw [Term.resolve, Term.resolve]
      refine (ih body List.mem_cons_self (henv.withLocals _)).bind fun b b' hb => ?_
      rw [Env.withLocals_eq] at hb
      exact .ok (curry_agrees hp hb)
  | other tag content => exact .error

end Expressions

end Fern
