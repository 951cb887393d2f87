import Fern.Proofs.DeclaredProgram
import Fern.Proofs.EvalLimits
import Fern.Proofs.RecordLiterals
import Fern.Proofs.ResolveWithin

/-!
# Fields of records that were written

A literal and a selection find the place of a field by themselves: the one sorts the
values into the order of its type, the other looks at the annotation of its target
or, if there is none, at all record types at once. They come to the same place, since
the type of the literal is one of all record types. What is selected is what
the field was written with.

Evaluation depends on nothing but the scope. So an expression has a value by itself,
whatever was written before.
-/

namespace Fern

/-! ## Positions -/

namespace RecordType

variable {record : RecordType} {name : String}

theorem getElem?_of_field? {found : Nat × TypeInfo} (h : record.field? name = some found) :
    record.fieldNames[found.1]? = some name := by
  obtain ⟨⟨field, index⟩, hfind, rfl⟩ := Option.map_eq_some_iff.1 h
  have hplace := List.mk_mem_zipIdx_iff_getElem?.1 (List.mem_of_find?_eq_some hfind)
  have hname : field.name = name := by simpa using List.find?_some hfind
  rw [fieldNames, List.getElem?_map, hplace, Option.map_some, hname]

theorem exists_field? (h : name ∈ record.fieldNames) :
    ∃ found, record.field? name = some found := by
  obtain ⟨field, hm, rfl⟩ := List.mem_map.1 h
  obtain ⟨index, hplace⟩ := List.mem_iff_getElem?.1 hm
  have hfind : (record.fields.zipIdx.find? fun entry => entry.1.name == field.name).isSome :=
    List.find?_isSome.2
      ⟨(field, index), List.mk_mem_zipIdx_iff_getElem?.2 hplace, beq_self_eq_true _⟩
  obtain ⟨entry, hentry⟩ := Option.isSome_iff_exists.1 hfind
  exact ⟨_, Option.map_eq_some_iff.2 ⟨entry, hentry, rfl⟩⟩

end RecordType

/-- A field of a record type is selected by its place in that type, if the annotation
of the target names no other type. -/
theorem fieldFor_position {env : Env} (hnodup : (env.program.records.map (·.name)).Nodup)
    {record : RecordType} (hr : record ∈ env.program.records) {target : TypeInfo}
    (htarget : ∀ known, target.name? = some known → known = record.name) {name : String}
    (hname : name ∈ record.fieldNames) {found : Nat × TypeInfo}
    (h : fieldFor env target name = .ok found) : record.fieldNames[found.1]? = some name := by
  obtain ⟨own, hown⟩ := RecordType.exists_field? hname
  have hsame : own.1 = found.1 := by
    cases hknown : target.name? with
    | none =>
        rw [fieldFor_of_none fun _ _ heq => nomatch hknown.symm.trans heq] at h
        exact (fieldAmong_of_mem h (List.mem_filterMap.2 ⟨record, hr, hown⟩)).1
    | some known =>
        rw [fieldFor_of_record hnodup hr (htarget known hknown ▸ hknown) hown] at h
        exact congrArg Prod.fst (Except.ok.inj h)
  exact hsame ▸ RecordType.getElem?_of_field? hown

/-! ## Runs that give a value -/

/-- A run gives a value, whatever was written before. -/
def Run.Gives {α : Type} (run : Run α) (a : α) : Prop :=
  ∀ console, ∃ after, run console = .ok a after

section Gives

variable {α β : Type} {context : Context} {limit : Nat} {scope : Scope}

/-- An evaluation that gives a value once gives it always. -/
theorem Context.gives_of_eval {e : Expr} {v : Value} {console after : Console}
    (h : context.eval limit scope e console = .ok v after) :
    (context.eval limit scope e).Gives v := by
  intro console'
  have halike := context.relates_self.eval limit scope scope e e ⟨rfl, rfl⟩ console console'
  rw [h] at halike
  generalize context.eval limit scope e console' = ended at halike ⊢
  cases halike with
  | ok written related left right => exact ⟨_, congrArg (EStateM.Result.ok · _) related.symm⟩

/-- What comes of a chain of two runs comes of both. -/
theorem Run.ok_of_bind {run : Run α} {next : α → Run β} {b : β} {console after : Console}
    (h : (run >>= next) console = .ok b after) :
    ∃ a mid, run console = .ok a mid ∧ next a mid = .ok b after := by
  change EStateM.bind run next console = _ at h
  rw [EStateM.bind] at h
  generalize run console = first at h ⊢
  cases first with
  | ok a mid => exact ⟨a, mid, rfl, h⟩
  | error fault mid => cases h

theorem Run.Gives.bind {run : Run α} {next : α → Run β} {a : α} {b : β} (h : run.Gives a)
    (hnext : (next a).Gives b) : (run >>= next).Gives b := by
  intro console
  obtain ⟨mid, hmid⟩ := h console
  obtain ⟨after, hafter⟩ := hnext mid
  refine ⟨after, ?_⟩
  change EStateM.bind run next console = _
  rw [EStateM.bind, hmid]
  exact hafter

theorem Run.Gives.note {line : String} {run : Run α} {a : α} (h : run.Gives a) :
    Run.Gives (do context.note line; run) a :=
  .bind (a := ()) (fun console =>
    let ⟨after, hafter, _⟩ := Run.note_eq_ok context line console
    ⟨after, hafter⟩) h

/-- The values of a literal are those of its parts. -/
theorem Context.gives_of_evalAll {items : List Expr} {values : List Value}
    {console after : Console}
    (h : items.mapM (context.eval limit scope) console = .ok values after) :
    List.Forall₂ (fun e v => (context.eval limit scope e).Gives v) items values := by
  induction items generalizing values console with
  | nil =>
      rw [List.mapM_nil] at h
      cases h
      exact .nil
  | cons e rest ih =>
      rw [List.mapM_cons] at h
      obtain ⟨v, mid, hv, h⟩ := Run.ok_of_bind h
      obtain ⟨others, last, hothers, h⟩ := Run.ok_of_bind h
      cases h
      exact .cons (Context.gives_of_eval hv) (ih hothers)

/-- A record has the values of its parts. -/
theorem Context.eval_record_ok {items : List Expr} {type : TypeInfo} {v : Value}
    {console after : Console}
    (h : context.eval (limit + 1) scope (.record items type) console = .ok v after) :
    ∃ values, v = .tuple values ∧
      List.Forall₂ (fun e v => (context.eval limit scope e).Gives v) items values := by
  obtain ⟨_, mid, -, h⟩ := Run.ok_of_bind h
  obtain ⟨values, last, hvalues, h⟩ := Run.ok_of_bind h
  cases h
  exact ⟨values, rfl, Context.gives_of_evalAll hvalues⟩

/-- Selection gives what stands at the position. -/
theorem Context.eval_field_gives {target : Expr} {values : List Value}
    (h : (context.eval limit scope target).Gives (.tuple values)) {index : Nat} {w : Value}
    (hindex : values[index]? = some w) (type : TypeInfo) :
    (context.eval (limit + 1) scope (.field target index type)).Gives w := by
  refine .note (.bind h ?_)
  rw [Context.project, if_pos (Int.natCast_nonneg index), Int.toNat_natCast, hindex]
  exact fun console => ⟨console, rfl⟩

end Gives

/-! ## Selection from what a literal made -/

/-- Selection undoes construction. Where a target has the value that a record literal
had, and is not known to be of another type, a field that can be selected from it has
the value of the expression that the literal gives for it, wherever the literal
does so and whatever other record types have a field of that name. -/
theorem field_of_record_literal {decls : List Declaration} {program : Program}
    (h : Program.ofDeclarations decls = .ok program) {env env' : Env}
    (henv : env.program.types = program.types) (henv' : env'.program.types = program.types)
    {fields : List (String × Term)} {literal : Expr}
    (hliteral : (Term.record fields).resolve env = .ok literal) {target : Term} {target' : Expr}
    (htarget : target.resolve env' = .ok target')
    (htype : ∀ known, target'.type.name? = some known → literal.type.name? = some known)
    {name : String} {t : Term} (hfield : (name, t) ∈ fields) {access : Expr}
    (haccess : (Term.field target name).resolve env' = .ok access) {context : Context}
    {limit limit' : Nat} {scope scope' : Scope} {v : Value}
    {console console' after after' : Console}
    (hmade : context.eval (limit + 1) scope literal console = .ok v after)
    (hgiven : context.eval limit' scope' target' console' = .ok v after') :
    ∃ e w, t.resolve env = .ok e ∧ (context.eval limit scope e).Gives w ∧
      (context.eval (limit' + 1) scope' access).Gives w := by
  obtain ⟨record, items, hrecord, hitems, rfl⟩ := Term.resolve_record_eq_ok.1 hliteral
  obtain ⟨hmem, hperm⟩ := recordFor_mem hrecord
  obtain ⟨values, rfl, hvalues⟩ := Context.eval_record_ok hmade
  simp only [Term.resolve, htarget, bind_eq_ok, pure_eq_ok, Except.ok.injEq, exists_eq_left',
    Prod.exists] at haccess
  obtain ⟨index, type, hindex, rfl⟩ := haccess
  have hsame : env'.program.records = env.program.records := by
    rw [records_congr henv', records_congr henv]
  have hnodup : (env'.program.records.map (·.name)).Nodup := by
    rw [records_congr henv']
    exact (Program.Declared.of_ofDeclarations h).table.names.sublist (Program.records_sublist _)
  have hposition : record.fieldNames[index]? = some name := by
    refine fieldFor_position hnodup (hsame ▸ hmem) (fun known hknown => ?_) ?_ hindex
    · exact (Option.some.inj (htype known hknown)).symm
    · exact hperm.mem_iff.2 (List.mem_map.2 ⟨_, hfield, rfl⟩)
  -- The position leads from the name to the expression and from there to its value.
  obtain ⟨e, he, hmeans⟩ := Term.item_of_position (recordFor_eq_ok.1 hrecord).1 hitems
    hposition hfield
  obtain ⟨w, hw, hgives⟩ := getElem?_of_forall₂ hvalues he
  exact ⟨e, w, hmeans, hgives, Context.eval_field_gives (Context.gives_of_eval hgiven) hw type⟩

/-- A literal whose fields stand in another order than those of its type, next to a
type that has one of these fields at another position. -/
theorem field_of_record_literal_point :
    let decls : List Declaration :=
      [.type ⟨"Point", .record [⟨"x", .name "Int"⟩, ⟨"y", .name "Int"⟩]⟩,
        .type ⟨"Span", .record [⟨"y", .name "Int"⟩, ⟨"z", .name "Int"⟩]⟩]
    let literal : Term := .record [("y", .integer 2), ("x", .integer 1)]
    ∃ program access, Program.ofDeclarations decls = .ok program ∧
      (Term.field literal "y").resolve { program } = .ok access ∧
      ∀ files, ∃ e w, (Term.integer 2).resolve { program } = .ok e ∧
        (Context.eval ⟨program, files, false⟩ 1 [] e).Gives w ∧
        (Context.eval ⟨program, files, false⟩ 3 [] access).Gives w := by
  intro decls literal
  let program : Program := Program.withBuiltins { types :=
    [⟨"Point", .record [⟨"x", .int⟩, ⟨"y", .int⟩]⟩, ⟨"Span", .record [⟨"y", .int⟩, ⟨"z", .int⟩]⟩] }
  have hprogram : Program.ofDeclarations decls = .ok program := rfl
  have hliteral : literal.resolve { program } =
      .ok (.record [.integer 1 .int, .integer 2 .int] (.named "Point" [])) := rfl
  refine ⟨program, _, hprogram, rfl, fun files => ?_⟩
  have hmade : Context.eval ⟨program, files, false⟩ 2 []
      (.record [.integer 1 .int, .integer 2 .int] (.named "Point" [])) {} =
        .ok (.tuple [.integer 1, .integer 2]) {} := rfl
  exact field_of_record_literal hprogram rfl rfl hliteral hliteral (fun _ h => h)
    List.mem_cons_self rfl hmade hmade

end Fern
