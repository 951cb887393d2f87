import Fern.Builtin.Call
import Fern.Proofs.RunEndings

/-!
# What built-in functions end with

Whatever a built-in function is applied to, it gives the unit value, a text, an
integer that fits a word or a pair of texts, or it fails in a way that no
resolution could have prevented, or the host refuses a path.
-/

namespace Fern

/-- The values that built-in functions give. -/
inductive Builtin.Gives : Value → Prop
  | unit : Gives .unit
  | string (text : String) : Gives (.string text)
  | integer {n : Int} (fits : InRange n) : Gives (.integer n)
  | texts (first second : String) : Gives (.tuple [.string first, .string second])

/-- The faults that built-in functions end with. -/
inductive Builtin.Fails : Fault → Prop
  | failed {error : EvalError} (h : ¬error.IsUnresolved) : Fails (.failed error)
  | refusedPath : Fails .refusedPath

namespace Builtin

theorem Fails.not_isUnresolved {f : Fault} (h : Fails f) : ¬f.IsUnresolved := by
  cases h with
  | failed h => exact h
  | refusedPath => exact not_false

theorem wantText_ends (builtin : Builtin) (v : Value) :
    (builtin.wantText v).Ends (fun _ => True) Fails := by
  cases v with
  | string text => exact Run.Ends.pure trivial
  | _ => exact Run.Ends.fail (.failed not_false)

theorem wantInteger_ends (builtin : Builtin) (v : Value) :
    (builtin.wantInteger v).Ends (fun _ => True) Fails := by
  cases v with
  | integer n => exact Run.Ends.pure trivial
  | _ => exact Run.Ends.fail (.failed not_false)

theorem wantTexts_ends (builtin : Builtin) (v : Value) :
    (builtin.wantTexts v).Ends (fun _ => True) Fails := by
  rw [wantTexts.eq_def]
  split
  · refine (wantText_ends builtin _).bind fun first _ => ?_
    exact (wantText_ends builtin _).bind fun second _ => Run.Ends.pure trivial
  · exact Run.Ends.fail (.failed not_false)
  · exact Run.Ends.fail (.failed not_false)

/-- The endings of a built-in function. -/
theorem call_ends (files : FileSystem) (builtin : Builtin) (argument : Value) :
    (builtin.call files argument).Ends Gives Fails := by
  cases builtin with
  | readFile =>
      refine (wantText_ends _ argument).bind fun path _ => ?_
      rw [readPath]
      split
      · exact Run.Ends.throw .refusedPath
      · split
        · exact Run.Ends.pure (.string _)
        · exact Run.Ends.fail (.failed not_false)
  | print =>
      refine (wantText_ends _ argument).bind fun text _ => ?_
      exact (Run.Ends.write trivial).bind fun _ (_ : True) => Run.Ends.pure .unit
  | printInt =>
      refine (wantInteger_ends _ argument).bind fun n _ => ?_
      exact (Run.Ends.write trivial).bind fun _ (_ : True) => Run.Ends.pure .unit
  | parseInt =>
      refine (wantText_ends _ argument).bind fun text _ => ?_
      rw [parseInteger]
      split
      · exact Run.Ends.fail (.failed not_false)
      · split
        · next fits => exact Run.Ends.pure (.integer fits)
        · exact Run.Ends.fail (.failed not_false)
  | firstChar =>
      refine (wantText_ends _ argument).bind fun text _ => ?_
      rw [firstAndRest]
      split
      · exact Run.Ends.fail (.failed not_false)
      · exact Run.Ends.pure (.texts _ _)
  | split =>
      refine (wantTexts_ends _ argument).bind fun texts _ => ?_
      exact Run.Ends.pure (.texts _ _)

/-- What holds of the unit value, of texts and of integers that fit a word, and
passes from values to their tuple, holds of what a built-in function gives. -/
theorem Gives.elim {value : Value → Prop} {v : Value} (h : Gives v) (unit : value .unit)
    (string : ∀ text, value (.string text)) (integer : ∀ n, InRange n → value (.integer n))
    (tuple : ∀ items, (∀ item ∈ items, value item) → value (.tuple items)) : value v := by
  cases h with
  | unit => exact unit
  | string text => exact string text
  | integer fits => exact integer _ fits
  | texts first second =>
      refine tuple _ (List.forall_mem_cons.2 ⟨string first, ?_⟩)
      exact List.forall_mem_singleton.2 (string second)

end Builtin

/-- The endings of a built-in function that is known by a name, if any is. -/
theorem callBuiltin_ends {value : Value → Prop} {fault : Fault → Prop}
    (failed : ∀ error, fault (.failed error)) (refused : fault .refusedPath)
    (gives : ∀ v, Builtin.Gives v → value v) (files : FileSystem) (id : String) (argument : Value) :
    (callBuiltin files id argument).Ends value fault := by
  rw [callBuiltin]
  split
  · exact Run.Ends.fail (failed _)
  · next builtin _ =>
    refine (builtin.call_ends files argument).mono gives fun f hf => ?_
    cases hf with
    | failed _ => exact failed _
    | refusedPath => exact refused

end Fern
