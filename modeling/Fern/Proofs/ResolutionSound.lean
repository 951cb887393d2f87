import Fern.Proofs.BuiltinEndings
import Fern.Proofs.EvalInvariant
import Fern.Proofs.FromText

/-!
# Resolved programs never lack a meaning

Resolution looks every name up before a program runs, and evaluation looks it up
again. Both agree: what the resolver takes for a local name is bound when the
evaluator gets there. A scope binds what the resolver had in scope at the same
place, and a function has kept a scope that binds the free names of its body
apart from its parameter. That goes for every function inside a value, wherever
the value has been carried in the meantime.

The entry of a program is an exception that the statement has to name: its body
is evaluated with nothing bound, so its own parameter must not occur free there.
-/

namespace Fern

/-- A value is closed in a program: functions inside it find all their names
there or among their captured bindings, which are closed themselves, and
built-in functions exist. -/
inductive Value.Closed (program : Program) : Value → Prop
  | unit : Closed program .unit
  | integer (n : Int) : Closed program (.integer n)
  | string (text : String) : Closed program (.string text)
  | tuple {items : List Value} (closed : ∀ item ∈ items, Closed program item) :
      Closed program (.tuple items)
  | function {param : String} {captured : List (String × Value)} {body : Expr}
      (closed : ∀ binding ∈ captured, Closed program binding.2)
      (resolved : body.Resolved program (param :: captured.map (·.1))) :
      Closed program (.function param captured body)
  | variant {handle : TypeHandle} {index : Int} {payload : Value}
      (closed : Closed program payload) : Closed program (.variant handle index payload)
  | constructor (handle : TypeHandle) (index : Int) : Closed program (.constructor handle index)
  | builtin {id : String} (known : (Builtin.ofId? id).isSome) : Closed program (.builtin id)

/-- All values in a scope are closed. -/
def Scope.Closed (program : Program) (scope : Scope) : Prop :=
  ∀ binding ∈ scope, binding.2.Closed program

/-- The names that a scope binds. -/
def Scope.names (scope : Scope) : List String := scope.map (·.1)

/-- A run that gives closed values and fails in no way that resolution is there
to prevent. -/
abbrev Run.Sound (program : Program) (run : Run Value) : Prop :=
  run.Ends (Value.Closed program) fun f => ¬f.IsUnresolved

theorem Value.Closed.bind {program : Program} {scope : Scope} {name : String} {v : Value}
    (hs : scope.Closed program) (hv : v.Closed program) : (scope.bind name v).Closed program :=
  List.forall_mem_cons.2 ⟨hv, hs⟩

/-! ## Names, constructors, operators and built-in functions -/

variable {context : Context}

/-- A name that is bound or defined has a value. -/
theorem sound_lookup (hp : context.program.Resolved) {scope : Scope}
    (hs : scope.Closed context.program) {name : String}
    (hn : name ∈ scope.names ∨ (context.program.find? name).isSome) :
    (context.lookup scope name).Sound context.program := by
  rw [Context.lookup]
  split
  · next v hv => exact Run.Ends.pure (hs _ (mem_of_lookup hv))
  · next hv =>
    have hdefined : (context.program.find? name).isSome := by
      refine hn.resolve_left fun hm => ?_
      obtain ⟨binding, hb, hname⟩ := List.mem_map.1 hm
      exact absurd hname.symm (by simpa using List.lookup_eq_none_iff.1 hv binding hb)
    obtain ⟨definition, hf⟩ := Option.isSome_iff_exists.1 hdefined
    rw [hf]
    cases hp _ _ hf with
    | builtin known => exact Run.Ends.pure (.builtin known)
    | function resolved =>
        exact Run.Ends.pure (.function (fun _ hm => absurd hm List.not_mem_nil)
          (resolved.part List.mem_cons_self))

/-- A variant of the program has a constructor. -/
theorem sound_makeConstructor {handle : TypeHandle} {index : Int}
    (h : context.program.HasVariant handle index) :
    (context.makeConstructor handle index).Sound context.program := by
  obtain ⟨name, variants, hdef, hrange⟩ := h
  rw [Context.makeConstructor, hdef]
  dsimp only
  rw [if_pos hrange]
  exact Run.Ends.pure (.constructor handle index)

/-- An operator of the language is never unknown to arithmetic. -/
theorem onIntegers_known {op : Operator} (hop : op ∈ Operator.all) {lhs rhs : Int}
    {error : ArithmeticError} (h : op.onIntegers lhs rhs = .error error) :
    ¬(EvalError.arithmetic error).IsUnresolved := by
  cases error with
  | overflow given result => exact id
  | divisionByZero given => exact id
  | unknownOperator given =>
      have hchecked : ∀ checkedOp result,
          checked checkedOp result ≠ .error (.unknownOperator given) := by
        intro checkedOp result hc
        rw [checked] at hc
        split at hc
        · cases hc
        · cases hc
      cases op with
      | other name => exact absurd hop (by simp [Operator.all])
      | add | sub | mul => exact absurd h (hchecked _ _)
      | div =>
          rw [Operator.onIntegers] at h
          split at h
          · cases h
          · exact absurd h (hchecked _ _)
      | mod =>
          rw [Operator.onIntegers] at h
          split at h
          · cases h
          · cases h
      | less | lessEq | greater | greaterEq | equals | and | or => cases h

theorem sound_operate {program : Program} {op : Operator} (hop : op ∈ Operator.all) (v w : Value) :
    (Context.operate op v w).Sound program := by
  rw [Context.operate.eq_def]
  split
  · split
    · exact Run.Ends.pure (.integer _)
    · next h => exact Run.Ends.fail (onIntegers_known hop h)
  · split
    · exact Run.Ends.pure (.integer _)
    · exact Run.Ends.fail id
  · exact Run.Ends.fail id

theorem sound_callBuiltin {program : Program} (files : FileSystem) {id : String}
    (known : (Builtin.ofId? id).isSome) (argument : Value) :
    (callBuiltin files id argument).Sound program := by
  obtain ⟨builtin, hb⟩ := Option.isSome_iff_exists.1 known
  rw [callBuiltin, hb]
  exact (builtin.call_ends files argument).mono
    (fun _ hv => hv.elim .unit .string (fun _ _ => .integer _) fun _ => .tuple)
    fun _ hf => hf.not_isUnresolved

/-! ## Evaluation -/

/-- Evaluation keeps values closed and expressions resolved in their scope. -/
theorem keeps_sound (hp : context.program.Resolved) :
    context.Keeps
      (fun scope e => scope.Closed context.program ∧ e.Resolved context.program scope.names)
      (Value.Closed context.program) fun f => ¬f.IsUnresolved where
  part h hm := ⟨h.1, h.2.part hm⟩
  body h hm hv := ⟨.bind h.1 hv, h.2.part hm⟩
  closure h := .function h.1 (h.2.part List.mem_cons_self)
  called hf hv := by
    cases hf with
    | function hc hb => exact ⟨.bind hc hv, hb⟩
  unit := .unit
  truth _ := .integer _
  string _ := .string _
  integer _ := .integer _
  builtin h := .builtin h.2.meaningful.here
  tuple := .tuple
  item h := by
    cases h with
    | tuple hi => exact hi
  variant _ hv := .variant hv
  payload h := by
    cases h with
    | variant hp => exact hp
  symbol h := sound_lookup hp h.1 (h.2.known (.symbol _))
  constructor h := sound_makeConstructor h.2.meaningful.here
  operator h _ _ := sound_operate h.2.meaningful.here _ _
  native hf _ := by
    cases hf with
    | builtin known => exact sound_callBuiltin _ known _
  other h := absurd h.2.meaningful.here id
  failed h := h
  refused _ := id

/-- In a program from a text no expression from a text fails for want of a
meaning, and no entry does whose body does not ask for the entry's own
parameter. -/
theorem sound_of_resolution {source : String} (context : Context)
    (hprogram : Program.ofText? source = some context.program) (nesting : Except LimitFault Nat) :
    (∀ text e, context.program.exprOfText? text = some e →
      (context.evalWithin nesting [] e).Ends (fun _ => True) fun f => ¬f.IsUnresolved) ∧
    ∀ entry param body exprType type,
      context.program.find? entry = some ⟨.lambda param body exprType, type⟩ → ¬body.Free param →
      (context.runWith (context.evalWithin nesting) entry).Ends (fun _ => True)
        fun f => ¬f.IsUnresolved := by
  obtain ⟨decls, hread, hdecls⟩ := Program.ofText?_eq_some hprogram
  have hp := Program.ofDeclarations_resolved_of_read hread hdecls
  have hnil : Scope.Closed context.program [] := fun _ hm => absurd hm List.not_mem_nil
  refine ⟨fun text e he => ?_, fun entry param body exprType type hf hfree => ?_⟩
  · have hres := Program.exprOfText?_resolved he
    exact ((keeps_sound hp).evalWithin nesting [] e ⟨hnil, hres⟩).mono (fun _ _ => trivial)
      fun _ h => h
  · refine ((keeps_sound hp).runWith nesting fun param' body' type' definition hf' => ?_).mono
      (fun _ _ => trivial) fun _ h => h
    obtain ⟨rfl, rfl⟩ : param' = param ∧ body' = body := by
      rw [hf] at hf'
      cases hf'
      exact ⟨rfl, rfl⟩
    cases hp _ _ hf with
    | function resolved =>
        -- Of the names that are free in the body only the parameter may be a local one.
        have hbody := resolved.part List.mem_cons_self
        refine ⟨hnil, hbody.meaningful, fun {name} hn => .inr ?_⟩
        refine (hbody.known hn).resolve_left fun hm => ?_
        rcases List.mem_cons.1 hm with rfl | hm
        · exact hfree hn
        · exact absurd hm List.not_mem_nil

/-- The parameter of a function that applies another one to two integers, and the
name of that one. -/
def Expr.paramAndCallee? : Expr → Option (String × String)
  | .lambda param (.apply (.symbol callee _) [.integer .., .integer ..] _) _ => some (param, callee)
  | _ => none

theorem Expr.exists_of_paramAndCallee? {e : Expr} {param callee : String}
    (h : e.paramAndCallee? = some (param, callee)) (hne : callee ≠ param) :
    ∃ body type, e = .lambda param body type ∧ ¬body.Free param := by
  unfold paramAndCallee? at h
  split at h
  · cases h
    refine ⟨_, _, rfl, fun hfree => ?_⟩
    cases hfree with
    | inside hm _ hpart =>
        simp only [Expr.parts, List.map_cons, List.map_nil, List.mem_cons, List.not_mem_nil,
          or_false, Prod.mk.injEq] at hm
        rcases hm with ⟨_, rfl⟩ | ⟨_, rfl⟩ | ⟨_, rfl⟩
        · exact hne (Expr.eq_of_free_symbol hpart)
        · exact Expr.not_free_of_leaf rfl (fun _ he => by cases he) hpart
        · exact Expr.not_free_of_leaf rfl (fun _ he => by cases he) hpart
  · cases h

/-- A program in which a function of two parameters is applied to both of them,
and to one. -/
theorem sound_of_resolution_add :
    ∃ program e, Program.ofText? "add x y = x + y. main u = add 1 2." = some program ∧
      program.exprOfText? "add 3" = some e ∧ ∀ files debug nesting,
        (Context.evalWithin ⟨program, files, debug⟩ nesting [] e).Ends (fun _ => True)
          (fun f => ¬f.IsUnresolved) ∧
        (Context.runWith ⟨program, files, debug⟩ (Context.evalWithin ⟨program, files, debug⟩ nesting)
          "main").Ends (fun _ => True) fun f => ¬f.IsUnresolved := by
  have htest : (Program.ofText? "add x y = x + y. main u = add 1 2.").any (fun program =>
      (program.exprOfText? "add 3").isSome && (program.find? "main").any fun definition =>
        definition.expr.paramAndCallee? = some ("u", "add")) := by decide +kernel
  obtain ⟨program, hprogram, htest⟩ := exists_of_any htest
  obtain ⟨hexpr, hmain⟩ := Bool.and_eq_true_iff.1 htest
  obtain ⟨e, he⟩ := Option.isSome_iff_exists.1 hexpr
  obtain ⟨⟨_, type⟩, hf, hcall⟩ := exists_of_any hmain
  obtain ⟨body, exprType, rfl, hfree⟩ :=
    Expr.exists_of_paramAndCallee? (of_decide_eq_true hcall) (by decide)
  refine ⟨program, e, hprogram, he, fun files debug nesting => ?_⟩
  have hsound := sound_of_resolution ⟨program, files, debug⟩ hprogram nesting
  exact ⟨hsound.1 _ e he, hsound.2 "main" _ _ _ _ hf hfree⟩

end Fern
