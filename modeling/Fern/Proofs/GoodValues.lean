import Fern.Proofs.BuiltinEndings
import Fern.Proofs.EvalInvariant
import Fern.Proofs.FromText
import Fern.Proofs.WordRange

/-!
# Values fit their program

A value is good for a program if every integer inside it fits a word, every
variant and constructor inside it belongs to a sum type of the program, and the
literals of its functions fit a word as well. Evaluation makes good values from
good values, in any program whose literals fit, also in one that was put
together by hand: the evaluator looks at what it computes or cannot leave the
range. In a program that was read and resolved all literals fit, so there every
value is good.
-/

namespace Fern

/-- Every literal of an expression fits a word. -/
def Expr.LiteralsFit (e : Expr) : Prop :=
  e.All fun
    | .integer n _ => InRange n
    | _ => True

/-- Every literal of a program fits a word. -/
def Program.LiteralsFit (program : Program) : Prop :=
  ∀ name definition, program.find? name = some definition → definition.expr.LiteralsFit

/-- A value fits a program: so do its integers, variants, constructors and the
literals in its functions, however deep inside it they are. -/
inductive Value.Good (program : Program) : Value → Prop
  | unit : Good program .unit
  | integer {n : Int} (fits : InRange n) : Good program (.integer n)
  | string (text : String) : Good program (.string text)
  | tuple {items : List Value} (good : ∀ item ∈ items, Good program item) :
      Good program (.tuple items)
  | function {param : String} {captured : List (String × Value)} {body : Expr}
      (good : ∀ binding ∈ captured, Good program binding.2) (fits : body.LiteralsFit) :
      Good program (.function param captured body)
  | variant {handle : TypeHandle} {index : Int} {payload : Value}
      (declared : program.HasVariant handle index) (good : Good program payload) :
      Good program (.variant handle index payload)
  | constructor {handle : TypeHandle} {index : Int} (declared : program.HasVariant handle index) :
      Good program (.constructor handle index)
  | builtin (id : String) : Good program (.builtin id)
  | other (typeName : String) (content : Datum) : Good program (.other typeName content)

/-- All values in a scope are good, the hidden ones included. -/
def Scope.Good (program : Program) (scope : Scope) : Prop :=
  ∀ binding ∈ scope, binding.2.Good program

namespace Value.Good

variable {program : Program}

theorem truth (b : Bool) : (Value.ofBool b).Good program := .integer (inRange_ofTruth b)

theorem bind {scope : Scope} {name : String} {v : Value} (hs : scope.Good program)
    (hv : v.Good program) : (scope.bind name v).Good program :=
  List.forall_mem_cons.2 ⟨hv, hs⟩

end Value.Good

/-- A run that gives only good values, whatever its faults are. -/
abbrev Run.Good (program : Program) (run : Run Value) : Prop :=
  run.Ends (Value.Good program) fun _ => True

/-- A built-in function gives good values, whatever it is applied to. -/
theorem good_callBuiltin {program : Program} (files : FileSystem) (id : String)
    (argument : Value) : (callBuiltin files id argument).Good program :=
  callBuiltin_ends (fun _ => trivial) trivial
    (fun _ hv => hv.elim .unit .string (fun _ => .integer) fun _ => .tuple) files id argument

/-! ## Evaluation -/

variable {context : Context}

/-- Evaluation keeps values good. -/
theorem keeps_good (hp : context.program.LiteralsFit) :
    context.Keeps (fun scope e => scope.Good context.program ∧ e.LiteralsFit)
      (Value.Good context.program) fun _ => True where
  part h hm := ⟨h.1, h.2.part hm⟩
  body h hm hv := ⟨.bind h.1 hv, h.2.part hm⟩
  closure h := .function h.1 (h.2.part List.mem_cons_self)
  called hf hv := by
    cases hf with
    | function hc hb => exact ⟨.bind hc hv, hb⟩
  unit := .unit
  truth := .truth
  string _ := .string _
  integer h := .integer h.2.here
  builtin _ := .builtin _
  tuple := .tuple
  item h := by
    cases h with
    | tuple hi => exact hi
  variant hc hv := by
    cases hc with
    | constructor hd => exact .variant hd hv
  payload h := by
    cases h with
    | variant _ hp => exact hp
  symbol h := Context.lookup_ends (fun _ => trivial) h.1
    (fun _ _ _ _ hf => .function nofun ((hp _ _ hf).part List.mem_cons_self)) .builtin
  constructor _ := Context.makeConstructor_ends (fun _ => trivial)
    fun name variants hdef hindex => .constructor ⟨name, variants, hdef, hindex⟩
  operator _ hv hw := by
    refine Context.operate_ends (fun _ => trivial) (fun lhs rhs result hl hr h => ?_) .truth
    subst hl hr
    cases hv with
    | integer fits =>
    cases hw with
    | integer fits' => exact .integer (inRange_onIntegers fits fits' h)
  native _ _ := good_callBuiltin _ _ _
  other _ := trivial
  failed _ := trivial
  refused _ := trivial

/-- The literals of a resolved expression fit. -/
theorem Expr.Resolved.literalsFit {program : Program} {locals : List String} {e : Expr}
    (h : e.Resolved program locals) : e.LiteralsFit :=
  h.meaningful.mono fun e he => by
    cases e with
    | integer n type => exact he
    | _ => exact trivial

theorem Program.Resolved.literalsFit {program : Program} (h : program.Resolved) :
    program.LiteralsFit := by
  intro name definition hf
  cases h name definition hf with
  | builtin _ => exact .leaf rfl trivial
  | function hr => exact hr.literalsFit

/-- Evaluation, application, the built-in functions and the run of an entry give
good values when they are given good ones, in any program whose literals fit. A
program from declarations that were read is such a program, and the literals of
an expression from a text fit as well. -/
theorem good_of_evaluation :
    (∀ context : Context, context.program.LiteralsFit →
      (∀ limit scope (e : Expr), scope.Good context.program → e.LiteralsFit →
        (context.eval limit scope e).Good context.program) ∧
      (∀ limit (callee argument : Value), callee.Good context.program →
        argument.Good context.program →
        (context.applyWith (context.eval limit) callee argument).Good context.program) ∧
      (∀ id (argument : Value), argument.Good context.program →
        (callBuiltin context.files id argument).Good context.program) ∧
      ∀ nesting entry, (context.runWith (context.evalWithin nesting) entry).Good context.program) ∧
    ∀ (decls : List Declaration) (context : Context), (∀ decl ∈ decls, decl.IsRead) →
      Program.ofDeclarations decls = .ok context.program → ∀ nesting,
      (∀ entry, (context.runWith (context.evalWithin nesting) entry).Good context.program) ∧
      ∀ text e scope, context.program.exprOfText? text = some e → scope.Good context.program →
        (context.evalWithin nesting scope e).Good context.program := by
  have hrun : ∀ context : Context, context.program.LiteralsFit → ∀ nesting entry,
      (context.runWith (context.evalWithin nesting) entry).Good context.program := by
    intro context hp nesting entry
    refine (keeps_good hp).runWith nesting fun param body type definition hf => ?_
    exact ⟨fun _ hm => absurd hm List.not_mem_nil, (hp _ _ hf).part List.mem_cons_self⟩
  refine ⟨fun context hp => ⟨fun limit scope e hs he => ?_, fun limit callee argument hc ha => ?_,
    fun id argument _ => good_callBuiltin _ id argument, hrun context hp⟩,
    fun decls context hread hprogram nesting => ?_⟩
  · exact (keeps_good hp).eval limit scope e ⟨hs, he⟩
  · exact (keeps_good hp).applyWith ((keeps_good hp).eval limit) hc ha
  · have hp := (Program.ofDeclarations_resolved_of_read hread hprogram).literalsFit
    refine ⟨hrun context hp nesting, fun text e scope he hs => ?_⟩
    have hfit := (Program.exprOfText?_resolved he).literalsFit
    exact (keeps_good hp).evalWithin nesting scope e ⟨hs, hfit⟩

/-- A program without definitions and an expression with one free name, and a
program from a text with an expression on top of it. -/
theorem good_of_evaluation_square :
    (∀ files debug limit, (Context.eval ⟨.empty, files, debug⟩ limit [("x", .integer (-7))]
      (.binary .mod (.symbol "x" .int) (.integer 2 .int) .int)).Good .empty) ∧
    ∃ program e, Program.ofText? "square x = x * x. main u = square 9." = some program ∧
      program.exprOfText? "(square 3, square)" = some e ∧ ∀ files debug nesting,
        let context : Context := ⟨program, files, debug⟩
        (context.runWith (context.evalWithin nesting) "main").Good program ∧
          (context.evalWithin nesting [] e).Good program := by
  have htest : (Program.ofText? "square x = x * x. main u = square 9.").any fun program =>
      (program.exprOfText? "(square 3, square)").isSome := by decide +kernel
  refine ⟨fun files debug limit => ?_, ?_⟩
  · refine (good_of_evaluation.1 ⟨.empty, files, debug⟩ fun _ _ hf => by cases hf).1 limit _ _ ?_ ?_
    · intro binding hm
      cases List.mem_singleton.1 hm
      exact .integer (by decide)
    · refine .intro trivial fun part hm => ?_
      rcases List.mem_cons.1 hm with rfl | hm
      · exact .leaf rfl trivial
      · cases List.mem_singleton.1 hm
        exact .leaf rfl (by decide)
  · obtain ⟨program, hprogram, htest⟩ := exists_of_any htest
    obtain ⟨e, he⟩ := Option.isSome_iff_exists.1 htest
    obtain ⟨decls, hread, hdecls⟩ := Program.ofText?_eq_some hprogram
    refine ⟨program, e, hprogram, he, fun files debug nesting => ?_⟩
    have hgood := good_of_evaluation.2 decls ⟨program, files, debug⟩ hread hdecls nesting
    exact ⟨hgood.1 "main", hgood.2 _ e [] he fun _ hm => absurd hm List.not_mem_nil⟩

end Fern
