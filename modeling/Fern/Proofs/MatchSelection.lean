import Fern.Proofs.BuiltinEndings
import Fern.Proofs.EvalInvariant
import Fern.Proofs.WrittenMatches

/-!
# Which arm a match runs

Evaluation finds the branch for a variant by its number. `evalWritten` is evaluation
that goes by what is written instead: it runs the branch of the arm that names the
variant with that number, of the type that the arms take apart, and fails if there is
none. That the two run alike, whatever the program does, says that every match runs
the arm which is written for the variant, in whatever order the arms stand.

Neither looks at the type of the variant. Nothing checks types before a program
runs, so a match can get a variant of another type than its arms are about, and then
it runs the arm for the variant with the same number.

Whether a match is a written one is a matter of the text that is evaluated. That can
be the body of a function which has been carried far from where it stands, so the
invariant is about every function inside a value.
-/

namespace Fern

namespace Context

/-- Runs a branch in the scope of a match, with the payload captured. -/
def runBranch (eval : Evaluator) (scope : Scope) (payload : Value) : Branch Expr → Run Value
  | ⟨_, none, body⟩ => eval scope body
  | ⟨_, some name, body⟩ => eval (scope.bind name payload) body

/-- Runs the branch of the arm that is written for a variant, and no other. -/
noncomputable def selectWritten (context : Context) (decls : List Declaration) (eval : Evaluator)
    (scope : Scope) (branches : List (Branch Expr)) : Value → Run Value
  | .variant handle index payload =>
    open Classical in
    if h : ∃ branch, context.program.BranchFor decls branches index branch then
      runBranch eval scope payload h.choose
    else Run.fail (.noBranch index handle)
  | value => Run.fail (.matchOf value.typeName)

/-- One step of evaluation that selects arms by what is written. -/
noncomputable def stepWritten (context : Context) (decls : List Declaration) (eval : Evaluator) :
    Evaluator
  | scope, .caseOf matchee branches type => do
    context.note ("Evaluating: " ++ (Expr.caseOf matchee branches type).kind)
    context.selectWritten decls eval scope branches (← eval scope matchee)
  | scope, expr => context.step eval scope expr

/-- Evaluation within a limit that selects arms by what is written. -/
noncomputable def evalWritten (context : Context) (decls : List Declaration) : Nat → Evaluator
  | 0, _, _ => Run.fail .nesting
  | limit + 1, scope, expr => context.stepWritten decls (context.evalWritten decls limit) scope expr

noncomputable def evalWrittenWithin (context : Context) (decls : List Declaration) :
    Except LimitFault Nat → Evaluator
  | .ok limit => context.evalWritten decls limit
  | .error fault => fun _ _ => throw (.refusedLimit fault)

end Context

/-! ## One match -/

variable {context : Context} {decls : List Declaration}

theorem selectWritten_eq (hnodup : (constructorNames context.program.types).Nodup)
    {branches : List (Branch Expr)} (h : context.program.IsWritten decls branches)
    (eval : Evaluator) (scope : Scope) (v : Value) :
    context.selectWritten decls eval scope branches v =
      Context.selectWith eval scope branches v := by
  obtain ⟨arms, h⟩ := h
  cases v with
  | variant handle index payload =>
      rw [Context.selectWritten, Context.selectWith]
      cases hfound : branches.find? (·.index == index) with
      | none =>
          rw [dif_neg]
          rintro ⟨branch, hbranch⟩
          rw [Program.branchFor_iff hnodup h, hfound] at hbranch
          cases hbranch
      | some branch =>
          have hexists : ∃ branch, context.program.BranchFor decls branches index branch :=
            ⟨branch, (Program.branchFor_iff hnodup h).2 hfound⟩
          -- There is only one such branch, so the chosen one is it.
          have hchosen := (Program.branchFor_iff hnodup h).1 hexists.choose_spec
          rw [hfound] at hchosen
          rw [dif_pos hexists, ← Option.some.inj hchosen]
          obtain ⟨_, binding, body⟩ := branch
          cases binding <;> rfl
  | _ => rfl

theorem stepWritten_eq (hnodup : (constructorNames context.program.types).Nodup) {e : Expr}
    (he : e.BranchesAll (context.program.IsWritten decls)) (eval : Evaluator) (scope : Scope) :
    context.stepWritten decls eval scope e = context.step eval scope e := by
  cases e with
  | caseOf matchee branches type =>
      have hselect := funext (selectWritten_eq hnodup he.here eval scope)
      rw [Context.stepWritten, hselect]
      rfl
  | _ => rfl

/-! ## The functions inside a value -/

/-- The values directly inside a value. -/
def Value.parts : Value → List Value
  | .tuple items => items
  | .function _ captured _ => captured.map (·.2)
  | .variant _ _ payload => [payload]
  | _ => []

/-- The branches of every match in a function inside a value have a property. -/
inductive Value.BranchesAll (p : List (Branch Expr) → Prop) : Value → Prop
  | intro {v : Value}
      (here : ∀ {param captured body}, v = .function param captured body → body.BranchesAll p)
      (below : ∀ part ∈ v.parts, BranchesAll p part) : BranchesAll p v

section Invariant

variable {p : List (Branch Expr) → Prop}

namespace Value.BranchesAll

theorem body {param : String} {captured : Scope} {body : Expr}
    (h : (Value.function param captured body).BranchesAll p) : body.BranchesAll p := by
  cases h with
  | intro here _ => exact here rfl

theorem part {v part : Value} (h : v.BranchesAll p) (hm : part ∈ v.parts) : part.BranchesAll p := by
  cases h with
  | intro _ below => exact below _ hm

theorem leaf {v : Value} (hf : ∀ param captured body, v ≠ .function param captured body)
    (hp : v.parts = []) : v.BranchesAll p :=
  .intro (fun h => absurd h (hf _ _ _)) fun _ hm => absurd (hp ▸ hm) List.not_mem_nil

theorem tuple {items : List Value} (h : ∀ item ∈ items, item.BranchesAll p) :
    (Value.tuple items).BranchesAll p :=
  .intro nofun h

theorem function {param : String} {captured : Scope} {body : Expr}
    (hc : ∀ v ∈ captured.map (·.2), v.BranchesAll p) (hb : body.BranchesAll p) :
    (Value.function param captured body).BranchesAll p := by
  refine .intro (fun heq => ?_) hc
  cases heq
  exact hb

theorem integer (n : Int) : (Value.integer n).BranchesAll p := .leaf (fun _ _ _ => nofun) rfl

theorem string (text : String) : (Value.string text).BranchesAll p :=
  .leaf (fun _ _ _ => nofun) rfl

theorem unit : Value.unit.BranchesAll p := .leaf (fun _ _ _ => nofun) rfl

theorem constructor (handle : TypeHandle) (index : Int) :
    (Value.constructor handle index).BranchesAll p :=
  .leaf (fun _ _ _ => nofun) rfl

theorem builtin (id : String) : (Value.builtin id).BranchesAll p :=
  .leaf (fun _ _ _ => nofun) rfl

end Value.BranchesAll

/-- Evaluation makes no matches: all that is ever evaluated is text of the program
and of the expression that it starts with. -/
theorem keeps_branchesAll
    (hp : ∀ name definition, context.program.find? name = some definition →
      definition.expr.BranchesAll p) :
    context.Keeps (fun scope e => (∀ v ∈ scope.map (·.2), v.BranchesAll p) ∧ e.BranchesAll p)
      (Value.BranchesAll p) fun _ => True where
  part h hm := ⟨h.1, h.2.part hm⟩
  body h hm hv := ⟨List.forall_mem_cons.2 ⟨hv, h.1⟩, h.2.part hm⟩
  closure h := .function h.1 (h.2.part List.mem_cons_self)
  called hf hv := ⟨List.forall_mem_cons.2 ⟨hv, fun _ hm => hf.part hm⟩, hf.body⟩
  unit := .unit
  truth _ := .integer _
  string _ := .string _
  integer _ := .integer _
  builtin _ := .builtin _
  tuple := .tuple
  item h _ hm := h.part hm
  variant _ hv := .intro nofun fun _ hm => List.mem_singleton.1 hm ▸ hv
  payload h := h.part List.mem_cons_self
  symbol h := Context.lookup_ends (fun _ => trivial)
    (fun _ hm => h.1 _ (List.mem_map_of_mem hm))
    (fun _ _ _ _ hf => .function nofun ((hp _ _ hf).part List.mem_cons_self)) .builtin
  constructor _ := Context.makeConstructor_ends (fun _ => trivial) fun _ _ _ _ => .constructor _ _
  operator _ _ _ :=
    Context.operate_ends (fun _ => trivial) (fun _ _ _ _ _ _ => .integer _) fun _ => .integer _
  native _ _ := callBuiltin_ends (fun _ => trivial) trivial
    (fun _ hv => hv.elim .unit .string (fun _ _ => .integer _) fun _ => .tuple) _ _ _
  other _ := trivial
  failed _ := trivial
  refused _ := trivial

end Invariant

/-! ## Whole runs -/

section Runs

variable (hnodup : (constructorNames context.program.types).Nodup)
  (hp : ∀ name definition, context.program.find? name = some definition →
    definition.expr.BranchesAll (context.program.IsWritten decls))
include hnodup hp

theorem evalWritten_eq (limit : Nat) (scope : Scope) (e : Expr)
    (hs : ∀ v ∈ scope.map (·.2), v.BranchesAll (context.program.IsWritten decls))
    (he : e.BranchesAll (context.program.IsWritten decls)) :
    context.evalWritten decls limit scope e = context.eval limit scope e := by
  have hkeeps := keeps_branchesAll hp
  induction limit generalizing scope e with
  | zero => rfl
  | succ limit ih =>
      rw [Context.evalWritten, stepWritten_eq hnodup he, Context.eval]
      exact (hkeeps.step_congr (hkeeps.eval limit) (fun scope e h => (ih scope e h.1 h.2).symm)
        scope e ⟨hs, he⟩).symm

theorem runWith_evalWritten_eq (nesting : Except LimitFault Nat) (entry : String) :
    context.runWith (context.evalWrittenWithin decls nesting) entry =
      context.runWith (context.evalWithin nesting) entry := by
  cases nesting with
  | error refused => rfl
  | ok limit =>
      rw [Context.runWith, Context.runWith]
      split
      · rfl
      · next param body type definition hf =>
        have hbody := evalWritten_eq hnodup hp limit [] body (fun _ hm => absurd hm List.not_mem_nil)
          ((hp _ _ hf).part List.mem_cons_self)
        rw [Context.evalWrittenWithin, Context.evalWithin, hbody]
      · rfl

end Runs

/-- A match runs the arm that is written for the variant. The arms of a match name
the variants of one sum type, each of them once, so there is exactly one for each
number that a variant of this type can have. Every run is the run in which a match
that gets a variant runs the arm for the number of this variant, and fails if there
is no such arm: wherever the arm stands, and whatever the type of the variant is. -/
theorem match_runs_written_arm {decls : List Declaration} {program : Program}
    (h : Program.ofDeclarations decls = .ok program) :
    (∀ arms branches, program.Written decls arms branches →
      ∃ handle variants, program.TakesApart arms handle variants ∧
        ∀ index, (∃ branch, program.BranchFor decls branches index branch) ↔
          0 ≤ index ∧ index < variants.length) ∧
    ∀ files debug nesting entry,
      Context.runWith ⟨program, files, debug⟩
          (Context.evalWithin ⟨program, files, debug⟩ nesting) entry =
        Context.runWith ⟨program, files, debug⟩
          (Context.evalWrittenWithin ⟨program, files, debug⟩ decls nesting) entry := by
  have hnodup := (Program.Declared.of_ofDeclarations h).table.constructors
  refine ⟨fun arms branches hw => hw.exists_branchFor hnodup, fun files debug nesting entry => ?_⟩
  refine (runWith_evalWritten_eq hnodup (fun name definition hf => ?_) nesting entry).symm
  exact Program.branchesAll_written h hf

/-- An option whose arms stand in the other order than its variants. -/
theorem match_runs_written_arm_option :
    let decls : List Declaration :=
      [.type ⟨"Option", .sum [⟨"Some", some (.name "Int")⟩, ⟨"None", none⟩]⟩,
        .function ⟨"get", ["o"], .caseOf (.identifier "o")
          [⟨"None", none, .integer 0⟩, ⟨"Some", some "n", .identifier "n"⟩]⟩,
        .function ⟨"main", ["u"], .apply (.identifier "get")
          [.apply (.constructor "Some") [.integer 41]]⟩]
    ∃ program, Program.ofDeclarations decls = .ok program ∧ ∀ files debug nesting,
      Context.runWith ⟨program, files, debug⟩
          (Context.evalWithin ⟨program, files, debug⟩ nesting) "main" =
        Context.runWith ⟨program, files, debug⟩
          (Context.evalWrittenWithin ⟨program, files, debug⟩ decls nesting) "main" := by
  intro decls
  have hok : (Program.ofDeclarations decls).toOption.isSome := by decide +kernel
  obtain ⟨program, hprogram⟩ := Option.isSome_iff_exists.1 hok
  have hprogram := toOption_eq_some.1 hprogram
  exact ⟨program, hprogram, fun files debug nesting =>
    (match_runs_written_arm hprogram).2 files debug nesting "main"⟩

/-- A run ends with this integer. -/
def Run.returns (n : Int) (run : Run Value) : Bool :=
  match run {} with
  | .ok (.integer m) _ => m == n
  | _ => false

theorem Run.exists_of_returns {n : Int} {run : Run Value} (h : Run.returns n run) :
    ∃ console, run {} = .ok (.integer n) console := by
  unfold returns at h
  split at h
  · next m console heq =>
    rw [heq, eq_of_beq h]
    exact ⟨console, rfl⟩
  · cases h

/-- A match over one type that gets a variant of another type neither fails nor has
an arm for the constructor that made the variant: it runs an arm of its own. -/
theorem match_runs_foreign_arm :
    let decls : List Declaration :=
      [.type ⟨"A", .sum [⟨"X", none⟩, ⟨"Y", none⟩]⟩,
        .type ⟨"B", .sum [⟨"P", none⟩, ⟨"Q", none⟩]⟩,
        .function ⟨"main", ["u"], .caseOf (.constructor "P")
          [⟨"X", none, .integer 1⟩, ⟨"Y", none, .integer 2⟩]⟩]
    ∃ program, Program.ofDeclarations decls = .ok program ∧
      program.constructor? "P" = some ⟨⟨1, "B"⟩, 0, false⟩ ∧
      program.constructor? "X" = some ⟨⟨0, "A"⟩, 0, false⟩ ∧
      program.constructor? "Y" = some ⟨⟨0, "A"⟩, 1, false⟩ ∧
      ∃ console, Context.runWith ⟨program, .ofVisits [], false⟩
        (Context.evalWithin ⟨program, .ofVisits [], false⟩ (.ok 10)) "main" {} =
          .ok (.integer 1) console := by
  intro decls
  have htest : (Program.ofDeclarations decls).toOption.any fun program =>
      decide (program.constructor? "P" = some ⟨⟨1, "B"⟩, 0, false⟩ ∧
        program.constructor? "X" = some ⟨⟨0, "A"⟩, 0, false⟩ ∧
        program.constructor? "Y" = some ⟨⟨0, "A"⟩, 1, false⟩) &&
      Run.returns 1 (Context.runWith ⟨program, .ofVisits [], false⟩
        (Context.evalWithin ⟨program, .ofVisits [], false⟩ (.ok 10)) "main") := by
    decide +kernel
  obtain ⟨program, hsome, htests⟩ := (Option.any_eq_true ..).1 htest
  obtain ⟨hconstructors, hrun⟩ := Bool.and_eq_true_iff.1 htests
  obtain ⟨hp, hx, hy⟩ := of_decide_eq_true hconstructors
  exact ⟨program, toOption_eq_some.1 hsome, hp, hx, hy, Run.exists_of_returns hrun⟩

end Fern
