import Fern.Eval.Eval
import Fern.Proofs.DataValues

/-!
# The expressions of data

The expression of data is resolved on top of the program that the data belongs to: a name of a
variant is the constructor of just that variant, as no two variants share one. Evaluation makes the
data again and writes nothing, whatever the scope, as soon as the nesting limit is no smaller than
the depth of the data.
-/

namespace Fern

/-! ## Runs that only make something -/

/-- A run ends with a value and writes nothing for the user. -/
def Run.Makes {α : Type} (run : Run α) (a : α) : Prop :=
  ∀ console, ∃ after, run console = .ok a after ∧ after.output = console.output

section Makes

variable {α β : Type} {run : Run α} {next : α → Run β} {a : α} {b : β}

theorem Run.Makes.pure (a : α) : Run.Makes (pure a) a := fun console => ⟨console, rfl, rfl⟩

theorem Run.Makes.bind (h : run.Makes a) (hnext : (next a).Makes b) : (run >>= next).Makes b := by
  intro console
  obtain ⟨mid, hmid, hquiet⟩ := h console
  obtain ⟨after, hafter, hstill⟩ := hnext mid
  refine ⟨after, ?_, hstill.trans hquiet⟩
  show EStateM.bind run next console = _
  rw [EStateM.bind, hmid]
  exact hafter

/-- The trace is not for the user. -/
theorem Context.note_makes (context : Context) (line : String) : (context.note line).Makes () := by
  intro console
  unfold Context.note
  split
  · exact ⟨_, rfl, rfl⟩
  · exact ⟨console, rfl, rfl⟩

theorem Run.Makes.mapM {f : α → Run β} {items : List α} {results : List β}
    (h : List.Forall₂ (fun item result => (f item).Makes result) items results) :
    (items.mapM f).Makes results := by
  induction h with
  | nil => exact .pure []
  | cons hfirst _ ih =>
      rw [List.mapM_cons]
      exact hfirst.bind (ih.bind (.pure _))

end Makes

/-- An expression makes a value within every nesting limit from some number on. -/
def Expr.Makes (program : Program) (deep : Nat) (e : Expr) (v : Value) : Prop :=
  ∀ files debug limit, deep ≤ limit → ∀ scope,
    ((⟨program, files, debug⟩ : Context).eval limit scope e).Makes v

section Expressions

variable {program : Program} {deep : Nat} {e : Expr} {v : Value}

theorem Expr.Makes.mono (h : e.Makes program deep v) {more : Nat} (hle : deep ≤ more) :
    e.Makes program more v :=
  fun files debug limit hlimit => h files debug limit (Nat.le_trans hle hlimit)

/-- What one step makes of an expression is made with one evaluation more. -/
theorem makes_of_step (h : ∀ files debug limit, deep ≤ limit → ∀ scope,
      ((⟨program, files, debug⟩ : Context).step
        ((⟨program, files, debug⟩ : Context).eval limit) scope e).Makes v) :
    e.Makes program (deep + 1) v := by
  intro files debug limit hlimit scope
  obtain ⟨limit, rfl⟩ : ∃ k, limit = k + 1 := ⟨limit - 1, by omega⟩
  exact h files debug limit (by omega) scope

theorem makes_unit (type : TypeInfo) : (Expr.unit type).Makes program 1 .unit :=
  makes_of_step fun _ _ _ _ _ => (Context.note_makes _ _).bind (.pure _)

theorem makes_integer (n : Int) (type : TypeInfo) :
    (Expr.integer n type).Makes program 1 (.integer n) :=
  makes_of_step fun _ _ _ _ _ => (Context.note_makes _ _).bind (.pure _)

theorem makes_string (text : String) (type : TypeInfo) :
    (Expr.string text type).Makes program 1 (.string text) :=
  makes_of_step fun _ _ _ _ _ => (Context.note_makes _ _).bind (.pure _)

theorem makes_tuple {es : List Expr} {items : List Value} (type : TypeInfo)
    (h : List.Forall₂ (fun e item => Expr.Makes program deep e item) es items) :
    (Expr.tuple es type).Makes program (deep + 1) (.tuple items) := by
  refine makes_of_step fun files debug limit hlimit scope => (Context.note_makes _ _).bind ?_
  have hitems : (es.mapM ((⟨program, files, debug⟩ : Context).eval limit scope)).Makes items :=
    .mapM (h.imp fun _ _ he => he files debug limit hlimit scope)
  exact hitems.bind (.pure _)

section Variants

variable {place index : Nat} {def_ : TypeDef} {variant : Variant}

theorem makes_constructor (hdef : program.types[place]? = some def_)
    (hvariant : def_.variants[index]? = some variant) (name : String) (type : TypeInfo) :
    (Expr.constructor ⟨place, name⟩ index type).Makes program 1
      (.constructor ⟨place, name⟩ index) := by
  refine makes_of_step fun files debug limit _ scope => (Context.note_makes _ _).bind ?_
  have hsum : ∃ variants, def_ = ⟨def_.name, .sum variants⟩ ∧ index < variants.length := by
    obtain ⟨name, body⟩ := def_
    cases body with
    | sum variants => exact ⟨variants, rfl, (List.getElem?_eq_some_iff.1 hvariant).1⟩
    | record fields => cases hvariant
  obtain ⟨variants, heq, hlt⟩ := hsum
  have hfind : program.typeDef? ⟨place, name⟩ = some def_ := Program.typeDef?_of_getElem? hdef name
  show (Context.makeConstructor _ _ _).Makes _
  rw [Context.makeConstructor, hfind, heq]
  simp only
  rw [if_pos ⟨Int.natCast_nonneg index, Int.ofNat_lt.2 hlt⟩]
  exact .pure _

/-- A constructor applied to what makes its payload makes the variant. -/
theorem makes_variant (hdef : program.types[place]? = some def_)
    (hvariant : def_.variants[index]? = some variant) (name : String) (type type' : TypeInfo)
    {arg : Expr} {payload : Value} (hdeep : 1 ≤ deep) (harg : arg.Makes program deep payload) :
    (Expr.apply (.constructor ⟨place, name⟩ index type) [arg] type').Makes program (deep + 1)
      (.variant ⟨place, name⟩ index payload) := by
  refine makes_of_step fun files debug limit hlimit scope => (Context.note_makes _ _).bind ?_
  have hhead := makes_constructor hdef hvariant name type files debug limit (by omega) scope
  have hpayload := harg files debug limit hlimit scope
  refine hhead.bind ?_
  rw [List.foldlM_cons]
  refine Run.Makes.bind (hpayload.bind (.pure _)) ?_
  rw [List.foldlM_nil]
  exact .pure _

end Variants

end Expressions

/-! ## Resolution -/

namespace Value

theorem depth_pos (v : Value) : 1 ≤ v.depth := by
  cases v <;> simp only [depth] <;> omega

theorem depth_le_depthAll {item : Value} {items : List Value} (h : item ∈ items) :
    item.depth ≤ depthAll items := by
  induction items with
  | nil => cases h
  | cons first rest ih =>
      rw [depthAll]
      rcases List.mem_cons.1 h with rfl | h
      · exact Nat.le_max_left _ _
      · exact Nat.le_trans (ih h) (Nat.le_max_right _ _)

section Resolution

variable {program : Program} {env : Env}

/-- The name of a variant means the constructor of that variant. -/
theorem constructor?_variant (hnames : (constructorNames program.types).Nodup) {place index : Nat}
    {def_ : TypeDef} {variant : Variant} (hdef : program.types[place]? = some def_)
    (hvariant : def_.variants[index]? = some variant) : program.constructor? variant.name =
      some ⟨⟨place, def_.name⟩, index, variant.payload.isSome⟩ :=
  Program.constructor?_of_mem hnames
    (Program.mem_constructors.2 ⟨place, def_, hdef, index, variant, hvariant, rfl, rfl⟩)

theorem resolveAll_of_forall {items : List Value}
    (h : ∀ item ∈ items, ∃ e, (item.toTerm program.types).resolve env = .ok e ∧
      e.Makes program item.depth item) :
    ∃ es, Term.resolveAll env (allToTerm program.types items) = .ok es ∧
      List.Forall₂ (fun e item => Expr.Makes program (depthAll items) e item) es items := by
  induction items with
  | nil => exact ⟨[], rfl, .nil⟩
  | cons first rest ih =>
      obtain ⟨⟨e, he, hmakes⟩, hrest⟩ := List.forall_mem_cons.1 h
      obtain ⟨es, hes, hall⟩ := ih hrest
      refine ⟨e :: es, ?_, .cons ?_ (hall.imp fun _ _ ho => ?_)⟩
      · rw [allToTerm, Term.resolveAll, he, hes]
        rfl
      · exact hmakes.mono (depth_le_depthAll List.mem_cons_self)
      · exact ho.mono (Nat.le_max_right _ _)

/-- The expression of data is resolved, and it makes the data. -/
theorem IsData.resolve (hnames : (constructorNames program.types).Nodup)
    (henv : env.program = program) {v : Value} (h : v.IsData program) :
    ∃ e, (v.toTerm program.types).resolve env = .ok e ∧ e.Makes program v.depth v := by
  induction h with
  | unit => exact ⟨.unit .unit, rfl, makes_unit .unit⟩
  | @integer n _ hmax => exact ⟨.integer n .int, if_neg (Int.not_lt.2 hmax), makes_integer n .int⟩
  | @string text _ => exact ⟨.string text .string, rfl, makes_string text .string⟩
  | @tuple items _ _ ih =>
      obtain ⟨es, hes, hall⟩ := resolveAll_of_forall ih
      refine ⟨.tuple es .unknown, ?_, makes_tuple .unknown hall⟩
      rw [toTerm, Term.resolve, hes]
      rfl
  | @bare place index def_ variant hdef hvariant hnone =>
      have hname := variantName_of_getElem? hdef hvariant def_.name
      have hinfo := constructor?_variant hnames hdef hvariant
      let type := TypeInfo.named def_.name []
      refine ⟨.apply (.constructor ⟨place, def_.name⟩ index type) [.unit .unit] type, ?_, ?_⟩
      · rw [toTerm, hname]
        show resolveConstructor env variant.name = _
        rw [resolveConstructor, henv, hinfo, hnone]
        rfl
      · exact makes_variant hdef hvariant _ _ _ (Nat.le_refl 1) (makes_unit .unit)
  | @loaded place index def_ variant payload hdef hvariant hsome _ hunit ih =>
      have hname := variantName_of_getElem? hdef hvariant def_.name
      have hinfo := constructor?_variant hnames hdef hvariant
      obtain ⟨arg, harg, hmakes⟩ := ih
      let type := TypeInfo.named def_.name []
      refine ⟨.apply (.constructor ⟨place, def_.name⟩ index type) [arg] .unknown, ?_, ?_⟩
      · have hhead : (Term.constructor variant.name).resolve env =
            .ok (.constructor ⟨place, def_.name⟩ index type) := by
          show resolveConstructor env variant.name = _
          rw [resolveConstructor, henv, hinfo, hsome]
          rfl
        have hargs : Term.resolveAll env [payload.toTerm program.types] = .ok [arg] := by
          rw [Term.resolveAll, harg]
          rfl
        rw [toTerm, if_neg (by rw [hunit]; decide), hname, Term.resolve, hhead, hargs]
        rfl
      · exact makes_variant hdef hvariant _ _ _ payload.depth_pos hmakes

end Resolution

end Value

end Fern
