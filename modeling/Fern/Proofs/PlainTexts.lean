import Fern.Proofs.EvalInvariant
import Fern.Proofs.ResolvedProgram

/-!
# Texts without NUL characters

The host refuses a path that holds a NUL character, and what it says then is no error
of the language. A text is plain if it holds none. Evaluation makes texts from those
of the program and from those of files, by taking them apart; so where all of these
are plain, so is every path that a file is asked for, and an evaluation without a
value ends with an error of the language.
-/

namespace Fern

/-- A text without a NUL character. -/
def Text.IsPlain (text : String) : Prop := '\x00' ∉ text.toList

instance (text : String) : Decidable (Text.IsPlain text) :=
  inferInstanceAs (Decidable ('\x00' ∉ text.toList))

/-- Every file that can be read holds a plain text. -/
def FileSystem.IsPlain (files : FileSystem) : Prop :=
  ∀ path text, files.readText path = .ok text → Text.IsPlain text

/-- Every text in a tree is plain. -/
def Term.TextsPlain (t : Term) : Prop :=
  t.All fun
    | .string text => Text.IsPlain text
    | _ => True

/-- Every text in a declaration is plain. -/
def Declaration.TextsPlain (decl : Declaration) : Prop :=
  decl.All fun
    | .string text => Text.IsPlain text
    | _ => True

/-- Every text in an expression is plain. -/
def Expr.TextsPlain (e : Expr) : Prop :=
  e.All fun
    | .string text _ => Text.IsPlain text
    | _ => True

/-- Every text in a program is plain. -/
def Program.TextsPlain (program : Program) : Prop :=
  ∀ name definition, program.find? name = some definition → definition.expr.TextsPlain

/-- Every text in a value is plain, also in the functions inside it. -/
inductive Value.TextsPlain : Value → Prop
  | unit : TextsPlain .unit
  | integer (n : Int) : TextsPlain (.integer n)
  | string {text : String} (plain : Text.IsPlain text) : TextsPlain (.string text)
  | tuple {items : List Value} (plain : ∀ item ∈ items, TextsPlain item) :
      TextsPlain (.tuple items)
  | function {param : String} {captured : List (String × Value)} {body : Expr}
      (plain : ∀ binding ∈ captured, TextsPlain binding.2) (hbody : body.TextsPlain) :
      TextsPlain (.function param captured body)
  | variant {handle : TypeHandle} {index : Int} {payload : Value} (plain : TextsPlain payload) :
      TextsPlain (.variant handle index payload)
  | constructor (handle : TypeHandle) (index : Int) : TextsPlain (.constructor handle index)
  | builtin (id : String) : TextsPlain (.builtin id)
  | other (typeName : String) (content : Datum) : TextsPlain (.other typeName content)

/-- Every text in the values of a scope is plain. -/
def Scope.TextsPlain (scope : Scope) : Prop := ∀ binding ∈ scope, binding.2.TextsPlain

/-- A fault that is an error of the language. -/
inductive Fault.IsError : Fault → Prop
  | intro (error : EvalError) : IsError (.failed error)

/-! ## Built-in functions -/

theorem Text.isPlain_ofList {text : List Char} : IsPlain (String.ofList text) ↔ '\x00' ∉ text := by
  rw [IsPlain, String.toList_ofList]

/-- What a text is taken apart into is plain if the text is. -/
theorem plain_splitText {text : String} (separator : String) (h : Text.IsPlain text) :
    Text.IsPlain (splitText text separator).1 ∧ Text.IsPlain (splitText text separator).2 := by
  rw [splitText]
  split
  · exact ⟨h, List.not_mem_nil⟩
  · next before behind hcut =>
    rw [Text.IsPlain, Text.eq_of_cutAt? hcut, List.mem_append, List.mem_append, not_or,
      not_or] at h
    exact ⟨Text.isPlain_ofList.2 h.1.1, Text.isPlain_ofList.2 h.2⟩

theorem Value.TextsPlain.texts {first second : String} (hfirst : Text.IsPlain first)
    (hsecond : Text.IsPlain second) :
    (Value.tuple [.string first, .string second]).TextsPlain :=
  .tuple (List.forall_mem_cons.2 ⟨.string hfirst, List.forall_mem_singleton.2 (.string hsecond)⟩)

/-- A run that gives values with plain texts or ends with an error of the
language. -/
abbrev Run.Plain (run : Run Value) : Prop := run.Ends Value.TextsPlain Fault.IsError

theorem plain_wantText (builtin : Builtin) {v : Value} (hv : v.TextsPlain) :
    (builtin.wantText v).Ends Text.IsPlain Fault.IsError := by
  cases hv with
  | string plain => exact Run.Ends.pure plain
  | _ => exact Run.Ends.fail (.intro _)

theorem plain_wantInteger (builtin : Builtin) (v : Value) :
    (builtin.wantInteger v).Ends (fun _ => True) Fault.IsError := by
  cases v with
  | integer n => exact Run.Ends.pure trivial
  | _ => exact Run.Ends.fail (.intro _)

theorem plain_wantTexts (builtin : Builtin) {v : Value} (hv : v.TextsPlain) :
    (builtin.wantTexts v).Ends (fun texts => Text.IsPlain texts.1) Fault.IsError := by
  rw [Builtin.wantTexts.eq_def]
  split
  · next first second =>
    cases hv with
    | tuple plain =>
        obtain ⟨hfirst, hrest⟩ := List.forall_mem_cons.1 plain
        refine (plain_wantText builtin hfirst).bind fun text htext => ?_
        refine (plain_wantText builtin (hrest _ List.mem_cons_self)).bind fun _ _ => ?_
        exact Run.Ends.pure htext
  · exact Run.Ends.fail (.intro _)
  · exact Run.Ends.fail (.intro _)

/-- A built-in function asks for no file that the host would refuse. -/
theorem plain_callBuiltin {files : FileSystem} (hfiles : files.IsPlain) (id : String) {v : Value}
    (hv : v.TextsPlain) : (callBuiltin files id v).Plain := by
  rw [callBuiltin]
  split
  · exact Run.Ends.fail (.intro _)
  next builtin _ =>
  cases builtin with
  | readFile =>
      refine (plain_wantText _ hv).bind fun path hpath => ?_
      rw [readPath, if_neg (by simpa [Text.IsPlain] using hpath)]
      split
      · next text hread => exact Run.Ends.pure (.string (hfiles path text hread))
      · exact Run.Ends.fail (.intro _)
  | print =>
      refine (plain_wantText _ hv).bind fun text _ => ?_
      exact (Run.Ends.write trivial).bind fun _ (_ : True) => Run.Ends.pure .unit
  | printInt =>
      refine (plain_wantInteger _ v).bind fun n _ => ?_
      exact (Run.Ends.write trivial).bind fun _ (_ : True) => Run.Ends.pure .unit
  | parseInt =>
      refine (plain_wantText _ hv).bind fun text _ => ?_
      rw [parseInteger]
      split
      · exact Run.Ends.fail (.intro _)
      · split
        · exact Run.Ends.pure (.integer _)
        · exact Run.Ends.fail (.intro _)
  | firstChar =>
      refine (plain_wantText _ hv).bind fun text htext => ?_
      rw [firstAndRest]
      split
      · exact Run.Ends.fail (.intro _)
      · next c rest hchars =>
        rw [Text.IsPlain, hchars, List.mem_cons, not_or] at htext
        exact Run.Ends.pure (.texts (Text.isPlain_ofList.2 (by simpa using htext.1))
          (Text.isPlain_ofList.2 htext.2))
  | split =>
      refine (plain_wantTexts _ hv).bind fun texts htext => ?_
      obtain ⟨hbefore, hbehind⟩ := plain_splitText texts.2 htext
      exact Run.Ends.pure (.texts hbefore hbehind)

/-! ## Evaluation -/

variable {context : Context}

/-- Evaluation makes plain texts from plain texts. -/
theorem keeps_plain (hp : context.program.TextsPlain) (hf : context.files.IsPlain) :
    context.KeepsWithin (fun scope e => scope.TextsPlain ∧ e.TextsPlain) Value.TextsPlain
      Fault.IsError where
  part h hm := ⟨h.1, h.2.part hm⟩
  body h hm hv := ⟨List.forall_mem_cons.2 ⟨hv, h.1⟩, h.2.part hm⟩
  closure h := .function h.1 (h.2.part List.mem_cons_self)
  called hc hv := by
    cases hc with
    | function plain hbody => exact ⟨List.forall_mem_cons.2 ⟨hv, plain⟩, hbody⟩
  unit := .unit
  truth _ := .integer _
  string h := .string h.2.here
  integer _ := .integer _
  builtin _ := .builtin _
  tuple := .tuple
  item h := by
    cases h with
    | tuple plain => exact plain
  variant _ hv := .variant hv
  payload h := by
    cases h with
    | variant plain => exact plain
  symbol h := Context.lookup_ends .intro h.1
    (fun _ _ _ _ hf => .function nofun ((hp _ _ hf).part List.mem_cons_self)) .builtin
  constructor _ := Context.makeConstructor_ends .intro fun _ _ _ _ => .constructor _ _
  operator _ _ _ := Context.operate_ends .intro (fun _ _ _ _ _ _ => .integer _) fun _ => .integer _
  native _ hv := plain_callBuiltin hf _ hv
  other _ := .intro _
  failed _ := .intro _

/-! ## Resolution -/

section Resolve

variable {env : Env}

/-- The texts in what a tree means are texts of the tree. -/
theorem Term.TextsPlain.of_resolve {t : Term} {e : Expr} (ht : t.TextsPlain)
    (h : t.resolve env = .ok e) : e.TextsPlain := by
  induction ht generalizing env e with
  | @intro t here _ ih =>
  by_cases hlambda : ∃ params body, t = .lambda params body
  · obtain ⟨params, body, rfl⟩ := hlambda
    simp only [Term.resolve, bind_eq_ok, pure_eq_ok] at h
    obtain ⟨b, hb, rfl⟩ := h
    exact Expr.All.curry (fun _ _ => trivial) (ih body List.mem_cons_self hb)
  by_cases hconstructor : ∃ name, t = .constructor name
  · obtain ⟨name, rfl⟩ := hconstructor
    exact resolveConstructor_all h (fun _ _ _ => trivial) (fun _ _ _ => trivial) fun _ => trivial
  simp only [not_exists] at hlambda hconstructor
  refine .intro ?_ fun part hm => ?_
  · cases e with
    | string text type =>
        obtain rfl : t = .string text := Term.root_of_resolve h hlambda
        exact here
    | _ => trivial
  · obtain ⟨t', ht', hr⟩ := Term.part_of_resolve h hconstructor hlambda hm
    exact ih t' ht' hr

end Resolve

/-- The texts in a program that declarations stand for are texts of these. -/
theorem Program.TextsPlain.of_declarations {decls : List Declaration} {program : Program}
    (hdecls : ∀ decl ∈ decls, decl.TextsPlain) (h : Program.ofDeclarations decls = .ok program) :
    program.TextsPlain := by
  intro name definition hf
  rcases Program.definition_cases h hf with ⟨builtin, rfl⟩ | ⟨decl, hm, known, _, _, hr⟩
  · exact .leaf rfl trivial
  · simp only [FunctionDecl.resolve, bind_eq_ok] at hr
    obtain ⟨body, hbody, hrest⟩ := hr
    have hplain : Term.TextsPlain decl.body := hdecls _ (mem_of_mem_functionDecls hm)
    split at hrest
    · rw [← Except.ok.inj hrest]
      exact Expr.All.curry (fun _ _ => trivial) (hplain.of_resolve hbody)
    · cases hrest

end Fern
