import Fern.Proofs.EvalLimits
import Fern.Proofs.FromText

/-!
# What a larger limit changes

An evaluation within a limit is all of the evaluation within a larger one, or it is the beginning of
it: it was cut short, and what it had written is what the other one has written first. So nothing on
the way may take being cut short for a result, and nothing may take back what was written.

Both are said at once of pairs of runs. Where the first run of a pair is cut short, nothing is known
of what comes behind it in the second one but that it writes on, so that is part of what is carried
through the ways in which runs are put together. The pieces of a step that evaluate nothing depend
on their arguments alone, and of those it is known already.

Main statement: `kept_by_larger_limit`.
-/

namespace Fern

namespace Run

variable {α β : Type}

/-! ## Runs that go on -/

/-- What has been written for the user at the end of a run. -/
def written : EStateM.Result Fault Console α → String
  | .ok _ console | .error _ console => console.output

/-- Whether a run ended because its limit was exceeded. -/
def exceeds : EStateM.Result Fault Console α → Bool
  | .error (.failed .nesting) _ => true
  | _ => false

/-- One run has ended like another, or it was cut short and had written the beginning of what the
other has written. -/
inductive EndsOrBegins :
    EStateM.Result Fault Console α → EStateM.Result Fault Console α → Prop
  | same (ended : EStateM.Result Fault Console α) : EndsOrBegins ended ended
  | exceeded {after : Console} {ended : EStateM.Result Fault Console α} (more : String)
      (h : written ended = after.output ++ more) :
      EndsOrBegins (.error (.failed .nesting) after) ended

/-- One run is all of another or the beginning of it, whatever had been written before, and the
other leaves that as it was. -/
structure Begins (run run' : Run α) : Prop where
  ends (console : Console) : EndsOrBegins (run console) (run' console)
  keeps (console : Console) : ∃ more, written (run' console) = console.output ++ more

/-- A run that does not depend on what was written before is all of itself. -/
theorem Alike.begins {run : Run α} (h : run.Alike Eq Eq run) : run.Begins run where
  ends _ := .same _
  keeps console := by
    have hself := h console console
    generalize run console = ended at hself ⊢
    cases hself with
    | ok more _ left _ => exact ⟨more, left⟩
    | error more _ left _ => exact ⟨more, left⟩

theorem Begins.pure (a : α) : (Pure.pure a : Run α).Begins (Pure.pure a) :=
  (Alike.pure rfl).begins

theorem Begins.fail (error : EvalError) : (Run.fail error : Run α).Begins (Run.fail error) :=
  (Alike.fail rfl).begins

/-- A run that is cut short at once is the beginning of every run that keeps what was written. -/
theorem Begins.exceeded {run : Run α} (h : run.Begins run) :
    (Run.fail .nesting : Run α).Begins run where
  ends console := by
    obtain ⟨more, hmore⟩ := h.keeps console
    exact .exceeded more hmore
  keeps := h.keeps

theorem Begins.bind {run run' : Run β} {next next' : β → Run α} (h : run.Begins run')
    (hnext : ∀ b, (next b).Begins (next' b)) : (run >>= next).Begins (run' >>= next') := by
  have hkeeps (console : Console) :
      ∃ more, written (EStateM.bind run' next' console) = written (run' console) ++ more := by
    rw [EStateM.bind]
    cases run' console with
    | ok b mid => exact (hnext b).keeps mid
    | error f after => exact ⟨"", String.append_empty.symm⟩
  refine ⟨fun console => ?_, fun console => ?_⟩
  · have hends := h.ends console
    have hthen := hkeeps console
    show EndsOrBegins (EStateM.bind run next console) (EStateM.bind run' next' console)
    rw [EStateM.bind] at hthen ⊢
    rw [EStateM.bind]
    generalize run console = ended at hends ⊢
    generalize run' console = ended' at hends hthen ⊢
    cases hends with
    | same =>
        cases ended with
        | ok b mid => exact (hnext b).ends mid
        | error f after => exact .same _
    | exceeded more hmore =>
        obtain ⟨others, hothers⟩ := hthen
        refine .exceeded (more ++ others) ?_
        rw [hothers, hmore, String.append_assoc]
  · obtain ⟨more, hmore⟩ := h.keeps console
    obtain ⟨others, hothers⟩ := hkeeps console
    refine ⟨more ++ others, ?_⟩
    show written (EStateM.bind run' next' console) = _
    rw [hothers, hmore, String.append_assoc]

/-- A line of the trace changes nothing for the user. -/
theorem Begins.note {context : Context} {line : String} {run run' : Run α} (h : run.Begins run') :
    (do context.note line; run).Begins (do context.note line; run') := by
  have hnote : (context.note line).Begins (context.note line) := by
    refine ⟨fun _ => .same _, fun console => ?_⟩
    obtain ⟨after, hafter, houtput⟩ := note_eq_ok context line console
    exact ⟨"", by rw [hafter, written, houtput, String.append_empty]⟩
  exact hnote.bind fun _ => h

theorem Begins.mapM {f f' : β → Run α} (h : ∀ b, (f b).Begins (f' b)) (l : List β) :
    (l.mapM f).Begins (l.mapM f') := by
  induction l with
  | nil =>
      rw [List.mapM_nil, List.mapM_nil]
      exact .pure []
  | cons b rest ih =>
      rw [List.mapM_cons, List.mapM_cons]
      exact (h b).bind fun a => ih.bind fun others => .pure (a :: others)

theorem Begins.foldlM {f f' : α → β → Run α} (h : ∀ a b, (f a b).Begins (f' a b)) (start : α)
    (l : List β) : (l.foldlM f start).Begins (l.foldlM f' start) := by
  induction l generalizing start with
  | nil => exact .pure start
  | cons b rest ih =>
      rw [List.foldlM_cons, List.foldlM_cons]
      exact (h start b).bind fun a => ih a

end Run

/-! ## Steps -/

namespace Context

section Steps

variable {context : Context} {eval eval' : Evaluator}
  (heval : ∀ scope e, (eval scope e).Begins (eval' scope e))
include heval

theorem applyWith_begins (callee argument : Value) :
    (context.applyWith eval callee argument).Begins (context.applyWith eval' callee argument) := by
  cases callee with
  | function param captured body => exact (heval _ body).note
  | constructor handle index => exact .pure _
  | builtin id => exact (context.relates_self.callBuiltin id rfl).begins.note
  | unit | integer | string | tuple | variant | other => exact .fail _

theorem selectWith_begins (scope : Scope) (branches : List (Branch Expr)) (matchee : Value) :
    (selectWith eval scope branches matchee).Begins (selectWith eval' scope branches matchee) := by
  cases matchee with
  | variant handle index payload =>
      rw [selectWith, selectWith]
      split
      · exact .fail _
      · exact heval scope _
      · exact heval _ _
  | unit | integer | string | tuple | function | constructor | builtin | other => exact .fail _

theorem chooseWith_begins (scope : Scope) (cons alt : Expr) (cond : Value) :
    (chooseWith eval scope cons alt cond).Begins (chooseWith eval' scope cons alt cond) := by
  cases cond with
  | integer n => exact heval scope _
  | unit | string | tuple | function | variant | constructor | builtin | other => exact .fail _

/-- One step is all of another or the beginning of it if the evaluators for what lies inside are. -/
theorem step_begins (scope : Scope) (e : Expr) :
    (context.step eval scope e).Begins (context.step eval' scope e) := by
  have hself := context.relates_self.toRelatesValues
  refine Run.Begins.note ?_
  cases e with
  | tuple items type => exact (Run.Begins.mapM (heval scope) items).bind fun vs => .pure _
  | record items type => exact (Run.Begins.mapM (heval scope) items).bind fun vs => .pure _
  | field target index type =>
      exact (heval scope target).bind fun v => (hself.project rfl index).begins
  | letIn name rhs body type => exact (heval scope rhs).bind fun v => heval _ body
  | caseOf matchee branches type =>
      exact (heval scope matchee).bind fun v => selectWith_begins heval scope branches v
  | apply callee args type =>
      refine (heval scope callee).bind fun v => Run.Begins.foldlM (fun current arg => ?_) v args
      exact (heval scope arg).bind fun w => applyWith_begins heval current w
  | lambda param body type => exact .pure _
  | symbol name type => exact (context.lookup_alike_self scope name).begins
  | boolean value type => exact .pure _
  | conditional cond cons alt type =>
      exact (heval scope cond).bind fun v => chooseWith_begins heval scope cons alt v
  | binary op lhs rhs type =>
      refine (heval scope lhs).bind fun v => (heval scope rhs).bind fun w => ?_
      exact (hself.operate op rfl rfl).begins
  | constructor handle index type =>
      exact (alike_makeConstructor rfl (fun _ _ => rfl) (fun _ => rfl) handle index).begins
  | builtin id type => exact .pure _
  | string text type => exact .pure _
  | integer n type => exact .pure _
  | unit type => exact .pure _
  | other kind content type => exact .fail _

/-- Running an entry is all of another run of it or the beginning of it if the evaluators are. -/
theorem runWith_begins (entry : String) :
    (context.runWith eval entry).Begins (context.runWith eval' entry) := by
  rw [runWith, runWith]
  split
  · exact .fail _
  · next param body type definition hf =>
    exact ((heval [] body).bind fun v => (Run.Begins.pure v).note).note
  · exact .fail _

end Steps

/-- An evaluation within a limit is all of the evaluation within a larger limit, or the beginning of
it. -/
theorem eval_begins (context : Context) {limit limit' : Nat} (h : limit ≤ limit') (scope : Scope)
    (e : Expr) : (context.eval limit scope e).Begins (context.eval limit' scope e) := by
  induction limit generalizing limit' scope e with
  | zero => exact (context.relates_self.eval limit' scope scope e e ⟨rfl, rfl⟩).begins.exceeded
  | succ limit ih =>
      obtain ⟨limit', rfl⟩ : ∃ k, limit' = k + 1 := ⟨limit' - 1, by omega⟩
      exact step_begins (ih (Nat.le_of_succ_le_succ h)) scope e

end Context

/-- What a larger limit makes of the end of a run: a run that has not exceeded its limit ends as it
did, and one that has goes on from what it had written. -/
structure Run.Kept {α : Type} (ended ended' : EStateM.Result Fault Console α) : Prop where
  settled : ¬exceeds ended → ended' = ended
  begun : exceeds ended → ∃ more, written ended' = written ended ++ more

theorem Run.EndsOrBegins.kept {α : Type} {ended ended' : EStateM.Result Fault Console α}
    (h : EndsOrBegins ended ended') : Kept ended ended' := by
  cases h with
  | same => exact ⟨fun _ => rfl, fun _ => ⟨"", String.append_empty.symm⟩⟩
  | exceeded more hmore => exact ⟨fun hno => absurd rfl hno, fun _ => ⟨more, hmore⟩⟩

/-- A larger limit does not change how an evaluation of an expression or a run of an entry ends, nor
what it writes, unless it had exceeded its limit, and then what it had written is the beginning of
what it writes within the larger one. -/
theorem kept_by_larger_limit (context : Context) {limit limit' : Nat} (h : limit ≤ limit')
    (console : Console) :
    (∀ scope e, Run.Kept (context.eval limit scope e console)
      (context.eval limit' scope e console)) ∧
    ∀ entry, Run.Kept (context.runWith (context.eval limit) entry console)
      (context.runWith (context.eval limit') entry console) := by
  have heval := context.eval_begins h
  refine ⟨fun scope e => ((heval scope e).ends console).kept, fun entry => ?_⟩
  exact ((Context.runWith_begins heval entry).ends console).kept

/-- An entry that counts for ever, and one that writes and comes to an end. -/
theorem kept_by_larger_limit_count :
    ∃ program, Program.ofText?
        "count n = printi n; count (n + 1). main u = count 0. once u = print \"a\"; 6 * 7." =
          some program ∧
      let context : Context := ⟨program, .ofVisits [], false⟩
      6 ≤ 60 ∧ Run.exceeds (context.runWith (context.eval 6) "main" {}) ∧
        Run.written (context.runWith (context.eval 6) "main" {}) = "01" ∧
        (∃ more, Run.written (context.runWith (context.eval 60) "main" {}) = "01" ++ more) ∧
        ¬Run.exceeds (context.runWith (context.eval 6) "once" {}) ∧
        context.runWith (context.eval 60) "once" {} =
          context.runWith (context.eval 6) "once" {} := by
  have htest : (Program.ofText?
      "count n = printi n; count (n + 1). main u = count 0. once u = print \"a\"; 6 * 7.").any
      fun program =>
        let context : Context := ⟨program, .ofVisits [], false⟩
        decide (Run.exceeds (context.runWith (context.eval 6) "main" {}) ∧
          Run.written (context.runWith (context.eval 6) "main" {}) = "01" ∧
          ¬Run.exceeds (context.runWith (context.eval 6) "once" {})) := by
    decide +kernel
  obtain ⟨program, hprogram, htests⟩ := exists_of_any htest
  obtain ⟨hexceeds, hwritten, hsettled⟩ := of_decide_eq_true htests
  obtain ⟨-, hkept⟩ := kept_by_larger_limit ⟨program, .ofVisits [], false⟩
    (show 6 ≤ 60 by decide) {}
  refine ⟨program, hprogram, by decide, hexceeds, hwritten, ?_, hsettled,
    (hkept "once").settled hsettled⟩
  rw [← hwritten]
  exact (hkept "main").begun hexceeds

end Fern
