import Fern.Eval.Eval

/-!
# What a run can end with

A claim about every run of an evaluation is a claim about its two endings: a
result, or a fault. `Ends` says which results and which faults are possible,
whatever had been written before. It passes through the ways in which runs are
put together, so an invariant of evaluation is a matter of its single steps.
-/

namespace Fern

/-- Whether a failure shows that a name, a constructor, an operator or a form of
expression has no meaning: the failures that resolution is there to prevent. -/
def EvalError.IsUnresolved : EvalError → Prop
  | .unbound _ | .notFunction .. | .notSumType _ | .noVariant .. | .unknownKind _
  | .unknownBuiltin _ | .arithmetic (.unknownOperator _) => True
  | _ => False

/-- Whether a fault is one of the failures that resolution is there to prevent. -/
def Fault.IsUnresolved : Fault → Prop
  | .failed error => error.IsUnresolved
  | _ => False

namespace Run

variable {α β : Type}

/-- A run ends with a result of one sort or with a fault of another. -/
def Ends (result : α → Prop) (fault : Fault → Prop) (run : Run α) : Prop :=
  ∀ console, match run console with
    | .ok a _ => result a
    | .error f _ => fault f

variable {result : α → Prop} {fault : Fault → Prop}

theorem Ends.pure {a : α} (h : result a) : Ends result fault (pure a) := fun _ => h

theorem Ends.fail {error : EvalError} (h : fault (.failed error)) :
    Ends result fault (fail error : Run α) := fun _ => h

theorem Ends.throw {f : Fault} (h : fault f) : Ends result fault (throw f : Run α) := fun _ => h

/-- One run behind another: what the first hands over is what the second may
rely on. -/
theorem Ends.bind {mid : β → Prop} {run : Run β} {next : β → Run α} (h : Ends mid fault run)
    (hnext : ∀ b, mid b → Ends result fault (next b)) : Ends result fault (run >>= next) := by
  intro console
  have hrun := h console
  show match EStateM.bind run next console with
    | .ok a _ => result a
    | .error f _ => fault f
  rw [EStateM.bind]
  cases hr : run console with
  | ok b after =>
      rw [hr] at hrun
      exact hnext b hrun after
  | error f after =>
      rw [hr] at hrun
      exact hrun

theorem Ends.mono {result' : α → Prop} {fault' : Fault → Prop} {run : Run α}
    (h : Ends result fault run) (hr : ∀ a, result a → result' a)
    (hf : ∀ f, fault f → fault' f) : Ends result' fault' run := by
  intro console
  have hrun := h console
  cases he : run console with
  | ok a after =>
      rw [he] at hrun
      exact hr a hrun
  | error f after =>
      rw [he] at hrun
      exact hf f hrun

theorem Ends.write {result : Unit → Prop} {text : String} (h : result ()) :
    Ends result fault (write text) := fun _ => h

/-- A line of the trace is no ending: what follows it decides. -/
theorem Ends.note {context : Context} {line : String} {run : Run α} (h : Ends result fault run) :
    Ends result fault (do context.note line; run) := by
  have hnote : Ends (fun _ => True) fault (context.note line) := by
    rw [Context.note]
    split
    · exact fun _ => trivial
    · exact Ends.pure trivial
  exact hnote.bind fun _ _ => h

/-- Running over a list keeps what running over each of its members gives. -/
theorem Ends.mapM {f : β → Run α} {l : List β} (h : ∀ b ∈ l, Ends result fault (f b)) :
    Ends (fun all => ∀ a ∈ all, result a) fault (l.mapM f) := by
  induction l with
  | nil =>
      rw [List.mapM_nil]
      exact Ends.pure fun a ha => absurd ha List.not_mem_nil
  | cons b rest ih =>
      rw [List.mapM_cons]
      refine Ends.bind (h b List.mem_cons_self) fun a ha => ?_
      refine Ends.bind (ih fun c hc => h c (List.mem_cons_of_mem _ hc)) fun others ho => ?_
      exact Ends.pure (List.forall_mem_cons.2 ⟨ha, ho⟩)

/-- Folding over a list keeps what each of its members keeps. -/
theorem Ends.foldlM {f : α → β → Run α} {l : List β}
    (h : ∀ b ∈ l, ∀ a, result a → Ends result fault (f a b)) {start : α} (hs : result start) :
    Ends result fault (l.foldlM f start) := by
  induction l generalizing start with
  | nil => exact Ends.pure hs
  | cons b rest ih =>
      rw [List.foldlM_cons]
      refine Ends.bind (h b List.mem_cons_self start hs) fun a ha => ?_
      exact ih (fun c hc => h c (List.mem_cons_of_mem _ hc)) ha

/-! ## Continuations that differ elsewhere -/

/-- What follows a run matters only for what the run can hand over. -/
theorem Ends.bind_congr {mid : β → Prop} {run : Run β} {next next' : β → Run α}
    (h : Ends mid fault run) (hnext : ∀ b, mid b → next b = next' b) :
    run >>= next = run >>= next' := by
  funext console
  have hrun := h console
  show EStateM.bind run next console = EStateM.bind run next' console
  rw [EStateM.bind, EStateM.bind]
  cases hr : run console with
  | ok b after =>
      rw [hr] at hrun
      exact congrFun (hnext b hrun) after
  | error f after => rfl

theorem mapM_congr {f f' : β → Run α} {l : List β} (h : ∀ b ∈ l, f b = f' b) :
    l.mapM f = l.mapM f' := by
  induction l with
  | nil => rw [List.mapM_nil, List.mapM_nil]
  | cons b rest ih =>
      obtain ⟨hb, hrest⟩ := List.forall_mem_cons.1 h
      rw [List.mapM_cons, List.mapM_cons, hb, ih hrest]

/-- Folding over a list depends only on what its members do with results of one
sort, if they keep to it. -/
theorem Ends.foldlM_congr {f f' : α → β → Run α} {l : List β}
    (h : ∀ b ∈ l, ∀ a, result a → Ends result fault (f a b))
    (hsame : ∀ b ∈ l, ∀ a, result a → f a b = f' a b) {start : α} (hs : result start) :
    l.foldlM f start = l.foldlM f' start := by
  induction l generalizing start with
  | nil => rfl
  | cons b rest ih =>
      obtain ⟨hb, hrest⟩ := List.forall_mem_cons.1 h
      obtain ⟨hfirst, hothers⟩ := List.forall_mem_cons.1 hsame
      rw [List.foldlM_cons, List.foldlM_cons, ← hfirst start hs]
      exact (hb start hs).bind_congr fun a ha => ih hrest hothers ha

end Run

end Fern
