import Fern.Eval.Eval
import Mathlib.Data.List.Forall2

/-!
# Two runs side by side

A claim that two runs cannot be told apart is a claim about what they write for
the user and how they end. `Alike` says that both write the same text, whatever
had been written before, and that either both give results that go together or
both end with faults that go together. The trace is left out: it names things
that may differ. Like the endings of one run, this passes through the ways in
which runs are put together. What of this is so for other steps than runs as well,
such as those of resolution, is said of any relation with `PassesThrough`.

`AlikeUnless` claims nothing where one of the runs ends with a fault of a given
kind, such as that of a limit. A run that is cut short so is cut short in all that
it is a part of, so this passes through in the same way, and `Alike` is the case
that nothing is cut short.
-/

namespace Fern

/-- A way of relating the steps of two programs, for each way of relating their
results, that passes through giving a result and through doing one step after
another. -/
structure PassesThrough {m m' : Type → Type} [Monad m] [Monad m']
    (steps : (α α' : Type) → (α → α' → Prop) → m α → m' α' → Prop) : Prop where
  result {α α' : Type} {result : α → α' → Prop} {a : α} {a' : α'} : result a a' →
    steps α α' result (pure a) (pure a')
  sequence {α α' β β' : Type} {mid : β → β' → Prop} {result : α → α' → Prop} {step : m β}
    {step' : m' β'} {next : β → m α} {next' : β' → m' α'} : steps β β' mid step step' →
    (∀ b b', mid b b' → steps α α' result (next b) (next' b')) →
    steps α α' result (step >>= next) (step' >>= next')

/-- Then it passes through two lists of the same length, member by member. -/
theorem PassesThrough.mapM {m m' : Type → Type} [Monad m] [LawfulMonad m] [Monad m']
    [LawfulMonad m'] {steps : (α α' : Type) → (α → α' → Prop) → m α → m' α' → Prop}
    (h : PassesThrough steps) {α α' β β' : Type} {pair : β → β' → Prop} {result : α → α' → Prop}
    {f : β → m α} {f' : β' → m' α'} {l : List β} {l' : List β'} (hl : List.Forall₂ pair l l')
    (hf : ∀ b b', pair b b' → steps α α' result (f b) (f' b')) :
    steps (List α) (List α') (List.Forall₂ result) (l.mapM f) (l'.mapM f') := by
  induction hl with
  | nil =>
      rw [List.mapM_nil, List.mapM_nil]
      exact h.result .nil
  | cons hb _ ih =>
      rw [List.mapM_cons, List.mapM_cons]
      refine h.sequence (hf _ _ hb) fun a a' ha => ?_
      exact h.sequence ih fun all all' hall => h.result (.cons ha hall)

namespace Run

variable {α α' β β' : Type}

/-- Two ends of runs go together: both have added the same text to the output
that was there, and both results or both faults are related. -/
inductive AgreeFrom (result : α → α' → Prop) (fault : Fault → Fault → Prop)
    (before before' : Console) :
    EStateM.Result Fault Console α → EStateM.Result Fault Console α' → Prop
  | ok {a : α} {a' : α'} {after after' : Console} (written : String) (related : result a a')
      (left : after.output = before.output ++ written)
      (right : after'.output = before'.output ++ written) :
      AgreeFrom result fault before before' (.ok a after) (.ok a' after')
  | error {f f' : Fault} {after after' : Console} (written : String) (related : fault f f')
      (left : after.output = before.output ++ written)
      (right : after'.output = before'.output ++ written) :
      AgreeFrom result fault before before' (.error f after) (.error f' after')

/-- Two runs write the same and end in ways that go together, whatever had been
written before each of them. -/
def Alike (result : α → α' → Prop) (fault : Fault → Fault → Prop) (run : Run α)
    (run' : Run α') : Prop :=
  ∀ console console', AgreeFrom result fault console console' (run console) (run' console')

variable {result : α → α' → Prop} {fault : Fault → Fault → Prop}

/-- What matters of the consoles before two runs is the output. -/
theorem AgreeFrom.of_output {before before' console console' : Console}
    {ended : EStateM.Result Fault Console α} {ended' : EStateM.Result Fault Console α'}
    (h : AgreeFrom result fault before before' ended ended')
    (hleft : before.output = console.output) (hright : before'.output = console'.output) :
    AgreeFrom result fault console console' ended ended' := by
  cases h with
  | ok written related left right => exact .ok written related (hleft ▸ left) (hright ▸ right)
  | error written related left right =>
      exact .error written related (hleft ▸ left) (hright ▸ right)

/-- Two ends of runs go together, or one of the runs was cut short. -/
inductive EndsAlike (cut cut' : Fault → Prop) (result : α → α' → Prop)
    (fault : Fault → Fault → Prop) (before before' : Console) :
    EStateM.Result Fault Console α → EStateM.Result Fault Console α' → Prop
  | left {f : Fault} {after : Console} {ended' : EStateM.Result Fault Console α'} (h : cut f) :
      EndsAlike cut cut' result fault before before' (.error f after) ended'
  | right {f' : Fault} {after' : Console} {ended : EStateM.Result Fault Console α} (h : cut' f') :
      EndsAlike cut cut' result fault before before' ended (.error f' after')
  | both {ended : EStateM.Result Fault Console α} {ended' : EStateM.Result Fault Console α'}
      (h : AgreeFrom result fault before before' ended ended') :
      EndsAlike cut cut' result fault before before' ended ended'

/-- Two runs write the same and end in ways that go together, unless one of them
ends with a fault that cuts it short. -/
def AlikeUnless (cut cut' : Fault → Prop) (result : α → α' → Prop) (fault : Fault → Fault → Prop)
    (run : Run α) (run' : Run α') : Prop :=
  ∀ console console',
    EndsAlike cut cut' result fault console console' (run console) (run' console')

section Unless

variable {cut cut' : Fault → Prop}

theorem Alike.unless {run : Run α} {run' : Run α'} (h : Alike result fault run run') :
    AlikeUnless cut cut' result fault run run' :=
  fun console console' => .both (h console console')

/-- Where nothing is cut short, runs are alike. -/
theorem AlikeUnless.alike {run : Run α} {run' : Run α'}
    (h : AlikeUnless (fun _ => False) (fun _ => False) result fault run run') :
    Alike result fault run run' := by
  intro console console'
  have hrun := h console console'
  generalize run console = ended at hrun ⊢
  generalize run' console' = ended' at hrun ⊢
  cases hrun with
  | left h => exact h.elim
  | right h => exact h.elim
  | both h => exact h

theorem AlikeUnless.cut_left {f : Fault} {run' : Run α'} (h : cut f) :
    AlikeUnless cut cut' result fault (throw f : Run α) run' :=
  fun _ _ => .left h

theorem AlikeUnless.cut_right {run : Run α} {f' : Fault} (h : cut' f') :
    AlikeUnless cut cut' result fault run (throw f' : Run α') :=
  fun _ _ => .right h

/-- One pair of runs behind another: what the first pair hands over is what the
second may rely on. -/
theorem AlikeUnless.bind {mid : β → β' → Prop} {run : Run β} {run' : Run β'} {next : β → Run α}
    {next' : β' → Run α'} (h : AlikeUnless cut cut' mid fault run run')
    (hnext : ∀ b b', mid b b' → AlikeUnless cut cut' result fault (next b) (next' b')) :
    AlikeUnless cut cut' result fault (run >>= next) (run' >>= next') := by
  intro console console'
  have hrun := h console console'
  show EndsAlike cut cut' result fault console console' (EStateM.bind run next console)
    (EStateM.bind run' next' console')
  rw [EStateM.bind, EStateM.bind]
  generalize run console = first at hrun
  generalize run' console' = first' at hrun
  cases hrun with
  | left h => exact .left h
  | right h => exact .right h
  | both hrun =>
  cases hrun with
  | error written related left right => exact .both (.error written related left right)
  | @ok b b' mid mid' written related left right =>
      -- What is written in all is what both parts write.
      have hthen := hnext b b' related mid mid'
      dsimp only
      generalize next b mid = last at hthen
      generalize next' b' mid' = last' at hthen
      cases hthen with
      | left h => exact .left h
      | right h => exact .right h
      | both hthen =>
      cases hthen with
      | ok more related' left' right' =>
          refine .both (.ok (written ++ more) related' ?_ ?_)
          · rw [left', left, String.append_assoc]
          · rw [right', right, String.append_assoc]
      | error more related' left' right' =>
          refine .both (.error (written ++ more) related' ?_ ?_)
          · rw [left', left, String.append_assoc]
          · rw [right', right, String.append_assoc]

theorem AlikeUnless.mono {result' : α → α' → Prop} {fault' : Fault → Fault → Prop} {run : Run α}
    {run' : Run α'} (h : AlikeUnless cut cut' result fault run run')
    (hr : ∀ a a', result a a' → result' a a') (hf : ∀ f f', fault f f' → fault' f f') :
    AlikeUnless cut cut' result' fault' run run' := by
  intro console console'
  have hrun := h console console'
  generalize run console = ended at hrun ⊢
  generalize run' console' = ended' at hrun ⊢
  cases hrun with
  | left h => exact .left h
  | right h => exact .right h
  | both h =>
  cases h with
  | ok written related left right => exact .both (.ok written (hr _ _ related) left right)
  | error written related left right => exact .both (.error written (hf _ _ related) left right)

/-- A line of the trace leaves the output as it is. -/
theorem note_eq_ok (context : Context) (line : String) (console : Console) :
    ∃ after, context.note line console = .ok () after ∧ after.output = console.output := by
  rw [Context.note]
  split
  · exact ⟨_, rfl, rfl⟩
  · exact ⟨_, rfl, rfl⟩

/-- A line of the trace changes nothing for the user. -/
theorem AlikeUnless.note_left {context : Context} {line : String} {run : Run α} {run' : Run α'}
    (h : AlikeUnless cut cut' result fault run run') :
    AlikeUnless cut cut' result fault (do context.note line; run) run' := by
  intro console console'
  obtain ⟨after, hnote, houtput⟩ := note_eq_ok context line console
  show EndsAlike cut cut' result fault console console'
    (EStateM.bind (context.note line) (fun _ => run) console) (run' console')
  rw [EStateM.bind, hnote]
  dsimp only
  have hrun := h after console'
  generalize run after = ended at hrun ⊢
  generalize run' console' = ended' at hrun ⊢
  cases hrun with
  | left h => exact .left h
  | right h => exact .right h
  | both h => exact .both (h.of_output houtput rfl)

theorem AlikeUnless.note_right {context' : Context} {line' : String} {run : Run α} {run' : Run α'}
    (h : AlikeUnless cut cut' result fault run run') :
    AlikeUnless cut cut' result fault run (do context'.note line'; run') := by
  intro console console'
  obtain ⟨after', hnote, houtput⟩ := note_eq_ok context' line' console'
  show EndsAlike cut cut' result fault console console' (run console)
    (EStateM.bind (context'.note line') (fun _ => run') console')
  rw [EStateM.bind, hnote]
  dsimp only
  have hrun := h console after'
  generalize run console = ended at hrun ⊢
  generalize run' after' = ended' at hrun ⊢
  cases hrun with
  | left h => exact .left h
  | right h => exact .right h
  | both h => exact .both (h.of_output rfl houtput)

theorem AlikeUnless.note {context context' : Context} {line line' : String} {run : Run α}
    {run' : Run α'} (h : AlikeUnless cut cut' result fault run run') :
    AlikeUnless cut cut' result fault (do context.note line; run) (do context'.note line'; run') :=
  h.note_right.note_left

end Unless

theorem Alike.pure {a : α} {a' : α'} (h : result a a') :
    Alike result fault (pure a) (pure a') :=
  fun _ _ => .ok "" h String.append_empty.symm String.append_empty.symm

theorem Alike.throw {f f' : Fault} (h : fault f f') :
    Alike result fault (throw f : Run α) (throw f' : Run α') :=
  fun _ _ => .error "" h String.append_empty.symm String.append_empty.symm

theorem Alike.fail {error error' : EvalError} (h : fault (.failed error) (.failed error')) :
    Alike result fault (fail error : Run α) (fail error' : Run α') :=
  Alike.throw h

theorem Alike.write {result : Unit → Unit → Prop} {text : String} (h : result () ()) :
    Alike result fault (write text) (write text) :=
  fun _ _ => .ok text h rfl rfl

theorem Alike.bind {mid : β → β' → Prop} {run : Run β} {run' : Run β'} {next : β → Run α}
    {next' : β' → Run α'} (h : Alike mid fault run run')
    (hnext : ∀ b b', mid b b' → Alike result fault (next b) (next' b')) :
    Alike result fault (run >>= next) (run' >>= next') :=
  (h.unless.bind fun b b' hb => (hnext b b' hb).unless).alike

theorem Alike.mono {result' : α → α' → Prop} {fault' : Fault → Fault → Prop} {run : Run α}
    {run' : Run α'} (h : Alike result fault run run') (hr : ∀ a a', result a a' → result' a a')
    (hf : ∀ f f', fault f f' → fault' f f') : Alike result' fault' run run' :=
  (h.unless.mono hr hf).alike

theorem Alike.note {context context' : Context} {line line' : String} {run : Run α}
    {run' : Run α'} (h : Alike result fault run run') :
    Alike result fault (do context.note line; run) (do context'.note line'; run') :=
  h.unless.note.alike

/-- Two runs that are both like a third one write what it writes, so they are alike
themselves. -/
theorem Alike.meet {result' : α' → β → Prop} {result : α → β → Prop} {run : Run α} {run' : Run α'}
    {third : Run β} (h : Alike result fault run third) (h' : Alike result' fault run' third) :
    Alike (fun a a' => ∃ b, result a b ∧ result' a' b)
      (fun f f' => ∃ g, fault f g ∧ fault f' g) run run' := by
  intro console console'
  have hrun := h console {}
  have hrun' := h' console' {}
  generalize run console = ended at hrun ⊢
  generalize run' console' = ended' at hrun' ⊢
  generalize third {} = common at hrun hrun'
  cases hrun with
  | ok written related left right =>
      cases hrun' with
      | ok written' related' left' right' =>
          obtain rfl := (String.append_right_inj _).1 (right.symm.trans right')
          exact .ok written ⟨_, related, related'⟩ left left'
  | error written related left right =>
      cases hrun' with
      | error written' related' left' right' =>
          obtain rfl := (String.append_right_inj _).1 (right.symm.trans right')
          exact .error written ⟨_, related, related'⟩ left left'

section Lists

variable {cut cut' : Fault → Prop}

theorem AlikeUnless.passesThrough : PassesThrough fun _ _ result =>
    AlikeUnless cut cut' result fault where
  result ha := (Alike.pure ha).unless
  sequence := AlikeUnless.bind

/-- Folding over two lists of the same length, member by member. -/
theorem AlikeUnless.foldlM {pair : β → β' → Prop} {f : α → β → Run α} {f' : α' → β' → Run α'}
    {l : List β} {l' : List β'} (hl : List.Forall₂ pair l l')
    (h : ∀ b b', pair b b' → ∀ a a', result a a' →
      AlikeUnless cut cut' result fault (f a b) (f' a' b'))
    {start : α} {start' : α'} (hs : result start start') :
    AlikeUnless cut cut' result fault (l.foldlM f start) (l'.foldlM f' start') := by
  induction hl generalizing start start' with
  | nil => exact (Alike.pure hs).unless
  | cons hb _ ih =>
      rw [List.foldlM_cons, List.foldlM_cons]
      exact AlikeUnless.bind (h _ _ hb _ _ hs) fun a a' ha => ih ha

end Lists

end Run

end Fern
