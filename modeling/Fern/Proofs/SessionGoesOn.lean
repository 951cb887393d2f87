import Fern.Proofs.BuiltinEndings
import Fern.Proofs.PlainTexts
import Fern.Proofs.SessionScript

/-!
# A session goes on

Three things end a session: the line for it, the end of the input, and an interrupt.
Whatever else is typed is answered, be it with an error, and the next line is read.
There is one exception: a path with a NUL character, for which the host has an error
of its own that no session reckons with. Such a path comes from a text in a line or
in a file, so without NUL characters in those a session has no other end.
-/

namespace Fern.Session

/-- What ends a session. -/
def Input.breaksOff : Input → Bool
  | .interrupt => true
  | .line text => Request.ofLine text = .exit

/-- A session goes on after an answer, and an error of the evaluation is reported in
it. -/
inductive Handled : Reply → Prop
  | quiet (output trace : String) : Handled { output, trace }
  | reported (before trace : String) (error : EvalError) :
      Handled { output := before ++ errorReport error, trace, fault := some (.failed error) }

/-- Every text in what a line can be read as is plain. -/
structure LinePlain (line : String) : Prop where
  declarations : ∀ decls, Syntax.parseProgram line = .ok decls → ∀ decl ∈ decls, decl.TextsPlain
  expression : ∀ t, Syntax.parseExpression line = .ok t → t.TextsPlain

/-- Every text in the declarations of a session is plain, and its program is the one
that they stand for. -/
structure Plain (session : Session) : Prop where
  declarations : ∀ decl ∈ session.declarations, decl.TextsPlain
  resolved : Program.ofDeclarations session.declarations = .ok session.program

/-- A line that is read as one tree with plain texts and not as declarations. -/
theorem LinePlain.of_expression {line : String} {t : Term}
    (hexpression : Syntax.parseExpression line = .ok t) (ht : t.TextsPlain)
    (hprogram : (Syntax.parseProgram line).toOption = none) : LinePlain line where
  declarations decls hread := by
    rw [hread] at hprogram
    cases hprogram
  expression t' hread := by
    rw [hexpression] at hread
    exact Except.ok.inj hread ▸ ht

/-- A line that is not read as anything. -/
theorem LinePlain.of_none {line : String}
    (hexpression : (Syntax.parseExpression line).toOption = none)
    (hprogram : (Syntax.parseProgram line).toOption = none) : LinePlain line where
  declarations decls hread := by
    rw [hread] at hprogram
    cases hprogram
  expression t hread := by
    rw [hread] at hexpression
    cases hexpression

/-! ## Evaluation -/

/-- Under a limit that the host accepts, evaluation ends with nothing but errors of
the language and refused paths. -/
theorem keeps_error_or_refusedPath (context : Context) :
    context.KeepsWithin (fun _ _ => True) (fun _ => True)
      fun f => f.IsError ∨ f = .refusedPath where
  part _ _ := trivial
  body _ _ _ := trivial
  closure _ := trivial
  called _ _ := trivial
  unit := trivial
  truth _ := trivial
  string _ := trivial
  integer _ := trivial
  builtin _ := trivial
  tuple _ := trivial
  item _ _ _ := trivial
  variant _ _ := trivial
  payload _ := trivial
  symbol _ := Context.lookup_ends (fun error => .inl (.intro error)) (fun _ _ => trivial)
    (fun _ _ _ _ _ => trivial) fun _ => trivial
  constructor _ := Context.makeConstructor_ends (fun error => .inl (.intro error))
    fun _ _ _ _ => trivial
  operator _ _ _ := Context.operate_ends (fun error => .inl (.intro error))
    (fun _ _ _ _ _ _ => trivial) fun _ => trivial
  native _ _ := callBuiltin_ends (fun error => .inl (.intro error)) (.inr rfl)
    (fun _ _ => trivial) _ _ _
  other _ := .inl (.intro _)
  failed _ := .inl (.intro _)

/-! ## One line -/

section Step

variable {settings : Settings} {session : Session} {line : String}

/-- What can come of a line: the session ends because it is asked to, it goes on, or
an evaluation ended with a fault that is no error of the language. -/
inductive Answered (settings : Settings) (session : Session) (line : String) : Reply → Prop
  | exit (request : Request.ofLine line = .exit) :
      Answered settings session line { next := .stop }
  | handled {reply : Reply} (request : Request.ofLine line ≠ .exit) (handled : Handled reply) :
      Answered settings session line reply
  | crash {reply : Reply} {t : Term} {e : Expr} {fault : Fault} {console : Console}
      (request : Request.ofLine line ≠ .exit) (read : Syntax.parseExpression line = .ok t)
      (resolved : session.program.resolveTerm t = .ok e)
      (run : (settings.evaluator session.program [] e).run {} = .error fault console)
      (noError : ¬fault.IsError) (next : reply.next = .crash)
      (fault_eq : reply.fault = some fault) :
      Answered settings session line reply

theorem handled_declare : Handled (declare settings session line).2 := by
  unfold declare
  split
  · exact .quiet _ _
  · dsimp only
    split
    · exact .quiet _ _
    · exact .quiet _ _

theorem answered_evaluate (request : Request.ofLine line ≠ .exit) :
    Answered settings session line (evaluate settings session.program line) := by
  unfold evaluate
  split
  · exact .handled request (.quiet _ _)
  · next t hread =>
    dsimp only
    split
    · exact .handled request (.quiet _ _)
    · next e hresolved =>
      split
      · exact .handled request (.quiet _ _)
      · next error console _ => exact .handled request (.reported _ _ error)
      · next fault console hne hrun =>
        refine .crash request hread hresolved hrun (fun hf => ?_) rfl rfl
        obtain ⟨error⟩ := hf
        exact hne error rfl

/-- Every line is answered in one of these ways. -/
theorem answered_step (settings : Settings) (session : Session) (line : String) :
    Answered settings session line (step settings session line).2 := by
  unfold step
  split
  case h_1 request => exact .exit request
  case h_2 request => exact .handled (by simp [request]) (.quiet _ _)
  case h_3 request => exact .handled (by simp [request]) (.quiet _ _)
  case h_4 request => exact .handled (by simp [request]) (.quiet _ _)
  case h_5 request => exact .handled (by simp [request]) (.quiet _ _)
  case h_6 request => exact .handled (by simp [request]) handled_declare
  case h_7 request => exact answered_evaluate (by simp [request])

variable {reply : Reply} {limit : Nat}

theorem Answered.refusedPath (h : Answered settings session line reply)
    (hnesting : settings.nesting = .ok limit) (hcrash : reply.next = .crash) :
    reply.fault = some .refusedPath := by
  cases h with
  | exit _ => cases hcrash
  | handled _ handled => cases handled <;> cases hcrash
  | @crash _ t e fault console _ _ _ run noError _ fault_eq =>
      have hends := (keeps_error_or_refusedPath (settings.context session.program)).eval limit [] e
        trivial {}
      rw [Settings.evaluator, hnesting, Context.evalWithin] at run
      change EStateM.run _ _ = _ at run
      rw [EStateM.run] at run
      rw [run] at hends
      rw [fault_eq, hends.resolve_left noError]

/-- Where all texts are plain nothing is given up. -/
theorem Answered.not_crash (h : Answered settings session line reply)
    (hnesting : settings.nesting = .ok limit) (hfiles : settings.files.IsPlain)
    (hsession : session.Plain) (hline : LinePlain line) : reply.next ≠ .crash := by
  intro hcrash
  cases h with
  | exit _ => cases hcrash
  | handled _ handled => cases handled <;> cases hcrash
  | @crash _ t e fault console _ read resolved run noError _ _ =>
      have hprogram : (settings.context session.program).program.TextsPlain :=
        .of_declarations hsession.declarations hsession.resolved
      have hexpr : e.TextsPlain := (hline.expression t read).of_resolve resolved
      have hends := (keeps_plain hprogram hfiles).eval limit [] e
        ⟨fun _ hm => absurd hm List.not_mem_nil, hexpr⟩ {}
      rw [Settings.evaluator, hnesting, Context.evalWithin] at run
      rw [EStateM.run] at run
      rw [run] at hends
      exact noError hends

/-- What a line with plain texts adds to a session is plain. -/
theorem Plain.step (h : session.Plain) (hline : LinePlain line) :
    (step settings session line).1.Plain := by
  cases ha : session.accepts line with
  | false => rwa [step_of_not_accepts ha]
  | true =>
      obtain ⟨hrequest, decls, program, hread, hdecls⟩ := accepts_eq_true.1 ha
      have hstep : (Session.step settings session line).1 =
          ⟨session.declarations ++ decls, program⟩ := by
        simp only [Session.step, hrequest, declare, hread, hdecls]
      rw [hstep]
      refine ⟨fun decl hm => ?_, hdecls⟩
      rcases List.mem_append.1 hm with hm | hm
      · exact h.declarations decl hm
      · exact hline.declarations decls hread decl hm

end Step

/-! ## Whole sessions -/

section Transcript

variable {settings : Settings}

theorem transcript_line (session : Session) (text : String) (rest : List Input) :
    transcript settings session (.line text :: rest) =
      (step settings session text).2 ::
        if (step settings session text).2.next = .goOn then
          transcript settings (step settings session text).1 rest
        else [] := rfl

/-- What holds of the farewell and of the answer to every line, in sessions that keep
a property, holds of every answer. -/
theorem transcript_all {p : Reply → Prop} {invariant : Session → Prop} (hfarewell : p farewell)
    {inputs : List Input} {session : Session} (hsession : invariant session)
    (hstep : ∀ session text, invariant session → .line text ∈ inputs →
      p (step settings session text).2 ∧ invariant (step settings session text).1) :
    ∀ reply ∈ transcript settings session inputs, p reply := by
  induction inputs generalizing session with
  | nil => exact List.forall_mem_singleton.2 hfarewell
  | cons input rest ih =>
      cases input with
      | interrupt => exact List.forall_mem_singleton.2 hfarewell
      | line text =>
          obtain ⟨hreply, hafter⟩ := hstep session text hsession List.mem_cons_self
          rw [transcript_line]
          refine List.forall_mem_cons.2 ⟨hreply, fun reply hm => ?_⟩
          split at hm
          · exact ih hafter (fun other next ho hmem =>
              hstep other next ho (List.mem_cons_of_mem _ hmem)) reply hm
          · cases hm

/-- Everything that comes before the end of a session is answered, and one answer more
is given to what ends it, unless an answer before that breaks the session. -/
theorem transcript_answers {limit : Nat} (hnesting : settings.nesting = .ok limit)
    (session : Session) (inputs : List Input) :
    ∃ answers last, transcript settings session inputs = answers ++ [last] ∧
      (∀ reply ∈ answers, Handled reply) ∧
      (last.next = .stop ∧ answers.length = (inputs.takeWhile (!·.breaksOff)).length ∨
        last.next = .crash ∧ last.fault = some .refusedPath ∧
          answers.length < (inputs.takeWhile (!·.breaksOff)).length) := by
  have hnone : ∀ reply ∈ ([] : List Reply), Handled reply := List.forall_mem_nil _
  induction inputs generalizing session with
  | nil => exact ⟨[], farewell, rfl, hnone, .inl ⟨rfl, rfl⟩⟩
  | cons input rest ih =>
      cases input with
      | interrupt => exact ⟨[], farewell, rfl, hnone, .inl ⟨rfl, rfl⟩⟩
      | line text =>
          rw [transcript_line, List.takeWhile_cons]
          have hanswered := answered_step settings session text
          generalize (step settings session text).2 = reply at hanswered ⊢
          have hbreaks (h : Request.ofLine text ≠ .exit) : (Input.line text).breaksOff = false :=
            decide_eq_false h
          cases hanswered with
          | exit request =>
              have hexit : (Input.line text).breaksOff = true := decide_eq_true request
              rw [hexit]
              exact ⟨[], { next := .stop }, rfl, hnone, .inl ⟨rfl, rfl⟩⟩
          | crash request read resolved run noError next fault_eq =>
              have hcrash : Answered settings session text reply :=
                .crash request read resolved run noError next fault_eq
              rw [hbreaks request, next, if_neg (by decide)]
              exact ⟨[], reply, rfl, hnone, .inr ⟨next, hcrash.refusedPath hnesting next,
                Nat.zero_lt_succ _⟩⟩
          | handled request handled =>
              have hnext : reply.next = .goOn := by cases handled <;> rfl
              obtain ⟨answers, last, heq, hall, hlast⟩ := ih (step settings session text).1
              rw [hbreaks request, if_pos hnext, heq]
              refine ⟨reply :: answers, last, rfl, List.forall_mem_cons.2 ⟨handled, hall⟩, ?_⟩
              refine hlast.imp (fun h => ⟨h.1, congrArg Nat.succ h.2⟩) fun h => ?_
              exact ⟨h.1, h.2.1, Nat.succ_lt_succ h.2.2⟩

end Transcript

theorem plain_initial : initial.Plain :=
  ⟨fun _ hm => absurd hm List.not_mem_nil, ofDeclarations_nil⟩

/-- A tree applies a name to a text. -/
def isCallWith (text : String) : Term → Bool
  | .apply (.identifier _) [.string argument] => argument = text
  | _ => false

theorem textsPlain_of_isCallWith {text : String} (htext : Text.IsPlain text) {t : Term}
    (h : isCallWith text t) : t.TextsPlain := by
  unfold isCallWith at h
  split at h
  · obtain rfl := of_decide_eq_true h
    refine .intro trivial fun part hm => ?_
    rcases List.mem_cons.1 hm with rfl | hm
    · exact .leaf rfl trivial
    · obtain rfl := List.mem_singleton.1 hm
      exact .leaf rfl htext
  · cases h

/-- Every line of a session is answered, with every error of an evaluation reported,
up to an interrupt, a line for the end or the end of the input; nothing else ends a
session but a path that the host refuses. And this does not happen if no text in a
line or in a readable file holds a NUL character. -/
theorem goes_on (settings : Settings) (hnesting : settings.nesting.isOk) (inputs : List Input) :
    ∃ answers last, transcript settings initial inputs = answers ++ [last] ∧
      (∀ reply ∈ answers, Handled reply) ∧
      (last.next = .stop ∧ answers.length = (inputs.takeWhile (!·.breaksOff)).length ∨
        last.next = .crash ∧ last.fault = some .refusedPath ∧
          answers.length < (inputs.takeWhile (!·.breaksOff)).length) ∧
      (settings.files.IsPlain → (∀ text, .line text ∈ inputs → LinePlain text) →
        last.next = .stop) := by
  obtain ⟨limit, hlimit⟩ : ∃ limit, settings.nesting = .ok limit := by
    cases hn : settings.nesting with
    | ok limit => exact ⟨limit, rfl⟩
    | error fault =>
        rw [hn] at hnesting
        cases hnesting
  obtain ⟨answers, last, heq, hall, hlast⟩ := transcript_answers hlimit initial inputs
  refine ⟨answers, last, heq, hall, hlast, fun hfiles hlines => ?_⟩
  have hcrash : ∀ reply ∈ transcript settings initial inputs, reply.next ≠ .crash := by
    refine transcript_all nofun plain_initial fun session text hsession hm => ?_
    have hline := hlines text hm
    exact ⟨(answered_step settings session text).not_crash hlimit hfiles hsession hline,
      hsession.step hline⟩
  have hmem : last ∈ transcript settings initial inputs :=
    heq ▸ List.mem_append_right answers List.mem_cons_self
  exact (hlast.resolve_right fun h => hcrash last hmem h.1).1

/-- A file that is not there and a line that is nothing are answered, and the line
for the end is the last one that is read. -/
theorem goes_on_missing :
    let settings : Settings := { files := .ofVisits [], nesting := .ok 10 }
    let inputs : List Input :=
      [.line "read_file \"a\"", .line "1 +", .line "exit.", .line ":help"]
    ∃ answers last, transcript settings initial inputs = answers ++ [last] ∧
      (∀ reply ∈ answers, Handled reply) ∧ last.next = .stop := by
  intro settings inputs
  have hread : (Syntax.parseExpression "read_file \"a\"").toOption.any (isCallWith "a") := by
    decide +kernel
  obtain ⟨t, hsome, hcall⟩ := (Option.any_eq_true ..).1 hread
  obtain ⟨answers, last, heq, hall, -, hstop⟩ := goes_on settings rfl inputs
  refine ⟨answers, last, heq, hall, hstop (fun _ _ hread => nomatch hread) fun text hm => ?_⟩
  simp only [inputs, List.mem_cons, Input.line.injEq, List.not_mem_nil, or_false] at hm
  rcases hm with rfl | rfl | rfl | rfl
  · exact .of_expression (toOption_eq_some.1 hsome)
      (textsPlain_of_isCallWith (by decide) hcall) (by decide +kernel)
  · exact .of_none (by decide +kernel) (by decide +kernel)
  · exact .of_none (by decide +kernel) (by decide +kernel)
  · exact .of_none (by decide +kernel) (by decide +kernel)

/-- No line is read behind one that asks for a path with a NUL character. -/
theorem nul_ends_session :
    let settings : Settings := { files := .ofVisits [], nesting := .ok 10 }
    let inputs : List Input := [.line "read_file \"a\\0b\"", .line "1 + 2"]
    (∀ input ∈ inputs, input.breaksOff = false) ∧
      (transcript settings initial inputs).map (·.next) = [.crash] := by
  decide +kernel

end Fern.Session
