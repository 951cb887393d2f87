import Fern.Proofs.FromText
import Fern.Proofs.JoinedText
import Fern.Session

/-!
# A session is a script

What a session has learned from its lines is what a script of the accepted ones would say. A line
is accepted when it is one of declarations and these can be resolved with all that were accepted
before; it joins the session as a whole, and any other line leaves the session alone. So at every
moment the declarations of the session are those of the accepted lines joined by line feeds, its
program is the one that they stand for, and an expression is answered as on top of that program.
-/

namespace Fern.Session

/-- A line holds declarations that can be resolved together with those of a session. -/
def accepts (session : Session) (line : String) : Bool :=
  Request.ofLine line = .declare &&
    match Syntax.parseProgram line with
    | .error _ => false
    | .ok decls => (Program.ofDeclarations (session.declarations ++ decls)).isOk

/-- The session after some lines. -/
def after (settings : Settings) (session : Session) : List String → Session
  | [] => session
  | line :: rest => after settings (step settings session line).1 rest

/-- The lines that are accepted among some, in their order. -/
def accepted (settings : Settings) (session : Session) : List String → List String
  | [] => []
  | line :: rest =>
    let others := accepted settings (step settings session line).1 rest
    if session.accepts line then line :: others else others

/-- A session has the declarations of some texts joined by line feeds, and their program. -/
structure StandsFor (session : Session) (texts : List String) : Prop where
  read : Syntax.parseProgram ("\n".intercalate texts) = .ok session.declarations
  resolved : Program.ofDeclarations session.declarations = .ok session.program

section Steps

variable {settings : Settings} {session : Session} {line : String} {texts : List String}

theorem accepts_eq_true : session.accepts line = true ↔ Request.ofLine line = .declare ∧
    ∃ decls program, Syntax.parseProgram line = .ok decls ∧
      Program.ofDeclarations (session.declarations ++ decls) = .ok program := by
  unfold accepts
  rw [Bool.and_eq_true, decide_eq_true_eq]
  refine and_congr_right fun _ => ?_
  cases hread : Syntax.parseProgram line with
  | error fault => simp
  | ok decls =>
      cases hdecls : Program.ofDeclarations (session.declarations ++ decls) with
      | error error => simp [hdecls, Except.isOk, Except.toBool]
      | ok program => simp [hdecls, Except.isOk, Except.toBool]

theorem standsFor_initial : StandsFor initial [] := ⟨Syntax.parseProgram_empty, ofDeclarations_nil⟩

/-- An accepted line joins what the session stands for. -/
theorem StandsFor.step (h : session.StandsFor texts) (ha : session.accepts line = true) :
    (step settings session line).1.StandsFor (texts ++ [line]) := by
  obtain ⟨hrequest, decls, program, hread, hdecls⟩ := accepts_eq_true.1 ha
  have hstep :
      (Session.step settings session line).1 = ⟨session.declarations ++ decls, program⟩ := by
    simp only [Session.step, hrequest, declare, hread, hdecls]
  rw [hstep]
  exact ⟨Syntax.parseProgram_intercalate_concat h.read hread, hdecls⟩

/-- Any other line leaves the session as it was. -/
theorem step_of_not_accepts (ha : session.accepts line = false) :
    (Session.step settings session line).1 = session := by
  unfold Session.step
  split
  case h_6 hrequest =>
      unfold declare
      split
      · rfl
      · next decls hread =>
        simp only
        split
        · rfl
        · next program hdecls =>
          rw [accepts_eq_true.2 ⟨hrequest, decls, program, hread, hdecls⟩] at ha
          cases ha
  all_goals rfl

theorem StandsFor.after (h : session.StandsFor texts) (lines : List String) :
    (after settings session lines).StandsFor (texts ++ accepted settings session lines) := by
  induction lines generalizing session texts with
  | nil =>
      rw [accepted, List.append_nil]
      exact h
  | cons line rest ih =>
      rw [Session.after, accepted]
      cases ha : session.accepts line with
      | true =>
          rw [if_pos rfl, List.append_cons]
          exact ih (h.step ha)
      | false =>
          rw [step_of_not_accepts ha, if_neg Bool.false_ne_true]
          exact ih h

/-- What is written in answer to a line goes by the session after the lines before it. -/
theorem transcript_answer {lines : List String} {rest : List Input} {reply : Reply}
    (h : (transcript settings session (lines.map .line ++ .line line :: rest))[lines.length]? =
      some reply) :
    reply = (Session.step settings (after settings session lines) line).2 := by
  induction lines generalizing session with
  | nil =>
      rw [List.map_nil, List.nil_append, transcript] at h
      exact (Option.some.inj h).symm
  | cons first lines ih =>
      rw [List.map_cons, List.cons_append, transcript, List.length_cons,
        List.getElem?_cons_succ] at h
      split at h
      · exact ih h
      · cases h

end Steps

/-- Whatever lines a session has read, it is the script of those it has accepted. -/
theorem refines_script (settings : Settings) (lines : List String) :
    let session := after settings initial lines
    let script := "\n".intercalate (accepted settings initial lines)
    Syntax.parseProgram script = .ok session.declarations ∧
      Program.ofDeclarations session.declarations = .ok session.program ∧
      (∀ line, session.accepts line = false → (step settings session line).1 = session) ∧
      ∀ line rest reply, Request.ofLine line = .evaluate →
        (transcript settings initial (lines.map .line ++ .line line :: rest))[lines.length]? =
          some reply →
        ∃ program, Program.ofText? script = some program ∧
          reply = evaluate settings program line := by
  intro session script
  have h : session.StandsFor (accepted settings initial lines) := standsFor_initial.after lines
  refine ⟨h.read, h.resolved, fun line ha => step_of_not_accepts ha, ?_⟩
  intro line rest reply hrequest hreply
  refine ⟨session.program, ?_, ?_⟩
  · exact Option.bind_eq_some_iff.2
      ⟨session.declarations, toOption_eq_some.2 h.read, toOption_eq_some.2 h.resolved⟩
  · rw [transcript_answer hreply, step, hrequest]

/-- Of the lines before the last the second one names what is not there and the third one is a
command, so the last one is answered on top of what the first one declares. -/
theorem refines_script_double :
    let settings : Settings := { files := .ofVisits [], nesting := .ok 10 }
    let lines := ["double x = x * 2.", "twice x = y.", ":types"]
    accepted settings initial lines = ["double x = x * 2."] ∧
      ∃ program reply, Program.ofText? "double x = x * 2." = some program ∧
        (transcript settings initial (lines.map .line ++ [.line "double 4"]))[3]? = some reply ∧
        reply = evaluate settings program "double 4" ∧ reply.output = "=> 8\n" := by
  intro settings lines
  have haccepted : accepted settings initial lines = ["double x = x * 2."] := by decide +kernel
  have hreply : ((transcript settings initial (lines.map .line ++ [.line "double 4"]))[3]?).any
      (·.output = "=> 8\n") := by
    decide +kernel
  obtain ⟨reply, hreply, houtput⟩ := exists_of_any hreply
  obtain ⟨-, -, -, hanswer⟩ := refines_script settings lines
  obtain ⟨program, hprogram, hsame⟩ := hanswer "double 4" [] reply (by decide) hreply
  rw [haccepted, String.intercalate_singleton] at hprogram
  exact ⟨haccepted, program, reply, hprogram, hreply, hsame, of_decide_eq_true houtput⟩

end Fern.Session
