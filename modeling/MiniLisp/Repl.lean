import MiniLisp.Session

/-! Input comes line by line, and where a line leaves a form open, reading goes on in the next one.
An error saying that a text stopped early keeps the text and asks for more, also when it comes out
of an evaluation; the forms before it then run once more. -/
namespace MiniLisp

structure Repl where
  machine : Machine
  session : Session
  /-- What was read of a text that waits for more lines, if one does. -/
  pending : Option Reader.State

structure Reply where
  output : Text
  errors : Text
  halted : Option Halt

namespace Repl

def prompt (r : Repl) : Text := if r.pending.isNone then ascii "user> " else ascii "...   "

def quitCommands : List Text := [ascii ":q", ascii ":quit", ascii ":exit"]

/-- A command to leave counts only where a form could begin. -/
def isQuit (r : Repl) (line : Text) : Bool := r.pending.isNone && quitCommands.contains line

def runForms (fuel : Nat) (forms : List Value) (scope : Scope) : EvalM Unit :=
  forms.forM fun e => do
    let v ← eval fuel e scope
    let text ← EvalM.readable v
    modify (·.write (text.push Byte.newline))

def runRead (fuel : Nat) (s : Reader.State) (scope : Scope) : EvalM Unit :=
  match s.finish with
  | .error e => EvalM.fail (.read e)
  | .ok forms => runForms fuel forms scope

end Repl

namespace Halt

def message : Halt → Text
  | error e => e.message
  | outOfFuel => ascii "evaluation did not end in the steps granted to it"

def report (h : Halt) : Text := ascii "Error: " ++ h.message ++ ascii "\n"

def wantsMore : Halt → Bool
  | error e => e.incomplete
  | outOfFuel => false

end Halt

def Machine.drain (m : Machine) : Text × Text × Machine :=
  match m.sink with
  | some (.stream log) =>
    (m.output, log.text, { m with output := .empty, sink := some (.stream log.clear) })
  | _ => (m.output, .empty, { m with output := .empty })

structure Transcript where
  output : Text
  errors : Text
  deriving DecidableEq, Repr

namespace Transcript

def empty : Transcript := ⟨.empty, .empty⟩

def add (t : Transcript) (output errors : Text) : Transcript :=
  ⟨t.output ++ output, t.errors ++ errors⟩

end Transcript

namespace Repl

def feed (fuel : Nat) (line : Text) : Repl → Reply × Repl
  | ⟨machine, session, pending⟩ =>
    match (pending.getD .start).readOn (line.push Byte.newline) with
    | .error e =>
      let h := Halt.error (.read e)
      (⟨.empty, h.report, some h⟩, ⟨machine, session, none⟩)
    | .ok read =>
      let (result, m) := (runRead fuel read session.global).run.run machine
      let (output, trace, m) := m.drain
      match result with
      | .ok _ => (⟨output, trace, none⟩, ⟨m, session, none⟩)
      | .error h =>
        if h.wantsMore then (⟨output, trace, some h⟩, ⟨m, session, some read⟩)
        else (⟨output, trace ++ h.report, some h⟩, ⟨m, session, none⟩)

/-- Takes the lines of the input. A prompt is written before each, and where the input ends a
newline behind the last prompt. -/
def run (fuel : Nat) : List Text → Repl → Transcript → Transcript
  | [], r, t => t.add (r.prompt.push Byte.newline) .empty
  | line :: lines, r, t =>
    let t := t.add r.prompt .empty
    if r.isQuit line then t
    else
      let (reply, next) := r.feed fuel line
      run fuel lines next (t.add reply.output reply.errors)

end Repl

end MiniLisp
