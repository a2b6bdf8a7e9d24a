import MiniLisp.Repl

/-! Without arguments the program is the interactive loop. With arguments it loads the first one as
a file, and the others are the arguments of that script. -/
namespace MiniLisp

structure Invocation where
  arguments : List Text
  input : Text
  /-- The setting that asks for a trace on the error stream. -/
  trace : Option Text
  files : Assoc Text Text

/-- The arguments a program gets. What follows a zero byte in one is lost. -/
def Invocation.words (i : Invocation) : List Text := i.arguments.map Text.untilNul

structure Outcome extends Transcript where
  code : Nat
  deriving DecidableEq, Repr

/-- A trace is asked for by any setting but the empty one and `0`. The setting ends before its
first zero byte. -/
def traceRequested : Option Text → Bool
  | none => false
  | some t => !t.untilNul.isEmpty && t.untilNul ≠ ascii "0"

namespace Program

def machine (trace : Option Text) (files : Assoc Text Text) : Machine :=
  { Machine.empty with
    sink := if traceRequested trace then some (.stream .empty) else none
    files := files }

def scriptForm (path : Text) : Value := .list #[.sym (ascii "load-file"), .str path]

def start (fuel : Nat) (arguments : List Text) : EvalM Session := do
  let session ← makeSession fuel { Config.plain with arguments := arguments.drop 1 }
  match arguments with
  | [] => pure ()
  | path :: _ => discard (eval fuel (scriptForm path) session.global)
  pure session

def run (fuel : Nat) (i : Invocation) : Outcome :=
  let (result, m) := (start fuel i.words).run.run (machine i.trace i.files)
  let (output, trace, m) := m.drain
  match result with
  | .error h => ⟨⟨output, trace ++ h.report⟩, 1⟩
  | .ok session =>
    if i.words = [] then ⟨Repl.run fuel i.input.lines ⟨m, session, none⟩ ⟨output, trace⟩, 0⟩
    else ⟨⟨output, trace⟩, 0⟩

end Program

end MiniLisp
