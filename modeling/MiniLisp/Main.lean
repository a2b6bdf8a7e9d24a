import MiniLisp.Program

/-! Input is read byte by byte, since it need not be valid Unicode. A file is looked for on disk
when an evaluation stops because the machine has no such file; then the same line runs again from
the state before it, of which nothing was shown. -/
namespace MiniLisp

namespace Main

def steps : Nat := 1000000000000000000

def put (stream : IO.FS.Stream) (t : Text) : IO Unit := do
  stream.write t
  stream.flush

/-- A line without its newline, none at the end of the input. -/
partial def getLine (stream : IO.FS.Stream) (read : Text) : IO (Option Text) := do
  let next ← stream.read 1
  if h : 0 < next.size then
    if next[0] = Byte.newline then pure (some read) else getLine stream (read.push next[0])
  else pure (if read.isEmpty then none else some read)

def fetch (path : Text) : IO (Option Text) := do
  match String.fromUTF8? path.untilNul with
  | none => pure none
  | some name =>
    try
      pure (some (← IO.FS.readBinFile name))
    catch _ => pure none

/-- Gives the machine the file whose absence ended an evaluation, if that is what ended it and
the file exists. -/
def supply (m : Machine) : Option Halt → IO (Option Machine)
  | some (.error (.cannotOpen path)) => do
    match Path.target? path, ← fetch path with
    | some name, some contents =>
      if m.files.contains name then pure none
      else pure (some { m with files := m.files.insert name contents })
    | _, _ => pure none
  | _ => pure none

/-- Feeds a line, again for every file it turns out to need. -/
partial def feed (line : Text) (r : Repl) : IO (Reply × Repl) := do
  let (reply, next) := r.feed steps line
  match ← supply r.machine reply.halted with
  | some m => feed line { r with machine := m }
  | none => pure (reply, { next with machine := { next.machine with files := [] } })

partial def interact (stdin stdout stderr : IO.FS.Stream) (r : Repl) : IO Unit := do
  put stdout r.prompt
  match ← getLine stdin .empty with
  | none => put stdout (ascii "\n")
  | some line =>
    if r.isQuit line then pure ()
    else
      let (reply, next) ← feed line r
      put stdout reply.output
      put stderr reply.errors
      interact stdin stdout stderr next

/-- Starts the program, again for every file its script turns out to need. -/
partial def start (arguments : List Text) (m : Machine) :
    IO (Except Halt Session × Machine) := do
  let (result, next) := (Program.start steps arguments).run.run m
  let halted := match result with
    | .error h => some h
    | .ok _ => none
  match ← supply m halted with
  | some m => start arguments m
  | none => pure (result, next)

end Main

end MiniLisp

open MiniLisp

def main (arguments : List String) : IO UInt32 := do
  let stdout ← IO.getStdout
  let stderr ← IO.getStderr
  let trace ← IO.getEnv "LUMEN_TRACE"
  let arguments := arguments.map String.toUTF8
  let trace := trace.map String.toUTF8
  let (result, m) ← Main.start arguments (Program.machine trace [])
  let (output, errors, m) := m.drain
  Main.put stdout output
  Main.put stderr errors
  match result with
  | .error h =>
    Main.put stderr h.report
    return 1
  | .ok session =>
    if arguments.isEmpty then
      Main.interact (← IO.getStdin) stdout stderr ⟨{ m with files := [] }, session, none⟩
    return 0
