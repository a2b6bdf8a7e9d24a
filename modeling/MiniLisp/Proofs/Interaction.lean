import MiniLisp.Program

/-! Once a text is complete and evaluated its lines are gone, with one exception: an evaluation that
itself ends in the error of a text which stopped early. Its lines are kept, although nothing was
missing, and evaluated again with the next line. -/
namespace MiniLisp

def Text.ofLines (lines : List Text) : Text :=
  lines.foldl (fun t line => t ++ line.push Byte.newline) .empty

theorem Text.ofLines_append (lines : List Text) (line : Text) :
    ofLines (lines ++ [line]) = ofLines lines ++ line.push Byte.newline := by
  rw [ofLines, List.foldl_append]
  rfl

structure Interaction where
  repl : Repl
  transcript : Transcript
  kept : List Text

namespace Interaction

def opening (machine : Machine) (session : Session) (t : Transcript) : Interaction :=
  ⟨⟨machine, session, none⟩, t, []⟩

def take (fuel : Nat) (i : Interaction) (line : Text) : Interaction :=
  let (reply, next) := i.repl.feed fuel line
  ⟨next, (i.transcript.add i.repl.prompt .empty).add reply.output reply.errors,
    if next.pending.isNone then [] else i.kept ++ [line]⟩

/-- Lines that the loop takes one after the other, none of them a command to leave. -/
inductive Takes (fuel : Nat) : Interaction → List Text → Interaction → Prop where
  | nothing (i : Interaction) : Takes fuel i [] i
  | line {i j : Interaction} {line : Text} {lines : List Text} : i.repl.isQuit line = false →
      Takes fuel (i.take fuel line) lines j → Takes fuel i (line :: lines) j

variable {fuel : Nat} {i j : Interaction} {line : Text} {lines : List Text}

/-- From there the loop goes on as from anywhere. -/
theorem Takes.run (h : Takes fuel i lines j) (rest : List Text) :
    Repl.run fuel (lines ++ rest) i.repl i.transcript = Repl.run fuel rest j.repl j.transcript := by
  induction h with
  | nothing => rfl
  | line stays _ ih =>
    rw [← ih, List.cons_append, Repl.run, stays]
    rfl

/-- The lines kept are those of the text that was read so far. -/
structure Faithful (i : Interaction) : Prop where
  reads : Reader.State.start.readOn (Text.ofLines i.kept) = .ok (i.repl.pending.getD .start)
  idle : i.kept = [] ↔ i.repl.pending = none

theorem faithful_opening (machine : Machine) (session : Session) (t : Transcript) :
    (opening machine session t).Faithful := ⟨rfl, iff_of_true rfl rfl⟩

theorem Faithful.readOn_line (h : i.Faithful) (line : Text) :
    Reader.State.start.readOn (Text.ofLines (i.kept ++ [line])) =
      (i.repl.pending.getD .start).readOn (line.push Byte.newline) := by
  rw [Text.ofLines_append, Reader.State.readOn_append, h.reads]
  rfl

def endsEarly : Except Halt Unit → Bool
  | .ok _ => false
  | .error h => h.wantsMore

theorem feed_of_fault {r : Repl} {e : ReadError}
    (h : (r.pending.getD .start).readOn (line.push Byte.newline) = .error e) :
    (r.feed fuel line).2 = ⟨r.machine, r.session, none⟩ := by
  rw [Repl.feed, h]

/-- A text that reads is kept if its evaluation ends early, and only then. -/
theorem feed_of_read {r : Repl} {s : Reader.State} (fuel : Nat)
    (h : (r.pending.getD .start).readOn (line.push Byte.newline) = .ok s) :
    ∃ m, (r.feed fuel line).2 = ⟨m, r.session,
      if endsEarly ((Repl.runRead fuel s r.session.global).run.run r.machine).1 then some s
      else none⟩ := by
  rw [Repl.feed, h]
  generalize hrun : (Repl.runRead fuel s r.session.global).run.run r.machine = run
  obtain ⟨result, m⟩ := run
  refine ⟨m.drain.2.2, ?_⟩
  cases result with
  | ok => simp [hrun, endsEarly]
  | error h =>
    cases more : h.wantsMore with
    | true => simp [hrun, endsEarly, more]
    | false => simp [hrun, endsEarly, more]

theorem session_feed (r : Repl) (line : Text) : (r.feed fuel line).2.session = r.session := by
  cases read : (r.pending.getD .start).readOn (line.push Byte.newline) with
  | error e => rw [feed_of_fault read]
  | ok s =>
    obtain ⟨m, next⟩ := feed_of_read fuel read
    rw [next]

theorem take_kept (i : Interaction) (line : Text) : (i.take fuel line).kept =
    if (i.take fuel line).repl.pending.isNone then [] else i.kept ++ [line] := rfl

theorem faithful_of_idle (h : (i.take fuel line).repl.pending = none) :
    (i.take fuel line).Faithful := by
  have kept : (i.take fuel line).kept = [] := by rw [take_kept, h]; rfl
  exact ⟨by rw [kept, h]; rfl, iff_of_true kept h⟩

theorem take_preserves_faithful (h : i.Faithful) (line : Text) : (i.take fuel line).Faithful := by
  cases read : (i.repl.pending.getD .start).readOn (line.push Byte.newline) with
  | error e => exact faithful_of_idle (congrArg Repl.pending (feed_of_fault read))
  | ok s =>
    obtain ⟨m, next⟩ := feed_of_read fuel read
    have pending : (i.take fuel line).repl.pending = _ := congrArg Repl.pending next
    split at pending
    · have kept : (i.take fuel line).kept = i.kept ++ [line] := by rw [take_kept, pending]; rfl
      refine ⟨?_, iff_of_false ?_ ?_⟩
      · rw [kept, h.readOn_line, read, pending]
        rfl
      · simp [kept]
      · simp [pending]
    · exact faithful_of_idle pending

theorem Takes.faithful (h : Takes fuel i lines j) (start : i.Faithful) : j.Faithful := by
  induction h with
  | nothing => exact start
  | line _ _ ih => exact ih (take_preserves_faithful start _)

theorem Takes.session (h : Takes fuel i lines j) : j.repl.session = i.repl.session := by
  induction h with
  | nothing => rfl
  | line _ _ ih => exact ih.trans (session_feed _ _)

/-- The lines kept are the last ones taken. -/
theorem Takes.kept_suffix (h : Takes fuel i lines j) : j.kept <:+ i.kept ++ lines := by
  induction h with
  | nothing i => simp
  | @line i j line lines _ _ ih =>
    refine ih.trans ?_
    rw [take_kept]
    split
    · exact (List.suffix_cons line lines).trans (List.suffix_append _ _)
    · simp

/-- A complete text is evaluated. Its lines are gone at the next prompt exactly if the evaluation
did not end in the error of a text that stopped early. -/
theorem Faithful.pending_take (h : i.Faithful) {forms : List Value}
    (complete : readAll (Text.ofLines (i.kept ++ [line])) = .ok forms) :
    (i.take fuel line).repl.pending = none ↔
      endsEarly ((Repl.runForms fuel forms i.repl.session.global).run.run
        i.repl.machine).1 = false := by
  rw [readAll, h.readOn_line] at complete
  cases read : (i.repl.pending.getD .start).readOn (line.push Byte.newline) with
  | error e =>
    rw [read] at complete
    cases complete
  | ok s =>
    have finished : s.finish = .ok forms := by rwa [read] at complete
    have run : Repl.runRead fuel s i.repl.session.global =
        Repl.runForms fuel forms i.repl.session.global := by rw [Repl.runRead, finished]
    obtain ⟨m, next⟩ := feed_of_read fuel read
    have pending : (i.take fuel line).repl.pending = _ := congrArg Repl.pending next
    rw [pending, run]
    split
    · rename_i early
      simp [early]
    · rename_i done
      simp [Bool.not_eq_true _ ▸ done]

theorem isQuit_of_idle (h : i.repl.pending = none) (quit : line ∈ Repl.quitCommands) :
    i.repl.isQuit line = true := by
  rw [Repl.isQuit, h]
  simp only [Repl.quitCommands, List.mem_cons, List.not_mem_nil, or_false] at quit
  rcases quit with rfl | rfl | rfl <;> decide

end Interaction

open Interaction in
/-- Whatever the input, the lines of a complete text are gone at the next prompt exactly if no form
of the text raises the error of a text that stopped early. Then the loop asks for a new text, it
can be left, and no later line makes it read those lines again. -/
theorem complete_texts_are_evaluated_once {fuel : Nat} {machine : Machine} {session : Session}
    {t : Transcript} {before : List Text} {line : Text} {now : Interaction} {forms : List Value}
    (taken : Takes fuel (opening machine session t) before now)
    (stays : now.repl.isQuit line = false)
    (complete : readAll (Text.ofLines (now.kept ++ [line])) = .ok forms) :
    let next := now.take fuel line
    let result := ((Repl.runForms fuel forms session.global).run.run now.repl.machine).1
    (∀ rest, Repl.run fuel (before ++ line :: rest) ⟨machine, session, none⟩ t =
      Repl.run fuel rest next.repl next.transcript) ∧
    (next.kept = [] ↔ ∀ h, result = .error h → h.wantsMore = false) ∧
    (next.kept = [] → next.repl.prompt = ascii "user> " ∧
      (∀ quit ∈ Repl.quitCommands, ∀ rest, Repl.run fuel (quit :: rest) next.repl next.transcript =
        next.transcript.add (ascii "user> ") .empty) ∧
      ∀ later after, Takes fuel next later after → after.kept <:+ later) := by
  intro next result
  have faithful : now.Faithful := taken.faithful (faithful_opening machine session t)
  have idle : next.kept = [] ↔ next.repl.pending = none :=
    (take_preserves_faithful faithful line).idle
  have same_session : now.repl.session = session := taken.session
  refine ⟨fun rest => ?_, ?_, fun gone => ?_⟩
  · rw [← (Takes.line stays (.nothing next)).run rest]
    exact taken.run (line :: rest)
  · rw [idle, faithful.pending_take complete, same_session]
    show endsEarly result = false ↔ _
    cases result with
    | ok => simp [endsEarly]
    | error h => simp [endsEarly]
  · have pending := idle.mp gone
    have prompt : next.repl.prompt = ascii "user> " := by rw [Repl.prompt, pending]; rfl
    refine ⟨prompt, fun quit hquit rest => ?_, fun later after h => ?_⟩
    · rw [Repl.run, isQuit_of_idle pending hquit, if_pos rfl, prompt]
    · simpa [gone] using h.kept_suffix

def Program.opened? (fuel : Nat) : Option (Session × Machine) :=
  match (start fuel []).run.run (machine none []) with
  | (.ok session, m) => some (session, m)
  | (.error _, _) => none

open Interaction in
/-- The second of these two lines completes a text whose evaluation ends in a fault of the text
`)`. That fault is definite, so the two lines are gone. -/
theorem definite_fault_ends_a_text : ∃ session machine,
    Program.opened? 100 = some (session, machine) ∧
    let line := ascii "(read-string \")\"))"
    let now := (opening machine session .empty).take 100 (ascii "(do (prn 1)")
    let next := now.take 100 line
    (readAll (Text.ofLines (now.kept ++ [line]))).isOk = true ∧
    next.kept = [] ∧ next.repl.prompt = ascii "user> " ∧
    next.transcript = ⟨ascii "user> ...   1\n",
      ascii "Error: line 1, column 2: unexpected ')'\n"⟩ := by
  have facts : (Program.opened? 100).any (fun (session, machine) =>
      let line := ascii "(read-string \")\"))"
      let now := (opening machine session .empty).take 100 (ascii "(do (prn 1)")
      !(opening machine session .empty).repl.isQuit (ascii "(do (prn 1)") &&
      !now.repl.isQuit line &&
      (match readAll (Text.ofLines (now.kept ++ [line])) with
        | .ok forms => !endsEarly
            ((Repl.runForms 100 forms session.global).run.run now.repl.machine).1
        | .error _ => false) &&
      (now.take 100 line).transcript = ⟨ascii "user> ...   1\n",
        ascii "Error: line 1, column 2: unexpected ')'\n"⟩) = true := by
    decide +kernel
  rw [Option.any_eq_true] at facts
  obtain ⟨⟨session, machine⟩, opened, facts⟩ := facts
  simp only [Bool.and_eq_true, Bool.not_eq_true', decide_eq_true_eq] at facts
  obtain ⟨⟨⟨first, second⟩, evaluated⟩, written⟩ := facts
  split at evaluated
  · rename_i forms complete
    obtain ⟨_, gone, next⟩ :=
      complete_texts_are_evaluated_once (.line first (.nothing _)) second complete
    have kept := gone.mpr fun h halted => by
      rw [halted] at evaluated
      simpa [endsEarly] using evaluated
    exact ⟨session, machine, opened, by rw [complete]; rfl, kept, (next kept).1, written⟩
  · cases evaluated

/-- The text `(prn 1) (read-string "(")` is complete, and yet its line is kept. The next line makes
the loop print once more. -/
theorem complete_text_is_evaluated_twice :
    let line := ascii "(prn 1) (read-string \"(\")"
    (readAll (Text.ofLines [line])).isOk = true ∧
    Program.run 100 ⟨[], Text.ofLines [line, ascii "2"], none, []⟩ =
      ⟨⟨ascii "user> 1\nnil\n...   1\nnil\n...   \n", .empty⟩, 0⟩ := by
  decide +kernel

end MiniLisp
