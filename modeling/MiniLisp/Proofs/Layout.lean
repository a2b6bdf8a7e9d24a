import MiniLisp.Proofs.Echoes
import MiniLisp.Proofs.Interaction
import MiniLisp.Proofs.Lines
import MiniLisp.Proofs.Scripts
import MiniLisp.Proofs.Tracing

/-! The loop evaluates its input as soon as a line ends at which nothing is lacking. Where the lines
end decides which prompts are written, and nothing else. -/
namespace MiniLisp

instance : LawfulBEq Text where
  eq_of_beq {a b} h := by
    cases a
    cases b
    exact congrArg ByteArray.mk (beq_iff_eq.mp h)
  rfl {a} := by
    cases a
    exact beq_self_eq_true (α := Array UInt8) _

theorem Text.ofLines_cons (line : Text) (lines : List Text) :
    ofLines (line :: lines) = line.push Byte.newline ++ ofLines lines := by
  have behind (done : Text) : lines.foldl (fun t line => t ++ line.push Byte.newline) done =
      done ++ ofLines lines := by
    induction lines generalizing done with
    | nil => rw [ofLines, List.foldl_nil, List.foldl_nil, ByteArray.append_empty]
    | cons line lines ih =>
      rw [List.foldl_cons, ih, ofLines.eq_1 (line :: lines), List.foldl_cons, ih,
        ByteArray.empty_append, ByteArray.append_assoc]
  rw [ofLines, List.foldl_cons, behind, ByteArray.empty_append]

/-- The lines make up the text again, with a newline behind the last one. -/
theorem Text.ofLines_lines (t : Text) :
    ofLines t.lines = t ∨ ofLines t.lines = t.push Byte.newline := by
  let next (acc : Text × List Text) (b : UInt8) : Text × List Text :=
    if b = Byte.newline then (.empty, acc.1 :: acc.2) else (acc.1.push b, acc.2)
  have split (bs : List UInt8) (acc : Text × List Text) :
      (ofLines (bs.foldl next acc).2.reverse ++ (bs.foldl next acc).1 : Text).bytes =
        (ofLines acc.2.reverse ++ acc.1 : Text).bytes ++ bs := by
    induction bs generalizing acc with
    | nil => simp
    | cons b bs ih =>
      rw [List.foldl_cons, ih]
      by_cases hb : b = Byte.newline
      · simp [next, hb, ofLines_append]
      · simp [next, hb]
  have whole := split t.bytes (.empty, [])
  rw [← fold_eq] at whole
  have lines : t.lines = (if (t.fold next (.empty, [])).1.isEmpty then (t.fold next (.empty, [])).2
      else (t.fold next (.empty, [])).1 :: (t.fold next (.empty, [])).2).reverse := rfl
  generalize t.fold next (.empty, []) = acc at whole lines
  obtain ⟨last, done⟩ := acc
  have same : ofLines done.reverse ++ last = t := Text.bytes_inj (by simpa [ofLines] using whole)
  rw [lines]
  by_cases none : last.isEmpty
  · have empty : last = .empty := by
      apply Text.bytes_inj
      simpa [ByteArray.isEmpty, ← Text.length_bytes] using none
    left
    rw [if_pos none, ← same, empty, ByteArray.append_empty]
  · right
    rw [if_neg none, List.reverse_cons, ofLines_append, ← same]
    apply Text.bytes_inj
    simp

namespace Reader.State

/-- A newline ends a text that lacks nothing as the end of the text does. -/
theorem finish_newline {s : State} {forms : List Value} (h : s.finish = .ok forms) :
    ∃ s', s.step Byte.newline = .ok s' ∧ s'.finish = .ok forms := by
  obtain ⟨position, mode, stack, done⟩ := s
  cases mode with
  | between | comment =>
    rcases stack with _ | ⟨_ | _, stack⟩
    · exact ⟨_, rfl, h⟩
    · cases h
    · cases h
  | token start bytes =>
    obtain ⟨⟨position', mode', stack', done'⟩, ended, last⟩ := ok_of_bind h
    have settled : settle ⟨position, .token start bytes, stack, done⟩ Byte.newline =
        .ok ⟨position', mode', stack', done'⟩ := ended
    have between : mode' = .between := by
      simp only [endToken] at ended
      split at ended
      · cases ended
        rfl
      · cases ended
    cases between
    rw [step, settled]
    rcases stack' with _ | ⟨_ | _, stack'⟩
    · exact ⟨_, rfl, last⟩
    · cases last
    · cases last
  | string bytes => cases h
  | escape bytes => cases h

end Reader.State

theorem readAll_newline {t : Text} {forms : List Value} (h : readAll t = .ok forms) :
    readAll (t.push Byte.newline) = .ok forms := by
  obtain ⟨s, read, finished⟩ := Reader.ok_of_bind h
  obtain ⟨s', stepped, finished'⟩ := s.finish_newline finished
  have both : Reader.State.start.readOn (t.push Byte.newline) = .ok s' := by
    rw [Reader.State.readOn, Text.bytes_push, List.foldlM_append]
    rw [Reader.State.readOn] at read
    rw [read]
    show (s.step Byte.newline >>= pure) = _
    rw [stepped]
    rfl
  rw [readAll, both]
  exact finished'

/-- What is read where reading began anew is read as a text of its own. -/
theorem readAll_of_below {t : Text} {n : Nat} {batch forms : List Value}
    (h : (Reader.State.start.below n batch.reverse).readOn t >>= Reader.State.finish = .ok forms) :
    ∃ more, readAll t = .ok more ∧ forms = batch ++ more := by
  have alone : Reader.lower n (batch ++ ·) (readAll t) = .ok forms := by
    rw [← h]
    refine (carry_bind (Reader.State.readOn_below _ _ .start t) fun last => ?_).symm
    rw [Reader.State.finish_below, List.reverse_reverse]
  cases read : readAll t with
  | error e =>
    rw [read] at alone
    cases alone
  | ok more =>
    rw [read] at alone
    exact ⟨more, rfl, (Except.ok.inj alone).symm⟩

theorem readAll_lines {t : Text} {forms : List Value} (h : readAll t = .ok forms) :
    readAll (Text.ofLines t.lines) = .ok forms := by
  rcases t.ofLines_lines with same | same
  · rw [same, h]
  · rw [same, readAll_newline h]

namespace Machine

theorem drain_silent {m : Machine} (silent : m.sink = none) :
    m.drain = (m.output, .empty, { m with output := .empty }) := by
  rw [drain, silent]

end Machine

namespace Repl

variable {fuel : Nat} {r : Repl} {line : Text}

def reads (r : Repl) (line : Text) : Except ReadError Reader.State :=
  (r.pending.getD .start).readOn (line.push Byte.newline)

/-- The forms that the loop evaluates when it takes a line: all that were read, if nothing is
lacking. -/
def batch (r : Repl) (line : Text) : List Value :=
  match r.reads line >>= Reader.State.finish with
  | .ok forms => forms
  | .error _ => []

theorem batch_of_forms {s : Reader.State} {forms : List Value} (read : r.reads line = .ok s)
    (finished : s.finish = .ok forms) : r.batch line = forms := by
  rw [batch, read]
  show (match s.finish with | .ok forms => forms | .error _ => []) = forms
  rw [finished]

theorem batch_of_unfinished {s : Reader.State} {e : ReadError} (read : r.reads line = .ok s)
    (lacking : s.finish = .error e) : r.batch line = [] := by
  rw [batch, read]
  show (match s.finish with | .ok forms => forms | .error _ => []) = []
  rw [lacking]

/-- A line that leaves something lacking only makes the loop ask for more. -/
theorem feed_of_unfinished {s : Reader.State} {e : ReadError} (silent : r.machine.sink = none)
    (clear : r.machine.output = .empty) (read : r.reads line = .ok s)
    (lacking : s.finish = .error e) (more : e.incomplete) :
    r.feed fuel line =
      (⟨.empty, .empty, some (.error (.read e))⟩, ⟨r.machine, r.session, some s⟩) := by
  obtain ⟨m, session, pending⟩ := r
  have run : (runRead fuel s session.global).run.run m = (.error (.error (.read e)), m) := by
    rw [runRead, lacking]
    rfl
  have drained : m.drain = (.empty, .empty, m) := by
    have same : ({ m with output := .empty } : Machine) = m := by rw [← clear]
    rw [Machine.drain_silent silent, clear, same]
  have wants : (Halt.error (.read e)).wantsMore = true := more
  have read : (pending.getD .start).readOn (line.push Byte.newline) = .ok s := read
  rw [feed, read]
  simp only [run, drained, wants, if_true]

/-- A line that completes forms makes the loop evaluate them. -/
theorem feed_of_forms {s : Reader.State} {forms : List Value} {m : Machine} {out : Text}
    (silent : m.sink = none) (read : r.reads line = .ok s) (finished : s.finish = .ok forms)
    (run : (runForms fuel forms r.session.global).exec r.machine =
      (.ok ⟨⟩, { m with output := out })) :
    r.feed fuel line = (⟨out, .empty, none⟩, ⟨{ m with output := .empty }, r.session, none⟩) := by
  obtain ⟨machine, session, pending⟩ := r
  have run : (runRead fuel s session.global).run.run machine =
      (.ok ⟨⟩, { m with output := out }) := by
    rw [runRead, finished]
    exact run
  have drained : Machine.drain { m with output := out } =
      (out, .empty, { m with output := .empty }) := Machine.drain_silent silent
  have read : (pending.getD .start).readOn (line.push Byte.newline) = .ok s := read
  rw [feed, read]
  simp only [run, drained]

theorem isQuit_of_not_mem (h : line ∉ quitCommands) : r.isQuit line = false := by
  have other : quitCommands.contains line = false := by
    rwa [← Bool.not_eq_true, List.contains_iff_mem]
  rw [isQuit, other, Bool.and_false]

end Repl

/-- What passes at one line: the prompt before it, the forms evaluated when it was taken, and the
texts written for them. -/
structure Exchange where
  prompt : Text
  forms : List Value
  written : List Text

def Exchange.shown (x : Exchange) : Text := x.prompt ++ Text.join x.written

/-- Lines that the loop takes one after the other, and what passes at each. None is a command to
leave, and nothing goes wrong. -/
inductive Exchanges (fuel : Nat) : Repl → List Text → List Exchange → Repl → Prop where
  | nothing (r : Repl) : Exchanges fuel r [] [] r
  | line {r next last : Repl} {line : Text} {lines : List Text} {reply : Reply}
      {written : List Text} {xs : List Exchange} :
      r.isQuit line = false → r.feed fuel line = (reply, next) → reply.errors = .empty →
      reply.output = Text.join written → Exchanges fuel next lines xs last →
      Exchanges fuel r (line :: lines) (⟨r.prompt, r.batch line, written⟩ :: xs) last

namespace Exchanges

variable {fuel : Nat} {r last : Repl} {lines : List Text} {xs : List Exchange}

theorem length_eq (h : Exchanges fuel r lines xs last) : xs.length = lines.length := by
  induction h with
  | nothing => rfl
  | line _ _ _ _ _ ih => rw [List.length_cons, List.length_cons, ih]

theorem prompts (h : Exchanges fuel r lines xs last) :
    ∀ x ∈ xs, x.prompt = ascii "user> " ∨ x.prompt = ascii "...   " := by
  induction h with
  | nothing => exact fun x hx => absurd hx List.not_mem_nil
  | @line r _ _ _ _ _ _ _ _ _ _ _ _ ih =>
    refine List.forall_mem_cons.mpr ⟨?_, ih⟩
    show r.prompt = _ ∨ r.prompt = _
    rw [Repl.prompt]
    split
    · exact .inl rfl
    · exact .inr rfl

/-- The exchanges are all that the loop shows, and then the prompt that the end of the input
answers. -/
theorem run (h : Exchanges fuel r lines xs last) (t : Transcript) :
    Repl.run fuel lines r t = t.add
      (Text.join (xs.map Exchange.shown) ++ last.prompt.push Byte.newline) .empty := by
  induction h generalizing t with
  | nothing r => rw [Repl.run, List.map_nil, Text.join, List.foldr_nil, ByteArray.empty_append]
  | @line r next last line lines reply written xs stays fed quiet output _ ih =>
    rw [Repl.run]
    simp only [stays, fed, Bool.false_eq_true, if_false]
    rw [ih, quiet, output]
    simp only [Transcript.add, List.map_cons, Exchange.shown, Text.join, List.foldr_cons,
      ByteArray.append_empty, ByteArray.append_assoc]

end Exchanges

/-- The lines still to come, with what was read of them already, have these forms. They evaluate
from the machine as it would be had nothing been taken out of it, and write these texts. -/
structure Repl.Expects (fuel : Nat) (r : Repl) (lines : List Text) (m : Machine)
    (forms vs : List Value) (texts : List Text) (m' : Machine) : Prop where
  reads : (r.pending.getD .start).readOn (Text.ofLines lines) >>= Reader.State.finish = .ok forms
  lacking : ∀ s, r.pending = some s → ∃ e, s.finish = .error e
  below : ∃ n, (r.pending.getD .start).position.line = 1 + n
  machine : r.machine = { m with output := .empty }
  silent : m.sink = none
  tidy : ∃ region, r.session.Tidy region m
  literal : r.session.Literal forms
  echoes : Echoes fuel r.session.global m forms vs texts m'

namespace Repl.Expects

variable {fuel : Nat} {r : Repl} {line : Text} {lines : List Text} {m m' : Machine}
  {forms vs : List Value} {texts : List Text}

/-- What is pending lacks something, so nothing is pending where the last line ended. -/
theorem ended (h : r.Expects fuel [] m forms vs texts m') :
    r = ⟨{ m' with output := .empty }, r.session, none⟩ ∧ forms = [] ∧ texts = [] := by
  obtain ⟨reads, lacking, -, machine, -, -, -, echoes⟩ := h
  obtain ⟨machine', session, pending⟩ := r
  cases pending with
  | some s =>
    obtain ⟨e, failed⟩ := lacking s rfl
    have finished : s.finish = .ok forms := reads
    rw [failed] at finished
    cases finished
  | none =>
    cases reads
    cases echoes
    cases machine
    exact ⟨rfl, rfl, rfl⟩

/-- One line is taken: either it completes the first of the forms to come, and they are evaluated,
or something is lacking, and nothing is. -/
theorem feed (h : r.Expects fuel (line :: lines) m forms vs texts m') :
    ∃ reply next mid forms' vs' written texts', r.feed fuel line = (reply, next) ∧
      reply.errors = .empty ∧ reply.output = Text.join written ∧ next.session = r.session ∧
      forms = r.batch line ++ forms' ∧ texts = written ++ texts' ∧
      next.Expects fuel lines mid forms' vs' texts' m' := by
  obtain ⟨reads, -, ⟨n, hn⟩, machine, silent, ⟨region, tidy⟩, literal, echoes⟩ := h
  rw [Text.ofLines_cons, Reader.State.readOn_append, bind_assoc] at reads
  obtain ⟨s, read, rest⟩ := Reader.ok_of_bind reads
  have ends : (Text.bytes (line.push Byte.newline)).getLast? = some Byte.newline := by simp
  obtain ⟨settled, position⟩ := Reader.State.settled_of_readOn ends read
  obtain ⟨k, hk⟩ : ∃ k, s.position = ⟨1 + k, 1⟩ := ⟨_, by rw [position, hn, Nat.add_assoc]⟩
  have read : r.reads line = .ok s := read
  rcases Reader.State.finish_of_settled settled with ⟨-, -, finished⟩ | ⟨e, failed, more⟩
  · rw [Reader.State.eq_below_of_finish settled hk finished] at rest
    obtain ⟨forms', behind, rfl⟩ := readAll_of_below rest
    obtain ⟨us, us', ts, ts', mid, rfl, rfl, first, second⟩ := echoes.split
    obtain ⟨tidy', silent', run⟩ := first.runForms tidy
      fun r v hv => literal r v (List.mem_append_left _ hv)
    have run := run .empty
    rw [← machine, ByteArray.empty_append] at run
    refine ⟨_, _, mid, forms', us', ts, ts', feed_of_forms (silent' silent) read finished run, rfl,
      rfl, rfl, ?_, rfl, ?_⟩
    · rw [batch_of_forms read finished]
    · exact {
        reads := behind
        lacking := fun _ h => nomatch h
        below := ⟨0, rfl⟩
        machine := rfl
        silent := silent' silent
        tidy := tidy'
        literal := fun r v hv => literal r v (List.mem_append_right _ hv)
        echoes := second }
  · have quiet : r.machine.sink = none := by rw [machine, ← silent]
    have clear : r.machine.output = .empty := by rw [machine]
    refine ⟨_, _, m, forms, vs, [], texts, feed_of_unfinished quiet clear read failed more, rfl,
      rfl, rfl, ?_, rfl, ?_⟩
    · rw [batch_of_unfinished read failed, List.nil_append]
    · exact {
        reads := rest
        lacking := fun s' same => ⟨e, Option.some.inj same ▸ failed⟩
        below := ⟨k, congrArg Position.line hk⟩
        machine := machine
        silent := silent
        tidy := ⟨region, tidy⟩
        literal := literal
        echoes := echoes }

/-- All lines are taken, and what was expected is evaluated and written. -/
theorem exchanges (h : r.Expects fuel lines m forms vs texts m')
    (stays : ∀ line ∈ lines, line ∉ quitCommands) :
    ∃ xs, Exchanges fuel r lines xs ⟨{ m' with output := .empty }, r.session, none⟩ ∧
      xs.flatMap Exchange.forms = forms ∧ xs.flatMap Exchange.written = texts := by
  induction lines generalizing r m forms vs texts with
  | nil =>
    obtain ⟨last, rfl, rfl⟩ := h.ended
    rw [← last]
    exact ⟨[], .nothing r, rfl, rfl⟩
  | cons line lines ih =>
    obtain ⟨here, others⟩ := List.forall_mem_cons.mp stays
    obtain ⟨reply, next, mid, forms', vs', written, texts', fed, quiet, output, session, rfl, rfl,
      expects⟩ := h.feed
    obtain ⟨xs, exchanges, hforms, hwritten⟩ := ih expects others
    rw [session] at exchanges
    refine ⟨_, .line (isQuit_of_not_mem here) fed quiet output exchanges, ?_, ?_⟩
    · rw [List.flatMap_cons, hforms]
    · rw [List.flatMap_cons, hwritten]

end Repl.Expects

/-- A program that was given nothing but input makes a session, and nothing is written before the
first prompt. -/
theorem Program.made {fuel : Nat} (enough : 2 ≤ fuel) (files : Assoc Text Text) :
    ∃ session m, (makeSession fuel .plain).exec (machine none files) = (.ok session, m) ∧
      (∃ r, session.Tidy r m) ∧ m.sink = none ∧ m.output = .empty := by
  obtain ⟨k, rfl⟩ := Nat.exists_eq_add_of_le' enough
  obtain ⟨session, m, -, output, -, concludes⟩ :=
    makeSession_concludes k .plain rfl (machine none files)
  obtain ⟨n, made, same⟩ := concludes _ rfl
  have made : (makeSession (k + 2) .plain).exec (.blank none files) = (.ok session, n) := made
  obtain ⟨tidy, silent⟩ := Session.tidy_of_made made
  have written : n.output = m.output := congrArg (fun m => m.output) same
  exact ⟨session, n, made, tidy, silent rfl, written.trans output⟩

theorem Program.run_input {fuel : Nat} {t : Text} {files : Assoc Text Text} {session : Session}
    {m : Machine} (made : (makeSession fuel .plain).exec (machine none files) = (.ok session, m))
    (silent : m.sink = none) (clear : m.output = .empty) :
    run fuel ⟨[], t, none, files⟩ = ⟨Repl.run fuel t.lines ⟨m, session, none⟩ .empty, 0⟩ := by
  have started : (start fuel []).run.run (machine none files) = (.ok session, m) := by
    exact EvalM.exec_bind_ok made _
  have drained : m.drain = (.empty, .empty, m) := by
    have same : ({ m with output := .empty } : Machine) = m := by rw [← clear]
    rw [Machine.drain_silent silent, clear, same]
  have words : Invocation.words ⟨[], t, none, files⟩ = [] := rfl
  rw [run]
  simp only [words, started, drained, if_true]
  rfl

/-- The forms of a text are evaluated in order, each once, and each is echoed with what it writes
and its value, wherever the lines of the text end. -/
theorem layout_does_not_matter {fuel : Nat} (enough : 2 ≤ fuel) (files : Assoc Text Text) :
    ∃ session m₀, (makeSession fuel .plain).exec (Program.machine none files) = (.ok session, m₀) ∧
      ∀ t₀ forms vs m', readAll t₀ = .ok forms →
        (forms.mapM fun e => eval fuel e session.global).exec m₀ = (.ok vs, m') →
        ∃ texts, Echoes fuel session.global m₀ forms vs texts m' ∧
          ∀ t : Text, (∀ line ∈ t.lines, line ∉ Repl.quitCommands) → readAll t = .ok forms →
            ∃ xs, Exchanges fuel ⟨m₀, session, none⟩ t.lines xs
                ⟨{ m' with output := .empty }, session, none⟩ ∧
              (∀ x ∈ xs, x.prompt = ascii "user> " ∨ x.prompt = ascii "...   ") ∧
              xs.flatMap Exchange.forms = forms ∧ xs.flatMap Exchange.written = texts ∧
              Program.run fuel ⟨[], t, none, files⟩ =
                ⟨⟨Text.join (xs.map Exchange.shown) ++ ascii "user> \n", .empty⟩, 0⟩ := by
  obtain ⟨session, m₀, made, ⟨r, tidy⟩, silent, clear⟩ := Program.made enough files
  refine ⟨session, m₀, made, fun t₀ forms vs m' read evaluated => ?_⟩
  have literal := session.literal_of_readAll read
  obtain ⟨texts, echoes⟩ := tidy.echoes literal evaluated
  refine ⟨texts, echoes, fun t stays same => ?_⟩
  have start : (⟨m₀, session, none⟩ : Repl).Expects fuel t.lines m₀ forms vs texts m' :=
    { reads := readAll_lines same
      lacking := fun _ h => nomatch h
      below := ⟨0, rfl⟩
      machine := by rw [← clear]
      silent := silent
      tidy := ⟨r, tidy⟩
      literal := literal
      echoes := echoes }
  obtain ⟨xs, exchanges, hforms, hwritten⟩ := start.exchanges stays
  refine ⟨xs, exchanges, exchanges.prompts, hforms, hwritten, ?_⟩
  rw [Program.run_input made silent clear, exchanges.run, Transcript.add, Transcript.empty,
    ByteArray.empty_append, ByteArray.empty_append]
  rfl

/-- Two forms on one line and on three, one of them broken by a comment: the same texts are written,
behind one prompt and behind three. -/
theorem two_layouts_write_the_same :
    let one := ascii "(def! x 1) (prn x)"
    let other := ascii "(def! x ;)\n 1)\n(prn x)\n"
    ∃ xs ys : List Exchange, xs.length = 1 ∧ ys.length = 3 ∧
      xs.flatMap Exchange.written = ys.flatMap Exchange.written ∧
      Program.run 100 ⟨[], one, none, []⟩ =
        ⟨⟨Text.join (xs.map Exchange.shown) ++ ascii "user> \n", .empty⟩, 0⟩ ∧
      Program.run 100 ⟨[], other, none, []⟩ =
        ⟨⟨Text.join (ys.map Exchange.shown) ++ ascii "user> \n", .empty⟩, 0⟩ := by
  intro one other
  let forms : List Value := [.list #[.sym (ascii "def!"), .sym (ascii "x"), .int 1],
    .list #[.sym (ascii "prn"), .sym (ascii "x")]]
  have facts : (match (makeSession 100 .plain).exec (Program.machine none []) with
      | (.ok session, m) =>
        ((forms.mapM fun e => eval 100 e session.global).exec m).1.isOk
      | (.error _, _) => false) = true := by decide +kernel
  have read : readAll one = .ok forms := by rfl
  have read' : readAll other = .ok forms := by rfl
  have enough : 2 ≤ 100 := by decide
  obtain ⟨session, m₀, made, layouts⟩ := layout_does_not_matter enough []
  rw [made] at facts
  dsimp only at facts
  rcases evaluated : (forms.mapM fun e => eval 100 e session.global).exec m₀ with ⟨_ | vs, m'⟩
  · rw [evaluated] at facts
    cases facts
  obtain ⟨texts, -, alike⟩ := layouts one forms vs m' read evaluated
  obtain ⟨xs, passed, -, -, hxs, run⟩ := alike one (by decide +kernel) read
  obtain ⟨ys, passed', -, -, hys, run'⟩ := alike other (by decide +kernel) read'
  have lines : one.lines.length = 1 ∧ other.lines.length = 3 := by decide +kernel
  exact ⟨xs, ys, passed.length_eq.trans lines.1, passed'.length_eq.trans lines.2,
    hxs.trans hys.symm, run, run'⟩

end MiniLisp
