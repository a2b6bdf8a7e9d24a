import MiniLisp.Proofs.Answers
import MiniLisp.Proofs.Parsing

/-! A newline ends tokens and comments. What is behind it is read as if the text began there, with
the forms that were read before in front and with faults further down. -/
namespace MiniLisp

def Position.below (p : Position) (lines : Nat) : Position := ⟨p.line + lines, p.column⟩

def ReadError.below (e : ReadError) (lines : Nat) : ReadError := ⟨e.position.below lines, e.fault⟩

theorem Position.advance_below (p : Position) (lines : Nat) (b : UInt8) :
    (p.below lines).advance b = (p.advance b).below lines := by
  simp only [advance, below]
  split
  · rw [Nat.add_right_comm]
  · rfl

namespace Reader

def Mode.below (lines : Nat) : Mode → Mode
  | .token start bytes => .token (start.below lines) bytes
  | mode => mode

def Pending.below (lines : Nat) : Pending → Pending
  | .bracket b start items => .bracket b (start.below lines) items
  | .deref => .deref

/-- The state where so many lines and some forms, latest first, were read before. -/
def State.below (lines : Nat) (older : List Value) (s : State) : State :=
  ⟨s.position.below lines, s.mode.below lines, s.stack.map (Pending.below lines), s.forms ++ older⟩

abbrev lower {α β : Type} (lines : Nat) : (α → β) → Except ReadError α → Except ReadError β :=
  carry fun e => e.below lines

section

variable (lines : Nat) (older : List Value)

theorem deliver_below (v : Value) (forms : List Value) (stack : List Pending) :
    deliver v (forms ++ older) (stack.map (Pending.below lines)) =
      ((deliver v forms stack).1.map (Pending.below lines),
        (deliver v forms stack).2 ++ older) := by
  induction stack generalizing v with
  | nil => rfl
  | cons pending stack ih =>
    cases pending with
    | bracket b start items => rfl
    | deref => exact ih (derefOf v)

namespace State

theorem emit_below (s : State) (v : Value) :
    (s.below lines older).emit v = (s.emit v).below lines older := by
  simp only [emit, below, deliver_below]
  rfl

theorem close_below (s : State) (b : Bracket) :
    (s.below lines older).close b = lower lines (below lines older) (s.close b) := by
  obtain ⟨position, mode, stack, forms⟩ := s
  rcases stack with _ | ⟨_ | _, stack⟩
  · rfl
  · rename_i b' start items
    simp only [close, below, List.map_cons, Pending.below]
    split
    · cases enclosed b items.reverse with
      | error fault => rfl
      | ok v => exact congrArg Except.ok (emit_below lines older ⟨position, mode, stack, forms⟩ v)
    · rfl
  · rfl

theorem endToken_below (s : State) :
    (s.below lines older).endToken = lower lines (below lines older) s.endToken := by
  obtain ⟨position, mode, stack, forms⟩ := s
  cases mode with
  | token start bytes =>
    simp only [endToken, below, Mode.below]
    cases Token.value bytes.reverse with
    | error fault => rfl
    | ok v =>
      exact congrArg Except.ok
        (emit_below lines older ⟨position, .token start bytes, stack, forms⟩ v)
  | _ => rfl

theorem open_below (s : State) (b : UInt8) :
    (s.below lines older).open b = lower lines (below lines older) (s.open b) := by
  simp only [State.open, below, Position.advance_below]
  split
  · rfl
  split
  · rfl
  split
  · rfl
  split
  · rfl
  split
  · rfl
  split
  · exact close_below lines older { s with position := s.position.advance b } _
  · rfl

theorem consume_below (s : State) (b : UInt8) :
    (s.below lines older).consume b = lower lines (below lines older) (s.consume b) := by
  obtain ⟨position, mode, stack, forms⟩ := s
  cases mode with
  | between => exact open_below lines older ⟨position, .between, stack, forms⟩ b
  | comment =>
    simp only [consume, below, Mode.below, Position.advance_below, carry]
    split <;> rfl
  | token start bytes =>
    simp only [consume, below, Mode.below, Position.advance_below, carry]
  | string bytes =>
    simp only [consume, below, Mode.below, Position.advance_below]
    split
    · exact congrArg Except.ok
        (emit_below lines older ⟨position.advance b, .string bytes, stack, forms⟩ _)
    · split <;> rfl
  | escape bytes =>
    simp only [consume, below, Mode.below, Position.advance_below]
    split <;> rfl

theorem settle_below (s : State) (b : UInt8) :
    (s.below lines older).settle b = lower lines (below lines older) (s.settle b) := by
  rw [settle, settle]
  split
  · exact endToken_below lines older s
  · rfl

/-- One byte is taken alike wherever the text stands. -/
theorem step_below (s : State) (b : UInt8) :
    (s.below lines older).step b = lower lines (below lines older) (s.step b) :=
  carry_bind (settle_below lines older s b) fun s => consume_below lines older s b

theorem foldlM_below (bs : List UInt8) (s : State) :
    bs.foldlM step (s.below lines older) = lower lines (below lines older) (bs.foldlM step s) := by
  induction bs generalizing s with
  | nil => rfl
  | cons b bs ih =>
    rw [List.foldlM_cons, List.foldlM_cons]
    exact carry_bind (step_below lines older s b) ih

theorem finish_below (s : State) :
    (s.below lines older).finish = lower lines (older.reverse ++ ·) s.finish := by
  obtain ⟨position, mode, stack, forms⟩ := s
  cases mode with
  | string bytes => rfl
  | escape bytes => rfl
  | _ =>
    refine carry_bind (endToken_below lines older _) fun s => ?_
    obtain ⟨position, mode, stack, forms⟩ := s
    rcases stack with _ | ⟨_ | _, stack⟩
    · simp only [below, List.map_nil, carry, List.reverse_append]
    · rfl
    · rfl

theorem readOn_below (s : State) (t : Text) :
    (s.below lines older).readOn t = lower lines (below lines older) (s.readOn t) :=
  foldlM_below lines older t.bytes s

end State

end

namespace State

theorem close_position {s s' : State} {b : Bracket} (h : s.close b = .ok s') :
    s'.position = s.position := by
  obtain ⟨position, mode, stack, forms⟩ := s
  rcases stack with _ | ⟨_ | _, stack⟩
  · cases h
  · rename_i b' start items
    simp only [close] at h
    split at h
    · cases closed : enclosed b items.reverse with
      | error fault => rw [closed] at h; cases h
      | ok v => rw [closed] at h; cases h; rfl
    · cases h
  · cases h

theorem endToken_position {s s' : State} (h : s.endToken = .ok s') : s'.position = s.position := by
  obtain ⟨position, mode, stack, forms⟩ := s
  cases mode with
  | token start bytes =>
    simp only [endToken] at h
    cases read : Token.value bytes.reverse with
    | error fault => rw [read] at h; cases h
    | ok v => rw [read] at h; cases h; rfl
  | _ => cases h; rfl

theorem open_position {s s' : State} {b : UInt8} (h : s.open b = .ok s') :
    s'.position = s.position.advance b := by
  simp only [State.open] at h
  split at h
  · cases h; rfl
  split at h
  · cases h; rfl
  split at h
  · cases h; rfl
  split at h
  · cases h; rfl
  split at h
  · cases h; rfl
  split at h
  · exact close_position h
  · cases h; rfl

theorem consume_position {s s' : State} {b : UInt8} (h : s.consume b = .ok s') :
    s'.position = s.position.advance b := by
  obtain ⟨position, mode, stack, forms⟩ := s
  cases mode with
  | between => exact open_position h
  | comment => cases h; rfl
  | token start bytes => cases h; rfl
  | string bytes =>
    simp only [consume] at h
    split at h
    · cases h; rfl
    split at h
    · cases h; rfl
    · cases h; rfl
  | escape bytes =>
    simp only [consume] at h
    split at h
    · cases h; rfl
    · cases h

theorem settle_position {s s' : State} {b : UInt8} (h : s.settle b = .ok s') :
    s'.position = s.position := by
  rw [settle] at h
  split at h
  · exact endToken_position h
  · cases h; rfl

/-- A byte that is taken moves the position over itself and no further. -/
theorem step_position {s s' : State} {b : UInt8} (h : s.step b = .ok s') :
    s'.position = s.position.advance b := by
  obtain ⟨settled, hs, taken⟩ := ok_of_bind h
  rw [consume_position taken, settle_position hs]

/-- The line counts the newlines read. -/
theorem foldlM_line {bs : List UInt8} {s s' : State} (h : bs.foldlM step s = .ok s') :
    s'.position.line = s.position.line + bs.count Byte.newline := by
  induction bs generalizing s with
  | nil => cases h; rfl
  | cons b bs ih =>
    rw [List.foldlM_cons] at h
    obtain ⟨middle, first, rest⟩ := ok_of_bind h
    rw [ih rest, step_position first, Position.advance, List.count_cons]
    by_cases hb : b = Byte.newline
    · simp only [hb, if_true, beq_self_eq_true]
      omega
    · simp only [hb, if_false, beq_iff_eq]
      omega

/-- No token, comment or escape goes on here. -/
def Settled (s : State) : Prop := s.mode = .between ∨ ∃ bytes, s.mode = .string bytes

/-- A newline ends tokens and comments, and an escape does not survive it. -/
theorem settled_of_step_newline {s s' : State} (h : s.step Byte.newline = .ok s') :
    s'.Settled := by
  obtain ⟨middle, ended, taken⟩ := ok_of_bind h
  have cut : s.endToken = .ok middle := ended
  obtain ⟨position, mode, stack, forms⟩ := s
  cases mode with
  | between => cases cut; cases taken; exact .inl rfl
  | comment => cases cut; cases taken; exact .inl rfl
  | token start bytes =>
    simp only [endToken] at cut
    cases read : Token.value bytes.reverse with
    | error fault => rw [read] at cut; cases cut
    | ok v => rw [read] at cut; cases cut; cases taken; exact .inl rfl
  | string bytes => cases cut; cases taken; exact .inr ⟨_, rfl⟩
  | escape bytes => cases cut; cases taken

/-- Where no token is open, a text that ends lacks nothing or lacks more text. -/
theorem finish_of_settled {s : State} (h : s.Settled) :
    (s.mode = .between ∧ s.stack = [] ∧ s.finish = .ok s.forms.reverse) ∨
      ∃ e, s.finish = .error e ∧ e.incomplete := by
  obtain ⟨position, mode, stack, forms⟩ := s
  obtain rfl | ⟨bytes, rfl⟩ := h
  · rcases stack with _ | ⟨_ | _, stack⟩
    · exact .inl ⟨rfl, rfl, rfl⟩
    · exact .inr ⟨_, rfl, rfl⟩
    · exact .inr ⟨_, rfl, rfl⟩
  · exact .inr ⟨_, rfl, rfl⟩

/-- What reading whole lines leads to. -/
theorem settled_of_readOn {t : Text} {s s' : State}
    (ends : t.bytes.getLast? = some Byte.newline) (h : s.readOn t = .ok s') :
    s'.Settled ∧ s'.position = ⟨s.position.line + t.bytes.count Byte.newline, 1⟩ := by
  have line := foldlM_line h
  obtain ⟨bs, hbs⟩ := List.getLast?_eq_some_iff.1 ends
  have h : t.bytes.foldlM step s = .ok s' := h
  rw [hbs, List.foldlM_append] at h
  obtain ⟨middle, -, last⟩ := ok_of_bind h
  rw [List.foldlM_cons] at last
  obtain ⟨behind, last, same⟩ := ok_of_bind last
  cases same
  have column : s'.position.column = 1 := by
    rw [step_position last]
    rfl
  exact ⟨settled_of_step_newline last, congrArg₂ Position.mk line column⟩

/-- Where a line ends and nothing is lacking, reading begins anew. -/
theorem eq_below_of_finish {s : State} {n : Nat} {forms : List Value} (settled : s.Settled)
    (position : s.position = ⟨1 + n, 1⟩) (h : s.finish = .ok forms) :
    s = start.below n forms.reverse := by
  obtain ⟨mode, stack, finished⟩ | ⟨e, failed, -⟩ := finish_of_settled settled
  · have same : s.forms.reverse = forms := Except.ok.inj (finished.symm.trans h)
    obtain ⟨_, _, _, older⟩ := s
    cases mode
    cases stack
    cases position
    rw [← same, List.reverse_reverse]
    rfl
  · rw [failed] at h
    cases h

theorem readOn_lines {t : Text} {forms : List Value}
    (ends : t.bytes.getLast? = some Byte.newline) (h : readAll t = .ok forms) :
    start.readOn t = .ok (start.below (t.bytes.count Byte.newline) forms.reverse) := by
  obtain ⟨s, hs, hf⟩ := ok_of_bind h
  obtain ⟨settled, position⟩ := settled_of_readOn ends hs
  rw [hs, eq_below_of_finish settled position hf]

/-- A fault that more lines cannot mend was found before the last line ended. -/
theorem readOn_definite {t : Text} {e : ReadError}
    (ends : t.bytes.getLast? = some Byte.newline) (h : readAll t = .error e)
    (definite : e.incomplete = false) : start.readOn t = .error e := by
  cases read : start.readOn t with
  | error e' =>
    rw [readAll, read] at h
    exact congrArg _ (Except.error.inj h)
  | ok s =>
    have h : s.finish = .error e := by rwa [readAll, read] at h
    obtain ⟨-, -, finished⟩ | ⟨e', failed, more⟩ :=
      finish_of_settled (settled_of_readOn ends read).1
    · cases finished.symm.trans h
    · rw [Except.error.inj (failed.symm.trans h), definite] at more
      cases more

end State

end Reader

theorem readAll_append_of_ok {t : Text} {forms : List Value}
    (ends : t.bytes.getLast? = some Byte.newline) (h : readAll t = .ok forms) (s : Text) :
    readAll (t ++ s) = Reader.lower (t.bytes.count Byte.newline) (forms ++ ·) (readAll s) := by
  have anew := Reader.State.readOn_lines ends h
  rw [readAll, Reader.State.readOn_append, anew]
  refine carry_bind (Reader.State.readOn_below _ _ .start s) fun last => ?_
  rw [Reader.State.finish_below, List.reverse_reverse]

theorem readAll_append_of_definite {t : Text} {e : ReadError}
    (ends : t.bytes.getLast? = some Byte.newline) (h : readAll t = .error e)
    (definite : e.incomplete = false) (s : Text) : readAll (t ++ s) = .error e := by
  rw [readAll, Reader.State.readOn_append, Reader.State.readOn_definite ends h definite]
  rfl

/-- Behind lines that read as forms, a text reads as it does alone: its forms follow those forms,
and its fault is the same one further down. Behind lines with a definite fault nothing is read. -/
theorem reading_is_compositional_at_newlines {t : Text}
    (ends : t.bytes.getLast? = some Byte.newline) (s : Text) :
    (∀ forms, readAll t = .ok forms →
      (∀ more, readAll s = .ok more → readAll (t ++ s) = .ok (forms ++ more)) ∧
      ∀ e, readAll s = .error e →
        readAll (t ++ s) = .error (e.below (t.bytes.count Byte.newline))) ∧
    ∀ e, readAll t = .error e → e.incomplete = false → readAll (t ++ s) = .error e := by
  refine ⟨fun forms read => ⟨fun more h => ?_, fun e h => ?_⟩, fun e fault definite => ?_⟩
  · rw [readAll_append_of_ok ends read, h]
    rfl
  · rw [readAll_append_of_ok ends read, h]
    rfl
  · exact readAll_append_of_definite ends fault definite s

/-- A stray closer behind two lines is found in the fourth line, in the column it has. Behind a
stray closer no more text is read. -/
theorem stray_closer_below_lines :
    let t := ascii "1 ;(\n2\n"
    let s := ascii "[3\n ) 4"
    readAll s = .error ⟨⟨2, 3⟩, .unexpectedCloser .round⟩ ∧
      readAll (t ++ s) = .error ⟨⟨4, 3⟩, .unexpectedCloser .round⟩ ∧
      readAll (ascii ")\n" ++ t) = .error ⟨⟨1, 2⟩, .unexpectedCloser .round⟩ := by
  intro t s
  have refused : readAll s = .error ⟨⟨2, 3⟩, .unexpectedCloser .round⟩ := by rfl
  have before : readAll t = .ok [.int 1, .int 2] := by rfl
  have below := (reading_is_compositional_at_newlines (t := t) (by decide) s).1 _ before
  have definite := (reading_is_compositional_at_newlines (t := ascii ")\n") (by decide) t).2
  exact ⟨refused, below.2 _ refused, definite _ (by rfl) rfl⟩

end MiniLisp
