import MiniLisp.Proofs.Descent
import MiniLisp.Proofs.Parsing

/-! Every loop and every call of the descent is left or takes a byte, so the steps granted are never
used up. On its way the descent keeps step with the automaton: what that makes of the rest of the
text stays the same whenever both have taken a byte. -/
namespace MiniLisp

open Reader

section

variable {t : Text} {i : Nat} {b : UInt8}

theorem positionAt_succ (ahead : t.bytes[i]? = some b) :
    positionAt t (i + 1) = (positionAt t i).advance b := by
  rw [positionAt, List.take_add_one, ahead, List.foldl_append]
  rfl

theorem positionAt_min (t : Text) (i : Nat) : positionAt t i = positionAt t (min i t.size) := by
  rw [positionAt, positionAt, ← Text.length_bytes, List.take_eq_take_min]

theorem exists_ahead (inside : i < t.size) : ∃ b, t.bytes[i]? = some b :=
  ⟨_, List.getElem?_eq_getElem (by rwa [Text.length_bytes])⟩

theorem bytes_drop_of_ahead (ahead : t.bytes[i]? = some b) :
    t.bytes.drop i = b :: t.bytes.drop (i + 1) := by
  obtain ⟨inside, rfl⟩ := List.getElem?_eq_some_iff.mp ahead
  exact List.drop_eq_getElem_cons inside

theorem lt_size_of_ahead (ahead : t.bytes[i]? = some b) : i < t.size := by
  rw [← Text.length_bytes]
  exact (List.getElem?_eq_some_iff.mp ahead).1

end

/-- Nothing is in the way of a form, should it begin here: a dereferencing sign waits for it, or
there is a byte here that neither begins a gap nor closes what is open. -/
def Reader.Work.Expects (w : Work) (t : Text) (i : Nat) : Prop :=
  (∃ stack, w.stack = .deref :: stack) ∨
    ∃ b, t.bytes[i]? = some b ∧ Token.isBlank b = false ∧ b ≠ Byte.semicolon ∧
      ∀ k start items stack, w.stack = .bracket k start items :: stack → b ≠ k.closer

namespace Reader.Course

variable {α : Type} (k : Course α)

/-- What the automaton makes of a text from an offset on. -/
def onward (t : Text) (s : Position → State) (i : Nat) : Except ReadError α :=
  k.read (s (positionAt t i)) (t.bytes.drop i)

variable {t : Text} {i : Nat} {b : UInt8} {s r : Position → State} {w : Work}

theorem onward_end (ended : t.size ≤ i) :
    k.onward t s i = (s (positionAt t i)).finish >>= k.last := by
  rw [onward, List.drop_eq_nil_of_le (by rwa [Text.length_bytes]), k.read_nil]

theorem onward_consume (ahead : t.bytes[i]? = some b)
    (noToken : ∀ p, (s p).endToken = .ok (s p)) (go : ∀ p, k.GoesOn (s p).forms) :
    k.onward t s i = (s (positionAt t i)).consume b >>= (k.read · (t.bytes.drop (i + 1))) := by
  rw [onward, bytes_drop_of_ahead ahead, k.read_cons_of_no_token (noToken _) (go _)]

theorem onward_taken (ahead : t.bytes[i]? = some b)
    (noToken : ∀ p, (s p).endToken = .ok (s p)) (go : ∀ p, k.GoesOn (s p).forms)
    (taken : ∀ p, (s p).consume b = .ok (r (p.advance b))) :
    k.onward t s i = k.onward t r (i + 1) := by
  rw [k.onward_consume ahead noToken go, taken, ← positionAt_succ ahead]
  rfl

theorem onward_refused {fault : ReadFault} (ahead : t.bytes[i]? = some b)
    (noToken : ∀ p, (s p).endToken = .ok (s p)) (go : ∀ p, k.GoesOn (s p).forms)
    (refused : ∀ p, (s p).consume b = .error ⟨p.advance b, fault⟩) :
    k.onward t s i = .error ⟨positionAt t (i + 1), fault⟩ := by
  rw [k.onward_consume ahead noToken go, refused, ← positionAt_succ ahead]
  rfl

/-- A comment that the text ends in, or a newline, is as good as ended. -/
theorem onward_comment_end (go : k.GoesOn w.forms)
    (ended : ∀ b, t.bytes[i]? = some b → b = Byte.newline) :
    k.onward t w.inComment i = k.onward t w.at i := by
  cases ahead : t.bytes[i]? with
  | none =>
    have ended : t.size ≤ i := by
      rw [← Text.length_bytes]
      exact List.getElem?_eq_none_iff.mp ahead
    rw [k.onward_end ended, k.onward_end ended]
    rfl
  | some b =>
    obtain rfl := ended b ahead
    rw [k.onward_taken (r := w.at) ahead (fun _ => rfl) (fun _ => go) fun _ => rfl,
      k.onward_taken (r := w.at) ahead (fun _ => rfl) (fun _ => go) fun _ => rfl]

/-- At its semicolon a comment may be taken for begun. -/
theorem onward_semicolon (go : k.GoesOn w.forms) (ahead : t.bytes[i]? = some Byte.semicolon) :
    k.onward t w.at i = k.onward t w.inComment i := by
  rw [k.onward_taken (r := w.inComment) ahead (fun _ => rfl) (fun _ => go) fun _ => rfl,
    k.onward_taken (r := w.inComment) ahead (fun _ => rfl) (fun _ => go) fun _ => rfl]

theorem onward_inComment (go : k.GoesOn w.forms) (ahead : t.bytes[i]? = some b)
    (within : b ≠ Byte.newline) : k.onward t w.inComment i = k.onward t w.inComment (i + 1) :=
  k.onward_taken ahead (fun _ => rfl) (fun _ => go) fun p =>
    (step_of_no_token rfl b).symm.trans (step_inComment w p within)

theorem onward_blank (go : k.GoesOn w.forms) (ahead : t.bytes[i]? = some b)
    (blank : Token.isBlank b = true) : k.onward t w.at i = k.onward t w.at (i + 1) :=
  k.onward_taken ahead (fun _ => rfl) (fun _ => go) (open_blank blank w)

theorem onward_inToken {start : Position} {bytes : List UInt8} (go : k.GoesOn w.forms)
    (ahead : t.bytes[i]? = some b) (undivided : Token.isDelimiter b = false) :
    k.onward t (w.inToken start bytes) i = k.onward t (w.inToken start (b :: bytes)) (i + 1) := by
  rw [onward, bytes_drop_of_ahead ahead, k.read_step (step_inToken w start bytes _ undivided) go,
    ← positionAt_succ ahead]
  rfl

end Reader.Course

namespace Descent

section

variable {α : Type} {t : Text} {c : Cursor} {Q : α → Cursor → Prop}
variable {E : ReadError → Cursor → Prop}

theorem Obeys.atEnd {x y : Descent α} (hx : t.size ≤ c.offset → x.Obeys c Q E)
    (hy : c.offset < t.size → y.Obeys c Q E) :
    (atEnd t >>= fun ended => if ended = true then x else y).Obeys c Q E := by
  refine Obeys.bind (Q := fun ended c' => (ended = true ↔ t.size ≤ c.offset) ∧ c' = c) ?_ ?_
  · exact ⟨decide_eq_true_iff, rfl⟩
  · rintro ended c' ⟨same, rfl⟩
    split
    · rename_i h
      exact hx (same.mp h)
    · rename_i h
      exact hy (Nat.lt_of_not_le (mt same.mpr h))

theorem Obeys.peek {f : UInt8 → Descent α} (inside : c.offset < t.size)
    (hf : ∀ b, t.bytes[c.offset]? = some b → (f b).Obeys c Q E) :
    (peek t >>= f).Obeys c Q E := by
  obtain ⟨b, ahead⟩ := exists_ahead inside
  rw [Obeys, exec_bind, exec_peek ahead]
  exact hf b ahead

theorem Obeys.skip {f : Unit → Descent α} (hf : (f ()).Obeys ⟨c.offset + 1, c.calls⟩ Q E) :
    (skip >>= f).Obeys c Q E := hf

theorem Obeys.next {f : UInt8 → Descent α} (inside : c.offset < t.size)
    (hf : ∀ b, t.bytes[c.offset]? = some b → (f b).Obeys ⟨c.offset + 1, c.calls⟩ Q E) :
    (next t >>= f).Obeys c Q E := by
  rw [Descent.next, bind_assoc]
  refine Obeys.peek inside fun b ahead => ?_
  exact hf b ahead

theorem Obeys.get {f : Cursor → Descent α} (hf : (f c).Obeys c Q E) : (get >>= f).Obeys c Q E := hf

theorem Obeys.refuse {fault : ReadFault} (h : E ⟨positionAt t c.offset, fault⟩ c) :
    (refuse t fault : Descent α).Obeys c Q E := h

theorem Obeys.judge {i : Nat} {o : Except ReadFault α} (ok : ∀ a, o = .ok a → Q a c)
    (error : ∀ fault, o = .error fault → E ⟨positionAt t i, fault⟩ c) :
    (judge t i o).Obeys c Q E := by
  cases o with
  | ok a => exact ok a rfl
  | error fault => exact error fault rfl

end

structure Moves (t : Text) (c c' : Cursor) : Prop where
  forward : c.offset ≤ c'.offset
  inside : c'.offset ≤ max c.offset t.size
  calls : c'.calls = c.calls

structure Advances (t : Text) (c c' : Cursor) : Prop where
  forward : c.offset < c'.offset
  inside : c'.offset ≤ t.size
  calls : c'.calls + c.offset ≤ c.calls + c'.offset

/-- A refusal shows a position in the text, and at most one form more was begun than there were
bytes. -/
structure Refuses (t : Text) (c : Cursor) (e : ReadError) (c' : Cursor) : Prop where
  place : ∃ i, i ≤ t.size ∧ e.position = positionAt t i
  calls : c'.calls ≤ c.calls + (t.size - c.offset) + 1

section

variable {t : Text} {c c₁ c' : Cursor} {e : ReadError}

theorem Moves.refl (t : Text) (c : Cursor) : Moves t c c :=
  ⟨Nat.le_refl _, Nat.le_max_left _ _, rfl⟩

theorem Moves.take (h : Moves t ⟨c.offset + 1, c.calls⟩ c') (inside : c.offset < t.size) :
    Moves t c c' := by
  have forward : c.offset + 1 ≤ c'.offset := h.forward
  have bound : c'.offset ≤ max (c.offset + 1) t.size := h.inside
  exact ⟨by omega, by omega, h.calls⟩

theorem Moves.trans (h : Moves t c c₁) (h' : Moves t c₁ c') : Moves t c c' := by
  obtain ⟨forward, bound, calls⟩ := h
  obtain ⟨forward', bound', calls'⟩ := h'
  exact ⟨by omega, by omega, by omega⟩

theorem Moves.then_advances (h : Moves t c c₁) (h' : Advances t c₁ c') : Advances t c c' := by
  obtain ⟨forward, bound, calls⟩ := h
  obtain ⟨forward', inside', calls'⟩ := h'
  exact ⟨by omega, inside', by omega⟩

theorem Moves.then_refuses (h : Moves t c c₁) (h' : Refuses t c₁ e c') : Refuses t c e c' := by
  obtain ⟨forward, bound, calls⟩ := h
  obtain ⟨place, calls'⟩ := h'
  exact ⟨place, by omega⟩

theorem Advances.trans (h : Advances t c c₁) (h' : Advances t c₁ c') : Advances t c c' := by
  obtain ⟨forward, inside, calls⟩ := h
  obtain ⟨forward', inside', calls'⟩ := h'
  exact ⟨by omega, inside', by omega⟩

theorem Advances.then_refuses (h : Advances t c c₁) (h' : Refuses t c₁ e c') :
    Refuses t c e c' := by
  obtain ⟨forward, inside, calls⟩ := h
  obtain ⟨place, calls'⟩ := h'
  exact ⟨place, by omega⟩

theorem Advances.take (inside : c.offset < t.size) : Advances t c ⟨c.offset + 1, c.calls⟩ := by
  refine ⟨?_, ?_, ?_⟩ <;> dsimp only <;> omega

/-- A form that is begun takes its first byte, which makes up for it. -/
theorem Advances.begin (h : Moves t ⟨c.offset, c.calls + 1⟩ c₁) (inside : c₁.offset < t.size) :
    Advances t c ⟨c₁.offset + 1, c₁.calls⟩ := by
  have forward : c.offset ≤ c₁.offset := h.forward
  have calls : c₁.calls = c.calls + 1 := h.calls
  refine ⟨?_, ?_, ?_⟩ <;> dsimp only <;> omega

theorem Advances.then_moves (h : Advances t c c₁) (h' : Moves t c₁ c') : Advances t c c' := by
  obtain ⟨forward, inside, calls⟩ := h
  obtain ⟨forward', bound', calls'⟩ := h'
  exact ⟨by omega, by omega, by omega⟩

/-- Wherever it is, what is refused is refused within the text. -/
theorem Refuses.here {i n : Nat} {fault : ReadFault} (few : n ≤ c.calls + 1) (o : Nat) :
    Refuses t c ⟨positionAt t i, fault⟩ ⟨o, n⟩ where
  place := ⟨min i t.size, Nat.min_le_right _ _, positionAt_min t i⟩
  calls := by
    dsimp only
    omega

end

/-- Where a gap ends stands nothing that could prolong it. Where there is none, nothing is taken. -/
structure EndsGap (t : Text) (c c' : Cursor) : Prop where
  past : ∀ b, t.bytes[c'.offset]? = some b → Token.isBlank b = false ∧ b ≠ Byte.semicolon
  still : ∀ b, t.bytes[c.offset]? = some b → Token.isBlank b = false → b ≠ Byte.semicolon →
    c'.offset = c.offset

namespace EndsGap

variable {t : Text} {c c₁ c' : Cursor} {b : UInt8}

theorem of_end (ended : t.size ≤ c.offset) : EndsGap t c c where
  past _ ahead := absurd (lt_size_of_ahead ahead) (Nat.not_lt.mpr ended)
  still _ _ _ _ := rfl

theorem of_ahead (ahead : t.bytes[c.offset]? = some b) (noBlank : Token.isBlank b = false)
    (noSemicolon : b ≠ Byte.semicolon) : EndsGap t c c where
  past b' ahead' := by
    obtain rfl := Option.some.inj (ahead'.symm.trans ahead)
    exact ⟨noBlank, noSemicolon⟩
  still _ _ _ _ := rfl

theorem prolonged (h : EndsGap t c₁ c') (ahead : t.bytes[c.offset]? = some b)
    (gap : Token.isBlank b = true ∨ b = Byte.semicolon) : EndsGap t c c' where
  past := h.past
  still b' ahead' noBlank noSemicolon := by
    obtain rfl := Option.some.inj (ahead'.symm.trans ahead)
    rcases gap with blank | semicolon
    · exact absurd (blank.symm.trans noBlank) (by simp)
    · exact absurd semicolon noSemicolon

end EndsGap

section

variable {α : Type} (k : Course α) {t : Text} {w : Work} {fuel : Nat} {c : Cursor}

/-- A comment takes at least its semicolon. -/
theorem skipComment_obeys (go : k.GoesOn w.forms) (enough : t.size - c.offset < fuel) :
    (skipComment t fuel).Obeys c
      (fun _ c' => Moves t c c' ∧ k.onward t w.inComment c.offset = k.onward t w.at c'.offset ∧
        (t.bytes[c.offset]? = some Byte.semicolon → c.offset < c'.offset))
      fun _ _ => False := by
  induction fuel generalizing c with
  | zero => exact absurd enough (Nat.not_lt_zero _)
  | succ fuel ih =>
    refine Obeys.atEnd (fun ended => ?_) fun inside => ?_
    · have noByte {b : UInt8} : t.bytes[c.offset]? ≠ some b :=
        fun ahead => Nat.not_lt.mpr ended (lt_size_of_ahead ahead)
      refine Obeys.pure ⟨.refl t c, ?_, fun ahead => absurd ahead noByte⟩
      exact k.onward_comment_end go fun b ahead => absurd ahead noByte
    refine Obeys.peek inside fun b ahead => ?_
    split
    · rename_i newline
      have only {b' : UInt8} (ahead' : t.bytes[c.offset]? = some b') : b' = Byte.newline :=
        (Option.some.inj (ahead'.symm.trans ahead)).trans newline
      refine Obeys.pure ⟨.refl t c, k.onward_comment_end go fun _ => only, fun ahead' => ?_⟩
      cases only ahead'
    · rename_i within
      refine Obeys.skip ((ih (by dsimp only; omega)).weaken ?_ fun _ _ => id)
      rintro _ c' ⟨moves, same, _⟩
      exact ⟨moves.take inside, (k.onward_inComment go ahead within).trans same,
        fun _ => moves.forward⟩

theorem skipGap_obeys (go : k.GoesOn w.forms) (enough : t.size - c.offset + 1 < fuel) :
    (skipGap t fuel).Obeys c
      (fun _ c' => Moves t c c' ∧ EndsGap t c c' ∧
        k.onward t w.at c.offset = k.onward t w.at c'.offset)
      fun _ _ => False := by
  induction fuel generalizing c with
  | zero => exact absurd enough (Nat.not_lt_zero _)
  | succ fuel ih =>
    refine Obeys.atEnd (fun ended => ?_) fun inside => ?_
    · exact Obeys.pure ⟨.refl t c, .of_end ended, rfl⟩
    refine Obeys.peek inside fun b ahead => ?_
    split
    · rename_i blank
      refine Obeys.skip ((ih (by dsimp only; omega)).weaken ?_ fun _ _ => id)
      rintro _ c' ⟨moves, ends, same⟩
      refine ⟨moves.take inside, ends.prolonged ahead (.inl blank), ?_⟩
      exact (k.onward_blank go ahead blank).trans same
    split
    · rename_i semicolon
      subst semicolon
      refine (skipComment_obeys k go (by omega)).after ?_
      rintro _ c₁ ⟨moves₁, same₁, taken⟩
      have further := taken ahead
      refine (ih (by omega)).weaken ?_ fun _ _ => id
      rintro _ c' ⟨moves, ends, same⟩
      refine ⟨moves₁.trans moves, ends.prolonged ahead (.inr rfl), ?_⟩
      exact (k.onward_semicolon go ahead).trans (same₁.trans same)
    · rename_i noBlank noSemicolon
      rw [Bool.not_eq_true] at noBlank
      exact Obeys.pure ⟨.refl t c, .of_ahead ahead noBlank noSemicolon, rfl⟩

def Rejects (t : Text) (s : Position → State) (c : Cursor) (e : ReadError) (c' : Cursor) : Prop :=
  Refuses t c e c' ∧ k.onward t s c.offset = .error e

theorem Rejects.after {s s' : Position → State} {c₁ c' : Cursor} {e : ReadError}
    (h : Rejects k t s' c₁ e c') (begun : Advances t c c₁)
    (same : k.onward t s c.offset = k.onward t s' c₁.offset) : Rejects k t s c e c' :=
  ⟨begun.then_refuses h.1, same.trans h.2⟩

theorem readString_obeys (go : k.GoesOn w.forms) {bytes : List UInt8}
    (enough : t.size - c.offset < fuel) :
    (readString t fuel bytes).Obeys c
      (fun v c' => Moves t c c' ∧
        k.onward t (w.inString bytes) c.offset = k.onward t (w.push v).at c'.offset)
      (Rejects k t (w.inString bytes) c) := by
  induction fuel generalizing c bytes with
  | zero => exact absurd enough (Nat.not_lt_zero _)
  | succ fuel ih =>
    refine Obeys.atEnd (fun ended => ?_) fun inside => ?_
    · exact Obeys.refuse ⟨.here (Nat.le_succ _) _, k.onward_end ended⟩
    refine Obeys.next inside fun b ahead => ?_
    split
    · rename_i quote
      subst quote
      refine Obeys.pure ⟨(Moves.refl t _).take inside, ?_⟩
      exact k.onward_taken ahead (fun _ => rfl) (fun _ => go) (consume_quote w bytes)
    split
    · rename_i backslash
      subst backslash
      have escape := k.onward_taken ahead (fun _ => rfl) (fun _ => go) (consume_backslash w bytes)
      refine Obeys.atEnd (fun ended => ?_) fun inside' => ?_
      · exact Obeys.refuse ⟨.here (Nat.le_succ _) _, escape.trans (k.onward_end ended)⟩
      refine Obeys.next inside' fun b ahead' => ?_
      cases letter : unescape? b with
      | some d =>
        have taken := k.onward_taken ahead' (fun _ => rfl) (fun _ => go)
          fun p => consume_escaped w bytes p letter
        refine (ih (by dsimp only; omega)).weaken ?_ ?_
        · rintro v c' ⟨moves, same⟩
          exact ⟨(moves.take inside').take inside, escape.trans (taken.trans same)⟩
        · intro e c' rejects
          exact (rejects.after k (.take inside') taken).after k (.take inside) escape
      | none =>
        refine Obeys.refuse ⟨.here (Nat.le_succ _) _, escape.trans ?_⟩
        refine k.onward_refused ahead' (fun _ => rfl) (fun _ => go) fun p => ?_
        simp [State.consume, Work.inEscape, Work.at, letter]
    · rename_i noQuote noBackslash
      have plain := k.onward_taken ahead (fun _ => rfl) (fun _ => go)
        fun p => consume_plain w bytes p noQuote noBackslash
      refine (ih (by dsimp only; omega)).weaken ?_ ?_
      · rintro v c' ⟨moves, same⟩
        exact ⟨moves.take inside, plain.trans same⟩
      · intro e c' rejects
        exact rejects.after k (.take inside) plain

/-- A token goes on as far as it can. -/
theorem tokenBytes_obeys (go : k.GoesOn w.forms) (start : Position) {bytes : List UInt8}
    (enough : t.size - c.offset < fuel) :
    (tokenBytes t fuel bytes).Obeys c
      (fun bytes' c' => Moves t c c' ∧ Delimited (t.bytes.drop c'.offset) ∧
        k.onward t (w.inToken start bytes) c.offset =
          k.onward t (w.inToken start bytes') c'.offset)
      fun _ _ => False := by
  induction fuel generalizing c bytes with
  | zero => exact absurd enough (Nat.not_lt_zero _)
  | succ fuel ih =>
    refine Obeys.atEnd (fun ended => ?_) fun inside => ?_
    · refine Obeys.pure ⟨.refl t c, ?_, rfl⟩
      rw [List.drop_eq_nil_of_le (by rwa [Text.length_bytes])]
      exact delimited_nil
    refine Obeys.peek inside fun b ahead => ?_
    split
    · rename_i delimiter
      refine Obeys.pure ⟨.refl t c, ?_, rfl⟩
      rw [bytes_drop_of_ahead ahead]
      exact delimited_cons delimiter
    · rename_i undivided
      refine Obeys.next inside fun b' ahead' => ?_
      obtain rfl := Option.some.inj (ahead'.symm.trans ahead)
      refine (ih (by dsimp only; omega)).weaken ?_ fun _ _ => id
      rintro bytes' c' ⟨moves, delimited, same⟩
      refine ⟨moves.take inside, delimited, Eq.trans ?_ same⟩
      exact k.onward_inToken go ahead (Bool.not_eq_true _ ▸ undivided)

/-- A token is read on from behind its first byte, and judged as a whole. -/
theorem readToken_obeys (go : k.GoesOn w.forms) {b : UInt8} {i : Nat}
    (ahead : t.bytes[i]? = some b) (undivided : Token.isDelimiter b = false)
    (noDeref : b ≠ Byte.atSign) (behind : c.offset = i + 1) (enough : t.size - c.offset < fuel) :
    (readToken t fuel b).Obeys c
      (fun v c' => Moves t c c' ∧ k.onward t w.at i = k.onward t (w.push v).at c'.offset)
      fun e c' => Refuses t c e c' ∧ k.onward t w.at i = .error e := by
  have first : k.onward t w.at i = k.onward t (w.inToken (positionAt t i) [b]) (i + 1) := by
    rw [k.onward_consume ahead (fun _ => rfl) (fun _ => go)]
    show (w.at (positionAt t i)).open b >>= _ = _
    rw [open_token undivided noDeref, ← positionAt_succ ahead]
    rfl
  have start : c.offset - 1 = i := by omega
  refine Obeys.get ((tokenBytes_obeys k go (positionAt t i) enough).after ?_)
  rintro bytes c' ⟨moves, delimited, same⟩
  rw [behind] at same
  refine Obeys.judge (fun v value => ⟨moves, ?_⟩) fun fault value => ⟨?_, ?_⟩
  · exact first.trans (same.trans (k.read_inToken value delimited))
  · exact .here (moves.calls ▸ Nat.le_succ _) _
  · rw [start]
    exact first.trans (same.trans (k.read_inToken_error value delimited))

end

section

variable {α : Type} (k : Course α) {t : Text} {w : Work} {i : Nat} {b : Bracket}

theorem expects_awaiting (w : Work) (t : Text) (i : Nat) : w.awaiting.Expects t i := .inl ⟨_, rfl⟩

theorem expects_after_gap {c c' : Cursor} (h : w.Expects t c.offset) (ends : EndsGap t c c') :
    w.Expects t c'.offset := by
  rcases h with waiting | ⟨b, ahead, noBlank, noSemicolon, noCloser⟩
  · exact .inl waiting
  · rw [ends.still b ahead noBlank noSemicolon]
    exact .inr ⟨b, ahead, noBlank, noSemicolon, noCloser⟩

theorem expects_done {c c' : Cursor} (ends : EndsGap t c c') (inside : c'.offset < t.size)
    (forms : List Value) : (Work.done forms).Expects t c'.offset := by
  obtain ⟨b, ahead⟩ := exists_ahead inside
  obtain ⟨noBlank, noSemicolon⟩ := ends.past b ahead
  refine .inr ⟨b, ahead, noBlank, noSemicolon, ?_⟩
  rintro _ _ _ _ ⟨⟩

/-- At the end of a text only a dereferencing sign expects a form. -/
theorem onward_no_form (h : w.Expects t i) (ended : t.size ≤ i) :
    k.onward t w.at i = .error ⟨positionAt t i, .endOfInput⟩ := by
  rcases h with ⟨stack, waiting⟩ | ⟨b, ahead, _⟩
  · rw [k.onward_end ended]
    simp only [State.finish, Work.at, State.endToken, waiting]
    rfl
  · exact absurd (lt_size_of_ahead ahead) (Nat.not_lt.mpr ended)

/-- Where a form is expected no closing bracket fits. -/
theorem onward_closer (h : w.Expects t i) (go : k.GoesOn w.forms)
    (ahead : t.bytes[i]? = some b.closer) :
    k.onward t w.at i = .error ⟨positionAt t (i + 1), .unexpectedCloser b⟩ := by
  have unfit : ∀ start items stack, w.stack ≠ .bracket b start items :: stack := by
    intro start items stack same
    rcases h with ⟨_, waiting⟩ | ⟨b', ahead', _, _, noCloser⟩
    · cases waiting.symm.trans same
    · exact noCloser b start items stack same (Option.some.inj (ahead'.symm.trans ahead))
  refine k.onward_refused ahead (fun _ => rfl) (fun _ => go) fun p => ?_
  show (w.at p).open b.closer = _
  rw [open_closes, State.close]
  simp only [Work.at]
  split
  · rename_i b' start items stack same
    split
    · rename_i matching
      subst matching
      exact absurd same (unfit start items stack)
    · rfl
  · rfl

theorem onward_enclosed {start : Position} {items : List Value} {v : Value}
    (go : k.GoesOn w.forms) (ahead : t.bytes[i]? = some b.closer)
    (h : enclosed b items.reverse = .ok v) :
    k.onward t (w.open b start items).at i = k.onward t (w.push v).at (i + 1) :=
  k.onward_taken ahead (fun _ => rfl) (fun _ => go) fun p => open_closer w start p h

theorem onward_not_enclosed {start : Position} {items : List Value} {fault : ReadFault}
    (go : k.GoesOn w.forms) (ahead : t.bytes[i]? = some b.closer)
    (h : enclosed b items.reverse = .error fault) :
    k.onward t (w.open b start items).at i = .error ⟨start, fault⟩ := by
  rw [k.onward_consume ahead (fun _ => rfl) (fun _ => go)]
  show ((w.open b start items).at (positionAt t i)).open b.closer >>= _ = _
  rw [open_closes, State.close]
  simp only [Work.at, Work.open, if_true, h]
  rfl

theorem onward_opened (go : k.GoesOn w.forms) (ahead : t.bytes[i]? = some b.opener) :
    k.onward t w.at i = k.onward t (w.open b (positionAt t (i + 1)) []).at (i + 1) := by
  rw [k.onward_taken (s := w.at) (r := fun p => (w.open b p []).at p) ahead (fun _ => rfl)
    (fun _ => go) (open_opener b w)]
  rfl

end

section

variable {α : Type} (k : Course α) {t : Text} {w : Work} {fuel : Nat} {c c₁ : Cursor}

/-- The automaton hands on the value that the descent comes to, which took some bytes. -/
def Delivers (t : Text) (w : Work) (c : Cursor) (v : Value) (c' : Cursor) : Prop :=
  Advances t c c' ∧ k.onward t w.at c.offset = k.onward t (w.push v).at c'.offset

def FormObeys (t : Text) (fuel : Nat) : Prop :=
  ∀ (w : Work) (c : Cursor), k.GoesOn w.forms → w.Expects t c.offset →
    2 * (t.size - c.offset) + 3 ≤ fuel →
    (readForm t fuel).Obeys c (Delivers k t w c) (Rejects k t w.at c)

def ItemsObey (t : Text) (fuel : Nat) : Prop :=
  ∀ (w : Work) (b : Bracket) (start : Position) (items : List Value) (c : Cursor),
    k.GoesOn w.forms → 2 * (t.size - c.offset) + 4 ≤ fuel →
    (readItems t fuel b items).Obeys c
      (fun vs c' => Advances t c c' ∧
        (∀ v, enclosed b vs = .ok v →
          k.onward t (w.open b start items).at c.offset = k.onward t (w.push v).at c'.offset) ∧
        ∀ fault, enclosed b vs = .error fault →
          k.onward t (w.open b start items).at c.offset = .error ⟨start, fault⟩)
      (Rejects k t (w.open b start items).at c)

theorem Obeys.begin {β : Type} {f : Unit → Descent β} {Q : β → Cursor → Prop}
    {E : ReadError → Cursor → Prop} (hf : (f ()).Obeys ⟨c.offset, c.calls + 1⟩ Q E) :
    (begin >>= f).Obeys c Q E := hf

section

variable (go : k.GoesOn w.forms) (begun : Advances t c ⟨c₁.offset + 1, c₁.calls⟩)
variable (same : k.onward t w.at c.offset = k.onward t w.at c₁.offset)

include go begun same

theorem string_obeys (ahead : t.bytes[c₁.offset]? = some Byte.quote)
    (enough : t.size - (c₁.offset + 1) < fuel) :
    (readString t fuel []).Obeys ⟨c₁.offset + 1, c₁.calls⟩ (Delivers k t w c)
      (Rejects k t w.at c) := by
  have opened := same.trans <| k.onward_taken (s := w.at) (r := w.inString []) ahead
    (fun _ => rfl) (fun _ => go) fun _ => rfl
  refine (readString_obeys k go enough).weaken ?_ ?_
  · rintro v c' ⟨moves, same'⟩
    exact ⟨begun.then_moves moves, opened.trans same'⟩
  · intro e c' rejects
    exact rejects.after k begun opened

theorem deref_obeys (form : FormObeys k t fuel) (ahead : t.bytes[c₁.offset]? = some Byte.atSign)
    (enough : 2 * (t.size - (c₁.offset + 1)) + 3 ≤ fuel) :
    (readForm t fuel >>= fun v => pure (derefOf v)).Obeys ⟨c₁.offset + 1, c₁.calls⟩
      (Delivers k t w c) (Rejects k t w.at c) := by
  have opened := same.trans <| k.onward_taken (s := w.at) (r := w.awaiting.at) ahead
    (fun _ => rfl) (fun _ => go) fun _ => rfl
  have target := form w.awaiting ⟨c₁.offset + 1, c₁.calls⟩ go (expects_awaiting w t _) enough
  refine Obeys.bind (target.weaken (fun _ _ => id) ?_) ?_
  · intro e c' rejects
    exact rejects.after k begun opened
  · rintro v c' ⟨advances, same'⟩
    exact Obeys.pure ⟨begun.trans advances, opened.trans same'⟩

theorem bracket_obeys (items : ItemsObey k t fuel) {b : Bracket}
    (ahead : t.bytes[c₁.offset]? = some b.opener)
    (enough : 2 * (t.size - (c₁.offset + 1)) + 4 ≤ fuel) :
    (readItems t fuel b [] >>= fun vs =>
      judge t (c₁.offset + 1) (enclosed b vs)).Obeys ⟨c₁.offset + 1, c₁.calls⟩
      (Delivers k t w c) (Rejects k t w.at c) := by
  have opened := same.trans (onward_opened k go ahead)
  have inside := items w b (positionAt t (c₁.offset + 1)) [] ⟨c₁.offset + 1, c₁.calls⟩ go enough
  refine Obeys.bind (inside.weaken (fun _ _ => id) ?_) ?_
  · intro e c' rejects
    exact rejects.after k begun opened
  · rintro vs c' ⟨advances, ok, error⟩
    refine Obeys.judge (fun v hv => ?_) fun fault hv => ?_
    · exact ⟨begun.trans advances, opened.trans (ok v hv)⟩
    · have refuses : Refuses t c' ⟨positionAt t (c₁.offset + 1), fault⟩ c' :=
        .here (Nat.le_succ _) _
      exact ⟨(begun.trans advances).then_refuses refuses, opened.trans (error fault hv)⟩

theorem token_obeys {b : UInt8} (ahead : t.bytes[c₁.offset]? = some b)
    (undivided : Token.isDelimiter b = false) (noDeref : b ≠ Byte.atSign)
    (enough : t.size - (c₁.offset + 1) < fuel) :
    (readToken t fuel b).Obeys ⟨c₁.offset + 1, c₁.calls⟩ (Delivers k t w c)
      (Rejects k t w.at c) := by
  refine (readToken_obeys k go ahead undivided noDeref rfl enough).weaken ?_ ?_
  · rintro v c' ⟨moves, same'⟩
    exact ⟨begun.then_moves moves, same.trans same'⟩
  · rintro e c' ⟨refuses, same'⟩
    exact ⟨begun.then_refuses refuses, same.trans same'⟩

end

variable {k}

/-- The first byte decides which procedure goes on. -/
theorem readForm_succ (form : FormObeys k t fuel) (items : ItemsObey k t fuel) :
    FormObeys k t (fuel + 1) := by
  intro w c go expects enough
  rw [readForm]
  refine Obeys.begin ((skipGap_obeys k go (by dsimp only; omega)).after ?_)
  rintro _ c₁ ⟨moves, ends, same⟩
  have forward : c.offset ≤ c₁.offset := moves.forward
  have expects₁ : w.Expects t c₁.offset := expects_after_gap expects ⟨ends.past, ends.still⟩
  refine Obeys.atEnd (fun ended => ?_) fun inside => ?_
  · refine Obeys.refuse ⟨.here (Nat.le_of_eq moves.calls) _, same.trans ?_⟩
    exact onward_no_form k expects₁ ended
  refine Obeys.next inside fun b ahead => ?_
  have begun : Advances t c ⟨c₁.offset + 1, c₁.calls⟩ := .begin moves inside
  split
  · rename_i quote
    subst quote
    exact string_obeys k go begun same ahead (by omega)
  split
  · rename_i atSign
    subst atSign
    exact deref_obeys k go begun same form ahead (by omega)
  rename_i noQuote noDeref
  cases opens : Bracket.opened? b with
  | some b' =>
    obtain rfl := opener_of_opened? opens
    exact Obeys.get (bracket_obeys k go begun same items ahead (by omega))
  | none =>
    cases closes : Bracket.closed? b with
    | some b' =>
      obtain rfl := closer_of_closed? closes
      refine Obeys.refuse ⟨.here (Nat.le_of_eq moves.calls) _, same.trans ?_⟩
      exact onward_closer k expects₁ go ahead
    | none =>
      obtain ⟨noBlank, noSemicolon⟩ := ends.past b ahead
      have undivided : Token.isDelimiter b = false := by
        simp [Token.isDelimiter, noBlank, noSemicolon, noQuote, opens, closes]
      exact token_obeys k go begun same ahead undivided noDeref (by omega)

theorem readItems_succ (form : FormObeys k t fuel) (rest : ItemsObey k t fuel) :
    ItemsObey k t (fuel + 1) := by
  intro w b start items c go enough
  rw [readItems]
  refine (skipGap_obeys k (w := w.open b start items) go (by omega)).after ?_
  rintro _ c₁ ⟨moves, ends, same⟩
  have forward := moves.forward
  refine Obeys.atEnd (fun ended => ?_) fun inside => ?_
  · refine Obeys.refuse ⟨.here (moves.calls ▸ Nat.le_succ _) _, same.trans ?_⟩
    exact k.onward_end ended
  refine Obeys.peek inside fun b' ahead => ?_
  split
  · rename_i closer
    subst closer
    refine Obeys.skip (Obeys.pure ⟨moves.then_advances (.take inside), fun v hv => ?_,
      fun fault hv => ?_⟩)
    · exact same.trans (onward_enclosed k go ahead hv)
    · exact same.trans (onward_not_enclosed k go ahead hv)
  · rename_i noCloser
    have expects : (w.open b start items).Expects t c₁.offset := by
      obtain ⟨noBlank, noSemicolon⟩ := ends.past b' ahead
      refine .inr ⟨b', ahead, noBlank, noSemicolon, ?_⟩
      rintro _ _ _ _ ⟨⟩
      exact noCloser
    have first := form (w.open b start items) c₁ go expects (by omega)
    refine Obeys.bind (first.weaken (fun _ _ => id) ?_) ?_
    · rintro e c' ⟨refuses, same'⟩
      exact ⟨moves.then_refuses refuses, same.trans same'⟩
    rintro v c₂ ⟨advances, same₂⟩
    have further := advances.forward
    have others := rest w b start (v :: items) c₂ go (by omega)
    refine others.weaken ?_ ?_
    · rintro vs c' ⟨advances', ok, error⟩
      refine ⟨moves.then_advances (advances.trans advances'), fun v' hv => ?_,
        fun fault hv => ?_⟩
      · exact same.trans (same₂.trans (ok v' hv))
      · exact same.trans (same₂.trans (error fault hv))
    · rintro e c' ⟨refuses, same'⟩
      exact ⟨moves.then_refuses (advances.then_refuses refuses), same.trans (same₂.trans same')⟩

variable (k) in
/-- By induction on the steps granted. -/
theorem form_items_obey (t : Text) (fuel : Nat) : FormObeys k t fuel ∧ ItemsObey k t fuel := by
  induction fuel with
  | zero =>
    constructor
    · intro w c _ _ enough
      omega
    · intro w b start items c _ enough
      omega
  | succ fuel ih =>
    obtain ⟨form, items⟩ := ih
    exact ⟨readForm_succ form items, readItems_succ form items⟩

end

section

variable {t : Text} {fuel : Nat} {c : Cursor}

/-- Every form takes bytes, so no more are begun than there are. -/
theorem readForms_obeys (forms : List Value) (enough : 2 * (t.size - c.offset) + 4 ≤ fuel) :
    (readForms t fuel forms).Obeys c
      (fun fs c' => Course.whole.onward t (Work.done forms).at c.offset = .ok fs ∧
        c'.calls ≤ c.calls + (t.size - c.offset) + 1)
      fun e c' => Course.whole.onward t (Work.done forms).at c.offset = .error e ∧
        Refuses t c e c' := by
  induction fuel generalizing c forms with
  | zero => omega
  | succ fuel ih =>
    rw [readForms]
    refine (skipGap_obeys .whole (w := .done forms) trivial (by omega)).after ?_
    rintro _ c₁ ⟨moves, ends, same⟩
    refine Obeys.atEnd (fun ended => ?_) fun inside => ?_
    · refine Obeys.pure ⟨same.trans (Course.whole.onward_end ended), ?_⟩
      have calls := moves.calls
      omega
    have expects : (Work.done forms).Expects t c₁.offset := expects_done ends inside forms
    have first := (form_items_obey .whole t fuel).1 (.done forms) c₁ trivial expects
      (by have := moves.forward; omega)
    refine Obeys.bind (first.weaken (fun _ _ => id) ?_) ?_
    · rintro e c' ⟨refuses, same'⟩
      exact ⟨same.trans same', moves.then_refuses refuses⟩
    rintro v c₂ ⟨advances, same₂⟩
    have before := moves.then_advances advances
    have further := before.forward
    have inside₂ := before.inside
    have calls₂ := before.calls
    refine (ih (v :: forms) (by omega)).weaken ?_ ?_
    · rintro fs c' ⟨same', calls⟩
      exact ⟨same.trans (same₂.trans same'), by omega⟩
    · rintro e c' ⟨same', refuses⟩
      exact ⟨same.trans (same₂.trans same'), before.then_refuses refuses⟩

def firstFrom (t : Text) (i : Nat) : Except ReadError (Option Value) := do
  let first ← Course.first.onward t (Work.done []).at i
  pure (first.map Prod.fst)

theorem readFirst_obeys (enough : 2 * (t.size - c.offset) + 4 ≤ fuel) :
    (readFirst t fuel).Obeys c
      (fun o c' => firstFrom t c.offset = .ok o ∧ c'.calls ≤ c.calls + (t.size - c.offset) + 1)
      fun e c' => firstFrom t c.offset = .error e ∧ Refuses t c e c' := by
  refine (skipGap_obeys .first (w := .done []) rfl (by omega)).after ?_
  rintro _ c₁ ⟨moves, ends, same⟩
  have forward := moves.forward
  refine Obeys.atEnd (fun ended => ?_) fun inside => ?_
  · refine Obeys.pure ⟨?_, by rw [moves.calls]; omega⟩
    rw [firstFrom, same, Course.first.onward_end ended]
    rfl
  have form := (form_items_obey .first t fuel).1 (.done []) c₁ rfl (expects_done ends inside [])
    (by omega)
  refine Obeys.bind (form.weaken (fun _ _ => id) ?_) ?_
  · rintro e c' ⟨refuses, same'⟩
    refine ⟨?_, moves.then_refuses refuses⟩
    rw [firstFrom, same, same']
    rfl
  rintro v c' ⟨advances, same'⟩
  obtain ⟨further, inside', calls⟩ := moves.then_advances advances
  have found : Course.first.onward t ((Work.done []).push v).at c'.offset =
      .ok (some (v, t.bytes.drop c'.offset)) := firstForm_done v _ _
  refine Obeys.pure ⟨?_, by omega⟩
  rw [firstFrom, same, same', found]
  rfl

/-- What the automaton comes to is what the descent comes to. -/
theorem Obeys.agrees {α : Type} {x : Descent α} {o : Except ReadError α}
    (h : x.Obeys c (fun a c' => o = .ok a ∧ c'.calls ≤ c.calls + (t.size - c.offset) + 1)
      fun e c' => o = .error e ∧ Refuses t c e c') :
    ∃ c', x.exec c = (o.mapError .refused, c') ∧ c'.calls ≤ c.calls + (t.size - c.offset) + 1 ∧
      ∀ e, o = .error e → ∃ i, i ≤ t.size ∧ e.position = positionAt t i := by
  unfold Obeys at h
  split at h
  · rename_i a c' run
    obtain ⟨rfl, few⟩ := h
    refine ⟨c', run, few, ?_⟩
    rintro e ⟨⟩
  · rename_i e c' run
    obtain ⟨rfl, place, few⟩ := h
    refine ⟨c', run, few, ?_⟩
    rintro e ⟨⟩
    exact place
  · exact h.elim
  · exact h.elim

end

end Descent

open Descent in
/-- Granted enough steps for the length of a text, the descent reads a form or the rest of a bracket
from any offset: it takes some bytes and none beyond the end, or it refuses the text at a position
in it. No byte is asked for where there is none. Reading all forms of a text, or the first, comes to
what the automaton comes to, and at most one form more is begun than there are bytes. -/
theorem descent_makes_progress (t : Text) (more : Nat) :
    let fuel := 2 * t.size + 4 + more
    (∀ c, (readForm t fuel).Obeys c (fun _ => Advances t c) (Refuses t c)) ∧
    (∀ b items c, (readItems t fuel b items).Obeys c (fun _ => Advances t c) (Refuses t c)) ∧
    (∃ c, (readForms t fuel []).exec ⟨0, 0⟩ = ((readAll t).mapError .refused, c) ∧
      c.calls ≤ t.size + 1) ∧
    (∃ c, (Descent.readFirst t fuel).exec ⟨0, 0⟩ =
        ((MiniLisp.readFirst t).mapError .refused, c) ∧ c.calls ≤ t.size + 1) ∧
    ∀ e, readAll t = .error e ∨ MiniLisp.readFirst t = .error e →
      ∃ i, i ≤ t.size ∧ e.position = positionAt t i := by
  intro fuel
  obtain ⟨form, items⟩ := form_items_obey .whole t fuel
  have whole : (readForms t fuel []).Obeys ⟨0, 0⟩ _ _ := readForms_obeys [] (by dsimp only; omega)
  have first : (Descent.readFirst t fuel).Obeys ⟨0, 0⟩ _ _ := readFirst_obeys (by dsimp only; omega)
  obtain ⟨c, ran, few, placed⟩ := whole.agrees
  obtain ⟨c', ran', few', placed'⟩ := first.agrees
  have all : Course.whole.onward t (Work.done []).at 0 = readAll t := rfl
  have start : firstFrom t 0 = MiniLisp.readFirst t := rfl
  rw [all] at ran placed
  rw [start] at ran' placed'
  rw [Nat.zero_add, Nat.sub_zero] at few few'
  refine ⟨fun c => ?_, fun b vs c => ?_, ⟨c, ran, few⟩, ⟨c', ran', few'⟩, ?_⟩
  · -- a form that a dereferencing sign waits for may begin anywhere
    refine (form (Work.done []).awaiting c trivial (expects_awaiting _ _ _) (by omega)).weaken
      (fun _ _ => And.left) fun _ _ => And.left
  · exact (items (.done []) b .start vs c trivial (by omega)).weaken (fun _ _ => And.left)
      fun _ _ => And.left
  · rintro e (refused | refused)
    · exact placed e refused
    · exact placed' e refused

end MiniLisp
