import MiniLisp.Proofs.Grammar

/-! A text may be read as a whole or up to the end of its first form, and both go on in the same way
as long as they go on. Following a derivation is an induction over it; finding one is an induction
on the length of the text. -/
namespace MiniLisp

namespace Reader

theorem ok_of_bind {ε α β : Type} {x : Except ε α} {f : α → Except ε β} {b : β}
    (h : x >>= f = .ok b) : ∃ a, x = .ok a ∧ f a = .ok b := by
  cases x with
  | error e => cases h
  | ok a => exact ⟨a, rfl, h⟩

theorem suffix_deliver (v : Value) (forms : List Value) (stack : List Pending) :
    forms <:+ (deliver v forms stack).2 := by
  induction stack generalizing v with
  | nil => exact List.suffix_cons v forms
  | cons pending stack ih =>
    cases pending with
    | bracket b start items => exact List.suffix_refl forms
    | deref => exact ih (derefOf v)

namespace State

variable {s s' : State} {b : UInt8}

theorem suffix_emit (s : State) (v : Value) : s.forms <:+ (s.emit v).forms :=
  suffix_deliver v s.forms s.stack

theorem suffix_endToken (h : s.endToken = .ok s') : s.forms <:+ s'.forms := by
  rw [endToken] at h
  split at h
  · split at h
    · cases h
      exact s.suffix_emit _
    · cases h
  · cases h
    exact List.suffix_refl _

theorem suffix_close {k : Bracket} (h : s.close k = .ok s') : s.forms <:+ s'.forms := by
  rw [close] at h
  split at h
  · split at h
    · split at h
      · cases h
        exact suffix_deliver _ s.forms _
      · cases h
    · cases h
  · cases h

theorem suffix_open (h : s.open b = .ok s') : s.forms <:+ s'.forms := by
  rw [State.open] at h
  split at h
  · cases h
    exact List.suffix_refl _
  · split at h
    · cases h
      exact List.suffix_refl _
    · split at h
      · cases h
        exact List.suffix_refl _
      · split at h
        · cases h
          exact List.suffix_refl _
        · split at h
          · cases h
            exact List.suffix_refl _
          · split at h
            · have closed := suffix_close h
              exact closed
            · cases h
              exact List.suffix_refl _

theorem suffix_consume (h : s.consume b = .ok s') : s.forms <:+ s'.forms := by
  rw [consume] at h
  split at h
  · exact suffix_open h
  · cases h
    exact List.suffix_refl _
  · cases h
    exact List.suffix_refl _
  · split at h
    · cases h
      exact suffix_deliver _ s.forms s.stack
    · split at h
      · cases h
        exact List.suffix_refl _
      · cases h
        exact List.suffix_refl _
  · split at h
    · cases h
      exact List.suffix_refl _
    · cases h

/-- No byte takes a finished form away. -/
theorem suffix_step (h : s.step b = .ok s') : s.forms <:+ s'.forms := by
  obtain ⟨s₁, settled, consumed⟩ := ok_of_bind h
  refine List.IsSuffix.trans ?_ (suffix_consume consumed)
  rw [settle] at settled
  split at settled
  · exact suffix_endToken settled
  · cases settled
    exact List.suffix_refl _

theorem suffix_foldlM {u : List UInt8} (h : u.foldlM step s = .ok s') : s.forms <:+ s'.forms := by
  induction u generalizing s with
  | nil =>
    cases h
    exact List.suffix_refl _
  | cons b u ih =>
    rw [List.foldlM_cons] at h
    obtain ⟨s₁, first, rest⟩ := ok_of_bind h
    exact (suffix_step first).trans (ih rest)

end State

structure Course (α : Type) where
  read : State → List UInt8 → Except ReadError α
  /-- What a text that ends comes to. -/
  last : List Value → Except ReadError α
  /-- What the next byte comes to, when it ended a token or there was none. -/
  next : State → UInt8 → List UInt8 → Except ReadError α
  /-- With which finished forms the next byte is taken. -/
  GoesOn : List Value → Prop
  read_nil : ∀ s, read s [] = s.finish >>= last
  read_cons : ∀ s b t, read s (b :: t) = s.settle b >>= fun s => next s b t
  next_eq : ∀ {s}, GoesOn s.forms → ∀ b t, next s b t = s.consume b >>= (read · t)
  fewer : ∀ {forms forms'}, forms <:+ forms' → GoesOn forms' → GoesOn forms

namespace Course

def whole : Course (List Value) where
  read s t := t.foldlM State.step s >>= State.finish
  last := pure
  next s b t := s.consume b >>= fun s => t.foldlM State.step s >>= State.finish
  GoesOn _ := True
  read_nil s := by simp
  read_cons s b t := by
    rw [List.foldlM_cons, State.step]
    simp only [bind_assoc]
  next_eq _ _ _ := rfl
  fewer _ _ := trivial

def first : Course (Option (Value × List UInt8)) where
  read := State.firstForm
  last forms := pure (forms.head?.map (·, []))
  next s b t :=
    match s.forms with
    | v :: _ => pure (some (v, b :: t))
    | [] => s.consume b >>= (·.firstForm t)
  GoesOn forms := forms = []
  read_nil _ := rfl
  read_cons _ _ _ := rfl
  next_eq none _ _ := by rw [none]
  fewer suffix none := List.suffix_nil.mp (none ▸ suffix)

variable {α : Type} (k : Course α) {s s' : State} {w : Work} {p q : Position} {a : α}
variable {t r : List UInt8} {b : UInt8}

/-- A byte that the automaton takes is behind it. -/
theorem read_step (h : s.step b = .ok s') (go : k.GoesOn s'.forms) (t : List UInt8) :
    k.read s (b :: t) = k.read s' t := by
  rw [State.step] at h
  obtain ⟨s₁, settled, consumed⟩ := ok_of_bind h
  rw [k.read_cons, settled]
  show k.next s₁ b t = _
  rw [k.next_eq (k.fewer (State.suffix_consume consumed) go), consumed]
  rfl

/-- Bytes that the automaton takes are behind it. -/
theorem read_append {u : List UInt8} (h : u.foldlM State.step s = .ok s')
    (go : k.GoesOn s'.forms) (r : List UInt8) : k.read s (u ++ r) = k.read s' r := by
  induction u generalizing s with
  | nil =>
    cases h
    rfl
  | cons b u ih =>
    rw [List.foldlM_cons] at h
    obtain ⟨s₁, step, rest⟩ := ok_of_bind h
    rw [List.cons_append, k.read_step step (k.fewer (State.suffix_foldlM rest) go), ih rest]

/-- Outside of a token the next byte is taken at once. -/
theorem read_cons_of_no_token (h : s.endToken = .ok s) (go : k.GoesOn s.forms) (b : UInt8)
    (t : List UInt8) : k.read s (b :: t) = s.consume b >>= (k.read · t) := by
  rw [k.read_cons, settle_of_no_token h]
  exact k.next_eq go b t

theorem read_at (go : k.GoesOn w.forms) (p : Position) (b : UInt8) (t : List UInt8) :
    k.read (w.at p) (b :: t) = (w.at p).open b >>= (k.read · t) :=
  k.read_cons_of_no_token rfl go b t

/-- Where a token may end, it is as good as ended. -/
theorem read_inToken {start : Position} {bytes : List UInt8} {v : Value}
    (h : Token.value bytes.reverse = .ok v) (hr : Delimited r) :
    k.read (w.inToken start bytes p) r = k.read ((w.push v).at p) r := by
  have ended : (w.inToken start bytes p).endToken = .ok ((w.push v).at p) := by
    simp only [State.endToken, Work.inToken, h]
    rfl
  cases r with
  | nil =>
    have finished : (w.inToken start bytes p).finish = ((w.push v).at p).finish := by
      rw [State.finish, State.finish]
      simp only [ended]
      rfl
    rw [k.read_nil, k.read_nil, finished]
  | cons b r =>
    have settled : (w.inToken start bytes p).settle b = ((w.push v).at p).settle b := by
      rw [State.settle, State.settle, if_pos (hr b rfl), if_pos (hr b rfl), ended]
      rfl
    rw [k.read_cons, k.read_cons, settled]

/-- Where a token may end, what it has no value for is refused. -/
theorem read_inToken_error {start : Position} {bytes : List UInt8} {fault : ReadFault}
    (h : Token.value bytes.reverse = .error fault) (hr : Delimited r) :
    k.read (w.inToken start bytes p) r = .error ⟨start, fault⟩ := by
  have refused : (w.inToken start bytes p).endToken = .error ⟨start, fault⟩ := by
    simp only [State.endToken, Work.inToken, h]
  cases r with
  | nil =>
    rw [k.read_nil, State.finish]
    simp only [Work.inToken] at refused ⊢
    rw [refused]
    rfl
  | cons b r =>
    rw [k.read_cons, State.settle, if_pos (hr b rfl), refused]
    rfl

end Course

def Work.pushAll (w : Work) (vs : List Value) : Work := vs.foldl Work.push w

theorem pushAll_top (forms vs : List Value) :
    (⟨[], forms⟩ : Work).pushAll vs = ⟨[], vs.reverse ++ forms⟩ := by
  induction vs generalizing forms with
  | nil => rfl
  | cons v vs ih =>
    rw [List.reverse_cons, List.append_assoc]
    exact ih (v :: forms)

theorem pushAll_open (w : Work) (b : Bracket) (start : Position) (items vs : List Value) :
    (w.open b start items).pushAll vs = w.open b start (vs.reverse ++ items) := by
  induction vs generalizing items with
  | nil => rfl
  | cons v vs ih =>
    rw [List.reverse_cons, List.append_assoc]
    exact ih (v :: items)

def Work.awaiting (w : Work) : Work := ⟨.deref :: w.stack, w.forms⟩

variable {α : Type} (k : Course α) {w : Work} {t r u : List UInt8} {v : Value}

theorem read_gap (h : Gap t r) (go : k.GoesOn w.forms) (p : Position) :
    ∃ q, k.read (w.at p) t = k.read (w.at q) r := by
  cases h with
  | trivia r h =>
    obtain ⟨q, hq⟩ := foldlM_trivia h w p
    exact ⟨q, k.read_append hq go r⟩
  | @unended t c h hc =>
    obtain ⟨q, hq⟩ := foldlM_trivia h w p
    obtain ⟨q', hc⟩ := foldlM_comment hc w (q.advance Byte.semicolon)
    refine ⟨q', ?_⟩
    have opened : (w.at q).open Byte.semicolon = .ok (w.inComment (q.advance Byte.semicolon)) := rfl
    have inside := k.read_append hc go []
    have ended : k.read (w.inComment q') [] = k.read (w.at q') [] := by
      rw [k.read_nil, k.read_nil]
      rfl
    rw [List.append_nil] at inside
    rw [k.read_append hq go, k.read_at go, opened]
    exact inside.trans ended

def Work.inEscape (w : Work) (bytes : List UInt8) (p : Position) : State :=
  { w.at p with mode := .escape bytes }

theorem consume_quote (w : Work) (bytes : List UInt8) (p : Position) :
    (w.inString bytes p).consume Byte.quote =
      .ok ((w.push (.str (.ofBytes bytes.reverse))).at (p.advance Byte.quote)) := rfl

theorem consume_backslash (w : Work) (bytes : List UInt8) (p : Position) :
    (w.inString bytes p).consume Byte.backslash =
      .ok (w.inEscape bytes (p.advance Byte.backslash)) := rfl

theorem consume_plain (w : Work) (bytes : List UInt8) (p : Position) {b : UInt8}
    (noQuote : b ≠ Byte.quote) (noBackslash : b ≠ Byte.backslash) :
    (w.inString bytes p).consume b = .ok (w.inString (b :: bytes) (p.advance b)) := by
  simp [State.consume, Work.inString, Work.at, noQuote, noBackslash]

theorem consume_escaped (w : Work) (bytes : List UInt8) (p : Position) {b c : UInt8}
    (h : unescape? b = some c) :
    (w.inEscape bytes p).consume b = .ok (w.inString (c :: bytes) (p.advance b)) := by
  simp [State.consume, Work.inString, Work.inEscape, Work.at, h]

theorem read_chars {cs : List UInt8} (h : Chars t cs r) (go : k.GoesOn w.forms)
    (bytes : List UInt8) (p : Position) :
    ∃ q, k.read (w.inString bytes p) t =
      k.read ((w.push (.str (.ofBytes (bytes.reverse ++ cs)))).at q) r := by
  induction h generalizing bytes p with
  | close r =>
    refine ⟨p.advance Byte.quote, ?_⟩
    rw [k.read_cons_of_no_token rfl go, consume_quote, List.append_nil]
    rfl
  | @plain b t cs r noQuote noBackslash _ ih =>
    obtain ⟨q, hq⟩ := ih (b :: bytes) (p.advance b)
    refine ⟨q, ?_⟩
    rw [k.read_cons_of_no_token rfl go, consume_plain w bytes p noQuote noBackslash]
    refine hq.trans ?_
    rw [List.reverse_cons, List.append_assoc]
    rfl
  | @escaped b c t cs r escape _ ih =>
    obtain ⟨q, hq⟩ := ih (c :: bytes) ((p.advance Byte.backslash).advance b)
    refine ⟨q, ?_⟩
    rw [k.read_cons_of_no_token rfl go, consume_backslash]
    show k.read (w.inEscape bytes (p.advance Byte.backslash)) (b :: t) = _
    rw [k.read_cons_of_no_token rfl go, consume_escaped w bytes _ (unescape?_iff.mpr escape)]
    refine hq.trans ?_
    rw [List.reverse_cons, List.append_assoc]
    rfl

theorem read_token {bs : List UInt8} (nonempty : bs ≠ [])
    (undivided : ∀ b ∈ bs, Token.isDelimiter b = false) (noDeref : bs.head? ≠ some Byte.atSign)
    (hr : Delimited r) (hv : Token.value bs = .ok v) (go : k.GoesOn w.forms) (p : Position) :
    ∃ q, k.read (w.at p) (bs ++ r) = k.read ((w.push v).at q) r := by
  obtain ⟨q, hq⟩ := foldlM_whole_token nonempty undivided noDeref w p
  refine ⟨q, ?_⟩
  exact (k.read_append hq go r).trans (k.read_inToken (by rwa [List.reverse_reverse]) hr)

theorem read_bracket (b : Bracket) {vs : List Value} (go : k.GoesOn w.forms)
    (inside : ∀ {w : Work}, (∀ us, k.GoesOn (w.pushAll us).forms) → ∀ p,
      ∃ q, k.read (w.at p) t = k.read ((w.pushAll vs).at q) (b.closer :: r))
    (hv : enclosed b vs = .ok v) (p : Position) :
    ∃ q, k.read (w.at p) (b.opener :: t) = k.read ((w.push v).at q) r := by
  obtain ⟨q, hq⟩ := inside (w := w.open b (p.advance b.opener) [])
    (fun us => by rwa [pushAll_open]) (p.advance b.opener)
  refine ⟨q.advance b.closer, ?_⟩
  rw [k.read_at go, open_opener]
  refine hq.trans ?_
  rw [pushAll_open, k.read_at (w := w.open b _ _) go, open_closer w _ q (by simpa using hv)]
  rfl

mutual

/-- A form is read where it stands, whatever is still open. -/
theorem read_form {w : Work} {t r : List UInt8} {v : Value} (h : Form t v r)
    (go : k.GoesOn w.forms) (p : Position) :
    ∃ q, k.read (w.at p) t = k.read ((w.push v).at q) r := by
  match h with
  | .list forms => exact read_bracket k .round go (read_forms forms) rfl p
  | .vec forms => exact read_bracket k .square go (read_forms forms) rfl p
  | .map forms gathers =>
    refine read_bracket k .curly go (read_forms forms) ?_ p
    rw [enclosed_alternating, Table.ofPairs_eq, gathers.eq_ofPairs]
  | .deref gap form =>
    obtain ⟨q, hq⟩ := read_gap k (w := w.awaiting) gap go (p.advance Byte.atSign)
    obtain ⟨q', hq'⟩ := read_form (w := w.awaiting) form go q
    exact ⟨q', (k.read_at go p Byte.atSign _).trans (hq.trans hq')⟩
  | .string chars =>
    obtain ⟨q, hq⟩ := read_chars k chars go [] (p.advance Byte.quote)
    exact ⟨q, (k.read_at go p Byte.quote _).trans hq⟩
  | .token nonempty undivided noDeref hr denotes =>
    exact read_token k nonempty undivided noDeref hr (value_iff.mpr denotes) go p

theorem read_forms {w : Work} {t r : List UInt8} {vs : List Value} (h : Forms t vs r)
    (go : ∀ us, k.GoesOn (w.pushAll us).forms) (p : Position) :
    ∃ q, k.read (w.at p) t = k.read ((w.pushAll vs).at q) r := by
  match h with
  | .none gap => exact read_gap k gap (go []) p
  | .cons gap form forms =>
    obtain ⟨q, hq⟩ := read_gap k (w := w) gap (go []) p
    obtain ⟨q', hq'⟩ := read_form (w := w) form (go []) q
    obtain ⟨q'', hq''⟩ := read_forms (w := w.push _) forms (fun us => go (_ :: us)) q'
    exact ⟨q'', hq.trans (hq'.trans hq'')⟩

end

section Derived

variable {a : α}

/-- What stands at the beginning of a text from which something is read on. -/
inductive Found (w : Work) (a : α) (t : List UInt8) : Prop where
  | nothing (q : Position) : Gap t [] → (w.at q).finish >>= k.last = .ok a → Found w a t
  | closer {b : Bracket} {r : List UInt8} (q : Position) : Gap t (b.closer :: r) →
      k.read (w.at q) (b.closer :: r) = .ok a → Found w a t
  | form {u r : List UInt8} {v : Value} (q : Position) : Gap t u → Form u v r →
      k.read ((w.push v).at q) r = .ok a → Found w a t

variable {k}

theorem Found.skip {b : UInt8} (h : Found k w a t)
    (before : ∀ {r : List UInt8}, Gap t r → Gap (b :: t) r) : Found k w a (b :: t) := by
  cases h with
  | nothing q gap finished => exact .nothing q (before gap) finished
  | closer q gap rest => exact .closer q (before gap) rest
  | form q gap form rest => exact .form q (before gap) form rest

theorem Found.skip_comment {c : List UInt8} (h : Found k w a t) (hc : Byte.newline ∉ c) :
    Found k w a (Byte.semicolon :: c ++ Byte.newline :: t) := by
  cases h with
  | nothing q gap finished => exact .nothing q (gap.comment hc) finished
  | closer q gap rest => exact .closer q (gap.comment hc) rest
  | form q gap form rest => exact .form q (gap.comment hc) form rest

theorem escape_of_read (go : k.GoesOn w.forms) {bytes : List UInt8} {p : Position}
    (h : k.read (w.inEscape bytes p) t = .ok a) :
    ∃ b c r, t = b :: r ∧ Escape b c ∧
      k.read (w.inString (c :: bytes) (p.advance b)) r = .ok a := by
  cases t with
  | nil =>
    rw [k.read_nil] at h
    cases h
  | cons b r =>
    rw [k.read_cons_of_no_token rfl go] at h
    cases hb : unescape? b with
    | none =>
      simp only [State.consume, Work.inEscape, hb] at h
      cases h
    | some c =>
      rw [consume_escaped w bytes p hb] at h
      exact ⟨b, c, r, rfl, unescape?_iff.mp hb, h⟩

/-- The text goes on with the rest of a string. -/
theorem chars_of_read (go : k.GoesOn w.forms) {t bytes : List UInt8} {p : Position}
    (h : k.read (w.inString bytes p) t = .ok a) :
    ∃ cs r q, Chars t cs r ∧
      k.read ((w.push (.str (.ofBytes (bytes.reverse ++ cs)))).at q) r = .ok a := by
  match t with
  | [] =>
    rw [k.read_nil] at h
    cases h
  | b :: t =>
    rw [k.read_cons_of_no_token rfl go] at h
    by_cases quote : b = Byte.quote
    · subst quote
      rw [consume_quote] at h
      refine ⟨[], t, p.advance Byte.quote, .close t, ?_⟩
      rw [List.append_nil]
      exact h
    · by_cases backslash : b = Byte.backslash
      · subst backslash
        rw [consume_backslash] at h
        obtain ⟨c, d, r, rfl, hd, rest⟩ := escape_of_read go h
        obtain ⟨cs, r', q, chars, rest⟩ := chars_of_read go rest
        refine ⟨d :: cs, r', q, .escaped hd chars, ?_⟩
        rwa [List.reverse_cons, List.append_assoc] at rest
      · rw [consume_plain w bytes p quote backslash] at h
        obtain ⟨cs, r, q, chars, rest⟩ := chars_of_read go h
        refine ⟨b :: cs, r, q, .plain quote backslash chars, ?_⟩
        rwa [List.reverse_cons, List.append_assoc] at rest

/-- The text goes on with the rest of a token and with what comes behind that. -/
theorem token_of_read (go : k.GoesOn w.forms) {start p : Position} {bytes : List UInt8}
    (h : k.read (w.inToken start bytes p) t = .ok a) :
    ∃ bs r v q, t = bs ++ r ∧ (∀ b ∈ bs, Token.isDelimiter b = false) ∧ Delimited r ∧
      Token.value (bytes.reverse ++ bs) = .ok v ∧ k.read ((w.push v).at q) r = .ok a := by
  have undivided : ∀ b ∈ t.takeWhile (!Token.isDelimiter ·), Token.isDelimiter b = false :=
    fun b hb => by simpa using List.mem_takeWhile_imp hb
  have delimited : Delimited (t.dropWhile (!Token.isDelimiter ·)) := by
    intro b hb
    have last := List.head?_dropWhile_not (!Token.isDelimiter ·) t
    rw [hb] at last
    simpa using last
  obtain ⟨q, hq⟩ := foldlM_token undivided w start bytes p
  have rest := k.read_append hq go (t.dropWhile (!Token.isDelimiter ·))
  rw [List.takeWhile_append_dropWhile, h] at rest
  cases hv : Token.value (bytes.reverse ++ t.takeWhile (!Token.isDelimiter ·)) with
  | error fault =>
    rw [k.read_inToken_error (by simpa using hv) delimited] at rest
    cases rest
  | ok v =>
    rw [k.read_inToken (by simpa using hv) delimited] at rest
    exact ⟨_, _, v, q, List.takeWhile_append_dropWhile.symm, undivided, delimited, hv, rest.symm⟩

/-- A comment goes on to the end of its line, or of the text. -/
theorem comment_of_read (go : k.GoesOn w.forms) {p : Position}
    (h : k.read (w.inComment p) t = .ok a) :
    (Byte.newline ∉ t ∧ ∃ q, (w.at q).finish >>= k.last = .ok a) ∨
      ∃ c r q, t = c ++ Byte.newline :: r ∧ Byte.newline ∉ c ∧ k.read (w.at q) r = .ok a := by
  by_cases ends : Byte.newline ∈ t
  · obtain ⟨c, r, rfl, hc⟩ := List.eq_append_cons_of_mem ends
    obtain ⟨q, hq⟩ := foldlM_comment hc w p
    rw [k.read_append hq go, k.read_cons_of_no_token rfl go] at h
    exact .inr ⟨c, r, q.advance Byte.newline, rfl, hc, h⟩
  · obtain ⟨q, hq⟩ := foldlM_comment ends w p
    have inside := k.read_append hq go []
    rw [List.append_nil, h, k.read_nil] at inside
    exact .inl ⟨ends, q, inside.symm⟩

theorem opener_of_opened? {b : UInt8} {c : Bracket} (h : Bracket.opened? b = some c) :
    b = c.opener := by
  rw [Bracket.opened?] at h
  exact (of_decide_eq_true (List.find?_some h :)).symm

theorem closer_of_closed? {b : UInt8} {c : Bracket} (h : Bracket.closed? b = some c) :
    b = c.closer := by
  rw [Bracket.closed?] at h
  exact (of_decide_eq_true (List.find?_some h :)).symm

theorem open_closes (b : Bracket) (w : Work) (p : Position) :
    (w.at p).open b.closer = State.close (w.at (p.advance b.closer)) b := by
  cases b <;> rfl

/-- Only an open bracket of the same kind is closed, and only if it encloses something. -/
theorem closed_of_read {b c : Bracket} {start q : Position} {items : List Value}
    (go : k.GoesOn w.forms)
    (h : k.read ((w.open b start items).at q) (c.closer :: r) = .ok a) :
    c = b ∧ ∃ v q', enclosed b items.reverse = .ok v ∧ k.read ((w.push v).at q') r = .ok a := by
  rw [k.read_at (w := w.open b start items) go, open_closes] at h
  obtain ⟨s, closes, rest⟩ := ok_of_bind h
  rw [State.close] at closes
  simp only [Work.at, Work.open] at closes
  split at closes
  · rename_i same
    split at closes
    · rename_i v hv
      cases closes
      exact ⟨same.symm, v, _, same ▸ hv, rest⟩
    · cases closes
  · cases closes

theorem toValue_of_mapKey {v : Value} {key : Key} (h : mapKey v = .ok key) : v = key.toValue := by
  rw [mapKey] at h
  cases v with
  | str t =>
    cases h
    rfl
  | kw name =>
    cases h
    rfl
  | _ => cases h

/-- What is paired up without a fault is keys and values in turn. -/
theorem alternating_of_pairUp {items : List Value} {done pairs : List (Key × Value)}
    (even : items.length % 2 = 0) (h : Value.pairUp mapKey items done = .ok pairs) :
    ∃ es, items = alternating es ∧ pairs = done.reverse ++ es := by
  match items with
  | [] =>
    cases h
    exact ⟨[], rfl, (List.append_nil _).symm⟩
  | [v] => cases even
  | k :: v :: rest =>
    obtain ⟨key, hkey, paired⟩ := ok_of_bind h
    have remaining : rest.length % 2 = 0 := by
      simp only [List.length_cons] at even
      omega
    obtain ⟨es, rfl, rfl⟩ := alternating_of_pairUp remaining paired
    refine ⟨(key, v) :: es, ?_, by simp⟩
    rw [toValue_of_mapKey hkey]
    rfl

theorem form_of_enclosed {b : Bracket} {vs : List Value} {v : Value}
    (forms : Forms t vs (b.closer :: r)) (h : enclosed b vs = .ok v) :
    Form (b.opener :: t) v r := by
  cases b with
  | round =>
    cases h
    exact .list forms
  | square =>
    cases h
    exact .vec forms
  | curly =>
    rw [enclosed] at h
    split at h
    · rename_i even
      cases paired : Value.pairUp mapKey vs [] with
      | error fault =>
        rw [paired] at h
        cases h
      | ok pairs =>
        obtain ⟨es, rfl, rfl⟩ := alternating_of_pairUp even paired
        rw [paired] at h
        cases h
        have gathered := Form.map forms (gathers_ofPairs _)
        rwa [← Table.ofPairs_eq] at gathered
    · cases h

theorem not_read_awaiting {c : Bracket} {q : Position} (go : k.GoesOn w.forms) :
    k.read (w.awaiting.at q) (c.closer :: r) ≠ .ok a := by
  intro h
  rw [k.read_at (w := w.awaiting) go, open_closes] at h
  cases h

mutual

theorem found {w : Work} {t : List UInt8} (go : k.GoesOn w.forms) {p : Position}
    (h : k.read (w.at p) t = .ok a) : Found k w a t := by
  match t with
  | [] =>
    rw [k.read_nil] at h
    exact .nothing p (.refl []) h
  | b :: t =>
    rw [k.read_at go] at h
    by_cases blank : Token.isBlank b = true
    · rw [open_blank blank] at h
      exact (found go h).skip (.blank blank)
    by_cases semicolon : b = Byte.semicolon
    · subst semicolon
      obtain ⟨unended, q, finished⟩ | ⟨c, r, q, rfl, hc, rest⟩ := comment_of_read go h
      · exact .nothing q (.unended .nil unended) finished
      · have shorter : r.length < (c ++ Byte.newline :: r).length := by
          simp
          omega
        exact (found go rest).skip_comment hc
    by_cases quote : b = Byte.quote
    · subst quote
      obtain ⟨cs, r, q, chars, rest⟩ := chars_of_read go h
      exact .form q (.refl _) (.string chars) rest
    by_cases atSign : b = Byte.atSign
    · subst atSign
      cases found (w := w.awaiting) go h with
      | nothing q gap finished => cases finished
      | closer q gap rest => exact absurd rest (not_read_awaiting go)
      | form q gap form rest => exact .form q (.refl _) (.deref gap form) rest
    cases opened : Bracket.opened? b with
    | some c =>
      obtain rfl := opener_of_opened? opened
      rw [open_opener] at h
      obtain ⟨vs, r, v, q, forms, hv, rest⟩ := enclosed_of_read go h
      exact .form q (.refl _) (form_of_enclosed forms hv) rest
    | none =>
      cases closed : Bracket.closed? b with
      | some c =>
        obtain rfl := closer_of_closed? closed
        exact .closer p (.refl _) ((k.read_at go p _ t).trans h)
      | none =>
        have undivided : Token.isDelimiter b = false := by
          simp [Token.isDelimiter, blank, semicolon, quote, opened, closed]
        rw [open_token undivided atSign] at h
        obtain ⟨bs, r, v, q, rfl, inside, delimited, hv, rest⟩ := token_of_read go h
        have token : Form (b :: bs ++ r) v r := by
          refine .token (List.cons_ne_nil b bs) ?_ (by simpa using atSign) delimited
            (value_iff.mp hv)
          simpa using ⟨undivided, inside⟩
        exact .form q (.refl _) token rest
termination_by (t.length, 0)

theorem enclosed_of_read {w : Work} {t : List UInt8} (go : k.GoesOn w.forms) {b : Bracket}
    {start p : Position} {items : List Value}
    (h : k.read ((w.open b start items).at p) t = .ok a) :
    ∃ vs r v q, Forms t vs (b.closer :: r) ∧ enclosed b (items.reverse ++ vs) = .ok v ∧
      k.read ((w.push v).at q) r = .ok a := by
  cases found (w := w.open b start items) go h with
  | nothing q gap finished => cases finished
  | @closer c r q gap rest =>
    obtain ⟨rfl, v, q', hv, rest⟩ := closed_of_read go rest
    exact ⟨[], r, v, q', .none gap, by simpa using hv, rest⟩
  | @form u r v q gap form rest =>
    have shorter : r.length < t.length := form.length_lt.trans_le gap.length_le
    obtain ⟨vs, r', v', q', forms, hv, rest⟩ := enclosed_of_read go rest
    exact ⟨v :: vs, r', v', q', .cons gap form forms, by simpa using hv, rest⟩
termination_by (t.length, 1)

end

end Derived

def Work.done (forms : List Value) : Work := ⟨[], forms⟩

/-- Where nothing is open no closer is read. -/
theorem not_read_closer {k : Course α} {forms : List Value} {b : Bracket} {r : List UInt8}
    {q : Position} {a : α} (go : k.GoesOn forms) :
    k.read ((Work.done forms).at q) (b.closer :: r) ≠ .ok a := by
  intro h
  rw [k.read_at (w := .done forms) go, open_closes] at h
  cases h

theorem whole_of_forms {t : List UInt8} {vs : List Value} (h : Forms t vs []) (p : Position) :
    Course.whole.read ((Work.done []).at p) t = .ok vs := by
  obtain ⟨q, hq⟩ := read_forms Course.whole (w := .done []) h (fun _ => trivial) p
  rw [hq, Course.read_nil, Work.done, pushAll_top, List.append_nil]
  show Except.ok vs.reverse.reverse = _
  rw [List.reverse_reverse]

theorem forms_of_whole {t : List UInt8} {p : Position} (forms : List Value) {fs : List Value}
    (h : Course.whole.read ((Work.done forms).at p) t = .ok fs) :
    ∃ vs, Forms t vs [] ∧ fs = forms.reverse ++ vs := by
  cases found (w := .done forms) trivial h with
  | nothing q gap finished =>
    cases finished
    exact ⟨[], .none gap, (List.append_nil _).symm⟩
  | closer q gap rest => exact absurd rest (not_read_closer trivial)
  | @form u r v q gap form rest =>
    have shorter : r.length < t.length := form.length_lt.trans_le gap.length_le
    obtain ⟨vs, rests, rfl⟩ := forms_of_whole (v :: forms) rest
    exact ⟨v :: vs, .cons gap form rests, by simp⟩
termination_by t.length

/-- Behind its first form a text is not looked at. -/
theorem firstForm_done (v : Value) (q : Position) (r : List UInt8) :
    ((Work.done [v]).at q).firstForm r = .ok (some (v, r)) := by
  cases r with
  | nil => rfl
  | cons b r =>
    rw [State.firstForm, settle_of_no_token rfl]
    rfl

theorem first_of_form {t u r : List UInt8} {v : Value} (gap : Gap t u) (form : Form u v r)
    (p : Position) : ((Work.done []).at p).firstForm t = .ok (some (v, r)) := by
  obtain ⟨q, hq⟩ := read_gap Course.first (w := .done []) gap rfl p
  obtain ⟨q', hq'⟩ := read_form Course.first (w := .done []) form rfl q
  exact hq.trans (hq'.trans (firstForm_done v q' r))

theorem first_of_gap {t : List UInt8} (gap : Gap t []) (p : Position) :
    ((Work.done []).at p).firstForm t = .ok none := by
  obtain ⟨q, hq⟩ := read_gap Course.first (w := .done []) gap rfl p
  exact hq

theorem of_first {t : List UInt8} {p : Position} {o : Option (Value × List UInt8)}
    (h : ((Work.done []).at p).firstForm t = .ok o) :
    (o = none ∧ Gap t []) ∨ ∃ u v r, o = some (v, r) ∧ Gap t u ∧ Form u v r := by
  cases found (k := .first) (w := .done []) rfl h with
  | nothing q gap finished =>
    cases finished
    exact .inl ⟨rfl, gap⟩
  | closer q gap rest => exact absurd rest (not_read_closer (k := .first) rfl)
  | @form u r v q gap form rest =>
    cases rest.symm.trans (firstForm_done v q r)
    exact .inr ⟨u, v, r, rfl, gap, form⟩

end Reader

open Reader

theorem readAll_iff {t : Text} {fs : List Value} : readAll t = .ok fs ↔ Forms t.bytes fs [] := by
  constructor
  · intro h
    obtain ⟨vs, forms, rfl⟩ := forms_of_whole (p := .start) [] h
    exact forms
  · exact fun forms => whole_of_forms forms .start

theorem readFirst_eq_some_iff {t : Text} {v : Value} :
    readFirst t = .ok (some v) ↔ ∃ u r, Gap t.bytes u ∧ Form u v r := by
  constructor
  · intro h
    obtain ⟨o, first, rest⟩ := ok_of_bind h
    obtain ⟨rfl, -⟩ | ⟨u, v', r, rfl, gap, form⟩ := of_first (p := .start) first
    · cases rest
    · cases rest
      exact ⟨u, r, gap, form⟩
  · rintro ⟨u, r, gap, form⟩
    have first : State.start.firstForm t.bytes = .ok (some (v, r)) := first_of_form gap form .start
    rw [readFirst, first]
    rfl

theorem readFirst_eq_none_iff {t : Text} : readFirst t = .ok none ↔ Gap t.bytes [] := by
  constructor
  · intro h
    obtain ⟨o, first, rest⟩ := ok_of_bind h
    obtain ⟨-, gap⟩ | ⟨u, v, r, rfl, -, -⟩ := of_first (p := .start) first
    · exact gap
    · cases rest
  · intro gap
    have first : State.start.firstForm t.bytes = .ok none := first_of_gap gap .start
    rw [readFirst, first]
    rfl

theorem Form.unique {t r r' : List UInt8} {v v' : Value} (h : Form t v r) (h' : Form t v' r') :
    v = v' ∧ r = r' := by
  have same := (first_of_form (.refl t) h .start).symm.trans (first_of_form (.refl t) h' .start)
  cases same
  exact ⟨rfl, rfl⟩

theorem Forms.unique {t : List UInt8} {vs vs' : List Value} (h : Forms t vs [])
    (h' : Forms t vs' []) : vs = vs' := by
  have same := (whole_of_forms h .start).symm.trans (whole_of_forms h' .start)
  cases same
  rfl

/-- A text is read as the forms that it is derived from, and there is at most one derivation. What
has none is refused. -/
theorem reader_accepts_exactly_its_grammar (t : Text) :
    (∀ fs, readAll t = .ok fs ↔ Forms t.bytes fs []) ∧
      (∀ v, readFirst t = .ok (some v) ↔ ∃ u r, Gap t.bytes u ∧ Form u v r) ∧
      (readFirst t = .ok none ↔ Gap t.bytes []) ∧
      (∀ fs fs', Forms t.bytes fs [] → Forms t.bytes fs' [] → fs = fs') ∧
      ∀ v v' r r', Form t.bytes v r → Form t.bytes v' r' → v = v' ∧ r = r' :=
  ⟨fun _ => readAll_iff, fun _ => readFirst_eq_some_iff, readFirst_eq_none_iff,
    fun _ _ h h' => h.unique h', fun _ _ _ _ h h' => h.unique h'⟩

theorem comment_may_end_a_text :
    Forms (ascii "a@b\"a\"@ b ;b").bytes
      [.sym (ascii "a@b"), .str (ascii "a"), .list #[.sym (ascii "deref"), .sym (ascii "b")]] [] :=
  ((reader_accepts_exactly_its_grammar (ascii "a@b\"a\"@ b ;b")).1 _).mp (by rfl)

/-- A colon with nothing behind it is a token that is refused, and no symbol. -/
theorem lone_colon_is_refused :
    readAll (ascii ":") = .error ⟨.start, .emptyKeyword⟩ ∧
      readAll (ascii ":") ≠ .ok [.sym (ascii ":")] := by
  have refused : readAll (ascii ":") = .error ⟨.start, .emptyKeyword⟩ := by rfl
  refine ⟨refused, ?_⟩
  rw [refused]
  intro h
  cases h

end MiniLisp
