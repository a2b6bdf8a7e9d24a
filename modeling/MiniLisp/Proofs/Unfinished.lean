import MiniLisp.Proofs.Lines

/-! A fault that is found at a byte is definite. What is lacking shows only where the text ends, and
then the open constructs say how the text may go on. Only the forms in braces may be refused then,
for they have to pair up. -/
namespace MiniLisp

namespace Reader

def State.work (s : State) : Work := ⟨s.stack, s.forms⟩

/-- What a byte outside of tokens does to the open constructs. -/
inductive Moves (b : UInt8) : Work → Work → Prop where
  | keeps (w : Work) : Moves b w w
  | gives (w : Work) (v : Value) : Moves b w (w.push v)
  | awaits (w : Work) : b = Byte.atSign → Moves b w w.awaiting
  | opens (w : Work) (k : Bracket) (start : Position) : b = k.opener →
      Moves b w (w.open k start [])
  | closes (w : Work) (k : Bracket) (start : Position) {items : List Value} {v : Value} :
      enclosed k items.reverse = .ok v → Moves b (w.open k start items) (w.push v)

abbrev Definite (e : ReadError) : Prop := e.incomplete = false

theorem token_definite (token : List UInt8) :
    Meets (fun fault : ReadFault => fault.incomplete = false) (fun _ => True)
      (Token.value token) := by
  have number : Meets (fun fault : ReadFault => fault.incomplete = false) (fun _ => True)
      (Token.integer token) := by
    rw [Token.integer]
    split
    · rfl
    · split
      · trivial
      · rfl
  rw [Token.value]
  split
  · split
    · rfl
    · trivial
  · split
    · exact number.map fun _ _ => trivial
    · trivial

/-- Brackets refuse what they enclose only if it does not pair up. -/
theorem enclosed_refuses (b : Bracket) (items : List Value) :
    Meets (fun fault => b = .curly ∧ (fault = .oddMap ∨ fault = .badMapKey)) (fun _ => True)
      (enclosed b items) := by
  have key (v : Value) : Meets (fun fault => fault = ReadFault.badMapKey) (fun _ => True)
      (mapKey v) := by
    rw [mapKey]
    split
    · trivial
    · rfl
  cases b with
  | round => trivial
  | square => trivial
  | curly =>
    rw [enclosed]
    split
    · have any : ∀ v ∈ items, (fun _ => True) v := fun _ _ => trivial
      have pairs := (Meets.pairs key any).map
        (Q := fun _ => True) (f := fun pairs => Value.map (.ofPairs pairs)) fun _ _ => trivial
      exact pairs.weaken (fun fault bad => ⟨rfl, .inr bad⟩) fun _ _ => trivial
    · exact ⟨rfl, .inl rfl⟩

namespace State

theorem endToken_moves (s : State) :
    Meets Definite (fun s' => s'.work = s.work ∨ ∃ v, s'.work = s.work.push v) s.endToken := by
  rw [endToken]
  split
  · rename_i start bytes _
    have token := token_definite bytes.reverse
    split
    · rename_i v _
      exact .inr ⟨v, rfl⟩
    · rename_i fault refused
      rw [refused] at token
      exact token
  · exact .inl rfl

theorem close_moves (s : State) (b : UInt8) (k : Bracket) :
    Meets Definite (fun s' => Moves b s.work s'.work) (s.close k) := by
  obtain ⟨position, mode, stack, forms⟩ := s
  rcases stack with _ | ⟨_ | _, stack⟩
  · rfl
  · rename_i k' start items
    simp only [close]
    split
    · rename_i same
      have inside := enclosed_refuses k items.reverse
      split
      · rename_i v closed
        exact Moves.closes ⟨stack, forms⟩ k' start (same ▸ closed)
      · rename_i fault refused
        rw [refused] at inside
        obtain ⟨-, rfl | rfl⟩ := inside
        · rfl
        · rfl
    · rfl
  · rfl

theorem open_moves (s : State) (b : UInt8) :
    Meets Definite (fun s' => Moves b s.work s'.work) (s.open b) := by
  rw [State.open]
  split
  · exact .keeps s.work
  · split
    · exact .keeps s.work
    · split
      · exact .keeps s.work
      · split
        · rename_i sign
          exact .awaits s.work sign
        · split
          · rename_i k opened
            exact .opens s.work k _ (opener_of_opened? opened)
          · split
            · exact close_moves _ b _
            · exact .keeps s.work

theorem consume_moves (s : State) (b : UInt8) :
    Meets Definite (fun s' => Moves b s.work s'.work) (s.consume b) := by
  rw [consume]
  split
  · exact open_moves s b
  · exact .keeps s.work
  · exact .keeps s.work
  · split
    · exact .gives s.work _
    · split
      · exact .keeps s.work
      · exact .keeps s.work
  · split
    · exact .keeps s.work
    · rfl

/-- A byte may end a token before it is taken, and the faults it meets are definite. -/
theorem step_moves (s : State) (b : UInt8) :
    Meets Definite
      (fun s' => ∃ w, (w = s.work ∨ ∃ v, w = s.work.push v) ∧ Moves b w s'.work) (s.step b) := by
  have settled : Meets Definite (fun s' => s'.work = s.work ∨ ∃ v, s'.work = s.work.push v)
      (s.settle b) := by
    rw [settle]
    split
    · exact s.endToken_moves
    · exact .inl rfl
  refine settled.bind fun s₁ ended => ?_
  exact (s₁.consume_moves b).weaken (fun _ definite => definite) fun _ moves => ⟨_, ended, moves⟩

theorem foldlM_definite (s : State) (bs : List UInt8) :
    Meets Definite (fun _ => True) (bs.foldlM step s) := by
  induction bs generalizing s with
  | nil => trivial
  | cons b bs ih =>
    rw [List.foldlM_cons]
    exact (s.step_moves b).bind fun s' _ => ih s'

/-- What is lacking is found where the text ends. -/
theorem exists_of_incomplete {t : Text} {e : ReadError} (h : readAll t = .error e)
    (incomplete : e.incomplete) :
    ∃ s, State.start.readOn t = .ok s ∧ s.finish = .error e := by
  cases read : State.start.readOn t with
  | error e' =>
    have definite := State.start.foldlM_definite t.bytes
    rw [← readOn, read] at definite
    rw [readAll, read] at h
    cases h
    have definite : e.incomplete = false := definite
    rw [definite] at incomplete
    cases incomplete
  | ok s =>
    rw [readAll, read] at h
    exact ⟨s, rfl, h⟩

end State

def Work.Opens (w : Work) (k : Bracket) : Prop :=
  ∃ start items, Pending.bracket k start items ∈ w.stack

theorem opens_push {w : Work} {v : Value} {k : Bracket} (h : (w.push v).Opens k) : w.Opens k := by
  obtain ⟨stack, forms⟩ := w
  induction stack generalizing v with
  | nil => exact h
  | cons pending stack ih =>
    obtain ⟨start, items, h⟩ := h
    cases pending with
    | deref =>
      obtain ⟨start, items, h⟩ := ih (v := derefOf v) ⟨start, items, h⟩
      exact ⟨start, items, List.mem_cons_of_mem _ h⟩
    | bracket k' start' items' =>
      rcases List.mem_cons.mp h with same | h
      · cases same
        exact ⟨start, items', List.mem_cons_self⟩
      · exact ⟨start, items, List.mem_cons_of_mem _ h⟩

/-- A bracket that is open now was open before, or the byte opened it. -/
theorem Moves.opens_before {b : UInt8} {w w' : Work} {k : Bracket} (h : Moves b w w')
    (opened : w'.Opens k) : w.Opens k ∨ b = k.opener := by
  cases h with
  | keeps => exact .inl opened
  | gives => exact .inl (opens_push opened)
  | awaits =>
    obtain ⟨start, items, h⟩ := opened
    rcases List.mem_cons.mp h with same | h
    · cases same
    · exact .inl ⟨start, items, h⟩
  | opens _ k' start' hb =>
    obtain ⟨start, items, h⟩ := opened
    rcases List.mem_cons.mp h with same | h
    · cases same
      exact .inr hb
    · exact .inl ⟨start, items, h⟩
  | closes w =>
    obtain ⟨start, items, h⟩ := opens_push opened
    exact .inl ⟨start, items, List.mem_cons_of_mem _ h⟩

/-- Every open bracket stands in the text. -/
theorem opener_mem {bs : List UInt8} {s s' : State} {k : Bracket}
    (h : bs.foldlM State.step s = .ok s') (opened : s'.work.Opens k) :
    s.work.Opens k ∨ k.opener ∈ bs := by
  induction bs generalizing s with
  | nil =>
    cases h
    exact .inl opened
  | cons b bs ih =>
    rw [List.foldlM_cons] at h
    obtain ⟨s₁, first, rest⟩ := ok_of_bind h
    rcases ih rest with opened | inside
    · have moves := s.step_moves b
      rw [first] at moves
      obtain ⟨w, before, moves⟩ := moves
      rcases moves.opens_before opened with opened | same
      · obtain rfl | ⟨v, rfl⟩ := before
        · exact .inl opened
        · exact .inl (opens_push opened)
      · exact .inr (List.mem_cons.mpr (.inl same.symm))
    · exact .inr (List.mem_cons_of_mem b inside)

/-- Some text behind the state leads to forms, or to forms in braces that are refused. -/
def Mendable (braces : Prop) (s : State) : Prop :=
  ∃ u, Meets (fun e => braces ∧ (e.fault = .oddMap ∨ e.fault = .badMapKey)) (fun _ => True)
    (Course.whole.read s u)

theorem Mendable.behind {braces : Prop} {s s' : State} {u : List UInt8} (h : Mendable braces s')
    (step : ∀ r, Course.whole.read s (u ++ r) = Course.whole.read s' r) : Mendable braces s := by
  obtain ⟨r, hr⟩ := h
  exact ⟨u ++ r, by rwa [step]⟩

/-- Once a form is finished, the brackets around it can be closed one by one. No dereferencing
sign waits for more than the form. -/
theorem mendable_push {braces : Prop} (v : Value) (stack : List Pending) (forms : List Value)
    (p : Position) (curly : (⟨stack, forms⟩ : Work).Opens .curly → braces) :
    Mendable braces (((⟨stack, forms⟩ : Work).push v).at p) := by
  induction stack generalizing v p with
  | nil => exact ⟨[], trivial⟩
  | cons pending stack ih =>
    have outer : (⟨stack, forms⟩ : Work).Opens .curly → braces := fun ⟨start, items, h⟩ =>
      curly ⟨start, items, List.mem_cons_of_mem _ h⟩
    cases pending with
    | deref => exact ih (derefOf v) p outer
    | bracket b start items =>
      let w : Work := ⟨stack, forms⟩
      show Mendable braces ((w.open b start (v :: items)).at p)
      cases inside : enclosed b (v :: items).reverse with
      | ok v' =>
        refine (ih v' (p.advance b.closer) outer).behind (u := [b.closer]) fun r => ?_
        rw [List.singleton_append, Course.read_at (w := w.open b _ _) _ trivial,
          open_closer w start p inside]
        rfl
      | error fault =>
        have refused := enclosed_refuses b (v :: items).reverse
        rw [inside] at refused
        obtain ⟨rfl, map⟩ := refused
        refine ⟨[Bracket.curly.closer], ?_⟩
        rw [Course.read_at (w := w.open .curly _ _) _ trivial, open_closes, State.close]
        simp only [Work.at, Work.open, if_true, inside]
        exact ⟨curly ⟨start, items, List.mem_cons_self⟩, map⟩

section

variable {braces : Prop} {w : Work} {p : Position}

theorem mendable_inToken {start : Position} {bytes : List UInt8} {v : Value}
    (h : Token.value bytes.reverse = .ok v) (curly : w.Opens .curly → braces) :
    Mendable braces (w.inToken start bytes p) := by
  refine (mendable_push v w.stack w.forms (p.advance Byte.space) curly).behind
    (u := [Byte.space]) fun r => ?_
  rw [List.singleton_append, Course.read_inToken _ h (delimited_cons (by decide)),
    Course.read_at _ trivial, open_blank (by decide)]
  rfl

/-- Where no form has begun the word `nil` can stand, also behind a dereferencing sign. -/
theorem mendable_at (curly : w.Opens .curly → braces) (p : Position) :
    Mendable braces (w.at p) := by
  have word : Mendable braces (w.inToken p (ascii "nil").bytes.reverse
      (((p.advance 110).advance 105).advance 108)) := mendable_inToken (by rfl) curly
  exact word.behind (u := (ascii "nil").bytes) (Course.read_append _ (by rfl) trivial)

theorem mendable_inComment (curly : w.Opens .curly → braces) :
    Mendable braces (w.inComment p) :=
  (mendable_at curly (p.advance Byte.newline)).behind (u := [Byte.newline])
    (Course.read_append _ (by rfl) trivial)

theorem mendable_inString (bytes : List UInt8) (curly : w.Opens .curly → braces) :
    Mendable braces (w.inString bytes p) :=
  (mendable_push (.str (.ofBytes bytes.reverse)) w.stack w.forms (p.advance Byte.quote)
    curly).behind (u := [Byte.quote]) (Course.read_append _ (by rfl) trivial)

/-- A quote behind the backslash belongs to the string. -/
theorem mendable_inEscape (bytes : List UInt8) (curly : w.Opens .curly → braces) :
    Mendable braces (w.inEscape bytes p) :=
  (mendable_inString (p := p.advance Byte.quote) (Byte.quote :: bytes) curly).behind
    (u := [Byte.quote]) (Course.read_append _ (by rfl) trivial)

/-- What lacks something can be given it. -/
theorem mendable_of_incomplete {s : State} {e : ReadError} (h : s.finish = .error e)
    (incomplete : e.incomplete) (curly : s.work.Opens .curly → braces) : Mendable braces s := by
  obtain ⟨position, mode, stack, forms⟩ := s
  cases mode with
  | between => exact mendable_at (w := ⟨stack, forms⟩) curly position
  | comment => exact mendable_inComment (w := ⟨stack, forms⟩) curly
  | string bytes => exact mendable_inString (w := ⟨stack, forms⟩) bytes curly
  | escape bytes => exact mendable_inEscape (w := ⟨stack, forms⟩) bytes curly
  | token start bytes =>
    cases token : Token.value bytes.reverse with
    | ok v => exact mendable_inToken (w := ⟨stack, forms⟩) token curly
    | error fault =>
      -- A token that stands for nothing is refused, whatever comes behind it.
      have definite := token_definite bytes.reverse
      simp only [State.finish, State.endToken, token] at h
      rw [token] at definite
      cases h
      have definite : fault.incomplete = false := definite
      rw [ReadError.incomplete, definite] at incomplete
      cases incomplete

end

end Reader

open Reader

/-- A text that is refused because it stops too early can be continued so that nothing is lacking:
it is read, or forms in braces do not pair up or have a bad key. Without braces it can be continued
so that it is read. -/
theorem incomplete_texts_can_be_completed {t : Text} {e : ReadError} (h : readAll t = .error e)
    (incomplete : e.incomplete) :
    (∃ u, (∃ forms, readAll (t ++ u) = .ok forms) ∨
      ∃ e', readAll (t ++ u) = .error e' ∧ (e'.fault = .oddMap ∨ e'.fault = .badMapKey)) ∧
    (Bracket.curly.opener ∉ t.bytes → ∃ u forms, readAll (t ++ u) = .ok forms) := by
  obtain ⟨s, read, lacking⟩ := State.exists_of_incomplete h incomplete
  have curly : s.work.Opens .curly → Bracket.curly.opener ∈ t.bytes := by
    intro opened
    rcases opener_mem read opened with ⟨start, items, none⟩ | inside
    · cases none
    · exact inside
  obtain ⟨u, mended⟩ := mendable_of_incomplete lacking incomplete curly
  have continued : readAll (t ++ .ofBytes u) = Course.whole.read s u := by
    rw [readAll, State.readOn_append, read]
    show (Text.ofBytes u).bytes.foldlM State.step s >>= State.finish = _
    rw [Text.bytes_ofBytes]
    rfl
  rw [← continued] at mended
  cases last : readAll (t ++ .ofBytes u) with
  | ok forms => exact ⟨⟨_, .inl ⟨forms, last⟩⟩, fun _ => ⟨_, forms, last⟩⟩
  | error e' =>
    rw [last] at mended
    obtain ⟨braces, fault⟩ := mended
    exact ⟨⟨_, .inr ⟨e', last, fault⟩⟩, fun without => absurd braces without⟩

/-- The text ends behind a backslash in a string that a dereferencing sign waits for. -/
theorem open_escape_can_be_completed :
    let t := ascii "[1 (@\"a\\"
    readAll t = .error ⟨⟨1, 9⟩, .unterminatedEscape⟩ ∧ Bracket.curly.opener ∉ t.bytes ∧
      ∃ u forms, readAll (t ++ u) = .ok forms := by
  intro t
  have refused : readAll t = .error ⟨⟨1, 9⟩, .unterminatedEscape⟩ := by rfl
  have without : Bracket.curly.opener ∉ t.bytes := by decide
  exact ⟨refused, without, (incomplete_texts_can_be_completed refused rfl).2 without⟩

end MiniLisp
