import Mathlib.Data.List.Basic
import MiniLisp.Printer
import MiniLisp.Reader

/-! Between two forms the automaton is determined by the open constructs and the finished forms, up
to a position that only faults show. Pieces of text can be put together as long as the next one
begins with a delimiter, so no token swallows its neighbour. -/
namespace MiniLisp

namespace Reader

structure Work where
  stack : List Pending
  forms : List Value

def Work.push (w : Work) (v : Value) : Work :=
  let (stack, forms) := deliver v w.forms w.stack
  ⟨stack, forms⟩

def Work.open (w : Work) (b : Bracket) (start : Position) (items : List Value) : Work :=
  ⟨.bracket b start items :: w.stack, w.forms⟩

def Work.at (w : Work) (p : Position) : State := ⟨p, .between, w.stack, w.forms⟩

/-- Reading the bytes ends between two forms, or in a token that ends there. -/
def Leads (bs : List UInt8) (w w' : Work) : Prop :=
  ∀ p, ∃ s q, bs.foldlM State.step (w.at p) = .ok s ∧ s.endToken = .ok (w'.at q)

/-- No token can go on into such a text. -/
def Delimited (bs : List UInt8) : Prop :=
  ∀ b, bs.head? = some b → Token.isDelimiter b = true

theorem foldlM_step_cons {s t : State} {b : UInt8} (h : s.step b = .ok t) (bs : List UInt8) :
    (b :: bs).foldlM State.step s = bs.foldlM State.step t := by
  rw [List.foldlM_cons, h]
  rfl

theorem foldlM_step_append {s t : State} {bs : List UInt8} (h : bs.foldlM State.step s = .ok t)
    (cs : List UInt8) : (bs ++ cs).foldlM State.step s = cs.foldlM State.step t := by
  rw [List.foldlM_append, h]
  rfl

theorem settle_of_no_token {s : State} (h : s.endToken = .ok s) (b : UInt8) :
    s.settle b = .ok s := by
  rw [State.settle]
  split
  · exact h
  · rfl

/-- Outside of tokens a delimiter is a byte like any other. -/
theorem step_of_no_token {s : State} (h : s.endToken = .ok s) (b : UInt8) :
    s.step b = s.consume b := by
  rw [State.step, settle_of_no_token h]
  rfl

theorem step_at (w : Work) (p : Position) (b : UInt8) : (w.at p).step b = (w.at p).open b :=
  step_of_no_token rfl b

/-- At a delimiter a token that can end is as good as ended. -/
theorem step_of_endToken {s : State} {w : Work} {p : Position} {b : UInt8}
    (h : s.endToken = .ok (w.at p)) (hb : Token.isDelimiter b = true) :
    s.step b = (w.at p).step b := by
  rw [step_at, State.step, State.settle, if_pos hb, h]
  rfl

theorem Leads.refl (w : Work) : Leads [] w w := fun p => ⟨w.at p, p, rfl, rfl⟩

theorem Leads.trans {bs cs : List UInt8} {w w' w'' : Work} (h : Leads bs w w')
    (hc : Delimited cs) (k : Leads cs w' w'') : Leads (bs ++ cs) w w'' := by
  intro p
  obtain ⟨s, q, hs, he⟩ := h p
  obtain ⟨t, r, ht, hf⟩ := k q
  cases cs with
  | nil =>
    cases ht
    refine ⟨s, r, by simpa using hs, ?_⟩
    rw [he, ← hf]
    rfl
  | cons c cs =>
    refine ⟨t, r, ?_, hf⟩
    rw [foldlM_step_append hs, ← ht, List.foldlM_cons, List.foldlM_cons,
      step_of_endToken he (hc c rfl)]

theorem delimited_nil : Delimited [] := by
  intro b h
  cases h

theorem delimited_cons {b : UInt8} {bs : List UInt8} (h : Token.isDelimiter b = true) :
    Delimited (b :: bs) := by
  intro c hc
  cases hc
  exact h

theorem Delimited.append {bs cs : List UInt8} (h : Delimited bs) (hc : bs = [] → Delimited cs) :
    Delimited (bs ++ cs) := by
  cases bs with
  | nil => exact hc rfl
  | cons b bs => exact delimited_cons (h b rfl)

/-- A first byte that leaves no token open can be read on its own. -/
theorem Leads.cons {b : UInt8} {bs : List UInt8} {w v w' : Work}
    (h : ∀ p, ∃ q, (w.at p).open b = .ok (v.at q)) (k : Leads bs v w') :
    Leads (b :: bs) w w' := by
  intro p
  obtain ⟨q, hq⟩ := h p
  obtain ⟨s, r, hs, he⟩ := k q
  refine ⟨s, r, ?_, he⟩
  rw [foldlM_step_cons (t := v.at q) (by rw [step_at, hq]), hs]

end Reader

/-- Blanks, commas and comments that a newline ends. -/
inductive Trivia : List UInt8 → Prop where
  | nil : Trivia []
  | blank {b : UInt8} {t : List UInt8} : Token.isBlank b = true → Trivia t → Trivia (b :: t)
  | comment {c t : List UInt8} : Byte.newline ∉ c → Trivia t →
      Trivia (Byte.semicolon :: c ++ Byte.newline :: t)

namespace Reader

theorem open_blank {b : UInt8} (h : Token.isBlank b = true) (w : Work) (p : Position) :
    (w.at p).open b = .ok (w.at (p.advance b)) := by
  simp [State.open, h, Work.at]

def Work.inComment (w : Work) (p : Position) : State := { w.at p with mode := .comment }

theorem step_inComment (w : Work) (p : Position) {b : UInt8} (h : b ≠ Byte.newline) :
    (w.inComment p).step b = .ok (w.inComment (p.advance b)) := by
  rw [step_of_no_token rfl]
  simp [State.consume, Work.inComment, Work.at, h]

/-- In a comment every byte but a newline is skipped. -/
theorem foldlM_comment {c : List UInt8} (h : Byte.newline ∉ c) (w : Work) (p : Position) :
    ∃ q, c.foldlM State.step (w.inComment p) = .ok (w.inComment q) := by
  induction c generalizing p with
  | nil => exact ⟨p, rfl⟩
  | cons b c ih =>
    rw [List.mem_cons, not_or] at h
    obtain ⟨q, hq⟩ := ih h.2 (p.advance b)
    exact ⟨q, by rw [foldlM_step_cons (step_inComment w p (Ne.symm h.1)), hq]⟩

theorem trivia_delimited {t : List UInt8} (h : Trivia t) : Delimited t := by
  cases h with
  | nil => exact delimited_nil
  | blank hb _ => exact delimited_cons (by simp [Token.isDelimiter, hb])
  | comment _ _ => exact delimited_cons (by decide)

theorem foldlM_trivia {t : List UInt8} (h : Trivia t) (w : Work) (p : Position) :
    ∃ q, t.foldlM State.step (w.at p) = .ok (w.at q) := by
  induction h generalizing p with
  | nil => exact ⟨p, rfl⟩
  | @blank b t hb _ ih =>
    obtain ⟨q, hq⟩ := ih (p.advance b)
    exact ⟨q, by rw [foldlM_step_cons (by rw [step_at, open_blank hb]), hq]⟩
  | @comment c t hc _ ih =>
    obtain ⟨q, hq⟩ := foldlM_comment hc w (p.advance Byte.semicolon)
    obtain ⟨r, hr⟩ := ih (q.advance Byte.newline)
    refine ⟨r, ?_⟩
    have first : (w.at p).step Byte.semicolon =
        .ok (w.inComment (p.advance Byte.semicolon)) := by
      rw [step_at]
      rfl
    have last : (w.inComment q).step Byte.newline = .ok (w.at (q.advance Byte.newline)) := rfl
    rw [List.cons_append, foldlM_step_cons first, foldlM_step_append hq,
      foldlM_step_cons last, hr]

theorem leads_trivia {t : List UInt8} (h : Trivia t) (w : Work) : Leads t w w := by
  intro p
  obtain ⟨q, hq⟩ := foldlM_trivia h w p
  exact ⟨w.at q, q, hq, rfl⟩

/-- Trivia leave no token behind, so any text can follow them. -/
theorem Leads.after_trivia {t bs : List UInt8} {w w' : Work} (h : Trivia t)
    (k : Leads bs w w') : Leads (t ++ bs) w w' := by
  intro p
  obtain ⟨q, hq⟩ := foldlM_trivia h w p
  obtain ⟨s, r, hs, he⟩ := k q
  exact ⟨s, r, (foldlM_step_append hq bs).trans hs, he⟩

end Reader

namespace Reader

/-- Reading the bytes anywhere between forms adds the value to the innermost construct. -/
def Spells (bs : List UInt8) (v : Value) : Prop := ∀ w : Work, Leads bs w (w.push v)

def Work.inToken (w : Work) (start : Position) (bytes : List UInt8) (p : Position) : State :=
  { w.at p with mode := .token start bytes }

theorem step_inToken (w : Work) (start : Position) (bytes : List UInt8) (p : Position) {b : UInt8}
    (h : Token.isDelimiter b = false) :
    (w.inToken start bytes p).step b = .ok (w.inToken start (b :: bytes) (p.advance b)) := by
  rw [State.step, State.settle, if_neg (by simp [h])]
  rfl

theorem foldlM_token {bs : List UInt8} (h : ∀ b ∈ bs, Token.isDelimiter b = false) (w : Work)
    (start : Position) (bytes : List UInt8) (p : Position) :
    ∃ q, bs.foldlM State.step (w.inToken start bytes p) =
      .ok (w.inToken start (bs.reverse ++ bytes) q) := by
  induction bs generalizing bytes p with
  | nil => exact ⟨p, rfl⟩
  | cons b bs ih =>
    obtain ⟨q, hq⟩ := ih (fun c hc => h c (List.mem_cons_of_mem b hc)) (b :: bytes) (p.advance b)
    refine ⟨q, ?_⟩
    rw [foldlM_step_cons (step_inToken w start bytes p (h b List.mem_cons_self)), hq,
      List.reverse_cons, List.append_assoc]
    rfl

theorem open_token {b : UInt8} (h : Token.isDelimiter b = false) (hat : b ≠ Byte.atSign)
    (w : Work) (p : Position) : (w.at p).open b = .ok (w.inToken p [b] (p.advance b)) := by
  simp only [Token.isDelimiter, Bool.or_eq_false_iff, decide_eq_false_iff_not,
    Option.isSome_eq_false_iff, Option.isNone_iff_eq_none] at h
  obtain ⟨⟨⟨⟨hblank, hsemi⟩, hquote⟩, hopen⟩, hclose⟩ := h
  simp only [State.open, hblank, hsemi, hquote, hat, hopen, hclose, if_false, Bool.false_eq_true]
  rfl

/-- A token is taken as a whole from where it begins. -/
theorem foldlM_whole_token {bs : List UInt8} (nonempty : bs ≠ [])
    (undivided : ∀ b ∈ bs, Token.isDelimiter b = false)
    (noDeref : bs.head? ≠ some Byte.atSign) (w : Work) (p : Position) :
    ∃ q, bs.foldlM State.step (w.at p) = .ok (w.inToken p bs.reverse q) := by
  cases bs with
  | nil => exact absurd rfl nonempty
  | cons b bs =>
    have hb : b ≠ Byte.atSign := fun h => noDeref (congrArg some h)
    obtain ⟨q, hq⟩ := foldlM_token (fun c hc => undivided c (List.mem_cons_of_mem b hc)) w p [b]
      (p.advance b)
    have first : (w.at p).step b = .ok (w.inToken p [b] (p.advance b)) := by
      rw [step_at, open_token (undivided b List.mem_cons_self) hb]
    refine ⟨q, (foldlM_step_cons first bs).trans ?_⟩
    rw [hq, List.reverse_cons]

theorem spells_token {bs : List UInt8} {v : Value} (nonempty : bs ≠ [])
    (undivided : ∀ b ∈ bs, Token.isDelimiter b = false)
    (noDeref : bs.head? ≠ some Byte.atSign) (hv : Token.value bs = .ok v) : Spells bs v := by
  intro w p
  obtain ⟨q, hq⟩ := foldlM_whole_token nonempty undivided noDeref w p
  refine ⟨_, q, hq, ?_⟩
  simp only [State.endToken, Work.inToken, List.reverse_reverse, hv]
  rfl

def Work.inString (w : Work) (bytes : List UInt8) (p : Position) : State :=
  { w.at p with mode := .string bytes }

theorem unescape?_escapeLetter? {b c : UInt8} (h : Printer.escapeLetter? b = some c) :
    unescape? c = some b := by
  unfold Printer.escapeLetter? at h
  split at h
  · rename_i hb
    cases h
    rcases hb with rfl | rfl <;> rfl
  · split at h
    · rename_i hb
      cases h
      exact congrArg some hb.symm
    · split at h
      · rename_i hb
        cases h
        exact congrArg some hb.symm
      · split at h
        · rename_i hb
          cases h
          exact congrArg some hb.symm
        · cases h

/-- What is written for a byte of a string reads as that byte. -/
theorem foldlM_escaped (w : Work) (bytes : List UInt8) (p : Position) (b : UInt8) :
    ∃ q, (Printer.escaped b).foldlM State.step (w.inString bytes p) =
      .ok (w.inString (b :: bytes) q) := by
  cases h : Printer.escapeLetter? b with
  | some c =>
    refine ⟨(p.advance Byte.backslash).advance c, ?_⟩
    have first : (w.inString bytes p).step Byte.backslash =
        .ok { w.at (p.advance Byte.backslash) with mode := .escape bytes } := by
      rw [step_of_no_token rfl]
      rfl
    have second : State.step { w.at (p.advance Byte.backslash) with mode := .escape bytes } c =
        .ok (w.inString (b :: bytes) ((p.advance Byte.backslash).advance c)) := by
      rw [step_of_no_token rfl]
      simp only [State.consume, unescape?_escapeLetter? h]
      rfl
    rw [Printer.escaped, h]
    exact (foldlM_step_cons first _).trans (foldlM_step_cons second _)
  | none =>
    refine ⟨p.advance b, ?_⟩
    have plain : ¬(b = Byte.backslash ∨ b = Byte.quote) := by
      intro hb
      simp [Printer.escapeLetter?, hb] at h
    rw [not_or] at plain
    have step : (w.inString bytes p).step b = .ok (w.inString (b :: bytes) (p.advance b)) := by
      rw [step_of_no_token rfl]
      simp [State.consume, Work.inString, Work.at, plain.1, plain.2]
    rw [Printer.escaped, h]
    exact foldlM_step_cons step _

theorem foldlM_string (w : Work) (bs bytes : List UInt8) (p : Position) :
    ∃ q, (bs.flatMap Printer.escaped).foldlM State.step (w.inString bytes p) =
      .ok (w.inString (bs.reverse ++ bytes) q) := by
  induction bs generalizing bytes p with
  | nil => exact ⟨p, rfl⟩
  | cons b bs ih =>
    obtain ⟨q, hq⟩ := foldlM_escaped w bytes p b
    obtain ⟨r, hr⟩ := ih (b :: bytes) q
    refine ⟨r, ?_⟩
    rw [List.flatMap_cons, foldlM_step_append hq, hr, List.reverse_cons, List.append_assoc]
    rfl

theorem spells_string (t : Text) :
    Spells (Byte.quote :: (t.bytes.flatMap Printer.escaped ++ [Byte.quote])) (.str t) := by
  intro w p
  obtain ⟨q, hq⟩ := foldlM_string w t.bytes [] (p.advance Byte.quote)
  have first : (w.at p).step Byte.quote = .ok (w.inString [] (p.advance Byte.quote)) := by
    rw [step_at]
    rfl
  have last : (w.inString (t.bytes.reverse ++ []) q).step Byte.quote =
      .ok ((w.push (.str t)).at (q.advance Byte.quote)) := by
    rw [step_of_no_token rfl]
    simp only [State.consume, Work.inString, if_true, List.append_nil, List.reverse_reverse,
      Text.ofBytes_bytes]
    rfl
  refine ⟨(w.push (.str t)).at (q.advance Byte.quote), _, ?_, rfl⟩
  rw [foldlM_step_cons first, foldlM_step_append hq]
  exact foldlM_step_cons last _

def spaced : List (List UInt8) → List UInt8
  | [] => []
  | x :: xs => x ++ xs.flatMap (Byte.space :: ·)

theorem leads_items {xs : List (List UInt8)} {vs : List Value} (h : List.Forall₂ Spells xs vs)
    (w : Work) (b : Bracket) (start : Position) (items : List Value) :
    Leads (xs.flatMap (Byte.space :: ·)) (w.open b start items)
      (w.open b start (vs.reverse ++ items)) := by
  induction h generalizing items with
  | nil => exact Leads.refl _
  | @cons x v xs vs hx _ ih =>
    have item : Leads (Byte.space :: x) (w.open b start items) (w.open b start (v :: items)) :=
      Leads.cons (fun p => ⟨_, open_blank (by decide) _ p⟩) (hx (w.open b start items))
    rw [List.flatMap_cons, List.reverse_cons, List.append_assoc]
    refine item.trans ?_ (ih (v :: items))
    cases xs with
    | nil => exact delimited_nil
    | cons y ys => exact delimited_cons (by decide)

theorem leads_spaced {xs : List (List UInt8)} {vs : List Value} (h : List.Forall₂ Spells xs vs)
    (w : Work) (b : Bracket) (start : Position) :
    Leads (spaced xs) (w.open b start []) (w.open b start vs.reverse) := by
  cases h with
  | nil => exact Leads.refl _
  | @cons x v xs vs hx hxs =>
    have rest := leads_items hxs w b start [v]
    rw [spaced, List.reverse_cons]
    refine (hx (w.open b start [])).trans ?_ rest
    cases xs with
    | nil => exact delimited_nil
    | cons y ys => exact delimited_cons (by decide)

theorem closer_delimiter (b : Bracket) : Token.isDelimiter b.closer = true := by
  cases b <;> decide

theorem open_opener (b : Bracket) (w : Work) (p : Position) :
    (w.at p).open b.opener =
      .ok ((w.open b (p.advance b.opener) []).at (p.advance b.opener)) := by
  cases b <;> rfl

theorem open_closer {b : Bracket} {items : List Value} {v : Value} (w : Work) (start p : Position)
    (h : enclosed b items.reverse = .ok v) :
    ((w.open b start items).at p).open b.closer = .ok ((w.push v).at (p.advance b.closer)) := by
  have closes : ∀ q, State.close ((w.open b start items).at q) b = .ok ((w.push v).at q) := by
    intro q
    simp only [State.close, Work.at, Work.open, if_true, h]
    rfl
  cases b <;> exact closes _

theorem spells_bracket {b : Bracket} {xs : List (List UInt8)} {vs : List Value} {v : Value}
    (h : List.Forall₂ Spells xs vs) (hv : enclosed b vs = .ok v) :
    Spells (b.opener :: (spaced xs ++ [b.closer])) v := by
  intro w p
  have opened : (w.at p).step b.opener =
      .ok ((w.open b (p.advance b.opener) []).at (p.advance b.opener)) := by
    rw [step_at, open_opener]
  have closed : Leads [b.closer] (w.open b (p.advance b.opener) vs.reverse) (w.push v) :=
    Leads.cons
      (fun q => ⟨_, open_closer w _ q (by rw [List.reverse_reverse, hv])⟩) (Leads.refl _)
  obtain ⟨s, q, hs, he⟩ := ((leads_spaced h w b _).trans
    (delimited_cons (closer_delimiter b)) closed) (p.advance b.opener)
  exact ⟨s, q, (foldlM_step_cons opened _).trans hs, he⟩

end Reader

end MiniLisp
