import MiniLisp.Proofs.Parsing

/-! A text is put between the beginning of a form and a line that ends the form. One that is refused
by itself may still make a form: it may end at a bracket that closes nothing, which closes the form,
or in a dereferencing sign, which takes the word from the last line. -/
namespace MiniLisp

theorem Gap.append {t r : List UInt8} (h : Gap t r) (left : r ≠ []) (s : List UInt8) :
    Gap (t ++ s) (r ++ s) := by
  cases h with
  | trivia r h =>
    rw [List.append_assoc]
    exact .trivia (r ++ s) h
  | unended => exact absurd rfl left

theorem Chars.append {t cs r : List UInt8} (h : Chars t cs r) (s : List UInt8) :
    Chars (t ++ s) cs (r ++ s) := by
  induction h with
  | close r => exact .close (r ++ s)
  | plain noQuote noBackslash _ ih => exact .plain noQuote noBackslash ih
  | escaped escape _ ih => exact .escaped escape ih

mutual

/-- What a form is does not depend on what is behind it, as long as a token ends there. -/
theorem Form.append {t : List UInt8} {v : Value} {r : List UInt8} (h : Form t v r)
    {s : List UInt8} (hs : Reader.Delimited s) : Form (t ++ s) v (r ++ s) := by
  match h with
  | .list forms => exact .list (forms.append (List.cons_ne_nil _ _) hs)
  | .vec forms => exact .vec (forms.append (List.cons_ne_nil _ _) hs)
  | .map forms gathers => exact .map (forms.append (List.cons_ne_nil _ _) hs) gathers
  | .deref gap form => exact .deref (gap.append form.ne_nil s) (form.append hs)
  | .string chars => exact .string (chars.append s)
  | .token nonempty undivided noDeref delimited denotes =>
    rw [List.append_assoc]
    exact .token nonempty undivided noDeref (delimited.append fun _ => hs) denotes

theorem Forms.append {t : List UInt8} {vs : List Value} {r : List UInt8} (h : Forms t vs r)
    (left : r ≠ []) {s : List UInt8} (hs : Reader.Delimited s) : Forms (t ++ s) vs (r ++ s) := by
  match h with
  | .none gap => exact .none (gap.append left s)
  | .cons gap form forms =>
    exact .cons (gap.append form.ne_nil s) (form.append hs) (forms.append left hs)

end

theorem Gap.trans {t u r : List UInt8} (h : Gap t u) (k : Gap u r) : Gap t r := by
  cases h with
  | trivia u h =>
    induction h with
    | nil => exact k
    | blank hb _ ih => exact .blank hb ih
    | comment hc _ ih => simpa using Gap.comment hc ih
  | unended h hc =>
    have none : r = [] := List.eq_nil_of_length_eq_zero (Nat.le_zero.mp k.length_le)
    exact none ▸ .unended h hc

/-- Forms go on where other forms ended. -/
theorem Forms.trans {t u r : List UInt8} {vs ws : List Value} (h : Forms t vs u)
    (k : Forms u ws r) : Forms t (vs ++ ws) r := by
  match h with
  | .none gap =>
    cases k with
    | none gap' => exact .none (gap.trans gap')
    | cons gap' form forms => exact .cons (gap.trans gap') form forms
  | .cons gap form forms => exact .cons gap form (forms.trans k)

/-- A gap ends before a byte that is neither blank nor begins a comment. -/
theorem Gap.eq_of_mark {b : UInt8} {t r : List UInt8} (h : Gap (b :: t) r)
    (noBlank : Token.isBlank b = false) (noComment : b ≠ Byte.semicolon) : r = b :: t := by
  generalize hx : b :: t = x at h
  have empty {c d : List UInt8} (trivia : Trivia c) (hx : b :: t = c ++ d) : c = [] := by
    cases trivia with
    | nil => rfl
    | blank blank _ =>
      obtain ⟨rfl, -⟩ := List.cons.inj hx
      rw [noBlank] at blank
      cases blank
    | comment _ _ => exact absurd (List.cons.inj hx).1 noComment
  cases h with
  | trivia r trivia =>
    rw [empty trivia hx]
    rfl
  | unended trivia _ =>
    rw [empty trivia hx] at hx
    exact absurd (List.cons.inj hx).1 noComment

theorem Gap.of_blank {b : UInt8} {t r : List UInt8} (h : Gap (b :: t) r)
    (blank : Token.isBlank b = true) : r = b :: t ∨ Gap t r := by
  have noComment : b ≠ Byte.semicolon := by
    rintro rfl
    cases blank
  generalize hx : b :: t = x at h
  cases h with
  | trivia r trivia =>
    cases trivia with
    | nil => exact .inl rfl
    | blank _ trivia =>
      obtain ⟨-, rfl⟩ := List.cons.inj hx
      exact .inr (.trivia r trivia)
    | comment _ _ => exact absurd (List.cons.inj hx).1 noComment
  | unended trivia hc =>
    cases trivia with
    | nil => exact absurd (List.cons.inj hx).1 noComment
    | blank _ trivia =>
      obtain ⟨-, rfl⟩ := List.cons.inj hx
      exact .inr (.unended trivia hc)
    | comment _ _ => exact absurd (List.cons.inj hx).1 noComment

theorem not_form_of_delimiter {b : UInt8} {t r : List UInt8} {v : Value}
    (delimiter : Token.isDelimiter b = true) (noOpener : Bracket.opened? b = none)
    (noQuote : b ≠ Byte.quote) : ¬Form (b :: t) v r := by
  intro h
  generalize hx : b :: t = x at h
  cases h with
  | list | vec | map =>
    obtain ⟨rfl, -⟩ := List.cons.inj hx
    cases noOpener
  | deref =>
    obtain ⟨rfl, -⟩ := List.cons.inj hx
    cases delimiter
  | string => exact noQuote (List.cons.inj hx).1
  | token nonempty undivided _ _ _ =>
    obtain ⟨c, bs, rfl⟩ := List.exists_cons_of_ne_nil nonempty
    obtain ⟨rfl, -⟩ := List.cons.inj hx
    rw [undivided b List.mem_cons_self] at delimiter
    cases delimiter

theorem Forms.blank {b : UInt8} {t r : List UInt8} {vs : List Value}
    (blank : Token.isBlank b = true) (h : Forms t vs r) : Forms (b :: t) vs r := by
  cases h with
  | none gap => exact .none (.blank blank gap)
  | cons gap form forms => exact .cons (.blank blank gap) form forms

theorem Forms.of_space {t r : List UInt8} {vs : List Value} (h : Forms (Byte.space :: t) vs r)
    (left : r ≠ Byte.space :: t) : Forms t vs r := by
  cases h with
  | none gap => exact .none ((gap.of_blank (by decide)).resolve_left left)
  | cons gap form forms =>
    rcases gap.of_blank (by decide) with rfl | gap
    · exact absurd form (not_form_of_delimiter (by decide) (by decide) (by decide))
    · exact .cons gap form forms

namespace Pasting

def lastWord : List UInt8 := [110, 105, 108, Bracket.round.closer]

def lastLine : List UInt8 := Byte.newline :: lastWord

def paste (t : Text) : Text := ascii "(do " ++ t ++ ascii "\nnil)"

/-- Dereferencing signs up to the end of the text. -/
inductive Dangling : List UInt8 → Prop where
  | last {t : List UInt8} : Gap t [] → Dangling (Byte.atSign :: t)
  | outer {t u : List UInt8} : Gap t u → Dangling u → Dangling (Byte.atSign :: t)

theorem Dangling.ne_nil {t : List UInt8} (h : Dangling t) : t ≠ [] := by
  cases h with
  | last | outer => exact List.cons_ne_nil _ _

/-- The forms of the text end at a closing bracket that closes nothing, or at dereferencing signs
with nothing behind them. -/
def Escapes (t : List UInt8) : Prop :=
  ∃ vs r, Forms t vs r ∧ (r.head? = some Bracket.round.closer ∨ Dangling r)

theorem delimited_lastLine : Reader.Delimited lastLine := Reader.delimited_cons (by decide)

theorem form_lastWord : Form lastWord .nil [Bracket.round.closer] := by
  have word : lastWord = (ascii "nil").bytes ++ [Bracket.round.closer] := by decide
  rw [word]
  exact .token (by decide) (undivided_of_all (by decide)) (by decide)
    (Reader.delimited_cons (by decide)) .nil

theorem gap_newline {t r : List UInt8} (h : Gap t r) : Gap (Byte.newline :: t) r :=
  .blank (by decide) h

/-- The newline ends the comment that the text may end in. -/
theorem gap_lastLine {t : List UInt8} (h : Gap t []) : Gap (t ++ lastLine) lastWord := by
  cases h with
  | trivia r h =>
    rw [List.append_nil]
    exact (Gap.trivia lastLine h).trans (gap_newline (.refl lastWord))
  | @unended t c h hc =>
    have comment := Gap.comment hc (.refl lastWord)
    have before := Gap.trivia (Byte.semicolon :: c ++ Byte.newline :: lastWord) h
    rw [List.append_assoc]
    exact before.trans comment

theorem form_dangling {t : List UInt8} (h : Dangling t) :
    ∃ v, Form (t ++ lastLine) v [Bracket.round.closer] := by
  induction h with
  | last gap => exact ⟨_, .deref (gap_lastLine gap) form_lastWord⟩
  | @outer t u gap dangling ih =>
    obtain ⟨v, form⟩ := ih
    exact ⟨_, .deref (gap.append dangling.ne_nil lastLine) form⟩

/-- The word of the last line comes behind the forms of a text that is read as a whole. -/
theorem forms_lastLine {t : List UInt8} {vs : List Value} (h : Forms t vs []) :
    Forms (t ++ lastLine) (vs ++ [.nil]) [Bracket.round.closer] := by
  match h with
  | .none gap => exact .cons (gap_lastLine gap) form_lastWord (.none (.refl _))
  | .cons gap form forms =>
    exact .cons (gap.append form.ne_nil _) (form.append delimited_lastLine) (forms_lastLine forms)

theorem forms_escaped {t : List UInt8} (h : Escapes t) :
    ∃ vs r, Forms (t ++ lastLine) vs (Bracket.round.closer :: r) := by
  obtain ⟨vs, r, forms, closer | dangling⟩ := h
  · obtain ⟨r, rfl⟩ := List.head?_eq_some_iff.mp closer
    exact ⟨vs, r ++ lastLine, forms.append (List.cons_ne_nil _ _) delimited_lastLine⟩
  · obtain ⟨v, form⟩ := form_dangling dangling
    exact ⟨vs ++ [v], [], (forms.append dangling.ne_nil delimited_lastLine).trans
      (.cons (.refl _) form (.none (.refl _)))⟩

theorem trivia_split {x t a : List UInt8} (h : Trivia x) (hx : x = t ++ Byte.newline :: a) :
    Gap t [] ∧ Trivia a := by
  induction h generalizing t with
  | nil => simp at hx
  | @blank b tail hb trivia ih =>
    cases t with
    | nil =>
      cases hx
      exact ⟨.refl [], trivia⟩
    | cons c t =>
      cases hx
      obtain ⟨gap, rest⟩ := ih rfl
      exact ⟨.blank hb gap, rest⟩
  | @comment c tail hc trivia ih =>
    cases t with
    | nil => cases hx
    | cons d t =>
      obtain ⟨rfl, same⟩ := List.cons.inj hx
      rcases List.append_eq_append_iff.mp same with ⟨u, rfl, behind⟩ | ⟨u, rfl, behind⟩
      · cases u with
        | nil =>
          cases behind
          rw [List.append_nil]
          exact ⟨.unended .nil hc, trivia⟩
        | cons b u =>
          obtain ⟨rfl, rfl⟩ := List.cons.inj behind
          obtain ⟨gap, rest⟩ := ih rfl
          exact ⟨gap.comment hc, rest⟩
      · cases u with
        | nil =>
          cases behind
          rw [List.append_nil] at hc
          exact ⟨.unended .nil hc, trivia⟩
        | cons b u =>
          obtain ⟨rfl, -⟩ := List.cons.inj behind
          exact absurd (List.mem_append_right t List.mem_cons_self) hc

/-- Trivia behind the text do not go beyond the newline. -/
theorem gap_split {t r : List UInt8} (h : Gap (t ++ lastLine) r) :
    (∃ u, r = u ++ lastLine ∧ Gap t u) ∨ (r = lastWord ∧ Gap t []) := by
  generalize hx : t ++ lastLine = x at h
  cases h with
  | @trivia c r trivia =>
    rcases List.append_eq_append_iff.mp hx with ⟨u, rfl, behind⟩ | ⟨u, rfl, rfl⟩
    · cases u with
      | nil => exact .inl ⟨[], behind.symm, by simpa using Gap.trivia [] trivia⟩
      | cons b u =>
        obtain ⟨rfl, word⟩ := List.cons.inj behind
        obtain ⟨gap, rest⟩ := trivia_split trivia rfl
        cases rest with
        | nil => exact .inr ⟨word.symm, gap⟩
        | blank hb _ =>
          obtain ⟨rfl, -⟩ := List.cons.inj word
          exact absurd hb (by decide)
        | comment _ _ => cases word
    · exact .inl ⟨u, rfl, .trivia u trivia⟩
  | @unended c d trivia hd =>
    rcases List.append_eq_append_iff.mp hx with ⟨u, rfl, behind⟩ | ⟨u, rfl, behind⟩
    · have inside : Byte.semicolon ∈ lastLine := behind ▸ by simp
      exact absurd inside (by decide)
    · cases u with
      | nil => cases behind
      | cons b u =>
        obtain ⟨-, rfl⟩ := List.cons.inj behind
        exact absurd (List.mem_append_right u List.mem_cons_self) hd

theorem quote_mem {t cs r : List UInt8} (h : Chars t cs r) : Byte.quote ∈ t := by
  induction h with
  | close r => exact List.mem_cons_self
  | plain _ _ _ ih => exact List.mem_cons_of_mem _ ih
  | escaped _ _ ih => exact List.mem_cons_of_mem _ (List.mem_cons_of_mem _ ih)

/-- A string that begins in the text ends there. -/
theorem chars_split {t cs r : List UInt8} (h : Chars (t ++ lastLine) cs r) :
    ∃ u, r = u ++ lastLine ∧ Chars t cs u := by
  generalize hx : t ++ lastLine = x at h
  induction h generalizing t with
  | close r =>
    cases t with
    | nil => cases hx
    | cons b t =>
      obtain ⟨rfl, rfl⟩ := List.cons.inj hx
      exact ⟨t, rfl, .close t⟩
  | plain noQuote noBackslash inner ih =>
    cases t with
    | nil =>
      obtain ⟨-, rfl⟩ := List.cons.inj hx
      exact absurd (quote_mem inner) (by decide)
    | cons b t =>
      obtain ⟨rfl, rfl⟩ := List.cons.inj hx
      obtain ⟨u, rfl, chars⟩ := ih rfl
      exact ⟨u, rfl, .plain noQuote noBackslash chars⟩
  | escaped escape inner ih =>
    rcases t with _ | ⟨b, _ | ⟨c, t⟩⟩
    · cases hx
    · obtain ⟨rfl, -⟩ := List.cons.inj (List.cons.inj hx).2
      cases escape
    · obtain ⟨rfl, rfl⟩ := List.cons.inj (List.cons.inj hx).2
      obtain ⟨rfl, -⟩ := List.cons.inj hx
      obtain ⟨u, rfl, chars⟩ := ih rfl
      exact ⟨u, rfl, .escaped escape chars⟩

theorem eq_of_form_lastWord {v : Value} {r : List UInt8} (h : Form lastWord v r) :
    r = [Bracket.round.closer] := (h.unique form_lastWord).2

theorem eq_of_forms_closer {t r : List UInt8} {vs : List Value}
    (h : Forms (Bracket.round.closer :: t) vs r) : r = Bracket.round.closer :: t := by
  cases h with
  | none gap => exact gap.eq_of_mark (by decide) (by decide)
  | cons gap form _ =>
    rw [gap.eq_of_mark (by decide) (by decide)] at form
    exact absurd form (not_form_of_delimiter (by decide) (by decide) (by decide))

/-- A token that begins in the text ends there. -/
theorem token_split {t bs r : List UInt8} (hx : bs ++ r = t ++ lastLine)
    (undivided : ∀ b ∈ bs, Token.isDelimiter b = false) : ∃ u, t = bs ++ u ∧ r = u ++ lastLine := by
  rcases List.append_eq_append_iff.mp hx with ⟨u, rfl, rfl⟩ | ⟨u, rfl, behind⟩
  · exact ⟨u, rfl, rfl⟩
  · cases u with
    | nil => exact ⟨[], by simp, behind.symm⟩
    | cons b u =>
      obtain ⟨rfl, -⟩ := List.cons.inj behind
      exact absurd (undivided _ (List.mem_append_right t List.mem_cons_self)) (by decide)

/-- A byte in front of the last line, if it is no newline, is a byte of the text. -/
theorem of_cons {x t : List UInt8} {c : UInt8} (hx : c :: x = t ++ lastLine)
    (hc : c ≠ Byte.newline) : ∃ u, t = c :: u ∧ x = u ++ lastLine := by
  cases t with
  | nil => exact absurd (List.cons.inj hx).1 hc
  | cons d t =>
    obtain ⟨rfl, rfl⟩ := List.cons.inj hx
    exact ⟨t, rfl, rfl⟩

/-- How forms that begin in the text may end. -/
def FormsEnd (t : List UInt8) (vs : List Value) (r : List UInt8) : Prop :=
  (∃ u, r = u ++ lastLine ∧ Forms t vs u) ∨ (r = lastWord ∧ Forms t vs []) ∨
    (r = [Bracket.round.closer] ∧ ∃ us d, Forms t us d ∧ (d = [] ∨ Dangling d)) ∨ r = []

/-- Only the bracket of the last line may close a form that the text leaves open. -/
theorem bracket_split {b : Bracket} {t r : List UInt8} {vs : List Value}
    (h : FormsEnd t vs (b.closer :: r)) :
    (∃ u, r = u ++ lastLine ∧ Forms t vs (b.closer :: u)) ∨ r = [] := by
  rcases h with ⟨u, behind, before⟩ | ⟨behind, -⟩ | ⟨behind, -⟩ | behind
  · obtain ⟨u, rfl, rfl⟩ := of_cons behind (by cases b <;> decide)
    exact .inl ⟨u, rfl, before⟩
  · cases b <;> cases behind
  · exact .inr (List.cons.inj behind).2
  · cases behind

mutual

/-- A form that begins in the text ends there, or takes the word of the last line, or its
bracket. -/
theorem form_split {x t : List UInt8} {v : Value} {r : List UInt8} (h : Form x v r)
    (hx : x = t ++ lastLine) :
    (∃ u, r = u ++ lastLine ∧ Form t v u) ∨ (r = [Bracket.round.closer] ∧ Dangling t) ∨ r = [] := by
  match h with
  | .list forms =>
    obtain ⟨t, rfl, inside⟩ := of_cons hx (by decide)
    obtain ⟨u, rfl, before⟩ | rfl := bracket_split (b := .round) (forms_split forms inside)
    · exact .inl ⟨u, rfl, .list before⟩
    · exact .inr (.inr rfl)
  | .vec forms =>
    obtain ⟨t, rfl, inside⟩ := of_cons hx (by decide)
    obtain ⟨u, rfl, before⟩ | rfl := bracket_split (b := .square) (forms_split forms inside)
    · exact .inl ⟨u, rfl, .vec before⟩
    · exact .inr (.inr rfl)
  | .map forms gathers =>
    obtain ⟨t, rfl, inside⟩ := of_cons hx (by decide)
    obtain ⟨u, rfl, before⟩ | rfl := bracket_split (b := .curly) (forms_split forms inside)
    · exact .inl ⟨u, rfl, .map before gathers⟩
    · exact .inr (.inr rfl)
  | .deref gap form =>
    obtain ⟨t, rfl, inside⟩ := of_cons hx (by decide)
    rcases gap_split (inside ▸ gap) with ⟨u, behind, before⟩ | ⟨behind, before⟩
    · rcases form_split form behind with ⟨w, rfl, target⟩ | ⟨rfl, dangling⟩ | rfl
      · exact .inl ⟨w, rfl, .deref before target⟩
      · exact .inr (.inl ⟨rfl, .outer before dangling⟩)
      · exact .inr (.inr rfl)
    · exact .inr (.inl ⟨eq_of_form_lastWord (behind ▸ form), .last before⟩)
  | .string chars =>
    obtain ⟨t, rfl, inside⟩ := of_cons hx (by decide)
    obtain ⟨u, rfl, before⟩ := chars_split (inside ▸ chars)
    exact .inl ⟨u, rfl, .string before⟩
  | .token nonempty undivided noDeref delimited denotes =>
    obtain ⟨u, rfl, rfl⟩ := token_split hx undivided
    refine .inl ⟨u, rfl, .token nonempty undivided noDeref ?_ denotes⟩
    intro b hb
    exact delimited b (by rw [List.head?_append, hb, Option.some_or])

theorem forms_split {x t : List UInt8} {vs : List Value} {r : List UInt8} (h : Forms x vs r)
    (hx : x = t ++ lastLine) : FormsEnd t vs r := by
  match h with
  | .none gap =>
    rcases gap_split (hx ▸ gap) with ⟨u, rfl, before⟩ | ⟨rfl, before⟩
    · exact .inl ⟨u, rfl, .none before⟩
    · exact .inr (.inl ⟨rfl, .none before⟩)
  | .cons gap form forms =>
    rcases gap_split (hx ▸ gap) with ⟨u, behind, before⟩ | ⟨behind, before⟩
    · rcases form_split form behind with ⟨w, rest, first⟩ | ⟨rest, dangling⟩ | rest
      · rcases forms_split forms rest with ⟨w', rfl, others⟩ | ⟨rfl, others⟩ |
          ⟨rfl, us, d, others, ends⟩ | rfl
        · exact .inl ⟨w', rfl, .cons before first others⟩
        · exact .inr (.inl ⟨rfl, .cons before first others⟩)
        · exact .inr (.inr (.inl ⟨rfl, _, d, .cons before first others, ends⟩))
        · exact .inr (.inr (.inr rfl))
      · exact .inr (.inr (.inl ⟨eq_of_forms_closer (rest ▸ forms), [], u, .none before,
          .inr dangling⟩))
      · subst rest
        exact .inr (.inr (.inr (List.eq_nil_of_length_eq_zero (Nat.le_zero.mp forms.length_le))))
    · have rest := eq_of_form_lastWord (behind ▸ form)
      exact .inr (.inr (.inl ⟨eq_of_forms_closer (rest ▸ forms), [], [], .none before, .inl rfl⟩))

end

theorem forms_pasted_iff {t : List UInt8} :
    (∃ vs r, Forms (t ++ lastLine) vs (Bracket.round.closer :: r)) ↔
      (∃ fs, Forms t fs []) ∨ Escapes t := by
  constructor
  · rintro ⟨vs, r, h⟩
    rcases forms_split h rfl with ⟨u, behind, before⟩ | ⟨behind, -⟩ |
      ⟨-, us, d, before, rfl | dangling⟩ | behind
    · obtain ⟨u, rfl, -⟩ := of_cons behind (by decide)
      exact .inr ⟨vs, _, before, .inl rfl⟩
    · cases behind
    · exact .inl ⟨us, before⟩
    · exact .inr ⟨us, d, before, .inr dangling⟩
    · cases behind
  · rintro (⟨fs, forms⟩ | escapes)
    · exact ⟨_, _, forms_lastLine forms⟩
    · exact forms_escaped escapes

def doWord : List UInt8 := (ascii "do").bytes

theorem bytes_paste (t : Text) :
    (paste t).bytes = Bracket.round.opener :: (doWord ++ Byte.space :: (t.bytes ++ lastLine)) := by
  rw [paste, Text.bytes_append, Text.bytes_append, List.append_assoc]
  rfl

theorem form_do (t : List UInt8) :
    Form (doWord ++ Byte.space :: t) (.sym (ascii "do")) (Byte.space :: t) :=
  .token (by decide) (undivided_of_all (by decide)) (by decide) (Reader.delimited_cons (by decide))
    (.symbol (by decide) (by rw [← isNumeric_iff]; decide) (by decide) (by decide) (by decide))

theorem form_paste_iff {t r : List UInt8} {v : Value} :
    Form (Bracket.round.opener :: (doWord ++ Byte.space :: t)) v r ↔
      ∃ vs, v = .list (.sym (ascii "do") :: vs).toArray ∧
        Forms t vs (Bracket.round.closer :: r) := by
  constructor
  · intro h
    generalize hx : Bracket.round.opener :: (doWord ++ Byte.space :: t) = x at h
    cases h with
    | list forms =>
      obtain ⟨-, rfl⟩ := List.cons.inj hx
      cases forms with
      | none gap => cases Gap.eq_of_mark gap (by decide) (by decide)
      | cons gap form forms =>
        obtain rfl := Gap.eq_of_mark gap (by decide) (by decide)
        obtain ⟨rfl, rfl⟩ := form.unique (form_do t)
        refine ⟨_, rfl, forms.of_space fun same => ?_⟩
        cases (List.cons.inj same).1
    | token nonempty undivided _ _ _ =>
      obtain ⟨b, bs, rfl⟩ := List.exists_cons_of_ne_nil nonempty
      obtain ⟨rfl, -⟩ := List.cons.inj hx
      exact absurd (undivided _ List.mem_cons_self) (by decide)
    | _ => cases (List.cons.inj hx).1
  · rintro ⟨vs, rfl, forms⟩
    exact .list (.cons (.refl _) (form_do t) (forms.blank (by decide)))

/-- The form is read unless the text is refused and does not escape from it. -/
theorem readFirst_paste_iff (t : Text) :
    (∃ o, readFirst (paste t) = .ok o) ↔ (∃ fs, readAll t = .ok fs) ∨ Escapes t.bytes := by
  simp only [readAll_iff]
  rw [← forms_pasted_iff]
  constructor
  · rintro ⟨_ | v, read⟩
    · have gap := readFirst_eq_none_iff.mp read
      rw [bytes_paste] at gap
      cases gap.eq_of_mark (by decide) (by decide)
    · obtain ⟨u, r, gap, form⟩ := readFirst_eq_some_iff.mp read
      rw [bytes_paste] at gap
      obtain rfl := gap.eq_of_mark (by decide) (by decide)
      obtain ⟨vs, -, forms⟩ := form_paste_iff.mp form
      exact ⟨vs, r, forms⟩
  · rintro ⟨vs, r, forms⟩
    have form := form_paste_iff.mpr ⟨vs, rfl, forms⟩
    rw [← bytes_paste] at form
    exact ⟨_, readFirst_eq_some_iff.mpr ⟨_, r, .refl _, form⟩⟩

end Pasting

end MiniLisp
