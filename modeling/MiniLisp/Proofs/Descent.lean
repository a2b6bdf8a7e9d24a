import MiniLisp.Reader

/-! Reading by procedures that call each other, one for each kind of text, which share an offset
into the text. Each looks at the next byte without a check of its own: that there is one has to be
known where it does. -/
namespace MiniLisp

/-- The position of an offset. Offsets beyond the end are taken for the end. -/
def positionAt (t : Text) (i : Nat) : Position := (t.bytes.take i).foldl Position.advance .start

inductive Stop where
  | refused (e : ReadError)
  | outside
  | outOfFuel

structure Cursor where
  offset : Nat
  calls : Nat

abbrev Descent := ExceptT Stop (StateM Cursor)

namespace Descent

def exec {α : Type} (x : Descent α) (c : Cursor) : Except Stop α × Cursor := x.run.run c

section

variable (t : Text)

def atEnd : Descent Bool := do pure (decide (t.size ≤ (← get).offset))

def peek : Descent UInt8 := do (t.bytes[(← get).offset]?).elim (throw .outside) pure

def skip : Descent Unit := modify fun c => { c with offset := c.offset + 1 }

def next : Descent UInt8 := do
  let b ← peek t
  skip
  pure b

def refuseAt {α : Type} (i : Nat) (fault : ReadFault) : Descent α :=
  throw (.refused ⟨positionAt t i, fault⟩)

def refuse {α : Type} (fault : ReadFault) : Descent α := do refuseAt t (← get).offset fault

def judge {α : Type} (i : Nat) : Except ReadFault α → Descent α
  | .ok a => pure a
  | .error fault => refuseAt t i fault

def skipComment : Nat → Descent Unit
  | 0 => throw .outOfFuel
  | fuel + 1 => do
    if ← atEnd t then pure ()
    else if (← peek t) = Byte.newline then pure ()
    else
      skip
      skipComment fuel

def skipGap : Nat → Descent Unit
  | 0 => throw .outOfFuel
  | fuel + 1 => do
    if ← atEnd t then pure ()
    else
      let b ← peek t
      if Token.isBlank b then
        skip
        skipGap fuel
      else if b = Byte.semicolon then
        skipComment t fuel
        skipGap fuel
      else pure ()

def readString : Nat → List UInt8 → Descent Value
  | 0, _ => throw .outOfFuel
  | fuel + 1, bytes => do
    if ← atEnd t then refuse t .unterminatedString
    else
      let b ← next t
      if b = Byte.quote then pure (.str (.ofBytes bytes.reverse))
      else if b = Byte.backslash then
        if ← atEnd t then refuse t .unterminatedEscape
        else
          match Reader.unescape? (← next t) with
          | some c => readString fuel (c :: bytes)
          | none => refuse t .unknownEscape
      else readString fuel (b :: bytes)

def tokenBytes : Nat → List UInt8 → Descent (List UInt8)
  | 0, _ => throw .outOfFuel
  | fuel + 1, bytes => do
    if ← atEnd t then pure bytes
    else if Token.isDelimiter (← peek t) then pure bytes
    else
      let b ← next t
      tokenBytes fuel (b :: bytes)

def readToken (fuel : Nat) (b : UInt8) : Descent Value := do
  let behind ← get
  let bytes ← tokenBytes t fuel [b]
  judge t (behind.offset - 1) (Token.value bytes.reverse)

def begin : Descent Unit := modify fun c => { c with calls := c.calls + 1 }

mutual

def readForm : Nat → Descent Value
  | 0 => throw .outOfFuel
  | fuel + 1 => do
    begin
    skipGap t fuel
    if ← atEnd t then refuse t .endOfInput
    else
      let b ← next t
      if b = Byte.quote then readString t fuel []
      else if b = Byte.atSign then
        let v ← readForm fuel
        pure (Reader.derefOf v)
      else
        match Bracket.opened? b with
        | some k => do
          let behind ← get
          let items ← readItems fuel k []
          judge t behind.offset (Reader.enclosed k items)
        | none =>
          match Bracket.closed? b with
          | some k => refuse t (.unexpectedCloser k)
          | none => readToken t fuel b

def readItems : Nat → Bracket → List Value → Descent (List Value)
  | 0, _, _ => throw .outOfFuel
  | fuel + 1, k, items => do
    skipGap t fuel
    if ← atEnd t then refuse t (.unterminated k)
    else if (← peek t) = k.closer then
      skip
      pure items.reverse
    else
      let v ← readForm fuel
      readItems fuel k (v :: items)

end

def readForms : Nat → List Value → Descent (List Value)
  | 0, _ => throw .outOfFuel
  | fuel + 1, forms => do
    skipGap t fuel
    if ← atEnd t then pure forms.reverse
    else
      let v ← readForm t fuel
      readForms fuel (v :: forms)

def readFirst (fuel : Nat) : Descent (Option Value) := do
  skipGap t fuel
  if ← atEnd t then pure none
  else
    let v ← readForm t fuel
    pure (some v)

end

section

variable {α β : Type} {c : Cursor}

theorem exec_bind (x : Descent α) (f : α → Descent β) (c : Cursor) :
    (x >>= f).exec c = match x.exec c with
      | (.ok a, c') => (f a).exec c'
      | (.error stop, c') => (.error stop, c') := by
  show (ExceptT.bind x f).run c = _
  rw [ExceptT.bind, ExceptT.mk]
  show StateT.run (StateT.bind x (ExceptT.bindCont f)) c = _
  rw [exec]
  show ExceptT.bindCont f (StateT.run x.run c).1 (StateT.run x.run c).2 = _
  rcases StateT.run x.run c with ⟨a | a, c'⟩ <;> rfl

theorem exec_peek {t : Text} {b : UInt8} (ahead : t.bytes[c.offset]? = some b) :
    (peek t).exec c = (.ok b, c) := by
  have run : (peek t).exec c =
      ((t.bytes[c.offset]?).elim (throw .outside) pure : Descent UInt8).exec c := rfl
  rw [run, ahead]
  rfl

/-- The descent comes to a value or refuses the text, never for want of a byte or of steps, and
the one or the other is as it should be. -/
def Obeys (x : Descent α) (c : Cursor) (Q : α → Cursor → Prop) (E : ReadError → Cursor → Prop) :
    Prop :=
  match x.exec c with
  | (.ok a, c') => Q a c'
  | (.error (.refused e), c') => E e c'
  | (.error .outside, _) => False
  | (.error .outOfFuel, _) => False

variable {x : Descent α} {f : α → Descent β} {Q Q' : α → Cursor → Prop}
variable {R : β → Cursor → Prop} {E E' : ReadError → Cursor → Prop}

theorem Obeys.pure {a : α} (h : Q a c) : (Pure.pure a : Descent α).Obeys c Q E := h

theorem Obeys.bind (hx : x.Obeys c Q E) (hf : ∀ a c', Q a c' → (f a).Obeys c' R E) :
    (x >>= f).Obeys c R E := by
  unfold Obeys at hx
  rw [Obeys, exec_bind]
  split at hx
  · rename_i a c' run
    rw [run]
    exact hf a c' hx
  · rename_i e c' run
    rw [run]
    exact hx
  · exact hx.elim
  · exact hx.elim

theorem Obeys.weaken (hx : x.Obeys c Q E) (hQ : ∀ a c', Q a c' → Q' a c')
    (hE : ∀ e c', E e c' → E' e c') : x.Obeys c Q' E' := by
  unfold Obeys at hx ⊢
  split at hx
  · exact hQ _ _ hx
  · exact hE _ _ hx
  · exact hx
  · exact hx

/-- What never refuses needs no account of refusals. -/
theorem Obeys.after (hx : x.Obeys c Q fun _ _ => False)
    (hf : ∀ a c', Q a c' → (f a).Obeys c' R E) : (x >>= f).Obeys c R E :=
  (hx.weaken (fun _ _ => id) fun _ _ => False.elim).bind hf

end

end Descent

end MiniLisp
