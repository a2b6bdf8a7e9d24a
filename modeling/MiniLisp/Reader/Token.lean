import MiniLisp.Integer
import MiniLisp.Reader.Fault
import MiniLisp.Value

/-! A token is a longest run of bytes without a delimiter. What it denotes is decided by its bytes
alone. -/
namespace MiniLisp

namespace Token

def isBlank (b : UInt8) : Bool := Byte.isSpace b || b = Byte.comma

/-- Bytes that end a token. The dereferencing sign is not one of them. -/
def isDelimiter (b : UInt8) : Bool :=
  isBlank b || b = Byte.semicolon || b = Byte.quote ||
    (Bracket.opened? b).isSome || (Bracket.closed? b).isSome

def isSign (b : UInt8) : Bool := b = Byte.plus || b = Byte.minus

def isNumeric : List UInt8 → Bool
  | [] => false
  | [b] => Byte.isDigit b
  | b :: c :: _ => Byte.isDigit b || (isSign b && Byte.isDigit c)

def unsigned : List UInt8 → List UInt8
  | [] => []
  | b :: rest => if isSign b then rest else b :: rest

/-- The word of a sign and digits. None has a greater magnitude than the least one, so no digit is
read after the one that passes it. -/
def word? (negative : Bool) (ds : List UInt8) : Option Int64 :=
  (Decimal.toNatUpTo? 9223372036854775808 ds).bind fun n =>
    Integer.ofInt? (if negative then -n else n)

theorem word?_eq (negative : Bool) (ds : List UInt8) :
    word? negative ds =
      Integer.ofInt? (if negative then -(Decimal.toNat ds : Int) else Decimal.toNat ds) := by
  rw [word?, Decimal.toNatUpTo?_eq]
  split
  · rfl
  · rename_i h
    rw [Integer.ofInt?, if_neg]
    · rfl
    · cases negative <;> simp [Integer.InRange] <;> omega

/-- The integer a numeric token denotes. Its digits are judged before what follows them, so a
number out of range is reported as such even when more bytes trail it. -/
def integer (token : List UInt8) : Except ReadFault Int64 :=
  let digits := (unsigned token).takeWhile Byte.isDigit
  match word? (token.head? = some Byte.minus) digits with
  | none => .error (.integerRange (.ofBytes token))
  | some n =>
    if (unsigned token).all Byte.isDigit then .ok n
    else .error (.malformedInteger (.ofBytes token))

def constant? (name : Text) : Option Value :=
  if name = ascii "nil" then some .nil
  else if name = ascii "true" then some (.bool true)
  else if name = ascii "false" then some (.bool false)
  else none

def value (token : List UInt8) : Except ReadFault Value :=
  if token.head? = some Byte.colon then
    if token.tail = [] then .error .emptyKeyword else .ok (.kw (.ofBytes token.tail))
  else if isNumeric token then (integer token).map .int
  else
    let name := Text.ofBytes token
    .ok ((constant? name).getD (.sym name))

end Token

end MiniLisp
