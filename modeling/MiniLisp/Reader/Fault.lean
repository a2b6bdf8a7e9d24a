import MiniLisp.Text.Decimal

/-! A text that cannot be read is refused with the place and the cause. Four causes say that the
text stopped too early: more text may still make it readable. -/
namespace MiniLisp

inductive Bracket where
  | round | square | curly
  deriving DecidableEq, Repr

namespace Bracket

def opener : Bracket → UInt8
  | round => 40
  | square => 91
  | curly => 123

def closer : Bracket → UInt8
  | round => 41
  | square => 93
  | curly => 125

def encloses : Bracket → Text
  | round => ascii "list"
  | square => ascii "vector"
  | curly => ascii "map"

def opened? (b : UInt8) : Option Bracket := [round, square, curly].find? (·.opener = b)

def closed? (b : UInt8) : Option Bracket := [round, square, curly].find? (·.closer = b)

end Bracket

/-- Lines and columns count from one, columns in bytes. -/
structure Position where
  line : Nat
  column : Nat
  deriving DecidableEq, Repr

namespace Position

def start : Position := ⟨1, 1⟩

def advance (p : Position) (b : UInt8) : Position :=
  if b = Byte.newline then ⟨p.line + 1, 1⟩ else ⟨p.line, p.column + 1⟩

end Position

inductive ReadFault where
  | endOfInput
  | unterminated (b : Bracket)
  | unterminatedString
  | unterminatedEscape
  | unexpectedCloser (b : Bracket)
  | unknownEscape
  | oddMap
  | badMapKey
  | emptyKeyword
  | integerRange (token : Text)
  | malformedInteger (token : Text)
  deriving DecidableEq, Repr

namespace ReadFault

def incomplete : ReadFault → Bool
  | endOfInput | unterminated _ | unterminatedString | unterminatedEscape => true
  | _ => false

def message : ReadFault → Text
  | endOfInput => ascii "unexpected end of input"
  | unterminated b => ascii "unterminated " ++ b.encloses
  | unterminatedString => ascii "unterminated string"
  | unterminatedEscape => ascii "unterminated string escape"
  | unexpectedCloser b => (ascii "unexpected '").push b.closer ++ ascii "'"
  | unknownEscape => ascii "unknown string escape"
  | oddMap => ascii "map literal needs an even number of forms"
  | badMapKey => ascii "map keys must be strings or keywords"
  | emptyKeyword => ascii "keyword needs a name"
  | integerRange token => ascii "integer literal out of range: " ++ token
  | malformedInteger token => ascii "malformed integer literal: " ++ token

end ReadFault

structure ReadError where
  position : Position
  fault : ReadFault
  deriving DecidableEq, Repr

namespace ReadError

def incomplete (e : ReadError) : Bool := e.fault.incomplete

def message (e : ReadError) : Text :=
  ascii "line " ++ Text.ofNat e.position.line ++ ascii ", column " ++
    Text.ofNat e.position.column ++ ascii ": " ++ e.fault.message

end ReadError

end MiniLisp
