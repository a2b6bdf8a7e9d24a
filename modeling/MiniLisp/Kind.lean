import MiniLisp.Value

/-! Every value but the absent one has exactly one kind, and error messages name values by it. -/
namespace MiniLisp

inductive Kind where
  | nil | boolean | integer | string | symbol | keyword
  | list | vector | map | cell | native | closure
  deriving DecidableEq, Repr

def Kind.name : Kind → Text
  | nil => ascii "nil"
  | boolean => ascii "boolean"
  | integer => ascii "integer"
  | string => ascii "string"
  | symbol => ascii "symbol"
  | keyword => ascii "keyword"
  | list => ascii "list"
  | vector => ascii "vector"
  | map => ascii "map"
  | cell => ascii "atom"
  | native => ascii "primitive_fn"
  | closure => ascii "closure"

namespace Value

def kind? : Value → Option Kind
  | null => none
  | nil => some .nil
  | bool _ => some .boolean
  | int _ => some .integer
  | str _ => some .string
  | sym _ => some .symbol
  | kw _ => some .keyword
  | list _ => some .list
  | vec _ => some .vector
  | map _ => some .map
  | cell _ => some .cell
  | native _ _ => some .native
  | closure _ _ _ _ => some .closure

def is (k : Kind) (v : Value) : Bool := v.kind? = some k

def isSequential (v : Value) : Bool := v.is .list || v.is .vector

def isFunction (v : Value) : Bool := v.is .native || v.is .closure

/-- Everything but nil and false counts as true, the absent value included. -/
def isTruthy : Value → Bool
  | nil => false
  | bool b => b
  | _ => true

def items? : Value → Option (Array Value)
  | list xs => some xs
  | vec xs => some xs
  | _ => none

end Value

inductive Shape where
  | kind (k : Kind)
  | sequence
  | function
  deriving DecidableEq, Repr

def Shape.name : Shape → Text
  | kind k => k.name
  | sequence => ascii "list or vector"
  | function => ascii "function"

end MiniLisp
