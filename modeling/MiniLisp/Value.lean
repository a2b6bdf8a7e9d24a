import MiniLisp.Key
import MiniLisp.Params

/-! The values a program computes with, which are also its expressions. Data is immutable and has no
identity; what has one refers to the store by an identifier. A scope is a chain of frames, each with
the bindings it was made with: these never change, so they need no place in the store. -/
namespace MiniLisp

structure FrameId where
  index : Nat
  deriving DecidableEq, Repr

structure CellId where
  index : Nat
  deriving DecidableEq, Repr

structure FunId where
  index : Nat
  deriving DecidableEq, Repr

inductive DataOp where
  | add | sub | mul | div | equal | greater | greaterEqual | less | lessEqual
  | cons | concat | list | isList | isEmpty | count | nth | first | rest
  | isMap | hashMap | assoc | dissoc | get | contains | keys | vals
  | isSequential | isVector | vector | vec
  | symbol | keyword | isNil | isSymbol | isKeyword | isTrue | isFalse | isCell
  | readString
  deriving DecidableEq, Repr

inductive CellOp where
  | create | deref | reset
  deriving DecidableEq, Repr

inductive TextOp where
  | prStr | str | prn | println
  deriving DecidableEq, Repr

inductive CallOp where
  | apply | map | swap
  deriving DecidableEq, Repr

inductive HostOp where
  | list
  /-- Asks for a collection of garbage, which no program can observe, and yields nil. -/
  | collect
  | call
  deriving DecidableEq, Repr

mutual

inductive Value where
  /-- The absent value. Hosts can hand it in; no evaluation produces it from other values. -/
  | null
  | nil
  | bool (b : Bool)
  | int (n : Int64)
  | str (text : Text)
  | sym (name : Text)
  | kw (name : Text)
  | list (items : Array Value)
  | vec (items : Array Value)
  | map (table : Table Key Value)
  | cell (id : CellId)
  | native (id : FunId) (op : Native)
  | closure (id : FunId) (params : Params) (body : Value) (scope : Option Scope)

inductive Native where
  | data (op : DataOp)
  | cell (op : CellOp)
  | text (op : TextOp)
  | call (op : CallOp)
  | throw
  | slurp
  /-- Evaluates its argument in the given scope, whoever calls it. -/
  | evalIn (scope : Scope)
  | host (name : Text) (op : HostOp)

/-- A frame, the bindings it was made with, and the scope around it. -/
inductive Scope where
  | frame (id : FrameId) (given : Table Text Value) (parent : Option Scope)

end

instance : Inhabited Value := ⟨.null⟩

namespace Scope

def id : Scope → FrameId
  | frame id _ _ => id

def given : Scope → Table Text Value
  | frame _ given _ => given

def parent : Scope → Option Scope
  | frame _ _ parent => parent

end Scope

def DataOp.name : DataOp → Text
  | add => ascii "+"
  | sub => ascii "-"
  | mul => ascii "*"
  | div => ascii "/"
  | equal => ascii "="
  | greater => ascii ">"
  | greaterEqual => ascii ">="
  | less => ascii "<"
  | lessEqual => ascii "<="
  | cons => ascii "cons"
  | concat => ascii "concat"
  | list => ascii "list"
  | isList => ascii "list?"
  | isEmpty => ascii "empty?"
  | count => ascii "count"
  | nth => ascii "nth"
  | first => ascii "first"
  | rest => ascii "rest"
  | isMap => ascii "map?"
  | hashMap => ascii "hash-map"
  | assoc => ascii "assoc"
  | dissoc => ascii "dissoc"
  | get => ascii "get"
  | contains => ascii "contains?"
  | keys => ascii "keys"
  | vals => ascii "vals"
  | isSequential => ascii "sequential?"
  | isVector => ascii "vector?"
  | vector => ascii "vector"
  | vec => ascii "vec"
  | symbol => ascii "symbol"
  | keyword => ascii "keyword"
  | isNil => ascii "nil?"
  | isSymbol => ascii "symbol?"
  | isKeyword => ascii "keyword?"
  | isTrue => ascii "true?"
  | isFalse => ascii "false?"
  | isCell => ascii "atom?"
  | readString => ascii "read-string"

def CellOp.name : CellOp → Text
  | create => ascii "atom"
  | deref => ascii "deref"
  | reset => ascii "reset!"

def TextOp.name : TextOp → Text
  | prStr => ascii "pr-str"
  | str => ascii "str"
  | prn => ascii "prn"
  | println => ascii "println"

def CallOp.name : CallOp → Text
  | apply => ascii "apply"
  | map => ascii "map"
  | swap => ascii "swap!"

def Native.name : Native → Text
  | data op => op.name
  | cell op => op.name
  | text op => op.name
  | call op => op.name
  | throw => ascii "throw"
  | slurp => ascii "slurp"
  | evalIn _ => ascii "eval"
  | host name _ => name

def Key.toValue : Key → Value
  | string text => .str text
  | keyword name => .kw name

def Key.ofValue? : Value → Option Key
  | .str text => some (.string text)
  | .kw name => some (.keyword name)
  | _ => none

/-- Pairs alternating keys and values behind those already paired, which are latest first. The
first bad key decides the error, and a value without a key is left out. -/
def Value.pairUp {ε : Type} (key : Value → Except ε Key) :
    List Value → List (Key × Value) → Except ε (List (Key × Value))
  | k :: v :: rest, done => do
    let k ← key k
    pairUp key rest ((k, v) :: done)
  | _, done => .ok done.reverse

end MiniLisp
