import MiniLisp.Reader.Token

/-! The shape of a value shows its parts in order, lists apart from vectors and the entries of a map
as they come. Data are the values that have a written form. -/
namespace MiniLisp

inductive Datum where
  | leaf (v : Value)
  | list (items : List Datum)
  | vec (items : List Datum)
  | map (entries : List (Key × Datum))

namespace Value

mutual

def datum : Value → Datum
  | list ⟨xs⟩ => .list (data xs)
  | vec ⟨xs⟩ => .vec (data xs)
  | map ⟨order, ⟨vs⟩⟩ => .map (order.toList.zip (data vs))
  | v => .leaf v

def data : List Value → List Datum
  | [] => []
  | v :: vs => datum v :: data vs

end

theorem data_eq_map (vs : List Value) : data vs = vs.map datum := by
  induction vs with
  | nil => rfl
  | cons v vs ih => rw [data, ih, List.map_cons]

theorem datum_list (xs : List Value) : (list xs.toArray).datum = .list (xs.map datum) := by
  rw [datum, data_eq_map]

theorem datum_vec (xs : List Value) : (vec xs.toArray).datum = .vec (xs.map datum) := by
  rw [datum, data_eq_map]

theorem datum_map (t : Table Key Value) :
    (map t).datum = .map (t.entries.map fun e => (e.1, e.2.datum)) := by
  obtain ⟨order, ⟨vs⟩⟩ := t
  rw [datum, data_eq_map, Table.entries, List.zip_map_right]
  rfl

end Value

/-- A name that reads as a symbol: it is one token, no constant and no number. -/
structure SymbolToken (name : Text) : Prop where
  nonempty : name.bytes ≠ []
  undivided : ∀ b ∈ name.bytes, Token.isDelimiter b = false
  noDeref : name.bytes.head? ≠ some Byte.atSign
  noKeyword : name.bytes.head? ≠ some Byte.colon
  notNil : name ≠ ascii "nil"
  notTrue : name ≠ ascii "true"
  notFalse : name ≠ ascii "false"
  noDigit : ∀ b rest, name.bytes = b :: rest → Byte.isDigit b = false
  noSignedDigit : ∀ sign b rest, name.bytes = sign :: b :: rest →
    sign = Byte.plus ∨ sign = Byte.minus → Byte.isDigit b = false

structure KeywordName (name : Text) : Prop where
  nonempty : name.bytes ≠ []
  undivided : ∀ b ∈ name.bytes, Token.isDelimiter b = false

def WrittenKey : Key → Prop
  | .string _ => True
  | .keyword name => KeywordName name

inductive Data : Value → Prop where
  | nil : Data .nil
  | bool (b : Bool) : Data (.bool b)
  | int (n : Int64) : Data (.int n)
  | str (t : Text) : Data (.str t)
  | sym {name : Text} : SymbolToken name → Data (.sym name)
  | kw {name : Text} : KeywordName name → Data (.kw name)
  | list {xs : Array Value} : (∀ v ∈ xs, Data v) → Data (.list xs)
  | vec {xs : Array Value} : (∀ v ∈ xs, Data v) → Data (.vec xs)
  | map {t : Table Key Value} : (∀ e ∈ t.entries, WrittenKey e.1) →
      (∀ e ∈ t.entries, Data e.2) → Data (.map t)

end MiniLisp
