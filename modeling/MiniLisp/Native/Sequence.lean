import MiniLisp.Access

/-! Lists and vectors are accepted alike. What is built from them is a list, unless a vector is
asked for. -/
namespace MiniLisp

namespace Sequence

def cons (who : Text) (a b : Value) : Except Error Value := do
  let xs ← b.itemsArg who
  .ok (.list ((Array.emptyWithCapacity (xs.size + 1)).push a ++ xs))

def join : List (Array Value) → Array Value
  | [] => #[]
  | xs :: rest => rest.foldl (· ++ ·) xs

def concat (who : Text) (args : List Value) : Except Error Value := do
  let parts ← args.mapM (Value.itemsArg who)
  .ok (.list (join parts))

def isEmpty (who : Text) (a : Value) : Except Error Value := do
  let xs ← a.itemsArg who
  .ok (.bool xs.isEmpty)

/-- Whatever is no list or vector has no items to count. -/
def count (a : Value) : Value := .int (Int64.ofNat (a.items?.getD #[]).size)

def nth (who : Text) (a b : Value) : Except Error Value := do
  let xs ← a.itemsArg who
  let i ← b.integerArg who
  match if i < 0 then none else xs[i.toInt.toNat]? with
  | some v => .ok v
  | none => .error .indexOutOfRange

def first (who : Text) : Value → Except Error Value
  | .nil => .ok .nil
  | a => do
    let xs ← a.itemsArg who
    .ok (xs[0]?.getD .nil)

def rest (who : Text) : Value → Except Error Value
  | .nil => .ok (.list #[])
  | a => do
    let xs ← a.itemsArg who
    .ok (.list (xs.extract 1 xs.size))

def vec (who : Text) (a : Value) : Except Error Value := do
  let xs ← a.itemsArg who
  .ok (.vec xs)

end Sequence

end MiniLisp
