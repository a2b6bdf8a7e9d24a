import MiniLisp.Access

/-! Natives on maps. Entries stay in the order in which their keys were first inserted. -/
namespace MiniLisp

namespace Mapping

/-- Inserts alternating keys and values from left to right. That the arguments do not pair up is
reported before a bad key. -/
def assocPairs (who : Text) (m : Table Key Value) (args : List Value) : Except Error Value :=
  if args.length % 2 = 0 then
    (Value.pairUp (Value.keyArg who) args []).map fun pairs => .map (m.insertAll pairs)
  else .error (.oddPairs who)

def assoc (who : Text) (a : Value) (args : List Value) : Except Error Value := do
  let m ← a.tableArg who
  assocPairs who m args

def dissoc (who : Text) (a : Value) (args : List Value) : Except Error Value := do
  let m ← a.tableArg who
  let ks ← args.mapM (Value.keyArg who)
  .ok (.map (m.eraseAll ks))

/-- Nil has no entries, and is not even asked whether the key is one. -/
def get (who : Text) : Value → Value → Except Error Value
  | .nil, _ => .ok .nil
  | a, b => do
    let m ← a.tableArg who
    let k ← b.keyArg who
    .ok ((m.find? k).getD .nil)

def contains (who : Text) (a b : Value) : Except Error Value := do
  let m ← a.tableArg who
  let k ← b.keyArg who
  .ok (.bool (m.contains k))

def keys (who : Text) (a : Value) : Except Error Value := do
  let m ← a.tableArg who
  .ok (.list (m.keys.map Key.toValue).toArray)

def vals (who : Text) (a : Value) : Except Error Value := do
  let m ← a.tableArg who
  .ok (.list m.vals)

end Mapping

end MiniLisp
