import MiniLisp.Equality
import MiniLisp.Native.Arithmetic
import MiniLisp.Native.Arity
import MiniLisp.Native.Mapping
import MiniLisp.Native.Naming
import MiniLisp.Native.Sequence

/-! What each native that leaves the store alone computes from its arguments. -/
namespace MiniLisp

namespace DataOp

@[inline] def test (who : Text) (p : Value → Bool) : List Value → Except Error Value :=
  Arity.unary who fun a => .ok (.bool (p a))

def run (op : DataOp) : List Value → Except Error Value :=
  match op with
  | .add => Arity.binary op.name (Arithmetic.checked op.name Integer.add?)
  | .sub => Arity.binary op.name (Arithmetic.checked op.name Integer.sub?)
  | .mul => Arity.binary op.name (Arithmetic.checked op.name Integer.mul?)
  | .div => Arity.binary op.name (Arithmetic.division op.name)
  | .equal => Arity.binary op.name fun a b => .ok (.bool (a.same b))
  | .greater => Arity.binary op.name (Arithmetic.comparison op.name fun x y => y < x)
  | .greaterEqual => Arity.binary op.name (Arithmetic.comparison op.name fun x y => y ≤ x)
  | .less => Arity.binary op.name (Arithmetic.comparison op.name fun x y => x < y)
  | .lessEqual => Arity.binary op.name (Arithmetic.comparison op.name fun x y => x ≤ y)
  | .cons => Arity.binary op.name (Sequence.cons op.name)
  | .concat => Sequence.concat op.name
  | .list => fun args => .ok (.list args.toArray)
  | .isList => test op.name (Value.is .list)
  | .isEmpty => Arity.unary op.name (Sequence.isEmpty op.name)
  | .count => Arity.unary op.name fun a => .ok (Sequence.count a)
  | .nth => Arity.binary op.name (Sequence.nth op.name)
  | .first => Arity.unary op.name (Sequence.first op.name)
  | .rest => Arity.unary op.name (Sequence.rest op.name)
  | .isMap => test op.name (Value.is .map)
  | .hashMap => Mapping.assocPairs op.name .empty
  | .assoc => Arity.leading op.name (Mapping.assoc op.name)
  | .dissoc => Arity.leading op.name (Mapping.dissoc op.name)
  | .get => Arity.binary op.name (Mapping.get op.name)
  | .contains => Arity.binary op.name (Mapping.contains op.name)
  | .keys => Arity.unary op.name (Mapping.keys op.name)
  | .vals => Arity.unary op.name (Mapping.vals op.name)
  | .isSequential => test op.name Value.isSequential
  | .isVector => test op.name (Value.is .vector)
  | .vector => fun args => .ok (.vec args.toArray)
  | .vec => Arity.unary op.name (Sequence.vec op.name)
  | .symbol => Arity.unary op.name (Naming.symbol op.name)
  | .keyword => Arity.unary op.name (Naming.keyword op.name)
  | .isNil => test op.name (Value.is .nil)
  | .isSymbol => test op.name (Value.is .symbol)
  | .isKeyword => test op.name (Value.is .keyword)
  | .isTrue => test op.name fun a => a.is .boolean && a.isTruthy
  | .isFalse => test op.name fun a => a.is .boolean && !a.isTruthy
  | .isCell => test op.name (Value.is .cell)
  | .readString => Arity.unary op.name (Naming.readString op.name)

end DataOp

end MiniLisp
