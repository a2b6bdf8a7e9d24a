import MiniLisp.Error

/-! A native checks how many arguments it got before it looks at any of them. -/
namespace MiniLisp

namespace Arity

variable {α : Type}

@[inline] def unary (who : Text) (f : Value → Except Error α) : List Value → Except Error α
  | [a] => f a
  | args => .error (.arity who 1 args.length)

@[inline] def binary (who : Text) (f : Value → Value → Except Error α) : List Value → Except Error α
  | [a, b] => f a b
  | args => .error (.arity who 2 args.length)

@[inline] def leading (who : Text) (f : Value → List Value → Except Error α) :
    List Value → Except Error α
  | a :: args => f a args
  | [] => .error (.arityAtLeast who 1 0)

end Arity

end MiniLisp
