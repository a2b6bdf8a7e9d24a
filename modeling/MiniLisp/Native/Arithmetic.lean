import MiniLisp.Access
import MiniLisp.Integer

/-! Both arguments have to be integers, and the left one is asked first. Results are exact or an
error. -/
namespace MiniLisp

namespace Arithmetic

def operands (who : Text) (a b : Value) : Except Error (Int64 × Int64) := do
  let x ← a.integerArg who
  let y ← b.integerArg who
  .ok (x, y)

@[inline] def checked (who : Text) (f : Int64 → Int64 → Option Int64) (a b : Value) :
    Except Error Value := do
  let (x, y) ← operands who a b
  match f x y with
  | some n => .ok (.int n)
  | none => .error (.overflow who)

def division (who : Text) (a b : Value) : Except Error Value := do
  let (x, y) ← operands who a b
  if y = 0 then .error .divisionByZero
  else match Integer.div? x y with
    | some n => .ok (.int n)
    | none => .error (.overflow who)

@[inline] def comparison (who : Text) (holds : Int64 → Int64 → Bool) (a b : Value) :
    Except Error Value := do
  let (x, y) ← operands who a b
  .ok (.bool (holds x y))

end Arithmetic

end MiniLisp
