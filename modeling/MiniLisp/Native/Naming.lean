import MiniLisp.Access
import MiniLisp.Reader

/-! Natives between text and names. -/
namespace MiniLisp

namespace Naming

def symbol (who : Text) (a : Value) : Except Error Value := do
  let t ← a.textArg who
  .ok (.sym t)

def keyword (who : Text) : Value → Except Error Value
  | .kw name => .ok (.kw name)
  | a => do
    let t ← a.textArg who
    .ok (.kw t)

def readString (who : Text) (a : Value) : Except Error Value := do
  let t ← a.textArg who
  match readFirst t with
  | .ok form => .ok (form.getD .nil)
  | .error e => .error (.read e)

end Naming

end MiniLisp
