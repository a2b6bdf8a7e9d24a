import MiniLisp.Access
import MiniLisp.Machine
import MiniLisp.Native.Data

/-! Natives that use cells, print, read files or call functions. The ways to evaluate and to apply
come in as parameters. -/
namespace MiniLisp

open EvalM (fail ofExcept)

abbrev Applier := Value → List Value → EvalM Value

def CellOp.run (op : CellOp) (args : List Value) : EvalM Value :=
  match op, args with
  | create, [v] => EvalM.newCell v
  | deref, [a] => do
    let c ← ofExcept (a.cellArg op.name)
    pure ((← get).cellContent c)
  | reset, [a, v] => do
    let c ← ofExcept (a.cellArg op.name)
    modify (·.setCell c v)
    pure v
  | create, args => fail (.arity op.name 1 args.length)
  | deref, args => fail (.arity op.name 1 args.length)
  | reset, args => fail (.arity op.name 2 args.length)

namespace TextOp

def isReadable : TextOp → Bool
  | prStr | prn => true
  | str | println => false

def separator : TextOp → Text
  | str => .empty
  | _ => ascii " "

def writes : TextOp → Bool
  | prn | println => true
  | prStr | str => false

def run (op : TextOp) (args : List Value) : EvalM Value := do
  let text ← ofExcept (printAll (← get).cells op.isReadable op.separator args)
  if op.writes then
    modify (·.write (text.push Byte.newline))
    pure .nil
  else
    pure (.str text)

end TextOp

namespace CallOp

def spread (who : Text) (args : List Value) : Except Error (List Value) := do
  let last ← (args.getLast?.getD .null).itemsArg who
  .ok (args.dropLast ++ last.toList)

@[specialize] def run (op : CallOp) (apply : Applier) (args : List Value) : EvalM Value :=
  match op, args with
  | .apply, f :: a :: rest => do
    let f ← ofExcept (f.functionArg op.name)
    let args ← ofExcept (spread op.name (a :: rest))
    apply f args
  | .map, [f, s] => do
    let f ← ofExcept (f.functionArg op.name)
    let items ← ofExcept (s.itemsArg op.name)
    let results ← items.toList.mapM fun v => apply f [v]
    pure (.list results.toArray)
  | .swap, a :: f :: extra => do
    let c ← ofExcept (a.cellArg op.name)
    let f ← ofExcept (f.functionArg op.name)
    let old := (← get).cellContent c
    let new ← apply f (old :: extra)
    modify (·.setCell c new)
    pure new
  | .apply, args => fail (.arityAtLeast op.name 2 args.length)
  | .map, args => fail (.arity op.name 2 args.length)
  | .swap, args => fail (.arityAtLeast op.name 2 args.length)

end CallOp

@[specialize] def HostOp.run (op : HostOp) (apply : Applier) (args : List Value) : EvalM Value :=
  match op, args with
  | list, args => pure (.list args.toArray)
  | collect, _ => pure .nil
  | call, f :: args => apply f args
  | call, [] => fail .noFunction

def throwValue : List Value → EvalM Value
  | [v] => do
    let message ← EvalM.readable v
    fail (.thrown v message)
  | args => fail (.arity Native.throw.name 1 args.length)

def slurpFile : List Value → EvalM Value
  | [a] => do
    let path ← ofExcept (a.textArg Native.slurp.name)
    match (← get).file? path with
    | some contents => pure (.str contents)
    | none => fail (.cannotOpen path)
  | args => fail (.arity Native.slurp.name 1 args.length)

@[specialize] def Native.run (evaluate : Value → Scope → EvalM Value) (apply : Applier)
    (op : Native) (args : List Value) : EvalM Value :=
  match op with
  | .data op => ofExcept (op.run args)
  | .cell op => op.run args
  | .text op => op.run args
  | .call op => op.run apply args
  | .throw => throwValue args
  | .slurp => slurpFile args
  | .evalIn scope =>
    match args with
    | [e] => evaluate e scope
    | args => fail (.arity op.name 1 args.length)
  | .host _ op => op.run apply args

end MiniLisp
