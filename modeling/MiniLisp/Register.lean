import MiniLisp.Eval

/-! A host extends an environment by functions and values under new names. A name must not be bound
in that very frame, but may shadow a name of an older one. -/
namespace MiniLisp

open EvalM (fail)

inductive Extension where
  /-- A function, or none where the host hands in an empty one. -/
  | builtin (name : Text) (op : Option HostOp)
  /-- The first form of a text, not evaluated, or the absent value. -/
  | value (name : Text) (form : Option FormText)
  deriving DecidableEq, Repr

namespace Register

def checkName (what : Registered) (scope : Scope) (name : Text) : EvalM Unit := do
  if name.isEmpty then fail (.register (.emptyName what))
  if ((← get).local? scope name).isSome then fail (.register (.taken what name))

def builtin (scope : Scope) (name : Text) (op : Option Native) : EvalM Unit := do
  checkName .builtin scope name
  match op with
  | none => fail (.register .emptyFunction)
  | some op => do
    let f ← EvalM.newFunction op
    EvalM.define scope name f

def value (scope : Scope) (name : Text) (v : Value) : EvalM Unit := do
  checkName .value scope name
  match v with
  | .null => fail (.register .absentValue)
  | v => EvalM.define scope name v

end Register

def FormText.value (t : FormText) : EvalM Value :=
  match t.read with
  | .ok form => pure form
  | .error e => fail (.read e)

def Extension.formValue : Option FormText → EvalM Value
  | none => pure .null
  | some t => t.value

def register (e : Extension) : Option Scope → EvalM Unit
  | none => fail (.absent .registrarScope)
  | some scope =>
    match e with
    | .builtin name op => Register.builtin scope name (op.map (Native.host name))
    | .value name form => do
      let v ← Extension.formValue form
      Register.value scope name v

end MiniLisp
