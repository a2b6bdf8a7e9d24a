import MiniLisp.Native.Effect

/-! Evaluation in a frame. A step hands the last part of a form back to the loop, with the frame to
evaluate it in, so calls in tail position nest nothing. Not every evaluation ends, so the number of
steps is granted; running out of them is neither a value nor an error. -/
namespace MiniLisp

open EvalM (fail ofExcept)

abbrev Evaluator := Value → Scope → EvalM Value

inductive Step where
  | done (v : Value)
  | tail (e : Value) (scope : Scope)

inductive SpecialForm where
  | define | letIn | sequence | branch | function
  deriving DecidableEq, Repr

namespace SpecialForm

def name : SpecialForm → Text
  | define => ascii "def!"
  | letIn => ascii "let*"
  | sequence => ascii "do"
  | branch => ascii "if"
  | function => ascii "fn*"

def ofName? (t : Text) : Option SpecialForm :=
  [define, letIn, sequence, branch, function].find? (·.name = t)

/-- The special form that a list with this head is, whatever the name is bound to. -/
def ofHead? : Value → Option SpecialForm
  | .sym t => ofName? t
  | _ => none

end SpecialForm

def bindingPairs : List Value → List (Value × Value)
  | name :: e :: rest => (name, e) :: bindingPairs rest
  | _ => []

namespace Eval

/-- Binds a name in the current frame. The name is checked before the expression runs. -/
@[specialize] def define (evaluate : Evaluator) (parts : List Value) (scope : Scope) : EvalM Step :=
  match parts with
  | [.sym name, e] => do
    EvalM.trace scope (pure (ascii "def! " ++ name))
    let v ← evaluate e scope
    EvalM.define scope name v
    pure (.done v)
  | [_, _] => fail (.form .defineName)
  | _ => fail (.form .defineShape)

@[specialize] def bindOne (evaluate : Evaluator) (scope : Scope) : Value × Value → EvalM Unit
  | (.sym name, e) => do
    let v ← evaluate e scope
    EvalM.define scope name v
  | _ => fail (.form .letName)

@[specialize] def letIn (evaluate : Evaluator) (parts : List Value) (scope : Scope) : EvalM Step :=
  match parts with
  | [bindings, body] =>
    match bindings.items? with
    | none => fail (.form .letBindings)
    | some items =>
      if items.size % 2 = 0 then do
        let inner ← EvalM.newFrame (some scope) .empty
        let pairs := bindingPairs items.toList
        EvalM.trace scope
          (pure (ascii "let* with " ++ Text.ofNat pairs.length ++ ascii " bindings"))
        pairs.forM (bindOne evaluate inner)
        pure (.tail body inner)
      else fail (.form .letPairs)
  | _ => fail (.form .letShape)

@[specialize] def sequence (evaluate : Evaluator) (parts : List Value) (scope : Scope) :
    EvalM Step := do
  parts.dropLast.forM fun e => discard (evaluate e scope)
  pure (.tail (parts.getLast?.getD .nil) scope)

@[specialize] def branch (evaluate : Evaluator) (parts : List Value) (scope : Scope) : EvalM Step :=
  let choose (test yes no : Value) : EvalM Step := do
    let v ← evaluate test scope
    pure (.tail (if v.isTruthy then yes else no) scope)
  match parts with
  | [test, yes] => choose test yes .nil
  | [test, yes, no] => choose test yes no
  | _ => fail (.form .ifShape)

def paramName : Value → Except Error Text
  | .sym name => .ok name
  | _ => .error (.form .fnParam)

def function (parts : List Value) (scope : Scope) : EvalM Step :=
  match parts with
  | [params, body] =>
    match params.items? with
    | none => fail (.form .fnParams)
    | some items => do
      let names ← ofExcept (items.toList.mapM paramName)
      let f ← EvalM.newClosure (.ofNames names) body (some scope)
      pure (.done f)
  | _ => fail (.form .fnShape)

@[specialize] def specialForm (evaluate : Evaluator) (form : SpecialForm) (parts : List Value)
    (scope : Scope) : EvalM Step :=
  match form with
  | .define => define evaluate parts scope
  | .letIn => letIn evaluate parts scope
  | .sequence => sequence evaluate parts scope
  | .branch => branch evaluate parts scope
  | .function => function parts scope

/-- The value of an expression taken as data. A list is a list of the values of its items here,
not a call. -/
@[specialize] def data (evaluate : Evaluator) (e : Value) (scope : Scope) : EvalM Value :=
  match e with
  | .null => fail (.absent .value)
  | .sym name => EvalM.lookup scope name
  | .list items => do pure (.list (← items.toList.mapM fun v => evaluate v scope).toArray)
  | .vec items => do pure (.vec (← items.toList.mapM fun v => evaluate v scope).toArray)
  | .map table => do pure (.map (← table.mapM fun v => evaluate v scope))
  | e => pure e

/-- The refusal to call what is no function. It shows the value, so one that cannot be printed is
refused for that. -/
def notApplicable (f : Value) : EvalM Error := do
  let written ← EvalM.readable f
  let kind ← ofExcept f.kind
  pure (.notApplicable kind written)

def callFrame (params : Params) (scope : Option Scope) (args : List Value) : EvalM Scope :=
  if params.names.length = args.length then EvalM.newFrame scope (params.bind args)
  else fail (.arity (ascii "closure") params.names.length args.length)

def describeCall (f : Value) (args : List Value) : EvalM Text := do
  let callee ← EvalM.readable f
  let parts ← ofExcept (printAll (← get).cells true (ascii ", ") args)
  pure (callee ++ ascii "(" ++ parts ++ ascii ")")

def traceCall (f : Value) (args : List Value) (scope : Scope) : EvalM Unit :=
  EvalM.trace scope do
    let call ← describeCall f args
    pure (ascii "call: " ++ call)

def traceReturn (op : Native) (result : Value) (scope : Scope) : EvalM Unit :=
  EvalM.trace scope do
    let text ← EvalM.readable result
    pure (ascii "return: " ++ op.name ++ ascii " => " ++ text)

/-- Calls a value from the given frame, which decides nothing but whether it is traced. -/
@[specialize] def call (evaluate : Evaluator) (apply : Applier) (f : Value) (args : List Value)
    (scope : Scope) : EvalM Step :=
  match f with
  | .native _ op => do
    traceCall f args scope
    let result ← op.run evaluate apply args
    traceReturn op result scope
    pure (.done result)
  | .closure _ params body captured => do
    traceCall f args scope
    let inner ← callFrame params captured args
    pure (.tail body inner)
  | f => do fail (← notApplicable f)

@[specialize] def step (evaluate : Evaluator) (apply : Applier) (e : Value) (scope : Scope) :
    EvalM Step := do
  EvalM.trace scope do
    let text ← EvalM.readable e
    pure (ascii "eval: " ++ text)
  match e with
  | .list ⟨[]⟩ => pure (.done e)
  | .list ⟨head :: parts⟩ =>
    match SpecialForm.ofHead? head with
    | some form => specialForm evaluate form parts scope
    | none => do
      let f ← evaluate head scope
      let args ← parts.mapM fun v => evaluate v scope
      call evaluate apply f args scope
  | e => do
    let v ← data evaluate e scope
    pure (.done v)

@[inline] def guarded (run : Evaluator) : Evaluator
  | .null, _ => fail (.absent .expression)
  | e, scope => run e scope

mutual

def loop : Nat → Evaluator
  | 0, _, _ => throw .outOfFuel
  | fuel + 1, e, scope => do
    match ← step (guarded (loop fuel)) (apply fuel) e scope with
    | .done v => pure v
    | .tail e scope => loop fuel e scope

/-- Applies a function outside of any frame. The call itself leaves no trace. -/
def apply : Nat → Applier
  | 0, _, _ => throw .outOfFuel
  | fuel + 1, .native _ op, args => op.run (guarded (loop fuel)) (apply fuel) args
  | fuel + 1, .closure _ params body captured, args => do
    let inner ← callFrame params captured args
    guarded (loop fuel) body inner
  | _ + 1, f, _ => do fail (← notApplicable f)

end

end Eval

def eval (fuel : Nat) : Evaluator := Eval.guarded (Eval.loop fuel)

/-- Evaluates in a frame that may be absent, which is refused after an absent expression. -/
def evalIn (fuel : Nat) (e : Value) : Option Scope → EvalM Value
  | some scope => eval fuel e scope
  | none => match e with
    | .null => fail (.absent .expression)
    | _ => fail (.absent .scope)

def evalData (fuel : Nat) : Evaluator := Eval.data (eval fuel)

def applyFunction (fuel : Nat) : Applier := Eval.apply fuel

/-- Evaluates the forms of a text in order and yields the last value, nil if there is none. A
text that cannot be read as a whole is refused before any form runs. -/
def evalSource (fuel : Nat) (t : Text) (scope : Option Scope) : EvalM Value :=
  match readAll t with
  | .error e => fail (.read e)
  | .ok forms => forms.foldlM (fun _ e => evalIn fuel e scope) .nil

end MiniLisp
