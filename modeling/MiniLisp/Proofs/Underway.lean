import MiniLisp.Proofs.Requests

/-! A native may evaluate and apply in its turn, and then the loop executes natives inside of it.
Which ones are being executed when a run stops without a value is found by following the run: what
comes to a value is left behind, and what does not is entered. -/
namespace MiniLisp

open EvalM (ofExcept)

/-- The natives underway, outermost first, where a run from a machine stops without a value. -/
abbrev Underway := Machine → List Native

namespace Underway

def idle : Underway := fun _ => []

/-- One computation and then others. It is one of these that stops, if the first comes to a
value. -/
def andThen {α : Type} (x : EvalM α) (first : Underway) (rest : α → Underway) : Underway := fun m =>
  match x.exec m with
  | (.ok a, n) => rest a n
  | (.error _, _) => first m

theorem andThen_idle {α : Type} (x : EvalM α) : andThen x idle (fun _ => idle) = idle := by
  funext m
  rw [andThen]
  split <;> rfl

def during {α : Type} (x : EvalM α) (first : Underway) : Underway := andThen x first fun _ => idle

def each {α β : Type} (f : α → EvalM β) (first : α → Underway) : List α → Underway
  | [] => idle
  | a :: as => andThen (f a) (first a) fun _ => each f first as

section

variable (evaluate : Evaluator) (apply : Applier)
variable (inEvaluation : Value → Scope → Underway) (inCall : Value → List Value → Underway)

def callOp (op : CallOp) (args : List Value) : Underway :=
  match op, args with
  | .apply, f :: a :: rest =>
    andThen (ofExcept (f.functionArg op.name)) idle fun f =>
    andThen (ofExcept (CallOp.spread op.name (a :: rest))) idle fun args =>
    inCall f args
  | .map, [f, s] =>
    andThen (ofExcept (f.functionArg op.name)) idle fun f =>
    andThen (ofExcept (s.itemsArg op.name)) idle fun items =>
    each (fun v => apply f [v]) (fun v => inCall f [v]) items.toList
  | .swap, a :: f :: extra =>
    andThen (ofExcept (a.cellArg op.name)) idle fun c =>
    andThen (ofExcept (f.functionArg op.name)) idle fun f =>
    andThen get idle fun m =>
    during (apply f (m.cellContent c :: extra)) (inCall f (m.cellContent c :: extra))
  | _, _ => idle

def native (op : Native) (args : List Value) : Underway :=
  match op, args with
  | .call op, args => callOp apply inCall op args
  | .evalIn scope, [e] => inEvaluation e scope
  | .host _ .call, f :: args => inCall f args
  | _, _ => idle

def binding (scope : Scope) : Value × Value → Underway
  | (.sym _, e) => during (evaluate e scope) (inEvaluation e scope)
  | _ => idle

def letIn (parts : List Value) (scope : Scope) : Underway :=
  match parts with
  | [bindings, _] =>
    match bindings.items? with
    | none => idle
    | some items =>
      if items.size % 2 = 0 then
        andThen (EvalM.newFrame (some scope) .empty) idle fun inner =>
        each (Eval.bindOne evaluate inner) (binding evaluate inEvaluation inner)
          (bindingPairs items.toList)
      else idle
  | _ => idle

def specialForm (form : SpecialForm) (parts : List Value) (scope : Scope) : Underway :=
  match form, parts with
  | .define, [name, e] => binding evaluate inEvaluation scope (name, e)
  | .letIn, parts => letIn evaluate inEvaluation parts scope
  | .sequence, parts =>
    each (fun e => discard (evaluate e scope)) (fun e => inEvaluation e scope) parts.dropLast
  | .branch, [test, _] | .branch, [test, _, _] => inEvaluation test scope
  | _, _ => idle

def data (e : Value) (scope : Scope) : Underway :=
  match e with
  | .list items | .vec items =>
    each (fun v => evaluate v scope) (fun v => inEvaluation v scope) items.toList
  | .map table =>
    each (fun v => evaluate v scope) (fun v => inEvaluation v scope) table.vals.toList
  | _ => idle

def call (f : Value) (args : List Value) : Underway :=
  match f with
  | .native _ op => fun m => op :: native apply inEvaluation inCall op args m
  | _ => idle

def step (e : Value) (scope : Scope) : Underway :=
  match e with
  | .list ⟨[]⟩ => idle
  | .list ⟨head :: parts⟩ =>
    match SpecialForm.ofHead? head with
    | some form => specialForm evaluate inEvaluation form parts scope
    | none =>
      andThen (evaluate head scope) (inEvaluation head scope) fun f =>
      andThen (parts.mapM fun v => evaluate v scope)
        (each (fun v => evaluate v scope) (fun v => inEvaluation v scope) parts) fun args =>
      call apply inEvaluation inCall f args
  | e => data evaluate inEvaluation e scope

end

def guarded (run : Value → Scope → Underway) : Value → Scope → Underway
  | .null, _ => idle
  | e, scope => run e scope

mutual

def loop : Nat → Value → Scope → Underway
  | 0, _, _ => idle
  | fuel + 1, e, scope =>
    let evaluate := Eval.guarded (Eval.loop fuel)
    andThen (Eval.step evaluate (Eval.apply fuel) e scope)
      (step evaluate (Eval.apply fuel) (guarded (loop fuel)) (apply fuel) e scope) fun
      | .done _ => idle
      | .tail e scope => loop fuel e scope

/-- A native that is applied is not executed by the loop. -/
def apply : Nat → Value → List Value → Underway
  | 0, _, _ => idle
  | fuel + 1, .native _ op, args =>
    native (Eval.apply fuel) (guarded (loop fuel)) (apply fuel) op args
  | fuel + 1, .closure _ params body captured, args =>
    andThen (Eval.callFrame params captured args) idle fun inner => guarded (loop fuel) body inner
  | _ + 1, _, _ => idle

end

def eval (fuel : Nat) : Value → Scope → Underway := guarded (loop fuel)

def evalData (fuel : Nat) : Value → Scope → Underway := data (MiniLisp.eval fuel) (eval fuel)

def source (fuel : Nat) (t : Text) (scope : Scope) : Underway :=
  match readAll t with
  | .error _ => idle
  | .ok forms => each (fun e => MiniLisp.eval fuel e scope) (fun e => eval fuel e scope) forms

end Underway

/-- The natives underway, outermost first, where a request comes to an error. -/
def Request.underway (fuel : Nat) (session : Session) : Request → Underway
  | .source t =>
    Underway.during (evalSource fuel t (some session.global))
      (Underway.source fuel t session.global)
  | .data t =>
    Underway.andThen t.value Underway.idle fun form =>
    Underway.during (evalData fuel form session.global)
      (Underway.evalData fuel form session.global)
  | .apply f args =>
    let evaluate (t : Text) := evalSource fuel t (some session.global)
    let inEvaluation (t : Text) := Underway.source fuel t session.global
    Underway.andThen (evaluate f) (inEvaluation f) fun f =>
    Underway.andThen (args.mapM evaluate) (Underway.each evaluate inEvaluation args) fun args =>
    Underway.during (applyFunction fuel f args) (Underway.apply fuel f args)
  | _ => Underway.idle

end MiniLisp
