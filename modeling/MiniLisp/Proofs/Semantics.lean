import MiniLisp.Eval
import MiniLisp.Proofs.Safety

/-! The meaning of an expression, as derivations: bodies and last parts are evaluated by ordinary
subderivations, parts from left to right, and the first error ends a derivation. Nothing is traced.
The absent value has no meaning. -/
namespace MiniLisp

/-- A run that comes to an end: with a value, or with an error of the program. -/
def EvalM.Ends {α : Type} (x : EvalM α) (m : Machine) (o : Except Error α) (m' : Machine) : Prop :=
  x.exec m = (o.mapError .error, m')

namespace SpecialForm

def expr (form : SpecialForm) (parts : List Value) : Value := .list ⟨.sym form.name :: parts⟩

/-- What is wrong with the shape of a form. Names of bindings are looked at one by one, when their
turn comes. -/
def fault? (form : SpecialForm) (parts : List Value) : Option FormFault :=
  match form with
  | define =>
    match parts with
    | [name, _] => if name.is .symbol then none else some .defineName
    | _ => some .defineShape
  | letIn =>
    match parts with
    | [bindings, _] =>
      match bindings.items? with
      | none => some .letBindings
      | some items => if items.size % 2 = 0 then none else some .letPairs
    | _ => some .letShape
  | sequence => none
  | branch => if parts.length = 2 ∨ parts.length = 3 then none else some .ifShape
  | function =>
    match parts with
    | [params, _] =>
      match params.items? with
      | none => some .fnParams
      | some items => if items.toList.all (·.is .symbol) then none else some .fnParam
    | _ => some .fnShape

end SpecialForm

def Value.isConstant : Value → Bool
  | null | sym _ | list _ | vec _ | map _ => false
  | _ => true

mutual

inductive Evaluates : Value → Scope → Machine → Except Error Value → Machine → Prop where
  | constant {v : Value} {s : Scope} {m : Machine} : v.isConstant → Evaluates v s m (.ok v) m
  | found {name : Text} {v : Value} {s : Scope} {m : Machine} : m.lookup name s = some v →
      Evaluates (.sym name) s m (.ok v) m
  | unbound {name : Text} {s : Scope} {m : Machine} : m.lookup name s = none →
      Evaluates (.sym name) s m (.error (.unbound name)) m
  | vec {es : List Value} {s : Scope} {m m' : Machine} {o : Except Error (List Value)} :
      EvaluatesAll es s m o m' → Evaluates (.vec ⟨es⟩) s m (o.map fun vs => .vec ⟨vs⟩) m'
  | map {t : Table Key Value} {s : Scope} {m m' : Machine} {o : Except Error (List Value)} :
      EvaluatesAll t.vals.toList s m o m' →
      Evaluates (.map t) s m (o.map fun vs => .map ⟨t.trim.order, ⟨vs⟩⟩) m'
  | empty {s : Scope} {m : Machine} : Evaluates (.list ⟨[]⟩) s m (.ok (.list ⟨[]⟩)) m
  | malformed {form : SpecialForm} {parts : List Value} {fault : FormFault} {s : Scope}
      {m : Machine} : form.fault? parts = some fault →
      Evaluates (form.expr parts) s m (.error (.form fault)) m
  | define {name : Text} {e v : Value} {s : Scope} {m m' : Machine} :
      Evaluates e s m (.ok v) m' →
      Evaluates (SpecialForm.define.expr [.sym name, e]) s m (.ok v) (m'.define s name v)
  | defineError {name : Text} {e : Value} {s : Scope} {m m' : Machine} {err : Error} :
      Evaluates e s m (.error err) m' →
      Evaluates (SpecialForm.define.expr [.sym name, e]) s m (.error err) m'
  | letIn {bindings body : Value} {items : Array Value} {s : Scope} {m m₁ m' : Machine}
      {o : Except Error Value} : bindings.items? = some items → items.size % 2 = 0 →
      Binds items.toList (m.newFrame (some s) .empty).1 (m.newFrame (some s) .empty).2 (.ok ()) m₁ →
      Evaluates body (m.newFrame (some s) .empty).1 m₁ o m' →
      Evaluates (SpecialForm.letIn.expr [bindings, body]) s m o m'
  | letError {bindings body : Value} {items : Array Value} {s : Scope} {m m' : Machine}
      {err : Error} : bindings.items? = some items → items.size % 2 = 0 →
      Binds items.toList (m.newFrame (some s) .empty).1 (m.newFrame (some s) .empty).2
        (.error err) m' →
      Evaluates (SpecialForm.letIn.expr [bindings, body]) s m (.error err) m'
  | doNothing {s : Scope} {m : Machine} :
      Evaluates (SpecialForm.sequence.expr []) s m (.ok .nil) m
  | sequence {es vs : List Value} {last : Value} {s : Scope} {m m₁ m' : Machine}
      {o : Except Error Value} : EvaluatesAll es s m (.ok vs) m₁ → Evaluates last s m₁ o m' →
      Evaluates (SpecialForm.sequence.expr (es ++ [last])) s m o m'
  | sequenceError {es : List Value} {last : Value} {s : Scope} {m m' : Machine} {err : Error} :
      EvaluatesAll es s m (.error err) m' →
      Evaluates (SpecialForm.sequence.expr (es ++ [last])) s m (.error err) m'
  | ifTrue {test yes v : Value} {no : Option Value} {s : Scope} {m m₁ m' : Machine}
      {o : Except Error Value} : Evaluates test s m (.ok v) m₁ → v.isTruthy →
      Evaluates yes s m₁ o m' →
      Evaluates (SpecialForm.branch.expr (test :: yes :: no.toList)) s m o m'
  | ifFalse {test yes no v : Value} {s : Scope} {m m₁ m' : Machine} {o : Except Error Value} :
      Evaluates test s m (.ok v) m₁ → ¬v.isTruthy → Evaluates no s m₁ o m' →
      Evaluates (SpecialForm.branch.expr [test, yes, no]) s m o m'
  | ifNothing {test yes v : Value} {s : Scope} {m m' : Machine} :
      Evaluates test s m (.ok v) m' → ¬v.isTruthy →
      Evaluates (SpecialForm.branch.expr [test, yes]) s m (.ok .nil) m'
  | ifError {test yes : Value} {no : Option Value} {s : Scope} {m m' : Machine} {err : Error} :
      Evaluates test s m (.error err) m' →
      Evaluates (SpecialForm.branch.expr (test :: yes :: no.toList)) s m (.error err) m'
  | function {params body : Value} {names : List Text} {s : Scope} {m : Machine} :
      params.items? = some ⟨names.map .sym⟩ →
      Evaluates (SpecialForm.function.expr [params, body]) s m
        (.ok (.closure m.newFunction.1 (.ofNames names) body (some s))) m.newFunction.2
  | call {head f : Value} {parts args : List Value} {s : Scope} {m m₁ m₂ m' : Machine}
      {o : Except Error Value} : SpecialForm.ofHead? head = none →
      Evaluates head s m (.ok f) m₁ → EvaluatesAll parts s m₁ (.ok args) m₂ →
      Applies f args m₂ o m' → Evaluates (.list ⟨head :: parts⟩) s m o m'
  | headError {head : Value} {parts : List Value} {s : Scope} {m m' : Machine} {err : Error} :
      SpecialForm.ofHead? head = none → Evaluates head s m (.error err) m' →
      Evaluates (.list ⟨head :: parts⟩) s m (.error err) m'
  | partError {head f : Value} {parts : List Value} {s : Scope} {m m₁ m' : Machine}
      {err : Error} : SpecialForm.ofHead? head = none → Evaluates head s m (.ok f) m₁ →
      EvaluatesAll parts s m₁ (.error err) m' →
      Evaluates (.list ⟨head :: parts⟩) s m (.error err) m'

inductive EvaluatesAll :
    List Value → Scope → Machine → Except Error (List Value) → Machine → Prop where
  | nil {s : Scope} {m : Machine} : EvaluatesAll [] s m (.ok []) m
  | cons {e v : Value} {es : List Value} {s : Scope} {m m₁ m' : Machine}
      {o : Except Error (List Value)} : Evaluates e s m (.ok v) m₁ → EvaluatesAll es s m₁ o m' →
      EvaluatesAll (e :: es) s m (o.map fun vs => v :: vs) m'
  | error {e : Value} {es : List Value} {s : Scope} {m m' : Machine} {err : Error} :
      Evaluates e s m (.error err) m' → EvaluatesAll (e :: es) s m (.error err) m'

inductive Binds : List Value → Scope → Machine → Except Error Unit → Machine → Prop where
  | nil {s : Scope} {m : Machine} : Binds [] s m (.ok ()) m
  | cons {name : Text} {e v : Value} {rest : List Value} {s : Scope} {m m₁ m' : Machine}
      {o : Except Error Unit} : Evaluates e s m (.ok v) m₁ →
      Binds rest s (m₁.define s name v) o m' → Binds (.sym name :: e :: rest) s m o m'
  | error {name : Text} {e : Value} {rest : List Value} {s : Scope} {m m' : Machine}
      {err : Error} : Evaluates e s m (.error err) m' →
      Binds (.sym name :: e :: rest) s m (.error err) m'
  | noName {v e : Value} {rest : List Value} {s : Scope} {m : Machine} : v.is .symbol = false →
      Binds (v :: e :: rest) s m (.error (.form .letName)) m

inductive Applies : Value → List Value → Machine → Except Error Value → Machine → Prop where
  | native {id : FunId} {op : Native} {args : List Value} {m m' : Machine}
      {o : Except Error Value} : Performs op args m o m' → Applies (.native id op) args m o m'
  | closure {id : FunId} {params : Params} {body : Value} {scope : Option Scope}
      {args : List Value} {m m' : Machine} {o : Except Error Value} :
      params.names.length = args.length →
      Evaluates body (m.newFrame scope (params.bind args)).1 (m.newFrame scope (params.bind args)).2
        o m' →
      Applies (.closure id params body scope) args m o m'
  | arity {id : FunId} {params : Params} {body : Value} {scope : Option Scope}
      {args : List Value} {m : Machine} : params.names.length ≠ args.length →
      Applies (.closure id params body scope) args m
        (.error (.arity (ascii "closure") params.names.length args.length)) m
  | noFunction {f : Value} {kind : Kind} {t : Text} {args : List Value} {m : Machine} :
      f.isFunction = false → f.kind? = some kind → m.print true f = .ok t →
      Applies f args m (.error (.notApplicable kind t)) m

/-- Performs a native. One that calls nothing does what it does whatever calls would do. -/
inductive Performs : Native → List Value → Machine → Except Error Value → Machine → Prop where
  | direct {op : Native} {args : List Value} {m m' : Machine} {o : Except Error Value} :
      (∀ evaluate apply, (op.run evaluate apply args).Ends m o m') → Performs op args m o m'
  | apply {f f' a : Value} {rest args : List Value} {m m' : Machine} {o : Except Error Value} :
      f.functionArg CallOp.apply.name = .ok f' →
      CallOp.spread CallOp.apply.name (a :: rest) = .ok args → Applies f' args m o m' →
      Performs (.call .apply) (f :: a :: rest) m o m'
  | map {f f' a : Value} {items : Array Value} {m m' : Machine}
      {o : Except Error (List Value)} : f.functionArg CallOp.map.name = .ok f' →
      a.itemsArg CallOp.map.name = .ok items → AppliesEach f' items.toList m o m' →
      Performs (.call .map) [f, a] m (o.map fun vs => .list ⟨vs⟩) m'
  | swap {a f f' v : Value} {c : CellId} {extra : List Value} {m m' : Machine} :
      a.cellArg CallOp.swap.name = .ok c → f.functionArg CallOp.swap.name = .ok f' →
      Applies f' (m.cellContent c :: extra) m (.ok v) m' →
      Performs (.call .swap) (a :: f :: extra) m (.ok v) (m'.setCell c v)
  | swapError {a f f' : Value} {c : CellId} {extra : List Value} {m m' : Machine} {err : Error} :
      a.cellArg CallOp.swap.name = .ok c → f.functionArg CallOp.swap.name = .ok f' →
      Applies f' (m.cellContent c :: extra) m (.error err) m' →
      Performs (.call .swap) (a :: f :: extra) m (.error err) m'
  | evalIn {e : Value} {s : Scope} {m m' : Machine} {o : Except Error Value} :
      Evaluates e s m o m' → Performs (.evalIn s) [e] m o m'
  | host {name : Text} {f : Value} {args : List Value} {m m' : Machine}
      {o : Except Error Value} : Applies f args m o m' →
      Performs (.host name .call) (f :: args) m o m'

inductive AppliesEach :
    Value → List Value → Machine → Except Error (List Value) → Machine → Prop where
  | nil {f : Value} {m : Machine} : AppliesEach f [] m (.ok []) m
  | cons {f u v : Value} {us : List Value} {m m₁ m' : Machine} {o : Except Error (List Value)} :
      Applies f [u] m (.ok v) m₁ → AppliesEach f us m₁ o m' →
      AppliesEach f (u :: us) m (o.map fun vs => v :: vs) m'
  | error {f u : Value} {us : List Value} {m m' : Machine} {err : Error} :
      Applies f [u] m (.error err) m' → AppliesEach f (u :: us) m (.error err) m'

end

end MiniLisp
