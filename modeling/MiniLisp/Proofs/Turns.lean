import MiniLisp.Proofs.Evaluation
import MiniLisp.Proofs.Semantics

/-! What one turn of the loop does on a machine that traces nothing, as equations of runs. -/
namespace MiniLisp

namespace EvalM

variable {α β : Type} {m m₁ m' : Machine}

theorem ends_fail {err : Error} : (fail err : EvalM α).Ends m (.error err) m := rfl

theorem ends_ofExcept (o : Except Error α) (m : Machine) : (ofExcept o).Ends m o m := by
  cases o <;> rfl

theorem ends_pure_iff {a : α} {o : Except Error α} :
    (pure a : EvalM α).Ends m o m' ↔ o = .ok a ∧ m' = m := by
  rw [Ends, exec_pure, Prod.mk.injEq]
  cases o with
  | ok b => simp [Except.mapError, eq_comm]
  | error err => simp [Except.mapError]

theorem ends_fail_iff {err : Error} {o : Except Error α} :
    (fail err : EvalM α).Ends m o m' ↔ o = .error err ∧ m' = m := by
  rw [Ends, exec_fail, Prod.mk.injEq]
  cases o with
  | ok b => simp [Except.mapError]
  | error err' => simp [Except.mapError, eq_comm]

namespace Ends

theorem bind {x : EvalM α} {f : α → EvalM β} {a : α} {o : Except Error β}
    (hx : x.Ends m (.ok a) m₁) (hf : (f a).Ends m₁ o m') : (x >>= f).Ends m o m' :=
  (exec_bind_ok hx f).trans hf

theorem bind_error {x : EvalM α} {f : α → EvalM β} {err : Error}
    (hx : x.Ends m (.error err) m') : (x >>= f).Ends m (.error err) m' := exec_bind_error hx f

/-- A sequence that ends ends in its first part, or that part yields a value to go on with. -/
theorem of_bind {x : EvalM α} {f : α → EvalM β} {o : Except Error β}
    (h : (x >>= f).Ends m o m') :
    (∃ err, o = .error err ∧ x.Ends m (.error err) m') ∨
      ∃ a m₁, x.Ends m (.ok a) m₁ ∧ (f a).Ends m₁ o m' := by
  rcases hx : x.exec m with ⟨e | a, m₁⟩
  · left
    have stopped := (exec_bind_error hx f).symm.trans h
    cases o with
    | ok b => cases stopped
    | error err =>
      cases stopped
      exact ⟨err, rfl, hx⟩
  · exact .inr ⟨a, m₁, hx, (exec_bind_ok hx f).symm.trans h⟩

/-- A computation comes to one end only. -/
theorem unique {x : EvalM α} {o o' : Except Error α} (h : x.Ends m o m')
    (h' : x.Ends m o' m₁) : o = o' ∧ m' = m₁ := by
  have same := h.symm.trans h'
  rw [Prod.mk.injEq] at same
  refine ⟨?_, same.2⟩
  cases o with
  | ok a =>
    cases o' with
    | ok b => exact congrArg _ (Except.ok.inj same.1)
    | error err => cases same.1
  | error err =>
    cases o' with
    | ok b => cases same.1
    | error err' => exact congrArg _ (Halt.error.inj (Except.error.inj same.1))

end Ends

theorem exec_bind_congr {x y : EvalM α} (h : x.exec m = y.exec m₁) (f : α → EvalM β) :
    (x >>= f).exec m = (y >>= f).exec m₁ := by
  rw [exec_bind, exec_bind, h]

theorem exec_trace_silent {s : Scope} (silent : m.sink = none) (message : EvalM Text) :
    (trace s message).exec m = (.ok ⟨⟩, m) := by
  refine exec_trace_off ?_ message
  rw [Machine.isTraced, silent]
  rfl

theorem ends_lookup_found {s : Scope} {name : Text} {v : Value} (h : m.lookup name s = some v) :
    (lookup s name).Ends m (.ok v) m := by
  refine Ends.bind (exec_get m) ?_
  rw [h]
  rfl

theorem ends_lookup_unbound {s : Scope} {name : Text} (h : m.lookup name s = none) :
    (lookup s name).Ends m (.error (.unbound name)) m := by
  refine Ends.bind (exec_get m) ?_
  rw [h]
  rfl

theorem discard_eq (x : EvalM α) : discard x = x >>= fun _ => pure ⟨⟩ := by
  show Functor.mapConst _ x = _
  rw [LawfulFunctor.map_const, Function.comp_apply, map_eq_pure_bind]

/-- Parts evaluated for their effects alone. -/
theorem forM_discard (f : α → EvalM β) (xs : List α) :
    (xs.forM fun a => discard (f a)) = xs.mapM f >>= fun _ => pure ⟨⟩ := by
  induction xs with
  | nil => simp
  | cons a xs ih =>
    show (discard (f a) >>= fun _ => xs.forM fun a => discard (f a)) = _
    rw [ih, discard_eq, List.mapM_cons]
    simp only [bind_assoc, pure_bind]

end EvalM

open EvalM

namespace SpecialForm

theorem ofHead?_name (form : SpecialForm) : ofHead? (.sym form.name) = some form := by
  cases form <;> decide

theorem eq_expr_of_head {form : SpecialForm} {head : Value} {parts : List Value}
    (h : ofHead? head = some form) : Value.list ⟨head :: parts⟩ = form.expr parts := by
  unfold ofHead? at h
  split at h
  · have named := List.find?_some h
    rw [← of_decide_eq_true named]
    rfl
  · cases h

theorem eq_sym {v : Value} (h : v.is .symbol) : ∃ name, v = .sym name := by
  cases v with
  | sym name => exact ⟨name, rfl⟩
  | _ => cases h

theorem define_shape {parts : List Value} (h : define.fault? parts = none) :
    ∃ name e, parts = [.sym name, e] := by
  simp only [fault?] at h
  split at h
  · rename_i v e
    split at h
    · rename_i named
      obtain ⟨name, rfl⟩ := eq_sym named
      exact ⟨name, e, rfl⟩
    · cases h
  · cases h

theorem letIn_shape {parts : List Value} (h : letIn.fault? parts = none) :
    ∃ bindings body items, parts = [bindings, body] ∧ bindings.items? = some items ∧
      items.size % 2 = 0 := by
  simp only [fault?] at h
  split at h
  · rename_i bindings body
    split at h
    · cases h
    · rename_i items hitems
      split at h
      · rename_i even
        exact ⟨bindings, body, items, rfl, hitems, even⟩
      · cases h
  · cases h

theorem branch_shape {parts : List Value} (h : branch.fault? parts = none) :
    ∃ test yes, ∃ no : Option Value, parts = test :: yes :: no.toList := by
  rcases parts with _ | ⟨test, _ | ⟨yes, _ | ⟨no, _ | ⟨extra, rest⟩⟩⟩⟩
  · cases h
  · cases h
  · exact ⟨test, yes, none, rfl⟩
  · exact ⟨test, yes, some no, rfl⟩
  · simp [fault?] at h

theorem map_sym_of_all {items : List Value} (h : items.all (·.is .symbol)) :
    ∃ names : List Text, items = names.map .sym := by
  induction items with
  | nil => exact ⟨[], rfl⟩
  | cons v items ih =>
    rw [List.all_cons, Bool.and_eq_true] at h
    obtain ⟨name, rfl⟩ := eq_sym h.1
    obtain ⟨names, rfl⟩ := ih h.2
    exact ⟨name :: names, rfl⟩

theorem function_shape {parts : List Value} (h : function.fault? parts = none) :
    ∃ params body, ∃ names : List Text, parts = [params, body] ∧
      params.items? = some ⟨names.map .sym⟩ := by
  simp only [fault?] at h
  split at h
  · rename_i params body
    split at h
    · cases h
    · rename_i items hitems
      split at h
      · rename_i named
        obtain ⟨names, same⟩ := map_sym_of_all named
        exact ⟨params, body, names, rfl, hitems.trans (congrArg _ (Array.toList_inj.mp same))⟩
      · cases h
  · cases h

end SpecialForm

namespace Eval

variable {evaluate : Evaluator} {apply : Applier} {s : Scope} {m : Machine}

def finish (fuel : Nat) : Step → EvalM Value
  | .done v => pure v
  | .tail e s => loop fuel e s

theorem loop_succ (fuel : Nat) (e : Value) (s : Scope) :
    loop (fuel + 1) e s = step (eval fuel) (applyFunction fuel) e s >>= finish fuel := by
  rw [loop]
  refine congrArg _ (funext fun next => ?_)
  cases next <;> rfl

theorem eval_of_ne_null {e : Value} (present : e ≠ .null) (fuel : Nat) (s : Scope) :
    eval fuel e s = loop fuel e s := by
  unfold eval guarded
  split
  · exact absurd rfl present
  · rfl

theorem step_form (silent : m.sink = none) (form : SpecialForm) (parts : List Value) :
    (step evaluate apply (form.expr parts) s).exec m =
      (specialForm evaluate form parts s).exec m := by
  unfold step
  rw [exec_bind_ok (exec_trace_silent silent _), SpecialForm.expr]
  dsimp only
  rw [SpecialForm.ofHead?_name]

theorem step_empty (silent : m.sink = none) :
    (step evaluate apply (.list ⟨[]⟩) s).Ends m (.ok (.done (.list ⟨[]⟩))) m := by
  unfold step
  exact exec_bind_ok (exec_trace_silent silent _) _

theorem step_call (silent : m.sink = none) {head : Value} (parts : List Value)
    (called : SpecialForm.ofHead? head = none) :
    (step evaluate apply (.list ⟨head :: parts⟩) s).exec m =
      (evaluate head s >>= fun f => parts.mapM (fun v => evaluate v s) >>= fun args =>
        call evaluate apply f args s).exec m := by
  unfold step
  rw [exec_bind_ok (exec_trace_silent silent _)]
  dsimp only
  rw [called]

theorem step_data (silent : m.sink = none) {e : Value} (noList : e.is .list = false) :
    (step evaluate apply e s).exec m =
      (data evaluate e s >>= fun v => pure (.done v)).exec m := by
  unfold step
  rw [exec_bind_ok (exec_trace_silent silent _)]
  cases e with
  | list xs => cases noList
  | _ => rfl

theorem define_silent (silent : m.sink = none) (name : Text) (e : Value) :
    (define evaluate [.sym name, e] s).exec m =
      (evaluate e s >>= fun v => EvalM.define s name v >>= fun _ => pure (.done v)).exec m := by
  unfold define
  exact exec_bind_ok (exec_trace_silent silent _) _

theorem letIn_silent (silent : m.sink = none) {bindings : Value} {items : Array Value}
    (body : Value) (hitems : bindings.items? = some items) (even : items.size % 2 = 0) :
    (letIn evaluate [bindings, body] s).exec m =
      ((bindingPairs items.toList).forM (bindOne evaluate (m.newFrame (some s) .empty).1) >>=
        fun _ => pure (.tail body (m.newFrame (some s) .empty).1)).exec
          (m.newFrame (some s) .empty).2 := by
  simp only [letIn, hitems, if_pos even]
  rw [exec_bind_ok (exec_newFrame (some s) .empty m)]
  exact exec_bind_ok (exec_trace_silent (m := (m.newFrame (some s) .empty).2) silent _) _

theorem bindOne_noName {v e : Value} (h : v.is .symbol = false) :
    bindOne evaluate s (v, e) = fail (.form .letName) := by
  cases v with
  | sym name => cases h
  | _ => rfl

theorem paramName_fault {v : Value} (h : ¬v.is .symbol) :
    paramName v = .error (.form .fnParam) := by
  cases v with
  | sym name => exact absurd rfl h
  | _ => rfl

theorem mapM_paramName (names : List Text) :
    (names.map Value.sym).mapM paramName = .ok names := by
  induction names with
  | nil => rfl
  | cons name names ih =>
    rw [List.map_cons, List.mapM_cons, ih]
    rfl

theorem mapM_paramName_fault {items : List Value} (h : ¬items.all (·.is .symbol)) :
    items.mapM paramName = .error (.form .fnParam) := by
  induction items with
  | nil => exact absurd rfl h
  | cons v items ih =>
    rw [List.mapM_cons]
    by_cases named : v.is .symbol
    · obtain ⟨name, rfl⟩ := SpecialForm.eq_sym named
      rw [List.all_cons, named, Bool.true_and] at h
      rw [ih h]
      rfl
    · rw [paramName_fault named]
      rfl

theorem function_ends {params : Value} {names : List Text} (body : Value)
    (h : params.items? = some ⟨names.map .sym⟩) :
    (function [params, body] s).Ends m
      (.ok (.done (.closure m.newFunction.1 (.ofNames names) body (some s)))) m.newFunction.2 := by
  simp only [function, h, mapM_paramName]
  rfl

section

variable {parts : List Value} {fault : FormFault}

theorem define_fault (h : SpecialForm.define.fault? parts = some fault) :
    define evaluate parts s = fail (.form fault) := by
  simp only [SpecialForm.fault?] at h
  split at h
  · rename_i v e
    split at h
    · cases h
    · rename_i unnamed
      cases h
      cases v with
      | sym name => exact absurd rfl unnamed
      | _ => rfl
  · rename_i shape
    cases h
    rw [define]
    · intro name e
      exact shape (.sym name) e
    · exact shape

theorem letIn_fault (h : SpecialForm.letIn.fault? parts = some fault) :
    letIn evaluate parts s = fail (.form fault) := by
  simp only [SpecialForm.fault?] at h
  split at h
  · rename_i bindings body
    split at h
    · rename_i hitems
      cases h
      simp only [letIn, hitems]
    · rename_i items hitems
      split at h
      · cases h
      · rename_i odd
        cases h
        simp only [letIn, hitems, if_neg odd]
  · rename_i shape
    cases h
    rw [letIn]
    exact shape

theorem branch_fault (h : SpecialForm.branch.fault? parts = some fault) :
    branch evaluate parts s = fail (.form fault) := by
  simp only [SpecialForm.fault?] at h
  split at h
  · cases h
  · rename_i shape
    cases h
    rw [branch]
    · rintro test yes rfl
      exact shape (.inl rfl)
    · rintro test yes no rfl
      exact shape (.inr rfl)

theorem function_fault (h : SpecialForm.function.fault? parts = some fault) :
    function parts s = fail (.form fault) := by
  simp only [SpecialForm.fault?] at h
  split at h
  · rename_i params body
    split at h
    · rename_i hitems
      cases h
      simp only [function, hitems]
    · rename_i items hitems
      split at h
      · cases h
      · rename_i unnamed
        cases h
        simp only [function, hitems, mapM_paramName_fault unnamed]
        rfl
  · rename_i shape
    cases h
    rw [function]
    exact shape

/-- A form of the wrong shape is refused before anything in it is evaluated. -/
theorem specialForm_fault {form : SpecialForm} (h : form.fault? parts = some fault) :
    specialForm evaluate form parts s = fail (.form fault) := by
  cases form with
  | define => exact define_fault h
  | letIn => exact letIn_fault h
  | sequence => cases h
  | branch => exact branch_fault h
  | function => exact function_fault h

end

theorem sequence_concat (es : List Value) (last : Value) :
    sequence evaluate (es ++ [last]) s =
      es.mapM (fun e => evaluate e s) >>= fun _ => pure (.tail last s) := by
  rw [sequence, List.dropLast_concat, List.getLast?_concat, forM_discard, bind_assoc]
  rfl

theorem branch_eq (test yes : Value) (no : Option Value) :
    branch evaluate (test :: yes :: no.toList) s =
      evaluate test s >>= fun v => pure (.tail (if v.isTruthy then yes else no.getD .nil) s) := by
  cases no <;> rfl

theorem callFrame_ends {params : Params} {args : List Value} (captured : Option Scope)
    (h : params.names.length = args.length) :
    (callFrame params captured args).Ends m (.ok (m.newFrame captured (params.bind args)).1)
      (m.newFrame captured (params.bind args)).2 := by
  rw [callFrame, if_pos h]
  rfl

theorem callFrame_arity {params : Params} {args : List Value} (captured : Option Scope)
    (h : params.names.length ≠ args.length) :
    callFrame params captured args =
      fail (.arity (ascii "closure") params.names.length args.length) := by
  rw [callFrame, if_neg h]

theorem notApplicable_ends {f : Value} {kind : Kind} {t : Text} (hk : f.kind? = some kind)
    (ht : m.print true f = .ok t) :
    (notApplicable f).Ends m (.ok (.notApplicable kind t)) m := by
  have written : (readable f).Ends m (.ok t) m := by
    refine Ends.bind (exec_get m) ?_
    rw [ht]
    rfl
  refine written.bind ?_
  rw [Value.kind, hk]
  rfl

theorem call_noFunction {f : Value} (h : f.isFunction = false) (args : List Value) :
    call evaluate apply f args s = notApplicable f >>= fun err => fail err := by
  cases f with
  | native | closure => cases h
  | _ => rfl

theorem apply_noFunction {f : Value} (h : f.isFunction = false) (fuel : Nat)
    (args : List Value) :
    applyFunction (fuel + 1) f args = notApplicable f >>= fun err => fail err := by
  cases f with
  | native | closure => cases h
  | _ => rfl

theorem call_native (silent : m.sink = none) (id : FunId) (op : Native) (args : List Value) :
    (call evaluate apply (.native id op) args s).exec m =
      (op.run evaluate apply args >>= fun v => traceReturn op v s >>= fun _ =>
        pure (.done v)).exec m := by
  unfold call
  exact exec_bind_ok (exec_trace_silent silent _) _

theorem traceReturn_ends (silent : m.sink = none) (op : Native) (v : Value) :
    (traceReturn op v s).Ends m (.ok ⟨⟩) m := exec_trace_silent silent _

theorem call_closure (silent : m.sink = none) (id : FunId) (params : Params) (body : Value)
    (captured : Option Scope) (args : List Value) :
    (call evaluate apply (.closure id params body captured) args s).exec m =
      (callFrame params captured args >>= fun inner => pure (.tail body inner)).exec m := by
  unfold call
  exact exec_bind_ok (exec_trace_silent silent _) _

end Eval

end MiniLisp
