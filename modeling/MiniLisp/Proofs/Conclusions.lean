import MiniLisp.Proofs.Agreements
import MiniLisp.Proofs.Turns

/-! A run may show what it evaluates, calls and returns. Where all of that can be printed, it comes
to the same end whether anything is traced or not. -/
namespace MiniLisp

/-- Neither an absent value nor a cell is in the value, so printing it needs no machine. -/
def Value.Inert (v : Value) : Prop :=
  v.Within ⟨False, fun _ => True, True⟩ ⟨fun _ => True, fun _ => False⟩

theorem Value.Inert.print {v : Value} (h : v.Inert) (m : Machine) (readable : Bool) :
    ∃ t, m.print readable v = .ok t :=
  (Printer.printed_value readable (fun _ (none : False) => none.elim) v h _).text id

theorem printAll_inert {vs : List Value} (h : ∀ v ∈ vs, v.Inert) (cells : Array Value)
    (readable : Bool) (separator : Text) : ∃ t, printAll cells readable separator vs = .ok t :=
  (Printer.printed_items readable (fun _ (none : False) => none.elim) separator vs h _).text id

theorem Value.Inert.ne_null {v : Value} (h : v.Inert) : v ≠ .null := Value.Within.ne_null h id

theorem Value.Inert.list {vs : List Value} (h : ∀ v ∈ vs, v.Inert) :
    (Value.list ⟨vs⟩).Inert := Value.Within.list_iff.mpr h

namespace EvalM

variable {α β : Type} {m m₁ m' : Machine}

/-- On machines that are alike but for the trace the run comes to the same end. -/
def Concludes (x : EvalM α) (m : Machine) (o : Except Error α) (m' : Machine) : Prop :=
  ∀ n, n.untraced = m.untraced → ∃ n', x.Ends n o n' ∧ n'.untraced = m'.untraced

namespace Concludes

theorem pure (a : α) (m : Machine) : (pure a : EvalM α).Concludes m (.ok a) m :=
  fun n same => ⟨n, rfl, same⟩

theorem ofExcept (o : Except Error α) (m : Machine) : (ofExcept o).Concludes m o m :=
  fun n same => ⟨n, ends_ofExcept o n, same⟩

theorem bind {x : EvalM α} {f : α → EvalM β} {a : α} {o : Except Error β}
    (hx : x.Concludes m (.ok a) m₁) (hf : (f a).Concludes m₁ o m') :
    (x >>= f).Concludes m o m' := by
  intro n same
  obtain ⟨n₁, first, same₁⟩ := hx n same
  obtain ⟨n', rest, same'⟩ := hf n₁ same₁
  exact ⟨n', first.bind rest, same'⟩

theorem bind_error {x : EvalM α} {f : α → EvalM β} {err : Error}
    (hx : x.Concludes m (.error err) m') : (x >>= f).Concludes m (.error err) m' := by
  intro n same
  obtain ⟨n', stopped, same'⟩ := hx n same
  exact ⟨n', stopped.bind_error, same'⟩

theorem discard {x : EvalM α} {a : α} (hx : x.Concludes m (.ok a) m') :
    (discard x).Concludes m (.ok ⟨⟩) m' := by
  rw [discard_eq]
  exact hx.bind (.pure PUnit.unit m')

/-- What is read off the machine is not the trace. -/
theorem read {f : Machine → EvalM α} {o : Except Error α}
    (h : ∀ n, n.untraced = m.untraced → (f n).Concludes m o m') :
    (get >>= f).Concludes m o m' := by
  intro n same
  obtain ⟨n', run, same'⟩ := h n same n same
  exact ⟨n', (exec_bind_ok (exec_get n) f).trans run, same'⟩

theorem modify {f : Machine → Machine}
    (h : ∀ n₁ n₂, n₁.untraced = n₂.untraced → (f n₁).untraced = (f n₂).untraced) (m : Machine) :
    (modify f : EvalM PUnit).Concludes m (.ok ⟨⟩) (f m) :=
  fun n same => ⟨f n, rfl, h n m same⟩

theorem trace {message : EvalM Text} (h : ∀ n, ∃ t, message.exec n = (.ok t, n)) (s : Scope)
    (m : Machine) : (trace s message).Concludes m (.ok ⟨⟩) m := by
  intro n same
  cases traced : n.isTraced s with
  | false => exact ⟨n, exec_trace_off traced message, same⟩
  | true =>
    obtain ⟨t, told⟩ := h n
    exact ⟨n.log t, exec_trace_ok traced told, same⟩

theorem modifyGet {f : Machine → α × Machine}
    (h : ∀ n₁ n₂, n₁.untraced = n₂.untraced →
      (f n₁).1 = (f n₂).1 ∧ (f n₁).2.untraced = (f n₂).2.untraced) (m : Machine) :
    (modifyGet f : EvalM α).Concludes m (.ok (f m).1) (f m).2 := by
  intro n same
  obtain ⟨answer, same'⟩ := h n m same
  exact ⟨(f n).2, congrArg (fun a => (Except.ok a, (f n).2)) answer, same'⟩

theorem newFrame (parent : Option Scope) (given : Table Text Value) (m : Machine) :
    (newFrame parent given).Concludes m (.ok (m.newFrame parent given).1)
      (m.newFrame parent given).2 :=
  modifyGet (fun _ _ same =>
    ⟨congrArg (fun m => (m.newFrame parent given).1) same,
      congrArg (fun m => (m.newFrame parent given).2) same⟩) m

/-- Functions are numbered in the order in which they are made. -/
theorem newId (m : Machine) : (MonadState.modifyGet Machine.newFunction : EvalM FunId).Concludes m
    (.ok m.newFunction.1) m.newFunction.2 :=
  modifyGet (fun _ _ same =>
    ⟨congrArg (fun m => m.newFunction.1) same, congrArg (fun m => m.newFunction.2) same⟩) m

theorem newFunction (op : Native) (m : Machine) :
    (newFunction op).Concludes m (.ok (.native m.newFunction.1 op)) m.newFunction.2 :=
  (newId m).bind (.pure _ _)

theorem newClosure (params : Params) (body : Value) (captured : Option Scope) (m : Machine) :
    (newClosure params body captured).Concludes m
      (.ok (.closure m.newFunction.1 params body captured)) m.newFunction.2 :=
  (newId m).bind (.pure _ _)

theorem define (s : Scope) (name : Text) (v : Value) (m : Machine) :
    (define s name v).Concludes m (.ok ⟨⟩) (m.define s name v) :=
  modify (fun _ _ same => congrArg (fun m => m.define s name v) same) m

theorem mapM_cons {f : α → EvalM β} {a : α} {as : List α} {b : β} {bs : List β}
    (hx : (f a).Concludes m (.ok b) m₁) (hxs : (as.mapM f).Concludes m₁ (.ok bs) m') :
    ((a :: as).mapM f).Concludes m (.ok (b :: bs)) m' := by
  rw [List.mapM_cons]
  exact hx.bind (hxs.bind (.pure (b :: bs) m'))

theorem mapM_error {f : α → EvalM β} {a : α} {as : List α} {err : Error}
    (hx : (f a).Concludes m (.error err) m') : ((a :: as).mapM f).Concludes m (.error err) m' := by
  rw [List.mapM_cons]
  exact hx.bind_error

theorem mapM_cons_error {f : α → EvalM β} {a : α} {as : List α} {b : β} {err : Error}
    (hx : (f a).Concludes m (.ok b) m₁) (hxs : (as.mapM f).Concludes m₁ (.error err) m') :
    ((a :: as).mapM f).Concludes m (.error err) m' := by
  rw [List.mapM_cons]
  exact hx.bind hxs.bind_error

theorem mapM_one {f : α → EvalM β} {a : α} {b : β} (hx : (f a).Concludes m (.ok b) m') :
    ([a].mapM f).Concludes m (.ok [b]) m' := by
  have none : (([] : List α).mapM f).Concludes m' (.ok []) m' := .pure [] m'
  exact mapM_cons hx none

end Concludes

theorem readable_inert {v : Value} (h : v.Inert) (m : Machine) :
    ∃ t, (readable v).exec m = (.ok t, m) := by
  obtain ⟨t, printed⟩ := h.print m true
  refine ⟨t, (exec_bind_ok (exec_get m) _).trans ?_⟩
  rw [printed]
  rfl

end EvalM

open EvalM

namespace Eval

variable {m m₁ m₂ m' : Machine} {s : Scope} {fuel : Nat}

/-- A turn begins by showing the expression. -/
theorem concludes_turn {e : Value} {x : EvalM Step} {o : Except Error Value} (inert : e.Inert)
    (turn : step (eval fuel) (applyFunction fuel) e s =
      EvalM.trace s (readable e >>= fun text => pure (ascii "eval: " ++ text)) >>= fun _ => x)
    (h : (x >>= finish fuel).Concludes m o m') : (eval (fuel + 1) e s).Concludes m o m' := by
  rw [eval_of_ne_null inert.ne_null, loop_succ, turn, bind_assoc]
  refine Concludes.bind (Concludes.trace (fun n => ?_) s m) h
  obtain ⟨text, written⟩ := readable_inert inert n
  exact ⟨_, exec_bind_ok written _⟩

theorem concludes_symbol {name : Text} {v : Value} (h : m.lookup name s = some v) :
    (eval (fuel + 1) (.sym name) s).Concludes m (.ok v) m := by
  refine concludes_turn (.sym name) rfl ?_
  have found : (lookup s name).Concludes m (.ok v) m := by
    refine Concludes.read fun n same => ?_
    rw [← n.lookup_untraced, same, m.lookup_untraced, h]
    exact .pure v m
  have step := found.bind (f := fun v => pure (Step.done v)) (.pure (Step.done v) m)
  exact step.bind (.pure v m)

theorem concludes_constant {v : Value} (constant : v.isConstant) (inert : v.Inert) :
    (eval (fuel + 1) v s).Concludes m (.ok v) m := by
  refine concludes_turn inert (x := pure v >>= fun v => pure (.done v)) ?_ ?_
  · cases v with
    | null | sym | list | vec | map => cases constant
    | _ => rfl
  have step := (Concludes.pure v m).bind (f := fun v => pure (Step.done v)) (.pure (Step.done v) m)
  exact step.bind (.pure v m)

theorem concludes_text (t : Text) : (eval (fuel + 1) (.str t) s).Concludes m (.ok (.str t)) m :=
  concludes_constant rfl (.str t)

theorem concludes_constants {vs : List Value} (plain : ∀ v ∈ vs, v.isConstant ∧ v.Inert) :
    (vs.mapM fun e => eval (fuel + 1) e s).Concludes m (.ok vs) m := by
  induction vs with
  | nil => exact .pure [] m
  | cons v vs ih =>
    obtain ⟨constant, inert⟩ := plain v List.mem_cons_self
    exact .mapM_cons (concludes_constant constant inert)
      (ih fun w hw => plain w (List.mem_cons_of_mem v hw))

theorem step_of_call {head : Value} {parts : List Value}
    (called : SpecialForm.ofHead? head = none) :
    step (eval fuel) (applyFunction fuel) (.list ⟨head :: parts⟩) s =
      EvalM.trace s (readable (.list ⟨head :: parts⟩) >>= fun text =>
        pure (ascii "eval: " ++ text)) >>= fun _ => eval fuel head s >>= fun f =>
          parts.mapM (fun e => eval fuel e s) >>= fun args =>
            call (eval fuel) (applyFunction fuel) f args s := by
  unfold step
  dsimp only
  rw [called]

/-- A call whose parts are evaluated first. -/
theorem concludes_call {head f : Value} {parts args : List Value} {o : Except Error Value}
    (called : SpecialForm.ofHead? head = none) (inert : (Value.list ⟨head :: parts⟩).Inert)
    (hf : (eval fuel head s).Concludes m (.ok f) m₁)
    (hargs : (parts.mapM fun e => eval fuel e s).Concludes m₁ (.ok args) m₂)
    (happly : (call (eval fuel) (applyFunction fuel) f args s >>= finish fuel).Concludes m₂ o m') :
    (eval (fuel + 1) (.list ⟨head :: parts⟩) s).Concludes m o m' := by
  refine concludes_turn inert (step_of_call called) ?_
  rw [bind_assoc]
  refine hf.bind ?_
  rw [bind_assoc]
  exact hargs.bind happly

theorem concludes_call_error {head f : Value} {parts : List Value} {err : Error}
    (called : SpecialForm.ofHead? head = none) (inert : (Value.list ⟨head :: parts⟩).Inert)
    (hf : (eval fuel head s).Concludes m (.ok f) m₁)
    (hargs : (parts.mapM fun e => eval fuel e s).Concludes m₁ (.error err) m') :
    (eval (fuel + 1) (.list ⟨head :: parts⟩) s).Concludes m (.error err) m' := by
  refine concludes_turn inert (step_of_call called) ?_
  rw [bind_assoc]
  refine hf.bind ?_
  rw [bind_assoc]
  exact hargs.bind_error

theorem concludes_traceCall {f : Value} {args : List Value} (hf : f.Inert)
    (hargs : ∀ v ∈ args, v.Inert) : (traceCall f args s).Concludes m (.ok ⟨⟩) m := by
  refine Concludes.trace (fun n => ?_) s m
  obtain ⟨callee, shown⟩ := readable_inert hf n
  obtain ⟨parts, printed⟩ := printAll_inert hargs n.cells true (ascii ", ")
  have told : (describeCall f args).exec n =
      (.ok (callee ++ ascii "(" ++ parts ++ ascii ")"), n) := by
    rw [describeCall, exec_bind_ok shown, exec_bind_ok (exec_get n), printed]
    rfl
  exact ⟨_, exec_bind_ok told _⟩

theorem concludes_native {id : FunId} {op : Native} {args : List Value} {v : Value}
    (hargs : ∀ v ∈ args, v.Inert) (hv : v.Inert)
    (run : (op.run (eval fuel) (applyFunction fuel) args).Concludes m (.ok v) m') :
    (call (eval fuel) (applyFunction fuel) (.native id op) args s >>= finish fuel).Concludes m
      (.ok v) m' := by
  have returned : (traceReturn op v s).Concludes m' (.ok ⟨⟩) m' := by
    refine Concludes.trace (fun n => ?_) s m'
    obtain ⟨text, shown⟩ := readable_inert hv n
    exact ⟨_, exec_bind_ok shown _⟩
  have called : (call (eval fuel) (applyFunction fuel) (.native id op) args s).Concludes m
      (.ok (.done v)) m' := by
    refine (concludes_traceCall (.native fun _ _ => trivial) hargs).bind ?_
    exact run.bind (returned.bind (.pure (Step.done v) m'))
  exact called.bind (.pure v m')

theorem concludes_native_error {id : FunId} {op : Native} {args : List Value} {err : Error}
    (hargs : ∀ v ∈ args, v.Inert)
    (run : (op.run (eval fuel) (applyFunction fuel) args).Concludes m (.error err) m') :
    (call (eval fuel) (applyFunction fuel) (.native id op) args s >>= finish fuel).Concludes m
      (.error err) m' :=
  ((concludes_traceCall (.native fun _ _ => trivial) hargs).bind run.bind_error).bind_error

/-- A native on data comes to what it computes from its arguments. -/
theorem concludes_operation {op : DataOp} {id : FunId} {parts args : List Value}
    (found : m.lookup op.name s = some (.native id (.data op))) (hparts : ∀ v ∈ parts, v.Inert)
    (hargs : ∀ v ∈ args, v.Inert)
    (given : (parts.mapM fun e => eval (fuel + 1) e s).Concludes m (.ok args) m) :
    (eval (fuel + 2) (.list ⟨.sym op.name :: parts⟩) s).Concludes m (op.run args) m := by
  have called : SpecialForm.ofHead? (.sym op.name) = none := by
    cases op <;> rfl
  have inert : (Value.list ⟨.sym op.name :: parts⟩).Inert :=
    Value.Inert.list (List.forall_mem_cons.mpr ⟨.sym op.name, hparts⟩)
  refine concludes_call called inert (concludes_symbol found) given ?_
  have run : ((Native.data op).run (eval (fuel + 1)) (applyFunction (fuel + 1)) args).Concludes m
      (op.run args) m := .ofExcept (op.run args) m
  have stays := DataOp.run_stays op hargs
  cases answer : op.run args with
  | ok v =>
    rw [answer] at run stays
    exact concludes_native hargs stays run
  | error e =>
    rw [answer] at run
    exact concludes_native_error hargs run

theorem concludes_data {op : DataOp} {id : FunId} {args : List Value}
    (found : m.lookup op.name s = some (.native id (.data op)))
    (plain : ∀ v ∈ args, v.isConstant ∧ v.Inert) :
    (eval (fuel + 2) (.list ⟨.sym op.name :: args⟩) s).Concludes m (op.run args) m := by
  have hargs : ∀ v ∈ args, v.Inert := fun v hv => (plain v hv).2
  exact concludes_operation found hargs hargs (concludes_constants plain)

theorem concludes_closure {id : FunId} {params : Params} {body : Value} {captured : Option Scope}
    {args : List Value} {o : Except Error Value} (hbody : body.Inert)
    (hargs : ∀ v ∈ args, v.Inert) (fits : params.names.length = args.length)
    (run : (eval fuel body (m.newFrame captured (params.bind args)).1).Concludes
      (m.newFrame captured (params.bind args)).2 o m') :
    (call (eval fuel) (applyFunction fuel) (.closure id params body captured) args s >>=
      finish fuel).Concludes m o m' := by
  have framed : (callFrame params captured args).Concludes m
      (.ok (m.newFrame captured (params.bind args)).1)
      (m.newFrame captured (params.bind args)).2 := by
    rw [callFrame, if_pos fits]
    exact Concludes.newFrame captured (params.bind args) m
  have called : (call (eval fuel) (applyFunction fuel) (.closure id params body captured) args
      s).Concludes m (.ok (.tail body (m.newFrame captured (params.bind args)).1))
      (m.newFrame captured (params.bind args)).2 := by
    have shown : (Value.closure id params body captured).Inert :=
      .closure hbody (fun _ _ => trivial) fun _ => trivial
    refine (concludes_traceCall shown hargs).bind ?_
    exact framed.bind (.pure (Step.tail body _) _)
  refine called.bind ?_
  rwa [finish, ← eval_of_ne_null hbody.ne_null]

/-- The chosen part is evaluated in place of the form. -/
theorem concludes_branch {test yes v : Value} (no : Option Value) {o : Except Error Value}
    (inert : (SpecialForm.branch.expr (test :: yes :: no.toList)).Inert)
    (htest : (eval fuel test s).Concludes m (.ok v) m₁)
    (hchosen : (eval fuel (if v.isTruthy then yes else no.getD .nil) s).Concludes m₁ o m') :
    (eval (fuel + 1) (SpecialForm.branch.expr (test :: yes :: no.toList)) s).Concludes m o m' := by
  have parts (e : Value) (he : e ∈ yes :: no.toList) : e ≠ .null :=
    Value.Inert.ne_null (Value.Within.list_iff.mp inert e (by
      rw [List.mem_cons, List.mem_cons]
      exact .inr (.inr he)))
  have present : (if v.isTruthy then yes else no.getD .nil) ≠ .null := by
    split
    · exact parts yes List.mem_cons_self
    · cases no with
      | none => nofun
      | some no => exact parts no (List.mem_cons_of_mem _ List.mem_cons_self)
  refine concludes_turn inert (x := branch (eval fuel) (test :: yes :: no.toList) s) rfl ?_
  rw [branch_eq, bind_assoc]
  refine htest.bind ?_
  rwa [pure_bind, finish, ← eval_of_ne_null present]

theorem concludes_define {name : Text} {e v : Value}
    (inert : (SpecialForm.define.expr [.sym name, e]).Inert)
    (h : (eval fuel e s).Concludes m (.ok v) m') :
    (eval (fuel + 1) (SpecialForm.define.expr [.sym name, e]) s).Concludes m (.ok v)
      (m'.define s name v) := by
  refine concludes_turn inert (x := define (eval fuel) [.sym name, e] s) rfl ?_
  have named : (EvalM.trace s (pure (ascii "def! " ++ name))).Concludes m (.ok ⟨⟩) m :=
    Concludes.trace (fun n => ⟨ascii "def! " ++ name, rfl⟩) s m
  have step : (define (eval fuel) [.sym name, e] s).Concludes m (.ok (.done v))
      (m'.define s name v) :=
    named.bind (h.bind ((Concludes.define s name v m').bind (.pure (Step.done v) _)))
  exact step.bind (.pure v _)

theorem concludes_function {names : List Text} {body : Value}
    (inert : (SpecialForm.function.expr [.list ⟨names.map .sym⟩, body]).Inert) :
    (eval (fuel + 1) (SpecialForm.function.expr [.list ⟨names.map .sym⟩, body]) s).Concludes m
      (.ok (.closure m.newFunction.1 (.ofNames names) body (some s))) m.newFunction.2 := by
  refine concludes_turn inert (x := function [.list ⟨names.map .sym⟩, body] s) rfl ?_
  have named : (ofExcept ((names.map Value.sym).mapM paramName)).Concludes m (.ok names) m := by
    rw [mapM_paramName]
    exact .ofExcept (.ok names) m
  have step : (function [.list ⟨names.map .sym⟩, body] s).Concludes m
      (.ok (.done (.closure m.newFunction.1 (.ofNames names) body (some s)))) m.newFunction.2 :=
    named.bind ((Concludes.newClosure (.ofNames names) body (some s) m).bind (.pure _ _))
  exact step.bind (.pure _ _)

end Eval

/-- A text of one form is as good as the form. -/
theorem evalSource_concludes {t : Text} {e : Value} {fuel : Nat} {s : Scope} {m m' : Machine}
    {o : Except Error Value} (read : readAll t = .ok [e]) (h : (eval fuel e s).Concludes m o m') :
    (evalSource fuel t (some s)).Concludes m o m' := by
  rw [evalSource, read]
  show (([e].foldlM (fun _ e => eval fuel e s) Value.nil : EvalM Value)).Concludes m o m'
  rw [List.foldlM_cons]
  simpa using h

end MiniLisp
