import Mathlib.Order.Filter.AtTopBot.Basic
import MiniLisp.Proofs.Agreements
import MiniLisp.Proofs.Turns

/-! Where there is a derivation, evaluation comes to the same end once enough steps are granted.
Each rule asks for one step more than its premises do. -/
namespace MiniLisp

open EvalM Filter

/-- Granted enough steps, a computation comes to an end, and nothing was traced. -/
structure Settles {α : Type} (x : Nat → EvalM α) (m : Machine) (o : Except Error α)
    (m' : Machine) : Prop where
  ends : ∀ᶠ fuel in atTop, (x fuel).Ends m o m'
  silent : m'.sink = none

namespace Settles

variable {α β : Type} {m m₀ m₁ m' : Machine} {x y : Nat → EvalM α} {f : Nat → α → EvalM β}

theorem of_ends {o : Except Error α} (h : ∀ fuel, (x fuel).Ends m o m') (silent : m'.sink = none) :
    Settles x m o m' := ⟨Eventually.of_forall h, silent⟩

theorem congr {o : Except Error α} (h : Settles x m o m')
    (same : ∀ fuel, (y fuel).exec m₀ = (x fuel).exec m) : Settles y m₀ o m' :=
  ⟨h.ends.mono fun fuel run => (same fuel).trans run, h.silent⟩

theorem bind {a : α} {o : Except Error β} (hx : Settles x m (.ok a) m₁)
    (hf : Settles (fun fuel => f fuel a) m₁ o m') :
    Settles (fun fuel => x fuel >>= f fuel) m o m' := by
  refine ⟨?_, hf.silent⟩
  filter_upwards [hx.ends, hf.ends] with fuel first rest
  exact first.bind rest

theorem bind_error {err : Error} (hx : Settles x m (.error err) m') :
    Settles (fun fuel => x fuel >>= f fuel) m (.error err) m' :=
  ⟨hx.ends.mono fun _ run => run.bind_error, hx.silent⟩

theorem map {o : Except Error α} (hx : Settles x m o m') (g : α → β) :
    Settles (fun fuel => x fuel >>= fun a => pure (g a)) m (o.map g) m' := by
  cases o with
  | ok a => exact hx.bind (of_ends (fun _ => rfl) hx.silent)
  | error err => exact hx.bind_error

theorem mapM_cons {xs : List α} {a : α} {b : β} {o : Except Error (List β)}
    (hx : Settles (fun fuel => f fuel a) m (.ok b) m₁)
    (hxs : Settles (fun fuel => xs.mapM (f fuel)) m₁ o m') :
    Settles (fun fuel => (a :: xs).mapM (f fuel)) m (o.map fun bs => b :: bs) m' := by
  have rest := hxs.map fun bs => b :: bs
  refine Settles.congr (hx.bind (f := fun fuel b => xs.mapM (f fuel) >>= fun bs =>
    pure (b :: bs)) rest) fun fuel => ?_
  rw [List.mapM_cons]

theorem mapM_error {xs : List α} {a : α} {err : Error}
    (hx : Settles (fun fuel => f fuel a) m (.error err) m') :
    Settles (fun fuel => (a :: xs).mapM (f fuel)) m (.error err) m' := by
  refine Settles.congr (hx.bind_error (f := fun fuel b => xs.mapM (f fuel) >>= fun bs =>
    pure (b :: bs))) fun fuel => ?_
  rw [List.mapM_cons]

/-- One step more is granted than is asked for. -/
theorem succ {o : Except Error α} (h : Settles (fun fuel => x (fuel + 1)) m o m') :
    Settles x m o m' := by
  refine ⟨?_, h.silent⟩
  rw [← map_add_atTop_eq_nat 1]
  exact eventually_map.mpr h.ends

end Settles

theorem silent_of_native {op : Native} {args : List Value} {m m' : Machine}
    {o : Except Error Value}
    (h : (op.run (fun _ _ => throw .outOfFuel) (fun _ _ => throw .outOfFuel) args).Ends m o m')
    (silent : m.sink = none) : m'.sink = none := by
  have safe : SafeValue .lax (fun _ => True) (fun _ m₁ m₂ => m₁ = m₂) .everything
      (op.run (fun _ _ => throw .outOfFuel) (fun _ _ => throw .outOfFuel) args) := by
    refine op.run_safe (equality_simulation _) ?_ ?_ (fun _ _ => trivial)
      fun v _ => v.within_everything
    · exact fun _ _ _ _ _ _ => Safe.outOfFuel
    · exact fun _ _ _ _ _ => Safe.outOfFuel
  obtain ⟨r', advance, _⟩ := safe m m m.closed_everything ⟨fun _ => trivial, fun _ => trivial⟩ rfl
  rw [h] at advance
  exact advance.silent silent

section

variable {e : Value} {s : Scope} {m m' : Machine} {o : Except Error Value}

theorem Evaluates.ne_null (h : Evaluates e s m o m') : e ≠ .null := by
  rintro rfl
  cases h with
  | constant hv => cases hv

theorem settles_turn (present : e ≠ .null)
    (h : Settles (fun fuel => Eval.step (eval fuel) (applyFunction fuel) e s >>= Eval.finish fuel)
      m o m') : Settles (fun fuel => eval fuel e s) m o m' := by
  refine Settles.succ (h.congr fun fuel => ?_)
  rw [Eval.eval_of_ne_null present, Eval.loop_succ]

theorem settles_form {form : SpecialForm} {parts : List Value} {m₀ : Machine}
    {x : Nat → EvalM Step} (silent : m.sink = none)
    (same : ∀ fuel, (Eval.specialForm (eval fuel) form parts s).exec m = (x fuel).exec m₀)
    (h : Settles (fun fuel => x fuel >>= Eval.finish fuel) m₀ o m') :
    Settles (fun fuel => eval fuel (form.expr parts) s) m o m' := by
  refine settles_turn (fun absent => ?_) (h.congr fun fuel => ?_)
  · cases absent
  · exact exec_bind_congr ((Eval.step_form silent form parts).trans (same fuel)) _

theorem settles_call {head : Value} {parts : List Value} (silent : m.sink = none)
    (called : SpecialForm.ofHead? head = none)
    (h : Settles (fun fuel => eval fuel head s >>= fun f =>
      parts.mapM (fun e => eval fuel e s) >>= fun args =>
        Eval.call (eval fuel) (applyFunction fuel) f args s >>= Eval.finish fuel) m o m') :
    Settles (fun fuel => eval fuel (.list ⟨head :: parts⟩) s) m o m' := by
  refine settles_turn (by simp) (h.congr fun fuel => ?_)
  rw [exec_bind_congr (Eval.step_call silent parts called)]
  simp only [bind_assoc]

theorem settles_data (silent : m.sink = none) (present : e ≠ .null) (noList : e.is .list = false)
    (h : Settles (fun fuel => Eval.data (eval fuel) e s) m o m') :
    Settles (fun fuel => eval fuel e s) m o m' := by
  refine settles_turn present (Settles.congr ?_ fun fuel =>
    exec_bind_congr (Eval.step_data silent noList) _)
  cases o with
  | ok v => exact (h.map Step.done).bind (.of_ends (fun _ => rfl) h.silent)
  | error err => exact h.bind_error.bind_error

theorem settles_constant {v : Value} (hv : v.isConstant) (silent : m.sink = none) :
    Settles (fun fuel => eval fuel v s) m (.ok v) m := by
  cases v with
  | null | sym | list | vec | map => cases hv
  | _ =>
    refine settles_data silent ?_ rfl (.of_ends (fun _ => rfl) silent)
    intro absent
    cases absent

theorem settles_ofExcept {α : Type} {x : Except Error α} {a : α} (hx : x = .ok a)
    (silent : m.sink = none) : Settles (fun _ => ofExcept x) m (.ok a) m := by
  refine .of_ends (fun _ => ?_) silent
  rw [hx]
  rfl

/-- What is left for the loop is settled by the derivation for it. -/
theorem settles_tail (present : e ≠ .null) (h : Settles (fun fuel => eval fuel e s) m o m') :
    Settles (fun fuel => Eval.finish fuel (.tail e s)) m o m' :=
  h.congr fun fuel => by rw [Eval.finish, Eval.eval_of_ne_null present]

theorem settles_done {v : Value} (silent : m.sink = none) :
    Settles (fun fuel => Eval.finish fuel (.done v)) m (.ok v) m := .of_ends (fun _ => rfl) silent

theorem settles_nil (silent : m.sink = none) :
    Settles (fun fuel => Eval.finish fuel (.tail .nil s)) m (.ok .nil) m :=
  settles_tail (by simp) (settles_constant rfl silent)

end

mutual

theorem Evaluates.settles {e : Value} {s : Scope} {m m' : Machine} {o : Except Error Value} :
    Evaluates e s m o m' → m.sink = none → Settles (fun fuel => eval fuel e s) m o m'
  | .constant hv, silent => settles_constant hv silent
  | .found hv, silent => by
    refine settles_data silent (by simp) rfl (.of_ends (fun fuel => ?_) silent)
    exact ends_lookup_found hv
  | .unbound hv, silent => by
    refine settles_data silent (by simp) rfl (.of_ends (fun fuel => ?_) silent)
    exact ends_lookup_unbound hv
  | .vec hall, silent => by
    refine settles_data silent (by simp) rfl ?_
    exact (hall.settles silent).map fun vs => Value.vec ⟨vs⟩
  | @Evaluates.map t s m m' o hall, silent => by
    refine settles_data silent (by simp) rfl ?_
    have entries := (hall.settles silent).map fun vs => (⟨t.trim.order, ⟨vs⟩⟩ : Table Key Value)
    have all := entries.map Value.map
    cases o with
    | ok vs => exact all
    | error err => exact all
  | .empty, silent => by
    refine settles_turn (by simp) (.of_ends (fun fuel => ?_) silent)
    exact Ends.bind (Eval.step_empty silent) rfl
  | .malformed wrong, silent => by
    refine settles_form silent (fun fuel => ?_) (.of_ends (fun _ => ends_fail.bind_error) silent)
    rw [Eval.specialForm_fault wrong]
  | @Evaluates.define name e v s m m' he, silent => by
    have first := he.settles silent
    refine settles_form silent (fun _ => Eval.define_silent silent name e) ?_
    -- the definition is made on the machine that the evaluation left
    have defined : Settles (fun _ => EvalM.define s name v >>= fun _ => pure (Step.done v)) m'
        (.ok (.done v)) (m'.define s name v) := .of_ends (fun _ => rfl) first.silent
    exact Settles.bind (first.bind defined) (settles_done defined.silent)
  | @Evaluates.defineError name e s m m' err he, silent => by
    refine settles_form silent (fun _ => Eval.define_silent silent name e) ?_
    exact (he.settles silent).bind_error.bind_error
  | .letIn hitems even hbind hbody, silent => by
    have bound := hbind.settles silent
    refine settles_form silent (fun _ => Eval.letIn_silent silent _ hitems even) ?_
    refine Settles.bind (bound.map _) ?_
    exact settles_tail hbody.ne_null (hbody.settles bound.silent)
  | .letError hitems even hbind, silent => by
    refine settles_form silent (fun _ => Eval.letIn_silent silent _ hitems even) ?_
    exact (hbind.settles silent).bind_error.bind_error
  | .doNothing, silent => by
    refine settles_form silent (fun _ => rfl) ?_
    exact Settles.bind (.of_ends (fun _ => rfl) silent) (settles_nil silent)
  | @Evaluates.sequence es vs last s m m₁ m' o hall hlast, silent => by
    have first := hall.settles silent
    refine settles_form silent (fun _ => congrArg (exec · m) (Eval.sequence_concat es last)) ?_
    refine Settles.bind (first.map _) ?_
    exact settles_tail hlast.ne_null (hlast.settles first.silent)
  | @Evaluates.sequenceError es last s m m' err hall, silent => by
    refine settles_form silent (fun _ => congrArg (exec · m) (Eval.sequence_concat es last)) ?_
    exact (hall.settles silent).bind_error.bind_error
  | @Evaluates.ifTrue test yes v no s m m₁ m' o htest truthy hyes, silent => by
    have first := htest.settles silent
    refine settles_form silent (fun _ => congrArg (exec · m) (Eval.branch_eq test yes no)) ?_
    refine Settles.bind (first.map _) ?_
    dsimp only
    rw [if_pos truthy]
    exact settles_tail hyes.ne_null (hyes.settles first.silent)
  | @Evaluates.ifFalse test yes no v s m m₁ m' o htest falsy hno, silent => by
    have first := htest.settles silent
    refine settles_form silent
      (fun _ => congrArg (exec · m) (Eval.branch_eq test yes (some no))) ?_
    refine Settles.bind (first.map _) ?_
    dsimp only
    rw [if_neg falsy]
    exact settles_tail hno.ne_null (hno.settles first.silent)
  | @Evaluates.ifNothing test yes v s m m' htest falsy, silent => by
    have first := htest.settles silent
    refine settles_form silent (fun _ => congrArg (exec · m) (Eval.branch_eq test yes none)) ?_
    refine Settles.bind (first.map _) ?_
    dsimp only
    rw [if_neg falsy]
    exact settles_nil first.silent
  | @Evaluates.ifError test yes no s m m' err htest, silent => by
    refine settles_form silent (fun _ => congrArg (exec · m) (Eval.branch_eq test yes no)) ?_
    exact (htest.settles silent).bind_error.bind_error
  | .function hparams, silent => by
    refine settles_form silent (fun _ => rfl) (.of_ends (fun fuel => ?_) silent)
    exact Ends.bind (Eval.function_ends _ hparams) rfl
  | .call called hhead hparts happly, silent => by
    have first := hhead.settles silent
    have others := hparts.settles first.silent
    exact settles_call silent called (first.bind (others.bind (happly.calls others.silent)))
  | .headError called hhead, silent =>
    settles_call silent called (hhead.settles silent).bind_error
  | .partError called hhead hparts, silent => by
    have first := hhead.settles silent
    exact settles_call silent called (first.bind (hparts.settles first.silent).bind_error)

theorem EvaluatesAll.settles {es : List Value} {s : Scope} {m m' : Machine}
    {o : Except Error (List Value)} : EvaluatesAll es s m o m' → m.sink = none →
    Settles (fun fuel => es.mapM fun e => eval fuel e s) m o m'
  | .nil, silent => .of_ends (fun _ => rfl) silent
  | .cons he hes, silent => by
    have first := he.settles silent
    exact Settles.mapM_cons (f := fun fuel e => eval fuel e _) first (hes.settles first.silent)
  | .error he, silent =>
    Settles.mapM_error (f := fun fuel e => eval fuel e _) (he.settles silent)

theorem Binds.settles {items : List Value} {s : Scope} {m m' : Machine} {o : Except Error Unit} :
    Binds items s m o m' → m.sink = none →
    Settles (fun fuel => (bindingPairs items).forM (Eval.bindOne (eval fuel) s)) m o m'
  | .nil, silent => .of_ends (fun _ => rfl) silent
  | @Binds.cons name e v rest s m m₁ m' o he hrest, silent => by
    have first := he.settles silent
    have others := hrest.settles first.silent
    exact Settles.bind (first.bind (.of_ends (fun _ => rfl) first.silent)) others
  | .error he, silent => Settles.bind_error (he.settles silent).bind_error
  | @Binds.noName v e rest s m unnamed, silent => by
    refine Settles.bind_error (.of_ends (fun fuel => ?_) silent)
    rw [Eval.bindOne_noName unnamed]
    rfl

/-- A call in tail position comes to the same end as an application. -/
theorem Applies.calls {f : Value} {args : List Value} {s : Scope} {m m' : Machine}
    {o : Except Error Value} : Applies f args m o m' → m.sink = none →
    Settles (fun fuel =>
      Eval.call (eval fuel) (applyFunction fuel) f args s >>= Eval.finish fuel) m o m'
  | @Applies.native id op args m m' o hop, silent => by
    have ran := hop.settles silent
    refine Settles.congr ?_ fun _ => exec_bind_congr (Eval.call_native silent id op args) _
    cases o with
    | ok v =>
      refine (ran.bind (.of_ends (fun fuel => ?_) ran.silent)).bind (settles_done ran.silent)
      exact (Eval.traceReturn_ends ran.silent op v).bind rfl
    | error err => exact ran.bind_error.bind_error
  | @Applies.closure id params body scope args m m' o fits hbody, silent => by
    refine Settles.congr ?_ fun _ =>
      exec_bind_congr (Eval.call_closure silent id params body scope args) _
    refine Settles.bind (Settles.bind (.of_ends (fun _ => Eval.callFrame_ends scope fits) silent)
      (.of_ends (fun _ => rfl) silent)) ?_
    exact settles_tail hbody.ne_null (hbody.settles silent)
  | @Applies.arity id params body scope args m wrong, silent => by
    refine Settles.congr ?_ fun _ =>
      exec_bind_congr (Eval.call_closure silent id params body scope args) _
    rw [Eval.callFrame_arity scope wrong]
    exact .of_ends (fun _ => rfl) silent
  | @Applies.noFunction f kind t args m noFunction hkind printed, silent => by
    refine .of_ends (fun fuel => ?_) silent
    rw [Eval.call_noFunction noFunction]
    exact Ends.bind_error (Ends.bind (Eval.notApplicable_ends hkind printed) rfl)

theorem Applies.settles {f : Value} {args : List Value} {m m' : Machine}
    {o : Except Error Value} : Applies f args m o m' → m.sink = none →
    Settles (fun fuel => applyFunction fuel f args) m o m'
  | .native hop, silent => Settles.succ (hop.settles silent)
  | @Applies.closure id params body scope args m m' o fits hbody, silent => by
    refine Settles.succ (Settles.bind ?_ (hbody.settles silent))
    exact .of_ends (fun _ => Eval.callFrame_ends scope fits) silent
  | @Applies.arity id params body scope args m wrong, silent => by
    refine Settles.succ (.of_ends (fun fuel => Ends.bind_error ?_) silent)
    rw [Eval.callFrame_arity scope wrong]
    rfl
  | @Applies.noFunction f kind t args m noFunction hkind printed, silent => by
    refine Settles.succ (.of_ends (fun fuel => ?_) silent)
    rw [Eval.apply_noFunction noFunction]
    exact Ends.bind (Eval.notApplicable_ends hkind printed) rfl

theorem Performs.settles {op : Native} {args : List Value} {m m' : Machine}
    {o : Except Error Value} : Performs op args m o m' → m.sink = none →
    Settles (fun fuel => op.run (eval fuel) (applyFunction fuel) args) m o m'
  | .direct hop, silent => .of_ends (fun _ => hop _ _) (silent_of_native (hop _ _) silent)
  | .apply hf hargs happly, silent =>
    (settles_ofExcept hf silent).bind ((settles_ofExcept hargs silent).bind (happly.settles silent))
  | .map hf hitems heach, silent =>
    (settles_ofExcept hf silent).bind ((settles_ofExcept hitems silent).bind
      ((heach.settles silent).map fun vs => Value.list ⟨vs⟩))
  | .swap hc hf happly, silent => by
    have new := happly.settles silent
    refine (settles_ofExcept hc silent).bind ((settles_ofExcept hf silent).bind ?_)
    refine Settles.bind (.of_ends (fun _ => rfl) silent) (new.bind ?_)
    exact .of_ends (fun _ => rfl) new.silent
  | .swapError hc hf happly, silent => by
    refine (settles_ofExcept hc silent).bind ((settles_ofExcept hf silent).bind ?_)
    exact Settles.bind (.of_ends (fun _ => rfl) silent) (happly.settles silent).bind_error
  | .evalIn he, silent => he.settles silent
  | .host happly, silent => happly.settles silent

theorem AppliesEach.settles {f : Value} {us : List Value} {m m' : Machine}
    {o : Except Error (List Value)} : AppliesEach f us m o m' → m.sink = none →
    Settles (fun fuel => us.mapM fun u => applyFunction fuel f [u]) m o m'
  | .nil, silent => .of_ends (fun _ => rfl) silent
  | .cons hu hus, silent => by
    have first := hu.settles silent
    exact Settles.mapM_cons (f := fun fuel u => applyFunction fuel _ [u]) first
      (hus.settles first.silent)
  | .error hu, silent =>
    Settles.mapM_error (f := fun fuel u => applyFunction fuel _ [u]) (hu.settles silent)

end

/-- Derivations leave no choice. -/
theorem Evaluates.deterministic {e : Value} {s : Scope} {m m₁ m₂ : Machine}
    {o₁ o₂ : Except Error Value} (silent : m.sink = none) (h₁ : Evaluates e s m o₁ m₁)
    (h₂ : Evaluates e s m o₂ m₂) : o₁ = o₂ ∧ m₁ = m₂ := by
  obtain ⟨fuel, run₁, run₂⟩ := ((h₁.settles silent).ends.and (h₂.settles silent).ends).exists
  exact run₁.unique run₂

end MiniLisp
