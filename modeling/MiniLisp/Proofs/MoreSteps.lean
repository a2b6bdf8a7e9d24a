import MiniLisp.Proofs.Turns

/-! The steps granted to a run bound it and do nothing else: a run that ends within them comes to
the same end whatever more is granted. -/
namespace MiniLisp

open EvalM

namespace EvalM

variable {α β : Type} {x y : EvalM α} {f g : α → EvalM β}

/-- The first does what the second does, unless its steps run out on the way. -/
def Below (x y : EvalM α) : Prop :=
  ∀ m, (x.exec m).1 = .error .outOfFuel ∨ x.exec m = y.exec m

namespace Below

theorem refl (x : EvalM α) : Below x x := fun _ => .inr rfl

theorem outOfFuel (y : EvalM α) : Below (throw .outOfFuel) y := fun _ => .inl rfl

theorem bind (h : Below x y) (hf : ∀ a, Below (f a) (g a)) : Below (x >>= f) (y >>= g) := by
  intro m
  rcases h m with short | same
  · left
    rcases ran : x.exec m with ⟨e | a, m₁⟩
    · rw [ran] at short
      cases short
      rw [exec_bind_error ran]
    · rw [ran] at short
      cases short
  · rw [exec_bind, exec_bind, same]
    rcases y.exec m with ⟨e | a, m₁⟩
    · exact .inr rfl
    · exact hf a m₁

/-- What goes before needs no steps. -/
theorem after (x : EvalM α) (hf : ∀ a, Below (f a) (g a)) : Below (x >>= f) (x >>= g) :=
  bind (refl x) hf

/-- What comes after needs no steps. -/
theorem followed (h : Below x y) (f : α → EvalM β) : Below (x >>= f) (y >>= f) :=
  bind h fun a => refl (f a)

theorem mapM (h : ∀ a, Below (f a) (g a)) (as : List α) : Below (as.mapM f) (as.mapM g) := by
  induction as with
  | nil => exact refl _
  | cons a as ih =>
    rw [List.mapM_cons, List.mapM_cons]
    exact bind (h a) fun b => followed ih _

theorem forM {f g : α → EvalM PUnit} (h : ∀ a, Below (f a) (g a)) (as : List α) :
    Below (as.forM f) (as.forM g) := by
  induction as with
  | nil => exact refl _
  | cons a as ih => exact bind (h a) fun _ => ih

/-- An end that was come to is come to again. -/
theorem ends (h : Below x y) {m n : Machine} {o : Except Error α} (run : x.Ends m o n) :
    y.Ends m o n := by
  rcases h m with short | same
  · rw [Ends] at run
    rw [run] at short
    cases o <;> cases short
  · exact same.symm.trans run

end Below

end EvalM

section

variable {evaluate evaluate' : Evaluator} {apply apply' : Applier}

theorem CallOp.run_below (ha : ∀ f args, Below (apply f args) (apply' f args)) (op : CallOp)
    (args : List Value) : Below (op.run apply args) (op.run apply' args) := by
  unfold CallOp.run
  split
  · exact .after _ fun f => .after _ fun args => ha f args
  · exact .after _ fun f => .after _ fun items => .followed (.mapM (fun v => ha f [v]) _) _
  · exact .after _ fun c => .after _ fun f => .after _ fun m => .followed (ha f _) _
  all_goals exact .refl _

theorem HostOp.run_below (ha : ∀ f args, Below (apply f args) (apply' f args)) (op : HostOp)
    (args : List Value) : Below (op.run apply args) (op.run apply' args) := by
  unfold HostOp.run
  split
  · exact .refl _
  · exact .refl _
  · exact ha _ _
  · exact .refl _

theorem Native.run_below (he : ∀ e s, Below (evaluate e s) (evaluate' e s))
    (ha : ∀ f args, Below (apply f args) (apply' f args)) (op : Native) (args : List Value) :
    Below (op.run evaluate apply args) (op.run evaluate' apply' args) := by
  cases op with
  | call op => exact op.run_below ha args
  | host name op => exact op.run_below ha args
  | evalIn scope =>
    rcases args with _ | ⟨e, _ | ⟨extra, rest⟩⟩
    · exact .refl _
    · exact he e scope
    · exact .refl _
  | _ => exact .refl _

namespace Eval

section

variable (he : ∀ e s, Below (evaluate e s) (evaluate' e s)) (parts : List Value) (s : Scope)
include he

theorem define_below : Below (define evaluate parts s) (define evaluate' parts s) := by
  unfold define
  split
  · exact .after _ fun _ => .followed (he _ s) _
  all_goals exact .refl _

theorem bindOne_below (b : Value × Value) :
    Below (bindOne evaluate s b) (bindOne evaluate' s b) := by
  unfold bindOne
  split
  · exact .followed (he _ s) _
  · exact .refl _

theorem letIn_below : Below (letIn evaluate parts s) (letIn evaluate' parts s) := by
  unfold letIn
  split
  · split
    · exact .refl _
    · split
      · exact .after _ fun inner => .after _ fun _ =>
          .followed (.forM (fun b => bindOne_below he inner b) _) _
      · exact .refl _
  · exact .refl _

theorem sequence_below : Below (sequence evaluate parts s) (sequence evaluate' parts s) := by
  refine .followed (.forM (fun e => ?_) _) _
  rw [discard_eq, discard_eq]
  exact .followed (he e s) _

theorem branch_below : Below (branch evaluate parts s) (branch evaluate' parts s) := by
  unfold branch
  split
  · exact .followed (he _ s) _
  · exact .followed (he _ s) _
  · exact .refl _

theorem specialForm_below (form : SpecialForm) :
    Below (specialForm evaluate form parts s) (specialForm evaluate' form parts s) := by
  cases form with
  | define => exact define_below he parts s
  | letIn => exact letIn_below he parts s
  | sequence => exact sequence_below he parts s
  | branch => exact branch_below he parts s
  | function => exact .refl _

theorem data_below (e : Value) : Below (data evaluate e s) (data evaluate' e s) := by
  unfold data
  split
  · exact .refl _
  · exact .refl _
  · exact .followed (.mapM (fun v => he v s) _) _
  · exact .followed (.mapM (fun v => he v s) _) _
  · exact .followed (.followed (.mapM (fun v => he v s) _) _) _
  · exact .refl _

end

theorem call_below (he : ∀ e s, Below (evaluate e s) (evaluate' e s))
    (ha : ∀ f args, Below (apply f args) (apply' f args)) (f : Value) (args : List Value)
    (s : Scope) : Below (call evaluate apply f args s) (call evaluate' apply' f args s) := by
  unfold call
  split
  · exact .after _ fun _ => .followed (Native.run_below he ha _ args) _
  · exact .refl _
  · exact .refl _

theorem step_below (he : ∀ e s, Below (evaluate e s) (evaluate' e s))
    (ha : ∀ f args, Below (apply f args) (apply' f args)) (e : Value) (s : Scope) :
    Below (step evaluate apply e s) (step evaluate' apply' e s) := by
  unfold step
  refine .after _ fun _ => ?_
  split
  · exact .refl _
  · split
    · exact specialForm_below he _ s _
    · exact .bind (he _ s) fun f => .bind (.mapM (fun v => he v s) _) fun args =>
        call_below he ha f args s
  · exact .followed (data_below he s _) _

theorem guarded_below {run run' : Evaluator} (h : ∀ e s, Below (run e s) (run' e s)) (e : Value)
    (s : Scope) : Below (guarded run e s) (guarded run' e s) := by
  unfold guarded
  split
  · exact .refl _
  · exact h _ s

end Eval

end

namespace Eval

/-- By induction on the steps granted to the shorter run. -/
theorem loop_apply_below (fuel more : Nat) :
    (∀ e s, Below (loop fuel e s) (loop (fuel + more) e s)) ∧
      ∀ f args, Below (apply fuel f args) (apply (fuel + more) f args) := by
  induction fuel with
  | zero => exact ⟨fun _ _ => .outOfFuel _, fun _ _ => .outOfFuel _⟩
  | succ fuel ih =>
    obtain ⟨hloop, happly⟩ := ih
    have hguarded := guarded_below hloop
    rw [Nat.succ_add]
    constructor
    · intro e s
      rw [loop, loop]
      refine .bind (step_below hguarded happly e s) fun next => ?_
      cases next with
      | done v => exact .refl _
      | tail e s => exact hloop e s
    · intro f args
      cases f with
      | native id op => exact op.run_below hguarded happly args
      | closure id params body captured => exact .after _ fun inner => hguarded body inner
      | _ => exact .refl _

end Eval

section

variable {fuel fuel' : Nat}

theorem eval_below (le : fuel ≤ fuel') (e : Value) (s : Scope) :
    Below (eval fuel e s) (eval fuel' e s) := by
  obtain ⟨more, rfl⟩ := Nat.exists_eq_add_of_le le
  exact Eval.guarded_below (Eval.loop_apply_below fuel more).1 e s

theorem applyFunction_below (le : fuel ≤ fuel') (f : Value) (args : List Value) :
    Below (applyFunction fuel f args) (applyFunction fuel' f args) := by
  obtain ⟨more, rfl⟩ := Nat.exists_eq_add_of_le le
  exact (Eval.loop_apply_below fuel more).2 f args

end

end MiniLisp
