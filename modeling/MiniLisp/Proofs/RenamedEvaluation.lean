import MiniLisp.Proofs.RenamedRuns

/-! An evaluation looks at frames only to find and to define names in them. So evaluating a renamed
expression in a renamed frame comes to the renamed value. -/
namespace MiniLisp

def Step.rename (ρ : FrameId → FrameId) : Step → Step
  | .done v => .done (v.rename ρ)
  | .tail e s => .tail (e.rename ρ) (s.rename ρ)

namespace Eval

section

variable {ρ : FrameId → FrameId} {evaluate : Evaluator} {apply : Applier}

abbrev TracksStep (ρ : FrameId → FrameId) (x y : EvalM Step) : Prop := Tracks ρ (Step.rename ρ) x y

theorem TracksStep.done {x y : EvalM Value} (h : Tracks ρ (Value.rename ρ) x y) :
    TracksStep ρ (x >>= fun v => pure (.done v)) (y >>= fun v => pure (.done v)) :=
  h.bind fun v => Tracks.pure ρ (Step.rename ρ) (.done v)

theorem TracksStep.tail (e : Value) (s : Scope) :
    TracksStep ρ (pure (.tail e s)) (pure (.tail (e.rename ρ) (s.rename ρ))) :=
  Tracks.pure ρ (Step.rename ρ) (.tail e s)

theorem TracksStep.fail (fault : FormFault) :
    TracksStep ρ (EvalM.fail (.form fault)) (EvalM.fail (.form fault)) :=
  Tracks.fail _ (.form fault)

theorem ofHead?_rename (head : Value) :
    SpecialForm.ofHead? (head.rename ρ) = SpecialForm.ofHead? head := by
  cases head <;> simp [SpecialForm.ofHead?]

theorem define_tracks (he : TrackedEvaluator ρ evaluate) (parts : List Value) (s : Scope) :
    TracksStep ρ (define evaluate parts s)
      (define evaluate (parts.map (Value.rename ρ)) (s.rename ρ)) := by
  rcases parts with _ | ⟨target, _ | ⟨e, _ | ⟨w, rest⟩⟩⟩
  · exact .fail .defineShape
  · cases target <;> simpa [define] using .fail .defineShape
  · cases target with
    | sym name =>
      simp only [List.map_cons, List.map_nil, Value.rename_sym]
      refine (Tracks.trace s _ _ _).bind fun _ => (he e s).bind fun v => ?_
      exact (Tracks.define s name v).bind fun _ => Tracks.pure ρ (Step.rename ρ) (.done v)
    | _ => simpa [define] using .fail .defineName
  · cases target <;> simpa [define] using .fail .defineShape

theorem bindingPairs_rename : (items : List Value) →
    bindingPairs (items.map (Value.rename ρ)) =
      (bindingPairs items).map fun b => (b.1.rename ρ, b.2.rename ρ)
  | [] | [_] => rfl
  | name :: e :: rest => by
    simp only [List.map_cons, bindingPairs, bindingPairs_rename rest]

theorem bindOne_tracks (he : TrackedEvaluator ρ evaluate) (s : Scope) (b : Value × Value) :
    Tracks ρ (fun u => u) (bindOne evaluate s b)
      (bindOne evaluate (s.rename ρ) (b.1.rename ρ, b.2.rename ρ)) := by
  obtain ⟨target, e⟩ := b
  cases target with
  | sym name =>
    simp only [Value.rename_sym]
    exact (he e s).bind fun v => Tracks.define s name v
  | closure id params body scope =>
    rw [Value.rename_closure]
    exact Tracks.fail _ (.form .letName)
  | _ => exact Tracks.fail _ (.form .letName)

theorem letIn_tracks (he : TrackedEvaluator ρ evaluate) (parts : List Value) (s : Scope) :
    TracksStep ρ (letIn evaluate parts s)
      (letIn evaluate (parts.map (Value.rename ρ)) (s.rename ρ)) := by
  rcases parts with _ | ⟨bindings, _ | ⟨body, _ | ⟨w, rest⟩⟩⟩
  · exact .fail .letShape
  · exact .fail .letShape
  · simp only [List.map_cons, List.map_nil, letIn, Value.items?_rename]
    cases bindings.items? with
    | none => exact .fail .letBindings
    | some items =>
      simp only [Option.map_some, Array.size_map, Array.toList_map, bindingPairs_rename]
      split
      · have frame := Tracks.newFrame (ρ := ρ) (some s) (.empty : Table Text Value)
        rw [Table.mapValues_empty, Option.map_some] at frame
        refine frame.bind fun inner => (Tracks.trace s _ _ _).bind fun _ => ?_
        refine (Tracks.forM ?_ (bindingPairs items.toList)).bind fun _ => ?_
        · exact bindOne_tracks he inner
        · exact TracksStep.tail body inner
      · exact .fail .letPairs
  · exact .fail .letShape

theorem sequence_tracks (he : TrackedEvaluator ρ evaluate) (parts : List Value) (s : Scope) :
    TracksStep ρ (sequence evaluate parts s)
      (sequence evaluate (parts.map (Value.rename ρ)) (s.rename ρ)) := by
  have last : (parts.map (Value.rename ρ)).getLast?.getD .nil =
      (parts.getLast?.getD .nil).rename ρ := by
    rw [List.getLast?_map]
    cases parts.getLast? <;> simp
  rw [sequence, sequence, last, ← List.map_dropLast]
  refine (Tracks.forM ?_ parts.dropLast).bind fun _ => ?_
  · exact fun e => (he e s).discard
  · exact TracksStep.tail _ s

theorem branch_tracks (he : TrackedEvaluator ρ evaluate) (parts : List Value) (s : Scope) :
    TracksStep ρ (branch evaluate parts s)
      (branch evaluate (parts.map (Value.rename ρ)) (s.rename ρ)) := by
  have choose (test yes no : Value) : TracksStep ρ (do
      let v ← evaluate test s
      pure (.tail (if v.isTruthy then yes else no) s)) (do
        let v ← evaluate (test.rename ρ) (s.rename ρ)
        pure (.tail (if v.isTruthy then yes.rename ρ else no.rename ρ) (s.rename ρ))) := by
    refine (he test s).bind fun v => ?_
    rw [Value.isTruthy_rename, ← apply_ite (Value.rename ρ)]
    exact TracksStep.tail _ s
  rcases parts with _ | ⟨test, _ | ⟨yes, _ | ⟨no, _ | ⟨w, rest⟩⟩⟩⟩
  · exact .fail .ifShape
  · exact .fail .ifShape
  · have absent := choose test yes .nil
    rwa [Value.rename_nil] at absent
  · exact choose test yes no
  · exact .fail .ifShape

theorem paramName_rename (v : Value) :
    paramName (v.rename ρ) = renamed ρ (fun name => name) (paramName v) := by
  cases v <;> simp [paramName, carry, Error.rename]

theorem function_tracks (parts : List Value) (s : Scope) :
    TracksStep ρ (function parts s) (function (parts.map (Value.rename ρ)) (s.rename ρ)) := by
  rcases parts with _ | ⟨params, _ | ⟨body, _ | ⟨w, rest⟩⟩⟩
  · exact .fail .fnShape
  · exact .fail .fnShape
  · simp only [List.map_cons, List.map_nil, function, Value.items?_rename]
    cases params.items? with
    | none => exact .fail .fnParams
    | some items =>
      simp only [Option.map_some, Array.toList_map]
      refine (Tracks.ofExcept (carry_mapM paramName_rename items.toList)).bind fun names => ?_
      rw [List.map_id']
      exact TracksStep.done (Tracks.newClosure (.ofNames names) body (some s))
  · exact .fail .fnShape

theorem specialForm_tracks (he : TrackedEvaluator ρ evaluate) (form : SpecialForm)
    (parts : List Value) (s : Scope) :
    TracksStep ρ (specialForm evaluate form parts s)
      (specialForm evaluate form (parts.map (Value.rename ρ)) (s.rename ρ)) := by
  cases form with
  | define => exact define_tracks he parts s
  | letIn => exact letIn_tracks he parts s
  | sequence => exact sequence_tracks he parts s
  | branch => exact branch_tracks he parts s
  | function => exact function_tracks parts s

theorem items_tracks (he : TrackedEvaluator ρ evaluate) (vs : List Value) (s : Scope) :
    Tracks ρ (List.map (Value.rename ρ)) (vs.mapM fun v => evaluate v s)
      ((vs.map (Value.rename ρ)).mapM fun v => evaluate v (s.rename ρ)) := by
  refine Tracks.mapM ?_ vs
  exact fun v => he v s

theorem data_tracks (he : TrackedEvaluator ρ evaluate) (e : Value) (s : Scope) :
    Tracks ρ (Value.rename ρ) (data evaluate e s) (data evaluate (e.rename ρ) (s.rename ρ)) := by
  cases e with
  | null => exact Tracks.fail _ (.absent .value)
  | sym name => exact Tracks.lookup s name
  | list xs =>
    simp only [Value.rename_list, data, Array.toList_map]
    refine (items_tracks he xs.toList s).bind fun vs => ?_
    rw [← List.map_toArray, ← Value.rename_list]
    exact Tracks.pure ρ _ _
  | vec xs =>
    simp only [Value.rename_vec, data, Array.toList_map]
    refine (items_tracks he xs.toList s).bind fun vs => ?_
    rw [← List.map_toArray, ← Value.rename_vec]
    exact Tracks.pure ρ _ _
  | map table =>
    simp only [Value.rename_map, data, Table.mapM, Table.vals_mapValues, Array.toList_map,
      Table.trim_mapValues, Table.order_mapValues, bind_assoc, pure_bind]
    refine Tracks.mapM_bind (fun v => he v s) table.vals.toList fun vs same => ?_
    have sized : table.trim.order.size = vs.toArray.size :=
      table.size_order_trim.trans (Array.length_toList.symm.trans same.symm)
    have result := Table.mapValues_of_sized (f := Value.rename ρ)
      (t := ⟨table.trim.order, vs.toArray⟩) sized
    rw [List.map_toArray] at result
    rw [← result, ← Value.rename_map]
    exact Tracks.pure ρ _ _
  | closure id params body scope =>
    have kept := Tracks.pure ρ (Value.rename ρ) (.closure id params body scope)
    rw [Value.rename_closure] at kept ⊢
    exact kept
  | _ => exact Tracks.pure ρ (Value.rename ρ) _

theorem notApplicable_tracks (f : Value) :
    Tracks ρ (Error.rename ρ) (notApplicable f) (notApplicable (f.rename ρ)) := by
  refine (Tracks.readable f).bind fun written => ?_
  refine Tracks.bind (f := fun kind => kind) (Tracks.ofExcept ?_) fun kind =>
    Tracks.pure ρ (Error.rename ρ) (.notApplicable kind written)
  rw [Value.kind, Value.kind, Value.kind?_rename]
  cases f.kind? <;> rfl

theorem callFrame_tracks (params : Params) (scope : Option Scope) (args : List Value) :
    Tracks ρ (Scope.rename ρ) (callFrame params scope args)
      (callFrame params (scope.map (Scope.rename ρ)) (args.map (Value.rename ρ))) := by
  rw [callFrame, callFrame, List.length_map]
  split
  · rename_i fit
    rw [← Params.mapValues_bind _ _ fit]
    exact Tracks.newFrame scope _
  · exact Tracks.fail _ (.arity _ _ _)

theorem call_tracks (he : TrackedEvaluator ρ evaluate) (ha : TrackedApplier ρ apply) (f : Value)
    (args : List Value) (s : Scope) :
    TracksStep ρ (call evaluate apply f args s)
      (call evaluate apply (f.rename ρ) (args.map (Value.rename ρ)) (s.rename ρ)) := by
  cases f with
  | native id op =>
    simp only [Value.rename_native, call]
    refine (Tracks.trace s _ _ _).bind fun _ => (op.run_tracks args he ha).bind fun v => ?_
    exact (Tracks.trace s _ _ _).bind fun _ => Tracks.pure ρ (Step.rename ρ) (.done v)
  | closure id params body captured =>
    simp only [Value.rename_closure, call]
    refine (Tracks.trace s _ _ _).bind fun _ => ?_
    exact (callFrame_tracks params captured args).bind fun inner => TracksStep.tail body inner
  | _ => exact (notApplicable_tracks _).bind fun e => Tracks.fail _ e

theorem step_tracks (he : TrackedEvaluator ρ evaluate) (ha : TrackedApplier ρ apply) (e : Value)
    (s : Scope) :
    TracksStep ρ (step evaluate apply e s) (step evaluate apply (e.rename ρ) (s.rename ρ)) := by
  cases e with
  | list xs =>
    obtain ⟨_ | ⟨head, parts⟩⟩ := xs
    · refine (Tracks.trace s _ _ _).bind fun _ => ?_
      exact Tracks.pure ρ (Step.rename ρ) (.done (.list #[]))
    · simp only [Value.rename_list, List.map_toArray, List.map_cons, step]
      refine (Tracks.trace s _ _ _).bind fun _ => ?_
      rw [ofHead?_rename]
      cases SpecialForm.ofHead? head with
      | some form => exact specialForm_tracks he form parts s
      | none =>
        refine (he head s).bind fun f => ?_
        exact (items_tracks he parts s).bind fun args => call_tracks he ha f args s
  | closure id params body scope =>
    have value := data_tracks he (.closure id params body scope) s
    rw [Value.rename_closure] at value ⊢
    exact (Tracks.trace s _ _ _).bind fun _ => TracksStep.done value
  | _ => exact (Tracks.trace s _ _ _).bind fun _ => TracksStep.done (data_tracks he _ s)

theorem guarded_tracks {run : Evaluator} (h : TrackedEvaluator ρ run) :
    TrackedEvaluator ρ (guarded run) := by
  intro e s
  by_cases absent : e = .null
  · subst absent
    rw [Value.rename_null]
    exact Tracks.fail _ (.absent .expression)
  · rw [guarded, guarded]
    · exact h e s
    · rwa [Value.rename_eq_null_iff]
    · exact absent

/-- Both by induction on the steps granted, which nested evaluations have fewer of. -/
theorem loop_apply_tracks (fuel : Nat) :
    TrackedEvaluator ρ (loop fuel) ∧ TrackedApplier ρ (Eval.apply fuel) := by
  induction fuel with
  | zero =>
    constructor
    · intro e s
      exact Tracks.outOfFuel _
    · intro f args
      exact Tracks.outOfFuel _
  | succ fuel ih =>
    obtain ⟨hloop, happly⟩ := ih
    have hguarded := guarded_tracks hloop
    constructor
    · intro e s
      rw [loop, loop]
      refine (step_tracks hguarded happly e s).bind fun next => ?_
      cases next with
      | done v => exact Tracks.pure ρ _ v
      | tail e s => exact hloop e s
    · intro f args
      cases f with
      | native id op =>
        rw [Value.rename_native, Eval.apply, Eval.apply]
        exact op.run_tracks args hguarded happly
      | closure id params body captured =>
        rw [Value.rename_closure, Eval.apply, Eval.apply]
        exact (callFrame_tracks params captured args).bind fun inner => hguarded body inner
      | _ => exact (notApplicable_tracks _).bind fun e => Tracks.fail _ e

end

end Eval

theorem eval_tracks (ρ : FrameId → FrameId) (fuel : Nat) : TrackedEvaluator ρ (eval fuel) :=
  Eval.guarded_tracks (Eval.loop_apply_tracks fuel).1

end MiniLisp
