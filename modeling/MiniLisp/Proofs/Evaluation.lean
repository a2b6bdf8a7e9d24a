import MiniLisp.Proofs.EffectNatives
import MiniLisp.Session

/-! One step of evaluation is safe if what it evaluates and applies on the way is. The only frames
that are written to are the one evaluation starts in, those that natives evaluate in and new ones.
-/
namespace MiniLisp

namespace Eval

section

variable {p : Policy} {W : FrameId → Prop} {A : Agreement} {r : Region} {s : Scope}

def StepWithin (p : Policy) (W : FrameId → Prop) (r : Region) : Step → Prop
  | .done v => v.Within p r
  | .tail e s => e.Within p r ∧ r.scope s ∧ W s.id

abbrev SafeStep (p : Policy) (W : FrameId → Prop) (A : Agreement) (r : Region)
    (x : EvalM Step) : Prop := Safe p W A r (StepWithin p W) x

theorem define_safe (sim : Simulation p A) {evaluate : Evaluator}
    (he : SafeEvaluator p W A evaluate) {parts : List Value} (h : AllWithin p r parts)
    (hs : r.scope s) (hw : W s.id) : SafeStep p W A r (define evaluate parts s) := by
  unfold define
  split
  · rename_i name e
    have hv := h e (List.mem_cons_of_mem _ List.mem_cons_self)
    refine (Safe.trace sim (P := fun _ _ => True) hs (Told.pure _) trivial).bind ?_
    intro r₁ _ le₁ _
    refine (he r₁ e s (hv.mono le₁) (le₁.1 s hs) hw).bind ?_
    intro r₂ v le₂ hv
    refine (Safe.define sim (P := fun _ _ => True) trivial ((le₁.trans le₂).1 s hs) hw hv).bind ?_
    intro r₃ _ le₃ _
    exact Safe.pure (P := StepWithin p W) (hv.mono le₃)
  · exact Safe.fail trivial
  · exact Safe.fail trivial

theorem mem_of_mem_bindingPairs :
    {items : List Value} → {b : Value × Value} → b ∈ bindingPairs items → b.2 ∈ items
  | [], _, h => absurd h List.not_mem_nil
  | [_], _, h => absurd h List.not_mem_nil
  | name :: e :: rest, b, h => by
    rcases List.mem_cons.mp h with rfl | h
    · exact List.mem_cons_of_mem name List.mem_cons_self
    · exact List.mem_cons_of_mem name (List.mem_cons_of_mem e (mem_of_mem_bindingPairs h))

theorem bindOne_safe (sim : Simulation p A) {evaluate : Evaluator}
    (he : SafeEvaluator p W A evaluate) {b : Value × Value} (hb : b.2.Within p r)
    (hs : r.scope s) (hw : W s.id) :
    Safe p W A r (fun _ _ => True) (bindOne evaluate s b) := by
  unfold bindOne
  split
  · refine (he r _ s hb hs hw).bind ?_
    intro r₁ v le₁ hv
    exact Safe.define sim trivial (le₁.1 s hs) hw hv
  · exact Safe.fail trivial

theorem letIn_safe (sim : Simulation p A) {evaluate : Evaluator}
    (he : SafeEvaluator p W A evaluate) {parts : List Value} (h : AllWithin p r parts)
    (hs : r.scope s) : SafeStep p W A r (letIn evaluate parts s) := by
  unfold letIn
  split
  · rename_i bindings body
    have hbindings := h bindings List.mem_cons_self
    have hbody := h body (List.mem_cons_of_mem _ List.mem_cons_self)
    split
    · exact Safe.fail trivial
    · rename_i items hitems
      split
      · refine (Safe.newFrame sim (fun t ht => Option.some.inj ht ▸ hs)
          (fun e he => by simp at he)).bind ?_
        rintro r₁ inner le₁ ⟨hinner, hwrite⟩
        refine (Safe.trace sim (P := fun _ _ => True) (le₁.1 s hs) (Told.pure _) trivial).bind ?_
        intro r₂ _ le₂ _
        refine (Safe.forM fun b hb r₃ le₃ => ?_).bind fun r₃ _ le₃ _ => ?_
        · have found := hbindings.of_items? hitems b.2
            (Array.mem_toList_iff.mp (mem_of_mem_bindingPairs hb))
          exact bindOne_safe sim he (found.mono (le₁.trans (le₂.trans le₃)))
            ((le₂.trans le₃).1 inner hinner) hwrite
        · exact Safe.pure (P := StepWithin p W) ⟨hbody.mono (le₁.trans (le₂.trans le₃)),
            (le₂.trans le₃).1 inner hinner, hwrite⟩
      · exact Safe.fail trivial
  · exact Safe.fail trivial

theorem sequence_safe {evaluate : Evaluator} (he : SafeEvaluator p W A evaluate)
    {parts : List Value} (h : AllWithin p r parts) (hs : r.scope s) (hw : W s.id) :
    SafeStep p W A r (sequence evaluate parts s) := by
  have last : (parts.getLast?.getD .nil).Within p r := by
    cases hp : parts.getLast? with
    | none => exact .nil
    | some e => exact h e (List.mem_of_getLast? hp)
  refine (Safe.forM fun e hin r₁ le₁ => ?_).bind fun r₁ _ le₁ _ => ?_
  · have within := (h e (List.dropLast_subset _ hin)).mono le₁
    exact (he r₁ e s within (le₁.1 s hs) hw).map fun _ _ _ _ => trivial
  · exact Safe.pure (P := StepWithin p W) ⟨last.mono le₁, le₁.1 s hs, hw⟩

theorem branch_safe {evaluate : Evaluator} (he : SafeEvaluator p W A evaluate)
    {parts : List Value} (h : AllWithin p r parts) (hs : r.scope s) (hw : W s.id) :
    SafeStep p W A r (branch evaluate parts s) := by
  have choose {test yes no : Value} (ht : test.Within p r) (hy : yes.Within p r)
      (hn : no.Within p r) : SafeStep p W A r (do
        let v ← evaluate test s
        pure (.tail (if v.isTruthy then yes else no) s)) := by
    refine (he r test s ht hs hw).bind ?_
    intro r₁ v le₁ _
    refine Safe.pure (P := StepWithin p W) ⟨?_, le₁.1 s hs, hw⟩
    split
    · exact hy.mono le₁
    · exact hn.mono le₁
  unfold branch
  split
  · obtain ⟨ht, h⟩ := List.forall_mem_cons.mp h
    exact choose ht (h _ List.mem_cons_self) .nil
  · obtain ⟨ht, h⟩ := List.forall_mem_cons.mp h
    obtain ⟨hy, h⟩ := List.forall_mem_cons.mp h
    exact choose ht hy (h _ List.mem_cons_self)
  · exact Safe.fail trivial

theorem paramName_meets (v : Value) :
    Meets (Error.Within p r) (fun _ => True) (paramName v) := by
  unfold paramName
  split
  · exact trivial
  · exact trivial

theorem function_safe (sim : Simulation p A) {parts : List Value} (h : AllWithin p r parts)
    (hs : r.scope s) : SafeStep p W A r (function parts s) := by
  unfold function
  split
  · rename_i params body
    have hbody := h body (List.mem_cons_of_mem _ List.mem_cons_self)
    split
    · exact Safe.fail trivial
    · refine (Safe.ofExcept (P := fun _ _ => True) ?_).bind fun r₁ names le₁ _ => ?_
      · exact (Meets.mapM fun v _ => paramName_meets v).weaken (fun _ => id) fun _ _ => trivial
      · have captured : ∀ t, some s = some t → r₁.scope t :=
          fun t ht => Option.some.inj ht ▸ le₁.1 s hs
        refine (Safe.newClosure sim _ (hbody.mono le₁) captured nofun).bind fun r₂ f le₂ hf => ?_
        exact Safe.pure (P := StepWithin p W) hf
  · exact Safe.fail trivial

theorem specialForm_safe (sim : Simulation p A) {evaluate : Evaluator}
    (he : SafeEvaluator p W A evaluate) (form : SpecialForm) {parts : List Value}
    (h : AllWithin p r parts) (hs : r.scope s) (hw : W s.id) :
    SafeStep p W A r (specialForm evaluate form parts s) := by
  cases form with
  | define => exact define_safe sim he h hs hw
  | letIn => exact letIn_safe sim he h hs
  | sequence => exact sequence_safe he h hs hw
  | branch => exact branch_safe he h hs hw
  | function => exact function_safe sim h hs

theorem lookup_safe (sim : Simulation p A) (name : Text) (hs : r.scope s) :
    SafeValue p W A r (EvalM.lookup s name) := by
  refine Safe.read (fun m₁ m₂ closed agree => ?_) fun m closed => ?_
  · rw [sim.lookup closed agree name s hs]
  cases hv : m.lookup name s with
  | none => exact Safe.fail trivial
  | some v => exact Safe.pure (closed.lookup s hs hv)

theorem data_safe (sim : Simulation p A) {evaluate : Evaluator}
    (he : SafeEvaluator p W A evaluate) {e : Value} (h : e.Within p r) (hs : r.scope s)
    (hw : W s.id) : SafeValue p W A r (data evaluate e s) := by
  have items {vs : List Value} (hvs : AllWithin p r vs) :
      Safe p W A r (fun r us => AllWithin p r us) (vs.mapM fun v => evaluate v s) :=
    Safe.mapM fun v hv r' le => he r' v s ((hvs v hv).mono le) (le.1 s hs) hw
  unfold data
  split
  · exact Safe.fail (h.kind rfl)
  · exact lookup_safe sim _ hs
  · refine (items fun v hv => h.of_items? rfl v (Array.mem_toList_iff.mp hv)).bind ?_
    intro r' vs _ hvs
    exact Safe.pure (.list fun v hv => hvs v (List.mem_toArray.mp hv))
  · refine (items fun v hv => h.of_items? rfl v (Array.mem_toList_iff.mp hv)).bind ?_
    intro r' vs _ hvs
    exact Safe.pure (.vec fun v hv => hvs v (List.mem_toArray.mp hv))
  · rename_i table
    cases h with
    | map hentries =>
      have hvals : AllWithin p r table.vals.toList := by
        intro v hv
        rw [Table.toList_vals] at hv
        obtain ⟨entry, hentry, rfl⟩ := List.mem_map.mp hv
        exact hentries entry hentry
      refine Safe.bind (P := fun r (t : Table Key Value) => ∀ e ∈ t.entries, e.2.Within p r) ?_
        fun r' t _ ht => Safe.pure (.map ht)
      refine (items hvals).bind ?_
      intro r' vs _ hvs
      refine Safe.pure fun entry hentry => ?_
      exact hvs entry.2 (List.of_mem_zip hentry).2
  · exact Safe.pure h

theorem notApplicable_safe (sim : Simulation p A) {f : Value} (h : f.Within p r) :
    Safe p W A r (fun r e => Error.Within p r e) (notApplicable f) := by
  refine (Safe.readable sim h).bind ?_
  intro r₁ written _ _
  refine (Safe.ofExcept (P := fun _ _ => True) ?_).bind fun r₂ kind _ _ => ?_
  · unfold Value.kind
    split
    · exact trivial
    · rename_i hk
      exact h.kind hk
  · exact Safe.pure trivial

theorem callFrame_safe (sim : Simulation p A) (params : Params) {scope : Option Scope}
    {args : List Value} (h : AllWithin p r args) (hs : ∀ s, scope = some s → r.scope s) :
    Safe p W A r (fun r s => r.scope s ∧ W s.id) (callFrame params scope args) := by
  unfold callFrame
  split
  · refine Safe.newFrame sim hs fun e he => ?_
    rw [Params.entries_bind] at he
    have found := Assoc.mem_ofPairs he
    exact h e.2 (List.of_mem_zip found).2
  · exact Safe.fail trivial

theorem describeCall_told (sim : Simulation p A) {f : Value} (hf : f.Within p r)
    {args : List Value} (h : AllWithin p r args) : Told p A r (describeCall f args) := by
  refine (Told.readable sim hf).bind ?_
  intro callee
  refine Told.read (fun m₁ m₂ closed agree => ?_) fun m closed => ?_
  · rw [sim.printAll closed agree true (ascii ", ") h]
  exact (Told.ofExcept (closed.printedAll true (ascii ", ") h)).bind fun _ => Told.pure _

theorem call_safe (sim : Simulation p A) {evaluate : Evaluator} {apply : Applier}
    (he : SafeEvaluator p W A evaluate) (ha : SafeApplier p W A apply) {f : Value}
    (hf : f.Within p r) {args : List Value} (h : AllWithin p r args) (hs : r.scope s) :
    SafeStep p W A r (call evaluate apply f args s) := by
  have traced : Safe p W A r (fun _ _ => True) (traceCall f args s) :=
    Safe.trace sim hs ((describeCall_told sim hf h).bind fun _ => Told.pure _) trivial
  unfold call
  split
  · rename_i id op
    refine traced.bind ?_
    intro r₁ _ le₁ _
    cases hf with
    | native hop =>
      refine (op.run_safe sim he ha hop (AllWithin.mono h le₁)).bind ?_
      intro r₂ v le₂ hv
      have returned : Safe p W A r₂ (fun _ _ => True) (traceReturn op v s) :=
        Safe.trace sim ((le₁.trans le₂).1 s hs)
          ((Told.readable sim hv).bind fun _ => Told.pure _) trivial
      refine returned.bind ?_
      intro r₃ _ le₃ _
      exact Safe.pure (P := StepWithin p W) (hv.mono le₃)
  · rename_i id params body captured
    refine traced.bind ?_
    intro r₁ _ le₁ _
    cases hf with
    | closure hbody hcaptured _ =>
      refine (callFrame_safe sim params (AllWithin.mono h le₁)
        fun t ht => le₁.1 t (hcaptured t ht)).bind ?_
      rintro r₂ inner le₂ ⟨hinner, hwrite⟩
      exact Safe.pure (P := StepWithin p W) ⟨hbody.mono (le₁.trans le₂), hinner, hwrite⟩
  · exact (notApplicable_safe sim hf).bind fun _ _ _ he => Safe.fail he

theorem step_safe (sim : Simulation p A) {evaluate : Evaluator} {apply : Applier}
    (he : SafeEvaluator p W A evaluate) (ha : SafeApplier p W A apply) {e : Value}
    (h : e.Within p r) (hs : r.scope s) (hw : W s.id) :
    SafeStep p W A r (step evaluate apply e s) := by
  have traced : Safe p W A r (fun _ _ => True) (EvalM.trace s do
      let text ← EvalM.readable e
      pure (ascii "eval: " ++ text)) :=
    Safe.trace sim hs ((Told.readable sim h).bind fun _ => Told.pure _) trivial
  unfold step
  refine traced.bind ?_
  intro r₁ _ le₁ _
  have h₁ := h.mono le₁
  have hs₁ := le₁.1 s hs
  split
  · exact Safe.pure (P := StepWithin p W) h₁
  · rename_i head parts
    have hitems : AllWithin p r₁ (head :: parts) := by
      intro v hv
      exact h₁.of_items? rfl v (List.mem_toArray.mpr hv)
    obtain ⟨hhead, hparts⟩ := List.forall_mem_cons.mp hitems
    split
    · exact specialForm_safe sim he _ hparts hs₁ hw
    · refine (he r₁ head s hhead hs₁ hw).bind ?_
      intro r₂ f le₂ hf
      refine (Safe.mapM fun v hv r' le => ?_).bind fun r₃ args le₃ hargs => ?_
      · exact he r' v s ((hparts v hv).mono (le₂.trans le)) ((le₂.trans le).1 s hs₁) hw
      · exact call_safe sim he ha (hf.mono le₃) hargs ((le₂.trans le₃).1 s hs₁)
  · refine (data_safe sim he h₁ hs₁ hw).bind ?_
    intro r₂ v le₂ hv
    exact Safe.pure (P := StepWithin p W) hv

theorem guarded_safe {run : Evaluator} (h : SafeEvaluator p W A run) :
    SafeEvaluator p W A (guarded run) := by
  intro r e s he hs hw
  unfold guarded
  split
  · exact Safe.fail (he.kind rfl)
  · exact h r _ s he hs hw

/-- Both by induction on the steps granted, which nested evaluations have fewer of. -/
theorem loop_apply_safe (sim : Simulation p A) (fuel : Nat) :
    SafeEvaluator p W A (loop fuel) ∧ SafeApplier p W A (apply fuel) := by
  induction fuel with
  | zero =>
    constructor
    · intro r e s _ _ _
      exact Safe.outOfFuel
    · intro r f args _ _
      exact Safe.outOfFuel
  | succ fuel ih =>
    obtain ⟨hloop, happly⟩ := ih
    have hguarded := guarded_safe hloop
    constructor
    · intro r e s he hs hw
      rw [loop]
      refine (step_safe sim hguarded happly he hs hw).bind ?_
      intro r₁ next le₁ hnext
      cases next with
      | done v => exact Safe.pure hnext
      | tail e' s' => exact hloop r₁ e' s' hnext.1 hnext.2.1 hnext.2.2
    · intro r f args hf hargs
      cases f with
      | native id op =>
        rw [apply]
        cases hf with
        | native hop => exact op.run_safe sim hguarded happly hop hargs
      | closure id params body captured =>
        rw [apply]
        cases hf with
        | closure hbody hcaptured _ =>
          refine (callFrame_safe sim params hargs hcaptured).bind ?_
          rintro r₁ inner le₁ ⟨hinner, hwrite⟩
          exact hguarded r₁ body inner (hbody.mono le₁) hinner hwrite
      | _ =>
        rw [apply]
        · exact (notApplicable_safe sim hf).bind fun _ _ _ he => Safe.fail he
        all_goals simp

end

end Eval

end MiniLisp
