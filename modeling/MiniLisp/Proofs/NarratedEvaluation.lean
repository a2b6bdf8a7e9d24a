import MiniLisp.Proofs.Narration

/-! The loop tells a native call before it executes the native and the return after it, so the two
enclose all that is told meanwhile. Nothing is told of the return of a closure, and calls that
natives make are not told at all. -/
namespace MiniLisp

open EvalM (Leaves)

section

variable {evals : Scope → Prop} {r : Region}

abbrev NarratesValue (evals : Scope → Prop) (r : Region) (x : EvalM Value) (underway : Underway) :
    Prop := Narrates evals r (fun r v => v.Within (.strict evals) r) x underway

def NarratingEvaluator (evals : Scope → Prop) (evaluate : Evaluator)
    (inEvaluation : Value → Scope → Underway) : Prop :=
  ∀ r e s, e.Within (.strict evals) r → r.scope s →
    NarratesValue evals r (evaluate e s) (inEvaluation e s)

def NarratingApplier (evals : Scope → Prop) (apply : Applier)
    (inCall : Value → List Value → Underway) : Prop :=
  ∀ r f args, f.Within (.strict evals) r → AllWithin (.strict evals) r args →
    NarratesValue evals r (apply f args) (inCall f args)

/-- The check of an argument. -/
theorem Narrates.ofExcept {α : Type} {P : Region → α → Prop} {o : Except Error α}
    (h : Meets (Error.Within (.strict evals) r) (P r) o) :
    Narrates evals r P (EvalM.ofExcept o) Underway.idle :=
  .of_leaves (.ofExcept o) fun _ => Safe.ofExcept h

variable {evaluate : Evaluator} {apply : Applier}
variable {inEvaluation : Value → Scope → Underway} {inCall : Value → List Value → Underway}

theorem CallOp.run_narrates (ha : NarratingApplier evals apply inCall) (op : CallOp)
    {args : List Value} (h : AllWithin (.strict evals) r args) :
    NarratesValue evals r (op.run apply args) (Underway.callOp apply inCall op args) := by
  cases op with
  | apply =>
    rcases args with _ | ⟨f, _ | ⟨a, rest⟩⟩
    · exact .fail trivial
    · exact .fail trivial
    · obtain ⟨hf, others⟩ := List.forall_mem_cons.mp h
      refine (Narrates.ofExcept (Value.functionArg_meets _ hf)).bind fun r₁ f' le₁ hf' => ?_
      refine (Narrates.ofExcept (CallOp.spread_meets _ (AllWithin.mono others le₁) (by simp))).bind
        fun r₂ vs le₂ hvs => ?_
      exact ha r₂ f' vs (hf'.mono le₂) hvs
  | map =>
    rcases args with _ | ⟨f, _ | ⟨s, _ | ⟨_, _⟩⟩⟩
    · exact .fail trivial
    · exact .fail trivial
    · obtain ⟨hf, others⟩ := List.forall_mem_cons.mp h
      refine (Narrates.ofExcept (Value.functionArg_meets _ hf)).bind fun r₁ f' le₁ hf' => ?_
      have hs := (others s List.mem_cons_self).mono le₁
      refine (Narrates.ofExcept (P := fun r (items : Array Value) =>
        ∀ u ∈ items, u.Within (.strict evals) r) (Value.itemsArg_meets _ hs)).bind
        fun r₂ items le₂ hitems => ?_
      refine (Narrates.mapM fun v hv r₃ le₃ => ?_).bind_pure fun r₃ vs le₃ hvs =>
        .list fun v hv => hvs v (List.mem_toArray.mp hv)
      refine ha r₃ f' [v] (hf'.mono (le₂.trans le₃)) fun u hu => ?_
      exact List.mem_singleton.mp hu ▸ (hitems v (Array.mem_toList_iff.mp hv)).mono le₃
    · exact .fail trivial
  | swap =>
    rcases args with _ | ⟨a, _ | ⟨f, extra⟩⟩
    · exact .fail trivial
    · exact .fail trivial
    · obtain ⟨hcell, others⟩ := List.forall_mem_cons.mp h
      obtain ⟨hf, hextra⟩ := List.forall_mem_cons.mp others
      refine (Narrates.ofExcept (Value.cellArg_meets _ hcell)).bind fun r₁ c le₁ hc => ?_
      refine (Narrates.ofExcept (Value.functionArg_meets _ (hf.mono le₁))).bind
        fun r₂ f' le₂ hf' => ?_
      refine Narrates.read (fun _ _ => rfl) fun m watched => ?_
      have hc₂ := le₂.2 c hc
      have hargs : AllWithin (.strict evals) r₂ (m.cellContent c :: extra) :=
        List.forall_mem_cons.mpr
          ⟨watched.closed.content hc₂, AllWithin.mono hextra (le₁.trans le₂)⟩
      refine (ha r₂ f' _ hf' hargs).bind fun r₃ new le₃ hnew => ?_
      refine .of_leaves ((EvalM.Leaves.setCell c new).bind fun _ => .pure new) fun sim => ?_
      exact (Safe.setCell sim (P := fun _ _ => True) trivial (le₃.2 c hc₂) hnew).bind
        fun _ _ le₄ _ => Safe.pure (hnew.mono le₄)

theorem HostOp.run_narrates (ha : NarratingApplier evals apply inCall) (name : Text) (op : HostOp)
    {args : List Value} (h : AllWithin (.strict evals) r args) :
    NarratesValue evals r (op.run apply args)
      (Underway.native apply inEvaluation inCall (.host name op) args) := by
  cases op with
  | list => exact .pure (.list fun v hv => h v (List.mem_toArray.mp hv))
  | collect => exact .pure .nil
  | call =>
    cases args with
    | nil => exact .fail trivial
    | cons f args =>
      obtain ⟨hf, others⟩ := List.forall_mem_cons.mp h
      exact ha r f args hf others

theorem Native.run_narrates (he : NarratingEvaluator evals evaluate inEvaluation)
    (ha : NarratingApplier evals apply inCall) {op : Native}
    (hop : ∀ s, op = .evalIn s → evals s) {args : List Value}
    (h : AllWithin (.strict evals) r args) :
    NarratesValue evals r (op.run evaluate apply args)
      (Underway.native apply inEvaluation inCall op args) := by
  cases op with
  | data op => exact .ofExcept (op.run_stays h)
  | cell op => exact .of_leaves (op.run_leaves args) fun sim => op.run_safe sim h
  | text op => exact .of_leaves (op.run_leaves args) fun sim => op.run_safe sim h
  | call op => exact op.run_narrates ha h
  | throw => exact .of_leaves (throwValue_leaves args) fun sim => throwValue_safe sim h
  | slurp => exact .of_leaves (slurpFile_leaves args) fun sim => slurpFile_safe sim h
  | evalIn scope =>
    rcases args with _ | ⟨e, _ | ⟨_, _⟩⟩
    · exact .fail trivial
    · intro m watched
      exact he r e scope (h e List.mem_cons_self) (watched.closed.evals (hop scope rfl)) m watched
    · exact .fail trivial
  | host name op => exact op.run_narrates ha name h

namespace Eval

variable {s : Scope}

abbrev NarratesStep (evals : Scope → Prop) (r : Region) (x : EvalM Step) (underway : Underway) :
    Prop := Narrates evals r (StepWithin (.strict evals) anywhere) x underway

theorem define_narrates (he : NarratingEvaluator evals evaluate inEvaluation) {parts : List Value}
    (h : AllWithin (.strict evals) r parts) (hs : r.scope s) :
    NarratesStep evals r (define evaluate parts s)
      (Underway.specialForm evaluate inEvaluation .define parts s) := by
  rcases parts with _ | ⟨name, _ | ⟨e, _ | ⟨_, _⟩⟩⟩
  · exact .fail trivial
  · cases name <;> exact .fail trivial
  · cases name with
    | sym name =>
      have hv := h e (List.mem_cons_of_mem _ List.mem_cons_self)
      have other := not_marksNative (ascii "def! ") (by decide) (by decide) name
      refine Narrates.trace hs (fun m _ => ⟨_, .pure m _, other⟩) ?_
      refine (he r e s hv hs).bind fun r₁ v le₁ hv => ?_
      refine .of_leaves ((Leaves.define s name v).bind fun _ => .pure _) fun sim => ?_
      exact (Safe.define sim (P := fun _ _ => True) trivial (le₁.1 s hs) trivial hv).bind
        fun _ _ le₂ _ => Safe.pure (P := StepWithin _ anywhere) (hv.mono le₂)
    | _ => exact .fail trivial
  · cases name <;> exact .fail trivial

theorem bindOne_narrates (he : NarratingEvaluator evals evaluate inEvaluation) {b : Value × Value}
    (hb : b.2.Within (.strict evals) r) (hs : r.scope s) :
    Narrates evals r (fun _ _ => True) (bindOne evaluate s b)
      (Underway.binding evaluate inEvaluation s b) := by
  obtain ⟨name, e⟩ := b
  cases name with
  | sym name =>
    refine (he r e s hb hs).bind fun r₁ v le₁ hv => ?_
    exact .of_leaves (Leaves.define s name v) fun sim =>
      Safe.define sim trivial (le₁.1 s hs) trivial hv
  | _ => exact .fail trivial

theorem letIn_narrates (he : NarratingEvaluator evals evaluate inEvaluation) {parts : List Value}
    (h : AllWithin (.strict evals) r parts) (hs : r.scope s) :
    NarratesStep evals r (letIn evaluate parts s)
      (Underway.letIn evaluate inEvaluation parts s) := by
  rcases parts with _ | ⟨bindings, _ | ⟨body, _ | ⟨_, _⟩⟩⟩
  · exact .fail trivial
  · exact .fail trivial
  · have hbindings := h bindings List.mem_cons_self
    have hbody := h body (List.mem_cons_of_mem _ List.mem_cons_self)
    unfold letIn Underway.letIn
    dsimp only
    cases found : bindings.items? with
    | none => exact .fail trivial
    | some items =>
      dsimp only
      split
      · refine (Narrates.newFrame hs fun e he => by simp at he).bind fun r₁ inner le₁ hinner => ?_
        have other := not_marksNative (ascii "let* with ") (by decide) (by decide)
        refine Narrates.trace (le₁.1 s hs) (fun m _ => ⟨_, .pure m _, ?_⟩) ?_
        · rw [ByteArray.append_assoc]
          exact other _
        · refine (Narrates.forM fun b hb r₂ le₂ => ?_).bind_pure fun r₂ _ le₂ _ =>
            ⟨hbody.mono (le₁.trans le₂), le₂.1 inner hinner, trivial⟩
          have hvalue := hbindings.of_items? found b.2
            (Array.mem_toList_iff.mp (mem_of_mem_bindingPairs hb))
          exact bindOne_narrates he (hvalue.mono (le₁.trans le₂)) (le₂.1 inner hinner)
      · exact .fail trivial
  · exact .fail trivial

theorem sequence_narrates (he : NarratingEvaluator evals evaluate inEvaluation)
    {parts : List Value} (h : AllWithin (.strict evals) r parts) (hs : r.scope s) :
    NarratesStep evals r (sequence evaluate parts s)
      (Underway.specialForm evaluate inEvaluation .sequence parts s) := by
  have last : (parts.getLast?.getD .nil).Within (.strict evals) r := by
    cases hp : parts.getLast? with
    | none => exact .nil
    | some e => exact h e (List.mem_of_getLast? hp)
  refine (Narrates.forM fun e hin r₁ le₁ => ?_).bind_pure fun r₁ _ le₁ _ =>
    ⟨last.mono le₁, le₁.1 s hs, trivial⟩
  have within := (h e (List.dropLast_subset _ hin)).mono le₁
  exact (he r₁ e s within (le₁.1 s hs)).map fun _ _ _ _ => trivial

theorem branch_narrates (he : NarratingEvaluator evals evaluate inEvaluation)
    {parts : List Value} (h : AllWithin (.strict evals) r parts) (hs : r.scope s) :
    NarratesStep evals r (branch evaluate parts s)
      (Underway.specialForm evaluate inEvaluation .branch parts s) := by
  have choose {test yes no : Value} (ht : test.Within (.strict evals) r)
      (hy : yes.Within (.strict evals) r) (hn : no.Within (.strict evals) r) :
      NarratesStep evals r (do
        let v ← evaluate test s
        pure (.tail (if v.isTruthy then yes else no) s)) (inEvaluation test s) := by
    refine (he r test s ht hs).bind_pure fun r₁ v le₁ _ => ⟨?_, le₁.1 s hs, trivial⟩
    split
    · exact hy.mono le₁
    · exact hn.mono le₁
  rcases parts with _ | ⟨test, _ | ⟨yes, _ | ⟨no, _ | ⟨_, _⟩⟩⟩⟩
  · exact .fail trivial
  · exact .fail trivial
  · obtain ⟨ht, h⟩ := List.forall_mem_cons.mp h
    exact choose ht (h _ List.mem_cons_self) .nil
  · obtain ⟨ht, h⟩ := List.forall_mem_cons.mp h
    obtain ⟨hy, h⟩ := List.forall_mem_cons.mp h
    exact choose ht hy (h _ List.mem_cons_self)
  · exact .fail trivial

theorem function_leaves (parts : List Value) (s : Scope) :
    Leaves Machine.tracing (function parts s) := by
  unfold function
  split
  · split
    · exact .fail _
    · exact (Leaves.ofExcept _).bind fun _ => (Leaves.newClosure _ _ _).bind fun _ => .pure _
  · exact .fail _

theorem specialForm_narrates (he : NarratingEvaluator evals evaluate inEvaluation)
    (form : SpecialForm) {parts : List Value} (h : AllWithin (.strict evals) r parts)
    (hs : r.scope s) : NarratesStep evals r (specialForm evaluate form parts s)
      (Underway.specialForm evaluate inEvaluation form parts s) := by
  cases form with
  | define => exact define_narrates he h hs
  | letIn => exact letIn_narrates he h hs
  | sequence => exact sequence_narrates he h hs
  | branch => exact branch_narrates he h hs
  | function => exact .of_leaves (function_leaves parts s) fun sim => function_safe sim h hs

theorem data_narrates (he : NarratingEvaluator evals evaluate inEvaluation) {e : Value}
    (h : e.Within (.strict evals) r) (hs : r.scope s) :
    NarratesValue evals r (data evaluate e s) (Underway.data evaluate inEvaluation e s) := by
  have items {vs : List Value} (hvs : AllWithin (.strict evals) r vs) :
      Narrates evals r (fun r us => AllWithin (.strict evals) r us)
        (vs.mapM fun v => evaluate v s)
        (Underway.each (fun v => evaluate v s) (fun v => inEvaluation v s) vs) :=
    Narrates.mapM fun v hv r' le => he r' v s ((hvs v hv).mono le) (le.1 s hs)
  cases e with
  | null => exact .fail (h.kind rfl)
  | sym name => exact .of_leaves (Leaves.lookup s name) fun sim => lookup_safe sim name hs
  | list xs =>
    refine (items fun v hv => h.of_items? rfl v (Array.mem_toList_iff.mp hv)).bind_pure ?_
    exact fun r' vs _ hvs => .list fun v hv => hvs v (List.mem_toArray.mp hv)
  | vec xs =>
    refine (items fun v hv => h.of_items? rfl v (Array.mem_toList_iff.mp hv)).bind_pure ?_
    exact fun r' vs _ hvs => .vec fun v hv => hvs v (List.mem_toArray.mp hv)
  | map table =>
    cases h with
    | map hentries =>
      have hvals : AllWithin (.strict evals) r table.vals.toList := by
        intro v hv
        rw [Table.toList_vals] at hv
        obtain ⟨entry, hentry, rfl⟩ := List.mem_map.mp hv
        exact hentries entry hentry
      refine Narrates.bind_pure (P := fun r (t : Table Key Value) =>
        ∀ e ∈ t.entries, e.2.Within (.strict evals) r) ?_ fun r' t _ ht => .map ht
      refine (items hvals).bind_pure fun r' vs _ hvs entry hentry => ?_
      exact hvs entry.2 (List.of_mem_zip hentry).2
  | _ => exact .pure h

theorem callFrame_narrates (params : Params) {captured : Scope} {args : List Value}
    (h : AllWithin (.strict evals) r args) (hs : r.scope captured) :
    Narrates evals r (fun r s => r.scope s) (callFrame params (some captured) args)
      Underway.idle := by
  unfold callFrame
  split
  · refine .newFrame hs fun e he => ?_
    rw [Params.entries_bind] at he
    have found := Assoc.mem_ofPairs he
    exact h e.2 (List.of_mem_zip found).2
  · exact .fail trivial

/-- The text of a call names the function and shows the arguments. -/
theorem describeCall_text {m : Machine} (watched : m.Watched evals r) {f : Value}
    (hf : f.Within (.strict evals) r) {args : List Value} (h : AllWithin (.strict evals) r args) :
    ∃ callee shown, m.print true f = .ok callee ∧
      (describeCall f args).Says m (callee ++ ascii "(" ++ shown ++ ascii ")") := by
  obtain ⟨callee, printed, said⟩ := watched.readable hf
  obtain ⟨shown, all⟩ := (watched.closed.printedAll true (ascii ", ") h).text id
  have listed : (do
      let parts ← EvalM.ofExcept (printAll m.cells true (ascii ", ") args)
      pure (callee ++ ascii "(" ++ parts ++ ascii ")")).Says m
        (callee ++ ascii "(" ++ shown ++ ascii ")") := (EvalM.Says.printed all).bind (.pure m _)
  exact ⟨callee, shown, printed, said.bind fun sink => listed sink⟩

theorem callNative_narrates (he : NarratingEvaluator evals evaluate inEvaluation)
    (ha : NarratingApplier evals apply inCall) {id : FunId} {op : Native}
    (hf : (Value.native id op).Within (.strict evals) r) {args : List Value}
    (h : AllWithin (.strict evals) r args) (hs : r.scope s) :
    NarratesStep evals r (call evaluate apply (.native id op) args s)
      (Underway.call apply inEvaluation inCall (.native id op) args) := by
  intro m watched
  have hop : ∀ s, op = .evalIn s → evals s := by
    cases hf with
    | native hop => exact hop
  -- the call
  obtain ⟨callee, shown, printed, said⟩ := describeCall_text watched hf h
  cases printed
  obtain ⟨told, called⟩ := EvalM.Tells.trace watched.silent (watched.flag hs)
    (said.bind (f := fun call => pure (ascii "call: " ++ call)) (.pure m _))
  rw [callText_eq] at told
  -- what happens inside
  obtain ⟨inner, r₁, le₁, within, watched₁, recounts⟩ :=
    Native.run_narrates he ha hop h m watched
  have opened := nativeMarks_of_marked (marksNative_callText op.name shown)
  rw [call, traceCall, EvalM.exec_bind_ok called]
  rcases run : (op.run evaluate apply args).exec m with ⟨stop | v, m₁⟩
  · rw [run] at watched₁ recounts
    rw [EvalM.exec_bind_error run]
    refine ⟨[callText op.name shown] ++ inner, r₁, le₁, told.bind called (within.error run _),
      watched₁, ?_⟩
    show LeftOpen (nativeMarks ([callText op.name shown] ++ inner)) _
    rw [nativeMarks_append, opened]
    exact LeftOpen.enclosed recounts
  · rw [run] at watched₁ recounts
    obtain ⟨closed, hv⟩ := recounts
    -- the return
    obtain ⟨text, -, shows⟩ := watched₁.readable hv
    obtain ⟨told₁, returned⟩ := EvalM.Tells.trace watched₁.silent (watched₁.flag (le₁.1 s hs))
      (shows.bind (f := fun text => pure (ascii "return: " ++ op.name ++ ascii " => " ++ text))
        (.pure m₁ (returnText op.name text)))
    have back := nativeMarks_of_marked (marksNative_returnText op.name text)
    rw [EvalM.exec_bind_ok run, traceReturn, EvalM.exec_bind_ok returned]
    refine ⟨[callText op.name shown] ++ (inner ++ ([returnText op.name text] ++ [])), r₁, le₁,
      told.bind called (within.bind run (told₁.bind returned (.pure _ m₁))), watched₁, ?_, hv⟩
    rw [nativeMarks_append, opened, nativeMarks_append, List.append_nil, back]
    exact .call closed .nothing

theorem refusal_narrates {α : Type} {P : Region → α → Prop} {f : Value}
    (hf : f.Within (.strict evals) r) :
    Narrates evals r P (do EvalM.fail (← notApplicable f)) Underway.idle := by
  refine .of_leaves ((notApplicable_leaves f).bind fun _ => .fail _) fun sim => ?_
  exact (notApplicable_safe sim hf).bind fun _ _ _ he => Safe.fail he

theorem call_narrates (he : NarratingEvaluator evals evaluate inEvaluation)
    (ha : NarratingApplier evals apply inCall) {f : Value} (hf : f.Within (.strict evals) r)
    {args : List Value} (h : AllWithin (.strict evals) r args) (hs : r.scope s) :
    NarratesStep evals r (call evaluate apply f args s)
      (Underway.call apply inEvaluation inCall f args) := by
  cases f with
  | native id op => exact callNative_narrates he ha hf h hs
  | closure id params body captured =>
    refine Narrates.trace hs (fun m watched => ?_) ?_
    · obtain ⟨callee, shown, printed, said⟩ := describeCall_text watched hf h
      cases printed
      have other := not_marksNative (ascii "call: #<closure>") (by decide) (by decide)
      refine ⟨_, said.bind (.pure m _), ?_⟩
      exact other (ascii "(" ++ shown ++ ascii ")")
    · cases hf with
      | closure hbody hcaptured attached =>
        cases captured with
        | none => exact (attached rfl).elim
        | some t =>
          exact (callFrame_narrates params h (hcaptured t rfl)).bind_pure fun r₁ inner le₁ hinner =>
            ⟨hbody.mono le₁, hinner, trivial⟩
  | _ => exact refusal_narrates hf

theorem step_narrates (he : NarratingEvaluator evals evaluate inEvaluation)
    (ha : NarratingApplier evals apply inCall) {e : Value} (h : e.Within (.strict evals) r)
    (hs : r.scope s) : NarratesStep evals r (step evaluate apply e s)
      (Underway.step evaluate apply inEvaluation inCall e s) := by
  refine Narrates.trace hs (fun m watched => ?_) ?_
  · obtain ⟨t, -, said⟩ := watched.readable h
    have other := not_marksNative (ascii "eval: ") (by decide) (by decide) t
    exact ⟨_, said.bind (.pure m _), other⟩
  have evaluated {e : Value} (h : e.Within (.strict evals) r) :
      NarratesStep evals r (do let v ← data evaluate e s; pure (.done v))
        (Underway.data evaluate inEvaluation e s) :=
    (data_narrates he h hs).bind_pure fun _ _ _ hv => hv
  cases e with
  | list xs =>
    rcases xs with ⟨_ | ⟨head, parts⟩⟩
    · exact .pure h
    · obtain ⟨hhead, hparts⟩ := List.forall_mem_cons.mp (Value.Within.list_iff.mp h)
      unfold Underway.step
      dsimp only
      cases SpecialForm.ofHead? head with
      | some form => exact specialForm_narrates he form hparts hs
      | none =>
        refine (he r head s hhead hs).bind fun r₁ f le₁ hf => ?_
        refine (Narrates.mapM fun v hv r' le => ?_).bind fun r₂ args le₂ hargs => ?_
        · exact he r' v s ((hparts v hv).mono (le₁.trans le)) ((le₁.trans le).1 s hs)
        · exact call_narrates he ha (hf.mono le₂) hargs ((le₁.trans le₂).1 s hs)
  | _ => exact evaluated h

theorem guarded_narrates {run : Evaluator} {inRun : Value → Scope → Underway}
    (h : NarratingEvaluator evals run inRun) :
    NarratingEvaluator evals (guarded run) (Underway.guarded inRun) := by
  intro r e s he hs
  cases e with
  | null => exact .fail (he.kind rfl)
  | _ => exact h r _ s he hs

/-- Both by induction on the steps granted, which nested evaluations have fewer of. -/
theorem loop_apply_narrates (fuel : Nat) :
    NarratingEvaluator evals (loop fuel) (Underway.loop fuel) ∧
      NarratingApplier evals (Eval.apply fuel) (Underway.apply fuel) := by
  induction fuel with
  | zero =>
    constructor
    · intro r e s _ _
      exact .of_leaves .outOfFuel fun _ => Safe.outOfFuel
    · intro r f args _ _
      exact .of_leaves .outOfFuel fun _ => Safe.outOfFuel
  | succ fuel ih =>
    obtain ⟨hloop, happly⟩ := ih
    have hguarded := guarded_narrates hloop
    constructor
    · intro r e s he hs
      refine (step_narrates hguarded happly he hs).bind fun r₁ next le₁ hnext => ?_
      cases next with
      | done v => exact .pure hnext
      | tail e' s' => exact hloop r₁ e' s' hnext.1 hnext.2.1
    · intro r f args hf hargs
      cases f with
      | native id op =>
        cases hf with
        | native hop => exact op.run_narrates hguarded happly hop hargs
      | closure id params body captured =>
        cases hf with
        | closure hbody hcaptured attached =>
          cases captured with
          | none => exact (attached rfl).elim
          | some t =>
            exact (callFrame_narrates params hargs (hcaptured t rfl)).bind
              fun r₁ inner le₁ hinner => hguarded r₁ body inner (hbody.mono le₁) hinner
      | _ => exact refusal_narrates hf

end Eval

end

end MiniLisp
