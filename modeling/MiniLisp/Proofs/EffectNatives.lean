import MiniLisp.Native.Effect
import MiniLisp.Proofs.DataNatives
import MiniLisp.Proofs.Printing

/-! Natives that use cells, print or call functions are safe if the ways to evaluate and to apply
that they are given are. -/
namespace MiniLisp

abbrev SafeValue (p : Policy) (W : FrameId → Prop) (A : Agreement) (r : Region)
    (x : EvalM Value) : Prop := Safe p W A r (fun r v => v.Within p r) x

namespace Safe

variable {α : Type} {p : Policy} {W : FrameId → Prop} {A : Agreement} {r : Region}

theorem mapM {f : α → EvalM Value} {xs : List α}
    (h : ∀ a ∈ xs, ∀ r', r ≤ r' → SafeValue p W A r' (f a)) :
    Safe p W A r (fun r vs => AllWithin p r vs) (xs.mapM f) := by
  induction xs generalizing r with
  | nil => exact pure fun v hv => absurd hv List.not_mem_nil
  | cons a xs ih =>
    rw [List.mapM_cons]
    refine (h a List.mem_cons_self r (le_refl r)).bind ?_
    intro r₁ v le₁ hv
    have others : ∀ b ∈ xs, ∀ r', r₁ ≤ r' → SafeValue p W A r' (f b) := by
      intro b hb r' le
      exact h b (List.mem_cons_of_mem a hb) r' (le₁.trans le)
    refine (ih others).bind ?_
    intro r₂ vs le₂ hvs
    exact pure (List.forall_mem_cons.mpr ⟨hv.mono le₂, hvs⟩)

theorem forM {f : α → EvalM PUnit} {xs : List α}
    (h : ∀ a ∈ xs, ∀ r', r ≤ r' → Safe p W A r' (fun _ _ => True) (f a)) :
    Safe p W A r (fun _ _ => True) (xs.forM f) := by
  induction xs generalizing r with
  | nil => exact pure trivial
  | cons a xs ih =>
    show Safe p W A r (fun _ _ => True) (f a >>= fun _ => xs.forM f)
    refine (h a List.mem_cons_self r (le_refl r)).bind ?_
    intro r₁ _ le₁ _
    refine ih ?_
    intro b hb r' le
    exact h b (List.mem_cons_of_mem a hb) r' (le₁.trans le)

theorem foldlM {f : Value → α → EvalM Value} {xs : List α} {v : Value} (hv : v.Within p r)
    (h : ∀ a ∈ xs, ∀ r', r ≤ r' → ∀ v, v.Within p r' → SafeValue p W A r' (f v a)) :
    SafeValue p W A r (xs.foldlM f v) := by
  induction xs generalizing r v with
  | nil => exact pure hv
  | cons a xs ih =>
    rw [List.foldlM_cons]
    refine (h a List.mem_cons_self r (le_refl r) v hv).bind ?_
    intro r₁ u le₁ hu
    refine ih hu ?_
    intro b hb r' le
    exact h b (List.mem_cons_of_mem a hb) r' (le₁.trans le)

/-- Natives evaluate in scopes of the region that may be written to. -/
theorem of_evals {P : Region → α → Prop} {x : EvalM α} {s : Scope} (hs : p.evals s)
    (h : r.scope s → W s.id → Safe p W A r P x) : Safe p W A r P x := by
  intro m₁ m₂ closed grants agree
  exact h (closed.evals hs) (grants.evals hs) m₁ m₂ closed grants agree

end Safe

def SafeEvaluator (p : Policy) (W : FrameId → Prop) (A : Agreement)
    (evaluate : Value → Scope → EvalM Value) : Prop :=
  ∀ r e s, e.Within p r → r.scope s → W s.id → SafeValue p W A r (evaluate e s)

/-- A function may be applied wherever its arguments are. Its body runs in a frame of its own. -/
def SafeApplier (p : Policy) (W : FrameId → Prop) (A : Agreement) (apply : Applier) : Prop :=
  ∀ r f args, f.Within p r → AllWithin p r args → SafeValue p W A r (apply f args)

section

variable {p : Policy} {W : FrameId → Prop} {A : Agreement} {r : Region}

namespace Safe

theorem newNative (sim : Simulation p A) {op : Native} (hop : ∀ s, op = .evalIn s → p.evals s) :
    SafeValue p W A r (EvalM.newFunction op) :=
  (newFunction sim (P := fun _ _ => True) fun _ => trivial).bind fun _ _ _ _ =>
    pure (.native hop)

theorem newClosure (sim : Simulation p A) (params : Params) {body : Value} {scope : Option Scope}
    (hb : body.Within p r) (hs : ∀ s, scope = some s → r.scope s)
    (hd : scope = none → p.detached) :
    SafeValue p W A r (EvalM.newClosure params body scope) :=
  (newFunction sim (P := fun _ _ => True) fun _ => trivial).bind fun _ _ le _ =>
    pure (.closure (hb.mono le) (fun s h => le.1 s (hs s h)) hd)

theorem readable (sim : Simulation p A) {v : Value} (hv : v.Within p r) :
    Safe p W A r (fun _ _ => True) (EvalM.readable v) :=
  of_told (Told.readable sim hv) fun _ => trivial

variable {v : Value}

theorem cellArg (who : Text) (h : v.Within p r) :
    Safe p W A r (fun r c => r.cell c) (EvalM.ofExcept (v.cellArg who)) :=
  ofExcept (v.cellArg_meets who h)

theorem functionArg (who : Text) (h : v.Within p r) :
    SafeValue p W A r (EvalM.ofExcept (v.functionArg who)) :=
  ofExcept (v.functionArg_meets who h)

theorem itemsArg (who : Text) (h : v.Within p r) :
    Safe p W A r (fun r (xs : Array Value) => AllWithin p r xs.toList)
      (EvalM.ofExcept (v.itemsArg who)) := by
  refine ofExcept ((v.itemsArg_meets who h).weaken (fun _ => id) fun xs hxs => ?_)
  intro u hu
  exact hxs u (Array.mem_toList_iff.mp hu)

end Safe

theorem CellOp.run_safe (sim : Simulation p A) (op : CellOp) {args : List Value}
    (h : AllWithin p r args) : SafeValue p W A r (op.run args) := by
  unfold run
  split
  · exact Safe.newCell sim (h _ List.mem_cons_self)
  · refine (Safe.cellArg _ (h _ List.mem_cons_self)).bind ?_
    intro r' c le hc
    refine Safe.read (fun m₁ m₂ _ agree => congrArg _ (sim.content agree hc)) fun m closed => ?_
    exact Safe.pure (closed.content hc)
  · refine (Safe.cellArg _ (h _ List.mem_cons_self)).bind ?_
    intro r' c le hc
    have hv := (h _ (List.mem_cons_of_mem _ List.mem_cons_self)).mono le
    refine (Safe.setCell sim (P := fun _ _ => True) trivial hc hv).bind ?_
    intro _ _ le' _
    exact Safe.pure (hv.mono le')
  · exact Safe.fail trivial
  · exact Safe.fail trivial
  · exact Safe.fail trivial

theorem TextOp.run_safe (sim : Simulation p A) (op : TextOp) {args : List Value}
    (h : AllWithin p r args) : SafeValue p W A r (op.run args) := by
  unfold run
  refine Safe.read (fun m₁ m₂ closed agree => ?_) fun m closed => ?_
  · rw [sim.printAll closed agree op.isReadable op.separator h]
  have printed := closed.printedAll op.isReadable op.separator h
  refine (Safe.ofExcept (P := fun _ _ => True) ?_).bind fun r' text _ _ => ?_
  · exact printed.weaken (fun e he => Printed.unraised (e := e) he r) fun _ => id
  · split
    · exact (Safe.write sim (P := fun _ _ => True) trivial _).bind fun _ _ _ _ => Safe.pure .nil
    · exact Safe.pure (.str text)

theorem CallOp.spread_meets (who : Text) {args : List Value} (h : AllWithin p r args)
    (some_arg : args ≠ []) :
    Meets (Error.Within p r) (AllWithin p r) (spread who args) := by
  have last : (args.getLast?.getD .null).Within p r := by
    rw [List.getLast?_eq_some_getLast some_arg]
    exact h _ (List.getLast_mem some_arg)
  refine (Value.itemsArg_meets who last).bind ?_
  intro xs hs v hv
  rcases List.mem_append.mp hv with hv | hv
  · exact h v (List.dropLast_subset _ hv)
  · exact hs v (Array.mem_toList_iff.mp hv)

theorem Safe.spread (who : Text) {args : List Value} (h : AllWithin p r args)
    (some_arg : args ≠ []) :
    Safe p W A r (fun r vs => AllWithin p r vs) (EvalM.ofExcept (CallOp.spread who args)) :=
  Safe.ofExcept (CallOp.spread_meets who h some_arg)

theorem CallOp.run_safe (sim : Simulation p A) {apply : Applier} (ha : SafeApplier p W A apply)
    (op : CallOp) {args : List Value} (h : AllWithin p r args) :
    SafeValue p W A r (op.run apply args) := by
  unfold run
  split
  · rename_i f a rest
    obtain ⟨hf, others⟩ := List.forall_mem_cons.mp h
    refine (Safe.functionArg _ hf).bind ?_
    intro r₁ f' le₁ hf'
    refine (Safe.spread _ (AllWithin.mono others le₁) (by simp)).bind ?_
    intro r₂ vs le₂ hvs
    exact ha r₂ f' vs (hf'.mono le₂) hvs
  · rename_i f s
    obtain ⟨hf, others⟩ := List.forall_mem_cons.mp h
    refine (Safe.functionArg _ hf).bind ?_
    intro r₁ f' le₁ hf'
    have hs := (others s List.mem_cons_self).mono le₁
    refine (Safe.itemsArg _ hs).bind ?_
    intro r₂ xs le₂ hxs
    refine (Safe.mapM fun v hv r₃ le₃ => ?_).bind fun r₃ vs le₃ hvs => ?_
    · refine ha r₃ f' [v] (hf'.mono (le₂.trans le₃)) fun u hu => ?_
      exact List.mem_singleton.mp hu ▸ (hxs v hv).mono le₃
    · exact Safe.pure (.list fun v hv => hvs v (List.mem_toArray.mp hv))
  · rename_i a f extra
    obtain ⟨hcell, others⟩ := List.forall_mem_cons.mp h
    obtain ⟨hf, hextra⟩ := List.forall_mem_cons.mp others
    refine (Safe.cellArg _ hcell).bind ?_
    intro r₁ c le₁ hc
    refine (Safe.functionArg _ (hf.mono le₁)).bind ?_
    intro r₂ f' le₂ hf'
    have hc₂ := le₂.2 c hc
    refine Safe.read (fun m₁ m₂ _ agree => ?_) fun m closed => ?_
    · rw [sim.content agree hc₂]
    have hargs : AllWithin p r₂ (m.cellContent c :: extra) :=
      List.forall_mem_cons.mpr ⟨closed.content hc₂, AllWithin.mono hextra (le₁.trans le₂)⟩
    refine (ha r₂ f' _ hf' hargs).bind ?_
    intro r₃ new le₃ hnew
    refine (Safe.setCell sim (P := fun _ _ => True) trivial (le₃.2 c hc₂) hnew).bind ?_
    intro r₄ _ le₄ _
    exact Safe.pure (hnew.mono le₄)
  · exact Safe.fail trivial
  · exact Safe.fail trivial
  · exact Safe.fail trivial

theorem HostOp.run_safe {apply : Applier} (ha : SafeApplier p W A apply) (op : HostOp)
    {args : List Value} (h : AllWithin p r args) : SafeValue p W A r (op.run apply args) := by
  unfold run
  split
  · exact Safe.pure (.list fun v hv => h v (List.mem_toArray.mp hv))
  · exact Safe.pure .nil
  · obtain ⟨hf, others⟩ := List.forall_mem_cons.mp h
    exact ha r _ _ hf others
  · exact Safe.fail trivial

theorem throwValue_safe (sim : Simulation p A) {args : List Value} (h : AllWithin p r args) :
    SafeValue p W A r (throwValue args) := by
  unfold throwValue
  split
  · rename_i v
    have hv := h v List.mem_cons_self
    refine (Safe.readable sim hv).bind ?_
    intro r' message le _
    exact Safe.fail (hv.mono le)
  · exact Safe.fail trivial

theorem slurpFile_safe (sim : Simulation p A) {args : List Value} (h : AllWithin p r args) :
    SafeValue p W A r (slurpFile args) := by
  unfold slurpFile
  split
  · rename_i a
    have read := a.textArg_meets Native.slurp.name (h a List.mem_cons_self)
    refine (Safe.ofExcept (P := fun _ _ => True) read).bind ?_
    intro r' path _ _
    refine Safe.read (fun m₁ m₂ _ agree => ?_) fun m _ => ?_
    · rw [Machine.file?, Machine.file?, sim.files agree]
    · cases m.file? path with
      | some contents => exact Safe.pure (.str contents)
      | none => exact Safe.fail trivial
  · exact Safe.fail trivial

theorem Native.run_safe (sim : Simulation p A) {evaluate : Value → Scope → EvalM Value}
    {apply : Applier} (he : SafeEvaluator p W A evaluate) (ha : SafeApplier p W A apply)
    {op : Native} (hop : ∀ s, op = .evalIn s → p.evals s) {args : List Value}
    (h : AllWithin p r args) : SafeValue p W A r (op.run evaluate apply args) := by
  cases op with
  | data op => exact Safe.ofExcept (op.run_stays h)
  | cell op => exact op.run_safe sim h
  | text op => exact op.run_safe sim h
  | call op => exact op.run_safe sim ha h
  | throw => exact throwValue_safe sim h
  | slurp => exact slurpFile_safe sim h
  | evalIn scope =>
    rcases args with _ | ⟨e, _ | ⟨_, _⟩⟩
    · exact Safe.fail trivial
    · exact Safe.of_evals (hop scope rfl) fun hs hw =>
        he r e scope (h e List.mem_cons_self) hs hw
    · exact Safe.fail trivial
  | host name op => exact op.run_safe ha h

end

end MiniLisp
