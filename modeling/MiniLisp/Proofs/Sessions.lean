import MiniLisp.Proofs.Agreements
import MiniLisp.Proofs.Evaluation

/-! Whatever a session does, the native that evaluates code evaluates in its global frame, wherever
a program gets hold of it, and the core frame stays as it was made. -/
namespace MiniLisp

section

variable {p : Policy} {W : FrameId → Prop} {A : Agreement} {r : Region} {s : Scope}

theorem eval_safe (sim : Simulation p A) (fuel : Nat) : SafeEvaluator p W A (eval fuel) :=
  Eval.guarded_safe (Eval.loop_apply_safe sim fuel).1

theorem applyFunction_safe (sim : Simulation p A) (fuel : Nat) :
    SafeApplier p W A (applyFunction fuel) := (Eval.loop_apply_safe sim fuel).2

theorem evalData_safe (sim : Simulation p A) (fuel : Nat) : SafeEvaluator p W A (evalData fuel) :=
  fun _ _ _ he hs hw => Eval.data_safe sim (eval_safe sim fuel) he hs hw

theorem evalSource_safe (sim : Simulation p A) (fuel : Nat) (t : Text) (hs : r.scope s)
    (hw : W s.id) : SafeValue p W A r (evalSource fuel t (some s)) := by
  have read := readAll_within (p := p) (r := r) t
  unfold evalSource
  split
  · exact Safe.fail trivial
  · rename_i forms hforms
    rw [hforms] at read
    refine Safe.foldlM .nil fun e he r' le _ _ => ?_
    exact eval_safe sim fuel r' e s ((read e he).mono le) (le.1 s hs) hw

namespace Register

theorem checkName_safe (sim : Simulation p A) (what : Registered) (name : Text)
    (hs : r.scope s) : Safe p W A r (fun _ _ => True) (checkName what s name) := by
  unfold checkName
  split
  · exact Safe.fail trivial
  · refine Safe.read (fun m₁ m₂ _ agree => ?_) fun m _ => ?_
    · rw [sim.binding agree hs]
    split
    · exact Safe.fail trivial
    · exact Safe.pure trivial

theorem builtin_safe (sim : Simulation p A) (name : Text) {op : Option Native}
    (hop : ∀ t, op = some (.evalIn t) → p.evals t) (hs : r.scope s) (hw : W s.id) :
    Safe p W A r (fun _ _ => True) (builtin s name op) := by
  refine (checkName_safe sim .builtin name hs).bind ?_
  intro r₁ _ le₁ _
  cases op with
  | none => exact Safe.fail trivial
  | some op =>
    refine (Safe.newNative sim fun t ht => hop t (ht ▸ rfl)).bind ?_
    intro r₂ f le₂ hf
    exact Safe.define sim trivial ((le₁.trans le₂).1 s hs) hw hf

/-- The absent value is refused before it gets anywhere. -/
theorem value_safe (sim : Simulation p A) (name : Text) {v : Value}
    (hv : v ≠ .null → v.Within p r) (hs : r.scope s) (hw : W s.id) :
    Safe p W A r (fun _ _ => True) (value s name v) := by
  refine (checkName_safe sim .value name hs).bind ?_
  intro r₁ _ le₁ _
  split
  · exact Safe.fail trivial
  · rename_i present
    exact Safe.define sim trivial (le₁.1 s hs) hw ((hv present).mono le₁)

end Register

theorem FormText.value_safe (t : FormText) : SafeValue p W A r t.value := by
  have read := t.read_within (p := p) (r := r)
  unfold value
  split
  · rename_i form h
    rw [h] at read
    exact Safe.pure read
  · exact Safe.fail trivial

theorem Extension.formValue_safe (form : Option FormText) :
    Safe p W A r (fun r v => v ≠ .null → v.Within p r) (formValue form) := by
  cases form with
  | none => exact Safe.pure fun present => absurd rfl present
  | some t => exact t.value_safe.weaken fun _ _ within _ => within

theorem register_safe (sim : Simulation p A) (e : Extension)
    (hs : r.scope s) (hw : W s.id) : Safe p W A r (fun _ _ => True) (register e (some s)) := by
  cases e with
  | builtin name op =>
    refine Register.builtin_safe sim name (fun t ht => ?_) hs hw
    cases op <;> cases ht
  | value name form =>
    refine (Extension.formValue_safe form).bind ?_
    intro r₁ v le₁ hv
    exact Register.value_safe sim name hv (le₁.1 s hs) hw

theorem installCore_safe (sim : Simulation p A) (hs : r.scope s) (hw : W s.id) :
    Safe p W A r (fun _ _ => True) (installCore (some s)) := by
  refine Safe.forM fun op hop r₁ le₁ => ?_
  have no_scope : ∀ t, op = .evalIn t → p.evals t := by
    rintro t rfl
    simp [coreNatives] at hop
  refine (Safe.newNative sim no_scope).bind ?_
  intro r₂ f le₂ hf
  exact Safe.define sim trivial ((le₁.trans le₂).1 s hs) hw hf

theorem Advance.setTraced (m : Machine) (hw : W s.id) (traced : Bool) :
    Advance W r r m (m.setTraced s traced) := by
  refine ⟨le_refl r, .inl, .inl, ?_, Nat.le_refl _, ?_, fun _ _ => rfl, ?_, id⟩
  · exact Nat.le_of_eq (m.size_setTraced s traced).symm
  · intro f _ hf
    rw [m.frame?_setTraced, if_neg]
    intro h
    subst h
    exact hf hw
  · intro f name hn
    rw [m.defined?_setTraced]
    exact hn

theorem Machine.Closed.setTraced {m : Machine} (h : m.Closed p r) (s : Scope) (traced : Bool) :
    (m.setTraced s traced).Closed p r where
  parent := h.parent
  binding {t name _} ht hv := h.binding ht ((m.local?_setTraced s traced t name).symm.trans hv)
  content := h.content
  evals := h.evals

theorem setTraced_safe (hw : W s.id) (traced : Bool) :
    Safe p W (fun _ m₁ m₂ => m₁ = m₂) r (fun _ _ => True) (modify (·.setTraced s traced)) :=
  Safe.effect trivial (fun m _ _ => Advance.setTraced m hw traced)
    (fun _ closed => closed.setTraced s traced) fun _ _ _ h => h ▸ rfl

end

def Policy.core : Policy := ⟨True, fun _ => False, True⟩

def Session.policy (session : Session) : Policy := ⟨True, fun s => s = session.global, True⟩

theorem makeCore_made {fuel : Nat} {traceBoot : Bool} {start m : Machine} {core : Scope}
    (h : (makeCore fuel traceBoot).exec start = (.ok core, m)) :
    core.id.index < m.frames.size ∧ ∃ r, m.Closed .core r ∧ r.scope core := by
  rw [makeCore, EvalM.exec_bind] at h
  have nowhere : start.Closed .core ⟨fun _ => False, fun _ => False⟩ :=
    ⟨fun h => h.elim, fun h => h.elim, fun h => h.elim, fun h => h.elim⟩
  have made := EvalM.exec_newFrame none .empty start
  have sim := equality_simulation .core
  obtain ⟨r₁, _, closed, hcore, _⟩ := Safe.run (W := fun _ => True) made nowhere
    ⟨fun _ => trivial, fun _ => trivial⟩
    (Safe.newFrame sim (fun _ h => by cases h) fun e he => by simp at he)
  obtain ⟨r₂, advance, closed₂, rfl, hcore₂⟩ := Safe.run (W := fun _ => True)
    (P := fun r made => made = (start.newFrame none .empty).1 ∧ r.scope made) h closed
    ⟨fun _ => trivial, fun _ => trivial⟩ (by
      refine (installCore_safe sim hcore trivial).bind ?_
      intro r₂ _ le₂ _
      refine (setTraced_safe trivial traceBoot).bind ?_
      intro r₃ _ le₃ _
      have hcore₃ := (le₂.trans le₃).1 _ hcore
      refine ((evalSource_safe sim fuel notDefinition hcore₃ trivial).map
        (Q := fun _ _ => True) fun _ _ _ _ => trivial).bind ?_
      intro r₄ _ le₄ _
      refine (setTraced_safe trivial true).bind ?_
      intro r₅ _ le₅ _
      exact Safe.pure ⟨rfl, (le₄.trans le₅).1 _ hcore₃⟩)
  exact ⟨start.index_newFrame_lt advance.frames, r₂, closed₂, hcore₂⟩

/-- Every native that evaluates code and that the roots lead to does so in the global frame. -/
def Session.Owns (session : Session) (m : Machine) (roots : List Item) : Prop :=
  ∀ id t, Accesses m roots (.value (.native id (.evalIn t))) → t = session.global

theorem Session.owns_of_closed {session : Session} {r : Region} {m : Machine}
    (closed : m.Closed session.policy r) {roots : List Item}
    (h : ∀ x ∈ roots, x.Within session.policy r) : session.Owns m roots := by
  intro id t ht
  cases closed.accesses h ht with
  | native hs => exact hs t rfl

theorem makeSession_made {fuel : Nat} {config : Config} {start m : Machine} {session : Session}
    (h : (makeSession fuel config).exec start = (.ok session, m)) :
    session.core.id.index < session.global.id.index ∧
      session.global.id.index < m.frames.size ∧
      session.Owns m [.scope session.global] := by
  rw [makeSession] at h
  rcases hcore : (makeCore fuel config.traceBoot).exec start with ⟨core | core, m₁⟩
  · rw [EvalM.exec_bind_error hcore] at h
    cases h
  · rw [EvalM.exec_bind_ok hcore] at h
    obtain ⟨older, r₁, closed₁, inside⟩ := makeCore_made hcore
    -- from here on natives may evaluate in the new frame
    have made := EvalM.exec_newFrame (some core) .empty m₁
    obtain ⟨r₂, _, closed₂, hglobal, _⟩ := Safe.run (W := fun _ => True) made closed₁
      ⟨fun _ => trivial, fun h => h.elim⟩
      (Safe.newFrame (equality_simulation .core) (fun t ht => Option.some.inj ht ▸ inside)
        fun e he => by simp at he)
    rw [EvalM.exec_bind_ok made] at h
    generalize hg : (m₁.newFrame (some core) .empty).1 = global at *
    have sim := equality_simulation (Session.policy ⟨core, global⟩)
    have closed₃ := closed₂.weaken (q := Session.policy ⟨core, global⟩) id
      (fun _ h => h.elim) id fun t ht => ht ▸ hglobal
    obtain ⟨r₃, advance, closed₄, rfl, hglobal₃⟩ := Safe.run (W := fun _ => True)
      (P := fun r made => made = ⟨core, global⟩ ∧ r.scope global) h closed₃
      ⟨fun _ => trivial, fun _ => trivial⟩ (by
        refine (setTraced_safe trivial config.traceBoot).bind ?_
        intro r₃ _ le₃ _
        have hs₃ := le₃.1 global hglobal
        refine (Register.builtin_safe sim _ (fun t ht => ?_) hs₃ trivial).bind
          fun r₄ _ le₄ _ => ?_
        · cases ht
          rfl
        have hs₄ := le₄.1 global hs₃
        refine ((evalSource_safe sim fuel loadFileDefinition hs₄ trivial).map
          (Q := fun _ _ => True) fun _ _ _ _ => trivial).bind ?_
        intro r₅ _ le₅ _
        have hs₅ := le₅.1 global hs₄
        refine (Register.value_safe sim _ (fun _ => .list fun v hv => ?_) hs₅ trivial).bind
          fun r₆ _ le₆ _ => ?_
        · obtain ⟨t, _, rfl⟩ := List.mem_map.mp (List.mem_toArray.mp hv)
          exact .str t
        have hs₆ := le₆.1 global hs₅
        refine (Safe.forM fun e _ r' le => ?_).bind fun r₇ _ le₇ _ => ?_
        · exact register_safe sim e (le.1 global hs₆) trivial
        have hs₇ := le₇.1 global hs₆
        refine (setTraced_safe trivial true).bind ?_
        intro r₈ _ le₈ _
        exact Safe.pure ⟨rfl, le₈.1 global hs₇⟩)
    subst hg
    refine ⟨older, ?_, ?_⟩
    · exact m₁.index_newFrame_lt advance.frames
    · refine Session.owns_of_closed closed₄ fun x hx => ?_
      rcases List.mem_singleton.mp hx with rfl
      exact hglobal₃

namespace Session

variable {session : Session} {m₀ m : Machine}

/-- What becomes of a machine on which a session was made, whatever the host does with the session.
Programs are evaluated anywhere but in the core frame itself. -/
inductive Runs (session : Session) (m₀ : Machine) : Machine → Prop where
  | made : Runs session m₀ m₀
  | source {m : Machine} (fuel : Nat) (t : Text) : Runs session m₀ m →
      Runs session m₀ ((evalSource fuel t (some session.global)).exec m).2
  | evaluate {m : Machine} (fuel : Nat) {e : Value} {s : Scope} : Runs session m₀ m →
      session.Owns m [.value e, .scope s] → s.id ≠ session.core.id →
      Runs session m₀ ((eval fuel e s).exec m).2
  | evaluateData {m : Machine} (fuel : Nat) {e : Value} {s : Scope} : Runs session m₀ m →
      session.Owns m [.value e, .scope s] → s.id ≠ session.core.id →
      Runs session m₀ ((evalData fuel e s).exec m).2
  | apply {m : Machine} (fuel : Nat) {f : Value} {args : List Value} : Runs session m₀ m →
      session.Owns m ((f :: args).map .value) →
      Runs session m₀ ((applyFunction fuel f args).exec m).2
  | extend {m : Machine} (e : Extension) : Runs session m₀ m →
      Runs session m₀ ((register e (some session.global)).exec m).2
  | host {m : Machine} (output : Text) (sink : Option Sink) (files : Assoc Text Text) :
      Runs session m₀ m →
      Runs session m₀ { m with output := output, sink := sink, files := files }

structure Sound (session : Session) (m₀ m : Machine) : Prop where
  owns : session.Owns m [.scope session.global]
  apart : session.core.id ≠ session.global.id
  older : session.core.id.index < m.frames.size
  kept : m.frame? session.core.id = m₀.frame? session.core.id

theorem Owns.cons {x : Item} {roots : List Item} (hx : session.Owns m [x])
    (h : session.Owns m roots) : session.Owns m (x :: roots) := by
  rintro id t ⟨root, hroot, walk⟩
  rcases List.mem_cons.mp hroot with rfl | hroot
  · exact hx id t ⟨root, List.mem_singleton.mpr rfl, walk⟩
  · exact h id t ⟨root, hroot, walk⟩

/-- A computation that is safe wherever the global frame and what it is given are. -/
theorem Sound.step {α : Type} {x : EvalM α} {P : Region → α → Prop} {roots : List Item}
    (h : session.Sound m₀ m) (owned : session.Owns m roots)
    (safe : ∀ r, (∀ y ∈ roots, y.Within session.policy r) → r.scope session.global →
      Safe session.policy (· ≠ session.core.id) (fun _ m₁ m₂ => m₁ = m₂) r P x) :
    session.Sound m₀ (x.exec m).2 := by
  obtain ⟨closed, within⟩ := m.closed_accesses (.scope session.global :: roots)
    (p := session.policy) (fun _ => trivial) (h.owns.cons owned) trivial
    fun t ht => ht ▸ .root List.mem_cons_self
  have grants : m.Grants session.policy (· ≠ session.core.id) := by
    constructor
    · rintro f hf rfl
      exact absurd h.older (Nat.not_lt.mpr hf)
    · rintro t rfl
      exact h.apart.symm
  have hglobal := within _ List.mem_cons_self
  obtain ⟨r', advance, closed', _⟩ := safe _
    (fun y hy => within y (List.mem_cons_of_mem _ hy)) hglobal m m closed grants rfl
  constructor
  · refine owns_of_closed closed' fun y hy => ?_
    rcases List.mem_singleton.mp hy with rfl
    exact advance.le.1 _ hglobal
  · exact h.apart
  · exact Nat.lt_of_lt_of_le h.older advance.frames
  · exact (advance.keptFrame h.older fun changed => changed rfl).trans h.kept

theorem owns_nil : session.Owns m [] := fun _ _ h => by
  obtain ⟨_, hroot, _⟩ := h
  cases hroot

theorem Runs.sound {fuel : Nat} {config : Config} {start : Machine}
    (made : (makeSession fuel config).exec start = (.ok session, m₀))
    (h : session.Runs m₀ m) : session.Sound m₀ m := by
  have sim := equality_simulation session.policy
  obtain ⟨older, newer, owns⟩ := makeSession_made made
  have writable : session.global.id ≠ session.core.id := by
    intro same
    rw [same] at older
    exact Nat.lt_irrefl _ older
  induction h with
  | made => exact ⟨owns, writable.symm, Nat.lt_trans older newer, rfl⟩
  | source fuel t _ ih =>
    exact ih.step owns_nil fun r _ hs => evalSource_safe sim fuel t hs writable
  | evaluate fuel _ owned apart ih =>
    refine ih.step (P := fun r v => v.Within session.policy r) owned fun r within _ => ?_
    exact eval_safe sim fuel r _ _ (within _ List.mem_cons_self)
      (within _ (List.mem_cons_of_mem _ List.mem_cons_self)) apart
  | evaluateData fuel _ owned apart ih =>
    refine ih.step (P := fun r v => v.Within session.policy r) owned fun r within _ => ?_
    exact evalData_safe sim fuel r _ _ (within _ List.mem_cons_self)
      (within _ (List.mem_cons_of_mem _ List.mem_cons_self)) apart
  | apply fuel _ owned ih =>
    refine ih.step (P := fun r v => v.Within session.policy r) owned fun r within _ => ?_
    refine applyFunction_safe sim fuel r _ _ (within _ List.mem_cons_self) fun v hv => ?_
    exact within _ (List.mem_cons_of_mem _ (List.mem_map_of_mem hv))
  | extend e _ ih =>
    exact ih.step owns_nil fun r _ hs => register_safe sim e hs writable
  | host output sink files _ ih =>
    obtain ⟨closed, within⟩ := Machine.closed_accesses _ _ (p := session.policy) (fun _ => trivial)
      ih.owns trivial fun t ht => ht ▸ .root (List.mem_singleton.mpr rfl)
    refine ⟨owns_of_closed ?_ within, ih.apart, ih.older, ih.kept⟩
    exact ⟨closed.parent, closed.binding, closed.content, closed.evals⟩

end Session

end MiniLisp
