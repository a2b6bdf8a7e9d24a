import MiniLisp.Proofs.Brackets
import MiniLisp.Proofs.References
import MiniLisp.Proofs.Underway

/-! What a run tells a trace does not depend on where the trace goes, and the messages of a
computation are those of its parts, one after the other. -/
namespace MiniLisp

def Sink.record (sink : Sink) (messages : List Text) : Sink :=
  messages.foldl (fun sink t => sink.write ⟨.debug, ascii "eval", t⟩) sink

theorem Sink.record_append (sink : Sink) (before after : List Text) :
    sink.record (before ++ after) = (sink.record before).record after :=
  List.foldl_append

namespace Machine

def flags (m : Machine) : Array Bool := m.frames.map Frame.traced

def tracing (m : Machine) : Option Sink × Array Bool := (m.sink, m.flags)

/-- Whatever is evaluated in the machine leaves a trace, if there is a place for it. -/
def TracesAll (m : Machine) : Prop := ∀ flag ∈ m.flags, flag = true

theorem getElem?_flags (m : Machine) (s : Scope) :
    m.flags[s.id.index]? = (m.frame? s.id).map Frame.traced := Array.getElem?_map

theorem flags_define (m : Machine) (s : Scope) (name : Text) (v : Value) :
    (m.define s name v).flags = m.flags := by
  apply Array.ext_getElem?
  intro i
  rw [flags, flags, Array.getElem?_map, Array.getElem?_map, define, Array.getElem?_modify]
  split
  · cases m.frames[i]? <;> rfl
  · rfl

theorem flags_setTraced (m : Machine) (s : Scope) (traced : Bool) :
    (m.setTraced s traced).flags = m.flags.setIfInBounds s.id.index traced := by
  apply Array.ext_getElem?
  intro i
  rw [Array.getElem?_setIfInBounds, flags, flags, Array.getElem?_map, Array.getElem?_map, setTraced,
    Array.getElem?_modify, Array.size_map]
  split
  · rename_i same
    subst same
    split
    · rename_i inside
      rw [Array.getElem?_eq_getElem inside]
      rfl
    · rename_i outside
      rw [Array.getElem?_eq_none (Nat.not_lt.mp outside)]
      rfl
  · rfl

theorem flags_newFrame (m : Machine) (parent : Option Scope) (given : Table Text Value) :
    (m.newFrame parent given).2.flags =
      m.flags.push ((parent.bind fun s => m.flags[s.id.index]?).getD false) := by
  have inherited : (parent.bind fun s => m.flags[s.id.index]?) =
      (parent.bind fun s => m.frame? s.id).map Frame.traced := by
    cases parent with
    | none => rfl
    | some s => exact m.getElem?_flags s
  rw [inherited]
  exact Array.map_push

/-- Where two machines differ in nothing but the trace, one is the other with its own trace. -/
theorem eq_of_untraced {m n : Machine} {sink : Option Sink} (alike : m.untraced = n.untraced)
    (own : n.sink = sink) : n = { m with sink := sink } := by
  subst own
  exact (congrArg (fun k => { k with sink := n.sink }) alike).symm

end Machine

namespace EvalM

/-- The computation leaves a part of the machine as it was. -/
def Leaves {α β : Type} (part : Machine → β) (x : EvalM α) : Prop :=
  ∀ m, part (x.exec m).2 = part m

namespace Leaves

variable {α β γ : Type} {part : Machine → γ}

theorem pure (a : α) : Leaves part (Pure.pure a : EvalM α) := fun _ => rfl

theorem fail (e : Error) : Leaves part (EvalM.fail e : EvalM α) := fun _ => rfl

theorem outOfFuel : Leaves part (throw .outOfFuel : EvalM α) := fun _ => rfl

theorem ofExcept (o : Except Error α) : Leaves part (EvalM.ofExcept o) := by
  cases o with
  | ok a => exact pure a
  | error e => exact fail e

theorem bind {x : EvalM α} {f : α → EvalM β} (hx : Leaves part x)
    (hf : ∀ a, Leaves part (f a)) : Leaves part (x >>= f) := by
  intro m
  have before := hx m
  rcases run : x.exec m with ⟨h | a, m'⟩
  · rw [run] at before
    rwa [exec_bind_error run]
  · rw [run] at before
    rw [exec_bind_ok run]
    exact (hf a m').trans before

theorem map {x : EvalM α} (hx : Leaves part x) (f : α → β) : Leaves part (f <$> x) := by
  rw [map_eq_pure_bind]
  exact hx.bind fun _ => pure _

theorem read {f : Machine → EvalM α} (hf : ∀ m, Leaves part (f m)) : Leaves part (get >>= f) :=
  fun m => hf m m

theorem effect {f : Machine → Machine} (hf : ∀ m, part (f m) = part m) :
    Leaves part (modify f : EvalM PUnit) := hf

theorem effectGet {f : Machine → α × Machine} (hf : ∀ m, part (f m).2 = part m) :
    Leaves part (modifyGet f : EvalM α) := hf

theorem forM {f : α → EvalM PUnit} {as : List α} (h : ∀ a ∈ as, Leaves part (f a)) :
    Leaves part (as.forM f) := by
  induction as with
  | nil => exact pure _
  | cons a as ih =>
    exact (h a List.mem_cons_self).bind fun _ => ih fun b hb => h b (List.mem_cons_of_mem a hb)

/-- What leaves the whole leaves what depends on it. -/
theorem weaken {x : EvalM α} (h : Leaves part x) (f : γ → β) : Leaves (fun m => f (part m)) x :=
  fun m => congrArg f (h m)

theorem trace {s : Scope} {message : EvalM Text} (hx : Leaves part message)
    (hf : ∀ m t, part (m.log t) = part m) : Leaves part (EvalM.trace s message) := by
  refine read fun m => ?_
  split
  · exact hx.bind fun t => effect fun m => hf m t
  · exact pure _

theorem readable (v : Value) : Leaves part (EvalM.readable v) := read fun _ => ofExcept _

theorem lookup (s : Scope) (name : Text) : Leaves part (EvalM.lookup s name) := by
  refine read fun m => ?_
  cases m.lookup name s with
  | none => exact fail _
  | some v => exact pure v

theorem write (t : Text) : Leaves Machine.tracing (modify (·.write t) : EvalM PUnit) :=
  effect fun _ => rfl

theorem setCell (c : CellId) (v : Value) :
    Leaves Machine.tracing (modify (·.setCell c v) : EvalM PUnit) := effect fun _ => rfl

theorem newFunction (op : Native) : Leaves Machine.tracing (EvalM.newFunction op) :=
  (effectGet fun _ => rfl).bind fun _ => pure _

theorem newClosure (params : Params) (body : Value) (scope : Option Scope) :
    Leaves Machine.tracing (EvalM.newClosure params body scope) :=
  (effectGet fun _ => rfl).bind fun _ => pure _

theorem define (s : Scope) (name : Text) (v : Value) :
    Leaves Machine.tracing (EvalM.define s name v) :=
  effect fun m => congrArg (m.sink, ·) (m.flags_define s name v)

end Leaves

end EvalM

open EvalM (Leaves)

theorem CellOp.run_leaves (op : CellOp) (args : List Value) :
    Leaves Machine.tracing (op.run args) := by
  unfold run
  split
  · exact (Leaves.effectGet fun _ => rfl).bind fun _ => .pure _
  · exact (Leaves.ofExcept _).bind fun _ => .read fun _ => .pure _
  · exact (Leaves.ofExcept _).bind fun _ => (Leaves.setCell _ _).bind fun _ => .pure _
  · exact .fail _
  · exact .fail _
  · exact .fail _

theorem TextOp.run_leaves (op : TextOp) (args : List Value) :
    Leaves Machine.tracing (op.run args) := by
  refine .read fun m => (Leaves.ofExcept _).bind fun text => ?_
  split
  · exact (Leaves.write _).bind fun _ => .pure _
  · exact .pure _

theorem throwValue_leaves (args : List Value) : Leaves Machine.tracing (throwValue args) := by
  unfold throwValue
  split
  · exact (Leaves.readable _).bind fun _ => .fail _
  · exact .fail _

theorem slurpFile_leaves (args : List Value) : Leaves Machine.tracing (slurpFile args) := by
  unfold slurpFile
  split
  · refine (Leaves.ofExcept _).bind fun path => .read fun m => ?_
    cases m.file? path with
    | none => exact .fail _
    | some contents => exact .pure _
  · exact .fail _

theorem Eval.notApplicable_leaves (f : Value) : Leaves Machine.tracing (notApplicable f) :=
  (Leaves.readable f).bind fun _ => (Leaves.ofExcept _).bind fun _ => .pure _

namespace EvalM

variable {α β : Type}

/-- Wherever its trace goes the computation comes to the same, and the trace is told the
messages. -/
def Tells (x : EvalM α) (m : Machine) (messages : List Text) : Prop :=
  ∀ sink, x.exec { m with sink := some sink } =
    ((x.exec m).1, { (x.exec m).2 with sink := some (sink.record messages) })

theorem Tells.pure (a : α) (m : Machine) : (Pure.pure a : EvalM α).Tells m [] := fun _ => rfl

theorem Tells.error {x : EvalM α} {m m' : Machine} {h : Halt} {messages : List Text}
    (tells : x.Tells m messages) (run : x.exec m = (.error h, m')) (f : α → EvalM β) :
    (x >>= f).Tells m messages := by
  intro sink
  have traced := tells sink
  rw [run] at traced
  rw [exec_bind_error traced, exec_bind_error run]

theorem Tells.bind {x : EvalM α} {f : α → EvalM β} {m m' : Machine} {a : α}
    {before after : List Text} (tells : x.Tells m before) (run : x.exec m = (.ok a, m'))
    (next : (f a).Tells m' after) : (x >>= f).Tells m (before ++ after) := by
  intro sink
  have traced := tells sink
  rw [run] at traced
  rw [exec_bind_ok traced, exec_bind_ok run, Sink.record_append]
  exact next (sink.record before)

def Says (message : EvalM Text) (m : Machine) (t : Text) : Prop :=
  ∀ sink, message.exec { m with sink := sink } = (.ok t, { m with sink := sink })

theorem Says.pure (m : Machine) (t : Text) : (Pure.pure t : EvalM Text).Says m t := fun _ => rfl

theorem Says.bind {message : EvalM Text} {f : Text → EvalM Text} {m : Machine} {t u : Text}
    (h : message.Says m t) (hf : (f t).Says m u) : (message >>= f).Says m u := by
  intro sink
  rw [exec_bind_ok (h sink), hf sink]

theorem Says.printed {m : Machine} {o : Except Error Text} {t : Text} (h : o = .ok t) :
    (EvalM.ofExcept o).Says m t := by
  intro sink
  rw [h]
  rfl

theorem Tells.trace {m : Machine} {s : Scope} {message : EvalM Text} {t : Text}
    (silent : m.sink = none) (traced : m.flags[s.id.index]? = some true)
    (said : message.Says m t) : (trace s message).Tells m [t] ∧
      (trace s message).exec m = (.ok ⟨⟩, m) := by
  have off : m.isTraced s = false := by rw [Machine.isTraced, silent]; rfl
  have run := exec_trace_off off message
  refine ⟨fun sink => ?_, run⟩
  have on : ({ m with sink := some sink } : Machine).isTraced s = true := by
    show (true && ((m.frame? s.id).map Frame.traced).getD false) = true
    rw [← m.getElem?_flags, traced]
    rfl
  rw [exec_trace_ok on (said (some sink)), run]
  rfl

end EvalM

/-- A machine that could trace whatever is evaluated in it, but has no place to send it to. -/
structure Machine.Watched (evals : Scope → Prop) (r : Region) (m : Machine) : Prop where
  closed : m.Closed (.strict evals) r
  spans : m.Spans r
  traced : m.TracesAll
  silent : m.sink = none

namespace Machine.Watched

variable {evals : Scope → Prop} {r : Region} {m : Machine}

theorem flag (h : m.Watched evals r) {s : Scope} (hs : r.scope s) :
    m.flags[s.id.index]? = some true := by
  have made : s.id.index < m.flags.size := (Array.size_map ..).symm ▸ h.spans.made hs
  rw [Array.getElem?_eq_getElem made, h.traced _ (Array.getElem_mem made)]

theorem readable (h : m.Watched evals r) {v : Value} (hv : v.Within (.strict evals) r) :
    ∃ t, m.print true v = .ok t ∧ (EvalM.readable v).Says m t := by
  obtain ⟨t, printed⟩ := (h.closed.printed true hv).text id
  refine ⟨t, printed, fun sink => ?_⟩
  exact EvalM.Says.printed printed sink

end Machine.Watched

/-- What is said of native functions is well-bracketed where there is a value. Where there is none,
exactly the natives underway are left open. -/
def Recounts {α : Type} (messages : List Text) (underway : List Native) (P : α → Prop) :
    Except Halt α → Prop
  | .ok a => Bracketed (nativeMarks messages) ∧ P a
  | .error _ => LeftOpen (nativeMarks messages) (underway.map Native.name)

namespace Recounts

variable {α β : Type} {P : α → Prop} {Q : β → Prop} {o : Except Halt α}
variable {before messages : List Text} {underway : List Native}

/-- Without messages nothing is left open. -/
theorem of_meets {E : Halt → Prop} (h : Meets E P o) : Recounts [] [] P o := by
  cases o with
  | error _ => exact .nothing .nothing
  | ok a => exact ⟨.nothing, h⟩

theorem after (h : Recounts messages underway P o) (closed : Bracketed (nativeMarks before)) :
    Recounts (before ++ messages) underway P o := by
  cases o with
  | error _ =>
    show LeftOpen (nativeMarks (before ++ messages)) _
    rw [nativeMarks_append]
    exact LeftOpen.after h closed
  | ok a =>
    refine ⟨?_, h.2⟩
    rw [nativeMarks_append]
    exact closed.append h.1

theorem weaken {P' : α → Prop} (h : Recounts messages underway P o) (hP : ∀ a, P a → P' a) :
    Recounts messages underway P' o := by
  cases o with
  | error _ => exact h
  | ok a => exact ⟨h.1, hP a h.2⟩

theorem map {f : α → β} (h : Recounts messages underway P o) (hf : ∀ a, P a → Q (f a)) :
    Recounts messages underway Q (o.map f) := by
  cases o with
  | error _ => exact h
  | ok a => exact ⟨h.1, hf a h.2⟩

end Recounts

/-- The computation tells its native calls as they are made, and leaves a machine that could trace
what is to come. -/
def Narrates {α : Type} (evals : Scope → Prop) (r : Region) (P : Region → α → Prop) (x : EvalM α)
    (underway : Underway) : Prop :=
  ∀ m, m.Watched evals r → ∃ messages r', r ≤ r' ∧ x.Tells m messages ∧
    (x.exec m).2.Watched evals r' ∧ Recounts messages (underway m) (P r') (x.exec m).1

namespace Narrates

variable {α β : Type} {evals : Scope → Prop} {r : Region}
variable {P : Region → α → Prop} {Q : Region → β → Prop}

/-- A computation that touches neither the trace nor what is traced. -/
theorem of_leaves {x : EvalM α} (leaves : Leaves Machine.tracing x)
    (safe : ∀ {A}, Simulation (.strict evals) A → Safe (.strict evals) anywhere A r P x) :
    Narrates evals r P x Underway.idle := by
  intro m watched
  have sim := Machine.Spans.persists.blind.simulation (p := .strict evals) id
  obtain ⟨r', advance, closed, ⟨-, spans⟩, -, answer⟩ :=
    safe sim m m watched.closed (m.grants_anywhere _) ⟨rfl, watched.spans⟩
  have same := leaves m
  have flags : (x.exec m).2.flags = m.flags := congrArg Prod.snd same
  refine ⟨[], r', advance.le, fun sink => ?_, ⟨closed, spans, ?_, ?_⟩, ?_⟩
  · have kept : (x.exec { m with sink := some sink }).2.sink = some sink :=
      congrArg Prod.fst (leaves { m with sink := some sink })
    obtain ⟨-, -, -, alike, same, -⟩ := safe (untraced_simulation id) m { m with sink := some sink }
      watched.closed (m.grants_anywhere _) rfl
    exact Prod.ext same.symm (Machine.eq_of_untraced alike kept)
  · rw [Machine.TracesAll, flags]
    exact watched.traced
  · exact (congrArg Prod.fst same).trans watched.silent
  · exact .of_meets answer

theorem pure {a : α} (h : P r a) : Narrates evals r P (pure a) Underway.idle :=
  of_leaves (.pure a) fun _ => Safe.pure h

theorem fail {e : Error} (h : e.Within (.strict evals) r) :
    Narrates evals r P (EvalM.fail e) Underway.idle :=
  of_leaves (.fail e) fun _ => Safe.fail h

theorem bind {x : EvalM α} {f : α → EvalM β} {first : Underway} {rest : α → Underway}
    (hx : Narrates evals r P x first)
    (hf : ∀ r' a, r ≤ r' → P r' a → Narrates evals r' Q (f a) (rest a)) :
    Narrates evals r Q (x >>= f) (Underway.andThen x first rest) := by
  intro m watched
  obtain ⟨before, r₁, le₁, tells, watched₁, recounts⟩ := hx m watched
  rw [Underway.andThen]
  rcases run : x.exec m with ⟨h | a, m₁⟩
  · rw [run] at watched₁ recounts
    rw [EvalM.exec_bind_error run]
    exact ⟨before, r₁, le₁, tells.error run f, watched₁, recounts⟩
  · rw [run] at watched₁ recounts
    obtain ⟨closed, ha⟩ := recounts
    obtain ⟨after, r₂, le₂, tells₂, watched₂, recounts₂⟩ := hf r₁ a le₁ ha m₁ watched₁
    rw [EvalM.exec_bind_ok run]
    exact ⟨before ++ after, r₂, le₁.trans le₂, tells.bind run tells₂, watched₂,
      recounts₂.after closed⟩

/-- What is done with the machine may depend on all of it but the trace. -/
theorem read {f : Machine → EvalM α} {rest : Machine → Underway}
    (same : ∀ m sink, f { m with sink := sink } = f m)
    (hf : ∀ m, m.Watched evals r → Narrates evals r P (f m) (rest m)) :
    Narrates evals r P (get >>= f) (Underway.andThen get Underway.idle rest) := by
  intro m watched
  obtain ⟨messages, r', le, tells, watched', recounts⟩ := hf m watched m watched
  refine ⟨messages, r', le, fun sink => ?_, watched', recounts⟩
  show (f { m with sink := some sink }).exec { m with sink := some sink } = _
  rw [same]
  exact tells sink

/-- Two computations in neither of which a native is underway. -/
theorem bind_idle {x : EvalM α} {f : α → EvalM β} (hx : Narrates evals r P x Underway.idle)
    (hf : ∀ r' a, r ≤ r' → P r' a → Narrates evals r' Q (f a) Underway.idle) :
    Narrates evals r Q (x >>= f) Underway.idle :=
  Underway.andThen_idle x ▸ hx.bind hf

theorem map {x : EvalM α} {f : α → β} {underway : Underway} (hx : Narrates evals r P x underway)
    (hf : ∀ r' a, r ≤ r' → P r' a → Q r' (f a)) : Narrates evals r Q (f <$> x) underway := by
  intro m watched
  obtain ⟨messages, r', le, tells, watched', recounts⟩ := hx m watched
  have run (k : Machine) : (f <$> x).exec k = ((x.exec k).1.map f, (x.exec k).2) := by
    rw [map_eq_pure_bind, EvalM.exec_bind]
    rcases x.exec k with ⟨h | a, k'⟩ <;> rfl
  refine ⟨messages, r', le, fun sink => ?_, ?_, ?_⟩
  · rw [run, run, tells sink]
  · rw [run]
    exact watched'
  · rw [run]
    exact recounts.map fun a => hf r' a le

theorem bind_pure {x : EvalM α} {f : α → β} {underway : Underway}
    (hx : Narrates evals r P x underway) (hf : ∀ r' a, r ≤ r' → P r' a → Q r' (f a)) :
    Narrates evals r Q (x >>= fun a => Pure.pure (f a)) underway := by
  rw [bind_pure_comp]
  exact hx.map hf

/-- A message about something else than native functions, and then a computation. -/
theorem trace {s : Scope} {message : EvalM Text} {x : EvalM α} {underway : Underway}
    (hs : r.scope s)
    (told : ∀ m, m.Watched evals r → ∃ t, message.Says m t ∧ marksNative t = false)
    (hx : Narrates evals r P x underway) :
    Narrates evals r P (EvalM.trace s message >>= fun _ => x) underway := by
  intro m watched
  obtain ⟨t, said, other⟩ := told m watched
  obtain ⟨traced, run⟩ := EvalM.Tells.trace watched.silent (watched.flag hs) said
  obtain ⟨messages, r', le, tells, watched', recounts⟩ := hx m watched
  rw [EvalM.exec_bind_ok run]
  refine ⟨[t] ++ messages, r', le, traced.bind run tells, watched', recounts.after ?_⟩
  rw [nativeMarks_of_unmarked other]
  exact .nothing

/-- A frame inside of a frame that is traced is traced too. -/
theorem newFrame {parent : Scope} {given : Table Text Value} (hp : r.scope parent)
    (hg : ∀ e ∈ given.entries, e.2.Within (.strict evals) r) :
    Narrates evals r (fun r s => r.scope s) (EvalM.newFrame (some parent) given)
      Underway.idle := by
  intro m watched
  have sim := Machine.Spans.persists.blind.simulation (p := .strict evals) id
  have inside : ∀ s, some parent = some s → r.scope s := by
    rintro s ⟨⟩
    exact hp
  obtain ⟨r', advance, closed, ⟨-, spans⟩, -, answer⟩ :=
    Safe.newFrame (W := anywhere) sim inside hg m m watched.closed (m.grants_anywhere _)
      ⟨rfl, watched.spans⟩
  refine ⟨[], r', advance.le, fun sink => rfl, ⟨closed, spans, ?_, watched.silent⟩,
    .nothing, answer.1⟩
  have around : (m.flags[parent.id.index]?).getD false = true := by
    rw [watched.flag hp]
    rfl
  have pushed : ((EvalM.newFrame (some parent) given).exec m).2.flags = m.flags.push true :=
    (m.flags_newFrame (some parent) given).trans (congrArg m.flags.push around)
  rw [Machine.TracesAll, pushed]
  intro flag h
  rcases Array.mem_push.mp h with h | rfl
  · exact watched.traced flag h
  · rfl

theorem mapM {f : α → EvalM Value} {first : α → Underway} {as : List α}
    (h : ∀ a ∈ as, ∀ r', r ≤ r' →
      Narrates evals r' (fun r v => v.Within (.strict evals) r) (f a) (first a)) :
    Narrates evals r (fun r vs => AllWithin (.strict evals) r vs) (as.mapM f)
      (Underway.each f first as) := by
  induction as generalizing r with
  | nil => exact pure fun v hv => absurd hv List.not_mem_nil
  | cons a as ih =>
    rw [List.mapM_cons]
    refine (h a List.mem_cons_self r (le_refl r)).bind fun r₁ v le₁ hv => ?_
    have others := ih fun b hb r' le => h b (List.mem_cons_of_mem a hb) r' (le₁.trans le)
    exact others.bind_pure fun r₂ vs le₂ hvs => List.forall_mem_cons.mpr ⟨hv.mono le₂, hvs⟩

/-- Each item has a value, and the last of them is the result. -/
theorem foldlM {f : α → EvalM Value} {first : α → Underway} {as : List α} {v : Value}
    (hv : v.Within (.strict evals) r) (h : ∀ a ∈ as, ∀ r', r ≤ r' →
      Narrates evals r' (fun r v => v.Within (.strict evals) r) (f a) (first a)) :
    Narrates evals r (fun r v => v.Within (.strict evals) r) (as.foldlM (fun _ a => f a) v)
      (Underway.each f first as) := by
  induction as generalizing r v with
  | nil => exact pure hv
  | cons a as ih =>
    rw [List.foldlM_cons]
    exact (h a List.mem_cons_self r (le_refl r)).bind fun r₁ u le₁ hu =>
      ih hu fun b hb r' le => h b (List.mem_cons_of_mem a hb) r' (le₁.trans le)

theorem forM {f : α → EvalM PUnit} {first : α → Underway} {as : List α}
    (h : ∀ a ∈ as, ∀ r', r ≤ r' → Narrates evals r' (fun _ _ => True) (f a) (first a)) :
    Narrates evals r (fun _ _ => True) (as.forM f) (Underway.each f first as) := by
  induction as generalizing r with
  | nil => exact pure trivial
  | cons a as ih =>
    exact (h a List.mem_cons_self r (le_refl r)).bind fun r₁ _ le₁ _ =>
      ih fun b hb r' le => h b (List.mem_cons_of_mem a hb) r' (le₁.trans le)

end Narrates

end MiniLisp
