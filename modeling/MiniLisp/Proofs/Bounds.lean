import MiniLisp.Proofs.RenamedRuns
import MiniLisp.Proofs.Tracing

/-! Whatever a session holds refers only to frames that were made already. So making room among the
frames still to come changes nothing that is there. -/
namespace MiniLisp

/-- Something that evaluation and the host keep of a machine and of the region that programs work
in. What is written and what is traced have no part in it. -/
structure Persists (I : Region → Machine → Prop) : Prop where
  newFrame : ∀ {p r m parent given}, m.Closed p r → I r m → (∀ s, parent = some s → r.scope s) →
    (∀ e ∈ given.entries, e.2.Within p r) →
    I (r.withScope (m.newFrame parent given).1) (m.newFrame parent given).2
  newCell : ∀ {p r m v}, m.Closed p r → I r m → v.Within p r →
    I (r.withCell (m.newCell v).1) (m.newCell v).2
  newFunction : ∀ {r m}, I r m → I r m.newFunction.2
  define : ∀ {p r m v} s name, m.Closed p r → I r m → v.Within p r → I r (m.define s name v)
  setCell : ∀ {p r m v} c, m.Closed p r → I r m → v.Within p r → I r (m.setCell c v)
  setTraced : ∀ {r m} s b, I r m → I r (m.setTraced s b)
  host : ∀ {r m} output sink files, I r m →
    I r { m with output := output, sink := sink, files := files }

/-- It makes no difference to tracing. -/
theorem Persists.blind {I : Region → Machine → Prop} (keeps : Persists I) :
    TraceBlind fun r m₁ m₂ => m₁.muted = m₂.muted ∧ I r m₁ where
  simulation {p} present := by
    have sim := muted_simulation present
    constructor
    case frames => exact fun {r _ _} h => sim.frames (r := r) h.1
    case cells => exact fun {r _ _} h => sim.cells (r := r) h.1
    case functions => exact fun {r _ _} h => sim.functions (r := r) h.1
    case files => exact fun {r _ _} h => sim.files (r := r) h.1
    case binding => exact fun h => sim.binding h.1
    case content => exact fun h => sim.content h.1
    case tracing =>
      refine .inr ⟨present, fun {r m₁ _ t} h => ⟨⟨h.1, ?_⟩, h⟩⟩
      exact keeps.host m₁.output (m₁.log t).sink m₁.files h.2
    case newFrame =>
      exact fun closed h hp hg => ⟨sim.newFrame closed h.1 hp hg, keeps.newFrame closed h.2 hp hg⟩
    case newCell =>
      exact fun closed h hv => ⟨sim.newCell closed h.1 hv, keeps.newCell closed h.2 hv⟩
    case newFunction =>
      exact fun {r _ _} h => ⟨sim.newFunction (r := r) h.1, keeps.newFunction h.2⟩
    case define =>
      exact fun closed h hs hv => ⟨sim.define closed h.1 hs hv, keeps.define _ _ closed h.2 hv⟩
    case setCell =>
      exact fun closed h hc hv => ⟨sim.setCell closed h.1 hc hv, keeps.setCell _ closed h.2 hv⟩
    case write =>
      refine fun {r m₁ _ t} h => ⟨sim.write (r := r) h.1, ?_⟩
      exact keeps.host (m₁.write t).output m₁.sink m₁.files h.2
  setTraced {r _ _} s b₁ b₂ h :=
    ⟨muted_blind.setTraced (r := r) s b₁ b₂ h.1, keeps.setTraced s b₁ h.2⟩
  names {r _ _} h s := muted_blind.names (r := r) h.1 s

def skip (k : Nat) (f : FrameId) : FrameId := if f.index < k then f else ⟨f.index + 1⟩

theorem skip_of_lt {k : Nat} {f : FrameId} (h : f.index < k) : skip k f = f := if_pos h

theorem skip_of_le {k : Nat} {f : FrameId} (h : k ≤ f.index) : skip k f = ⟨f.index + 1⟩ :=
  if_neg (Nat.not_lt.mpr h)

theorem skip_injective (k : Nat) : Function.Injective (skip k) := by
  rintro ⟨i⟩ ⟨j⟩ same
  rcases Nat.lt_or_ge i k with hi | hi <;> rcases Nat.lt_or_ge j k with hj | hj
  · rwa [skip_of_lt hi, skip_of_lt hj] at same
  · rw [skip_of_lt hi, skip_of_le hj] at same
    have := congrArg FrameId.index same
    dsimp only at *
    omega
  · rw [skip_of_le hi, skip_of_lt hj] at same
    have := congrArg FrameId.index same
    dsimp only at *
    omega
  · rw [skip_of_le hi, skip_of_le hj] at same
    have := congrArg FrameId.index same
    dsimp only at *
    exact congrArg FrameId.mk (by omega)

def Scope.Below (n : Nat) (s : Scope) : Prop := ∀ k, n ≤ k → s.rename (skip k) = s

def Value.Below (n : Nat) (v : Value) : Prop := ∀ k, n ≤ k → v.rename (skip k) = v

theorem Scope.Below.mono {n n' : Nat} {s : Scope} (h : s.Below n) (le : n ≤ n') : s.Below n' :=
  fun k hk => h k (Nat.le_trans le hk)

theorem Value.Below.mono {n n' : Nat} {v : Value} (h : v.Below n) (le : n ≤ n') : v.Below n' :=
  fun k hk => h k (Nat.le_trans le hk)

structure Machine.Bounded (r : Region) (m : Machine) : Prop where
  scopes : ∀ s, r.scope s → s.Below m.frames.size
  bindings : ∀ {f name v}, m.defined? f name = some v → v.Below m.frames.size
  contents : ∀ v ∈ m.cells, v.Below m.frames.size

namespace Machine.Bounded

variable {p : Policy} {r : Region} {m : Machine}

theorem value (h : m.Bounded r) (closed : m.Closed p r) {v : Value} (hv : v.Within p r) :
    v.Below m.frames.size :=
  fun k hk => hv.rename_eq (fun s hs => h.scopes s (closed.evals hs) k hk)
    fun s hs => h.scopes s hs k hk

theorem newFrame (h : m.Bounded r) (closed : m.Closed p r) {parent : Option Scope}
    {given : Table Text Value} (hp : ∀ s, parent = some s → r.scope s)
    (hg : ∀ e ∈ given.entries, e.2.Within p r) :
    (m.newFrame parent given).2.Bounded (r.withScope (m.newFrame parent given).1) := by
  have size : (m.newFrame parent given).2.frames.size = m.frames.size + 1 := Array.size_push _
  have more : m.frames.size ≤ m.frames.size + 1 := Nat.le_succ _
  constructor
  · rw [size]
    rintro s (hs | rfl)
    · exact (h.scopes s hs).mono more
    · intro k hk
      have around : parent.map (Scope.rename (skip k)) = parent := by
        cases parent with
        | none => rfl
        | some s => exact congrArg some (h.scopes s (hp s rfl) k (Nat.le_of_succ_le hk))
      have bound : given.mapValues (Value.rename (skip k)) = given :=
        Table.mapValues_eq_self fun e he => h.value closed (hg e he) k (Nat.le_of_succ_le hk)
      show (Scope.frame ⟨m.frames.size⟩ given parent).rename (skip k) = _
      have own : skip k ⟨m.frames.size⟩ = ⟨m.frames.size⟩ := skip_of_lt hk
      rw [Scope.rename_frame, around, bound, own]
      rfl
  · intro f name v hv
    rw [m.defined?_newFrame] at hv
    exact size ▸ (h.bindings hv).mono more
  · intro v hv
    exact size ▸ (h.contents v hv).mono more

theorem newCell (h : m.Bounded r) (closed : m.Closed p r) {v : Value} (hv : v.Within p r) :
    (m.newCell v).2.Bounded (r.withCell (m.newCell v).1) where
  scopes := h.scopes
  bindings := h.bindings
  contents u hu := by
    rcases Array.mem_push.mp hu with hu | rfl
    · exact h.contents u hu
    · exact h.value closed hv

theorem define (h : m.Bounded r) (closed : m.Closed p r) (s : Scope) (name : Text) {v : Value}
    (hv : v.Within p r) : (m.define s name v).Bounded r := by
  have size := m.size_define s name v
  constructor
  · exact size ▸ h.scopes
  · intro f n u hu
    rw [m.defined?_define] at hu
    split at hu
    · exact Option.some.inj hu ▸ size ▸ h.value closed hv
    · exact size ▸ h.bindings hu
  · exact size ▸ h.contents

theorem setCell (h : m.Bounded r) (closed : m.Closed p r) (c : CellId) {v : Value}
    (hv : v.Within p r) : (m.setCell c v).Bounded r where
  scopes := h.scopes
  bindings := h.bindings
  contents u hu := by
    have found : u ∈ (m.cells.setIfInBounds c.index v).toList := Array.mem_toList_iff.mpr hu
    rw [Array.toList_setIfInBounds] at found
    rcases List.mem_or_eq_of_mem_set found with hu | rfl
    · exact h.contents u (Array.mem_toList_iff.mp hu)
    · exact h.value closed hv

theorem setTraced (h : m.Bounded r) (s : Scope) (b : Bool) : (m.setTraced s b).Bounded r := by
  have size := m.size_setTraced s b
  constructor
  · exact size ▸ h.scopes
  · intro f name v hv
    rw [m.defined?_setTraced] at hv
    exact size ▸ h.bindings hv
  · exact size ▸ h.contents

theorem persists : Persists fun r m => m.Bounded r where
  newFrame closed h hp hg := h.newFrame closed hp hg
  newCell closed h hv := h.newCell closed hv
  newFunction h := ⟨h.scopes, h.bindings, h.contents⟩
  define s name closed h hv := h.define closed s name hv
  setCell c closed h hv := h.setCell closed c hv
  setTraced s b h := h.setTraced s b
  host _ _ _ h := ⟨h.scopes, h.bindings, h.contents⟩

end Machine.Bounded

/-- The session was made on a machine that had done nothing yet, the host asked one thing after
another of it, and in between took the output and the trace and changed the files. -/
inductive Session.Reached (session : Session) : Machine → Prop where
  | made {fuel : Nat} {config : Config} {sink : Option Sink} {files : Assoc Text Text}
      {m : Machine} : (makeSession fuel config).exec (.blank sink files) = (.ok session, m) →
      Reached session m
  | asked {fuel : Nat} {q : Request} {m n : Machine} {o : Except Halt Response} :
      Reached session m → (q.run fuel session).exec m = (o, n) → Reached session n
  | handled {m : Machine} (output : Text) (sink : Option Sink) (files : Assoc Text Text) :
      Reached session m → Reached session { m with output := output, sink := sink, files := files }

def Region.nothing : Region := ⟨fun _ => False, fun _ => False⟩

/-- By induction on what the host did: from the blank machine on, everything it does keeps both the
order of the session and what persists. -/
theorem Session.Reached.keeps {I : Region → Machine → Prop} (keeps : Persists I)
    (start : ∀ sink files, I .nothing (.blank sink files)) {session : Session} {m : Machine}
    (h : session.Reached m) : ∃ r, session.Tidy r m ∧ I r m := by
  induction h with
  | @made fuel config sink files m made =>
    obtain ⟨-, r, -, ⟨-, kept⟩, tidy⟩ := makeSession_twins keeps.blind config.arguments
      config.traceBoot config.traceBoot config.extensions (Session.closed_blank sink files)
      ⟨rfl, start sink files⟩ made made
    exact ⟨r, tidy session rfl, kept⟩
  | asked _ run ih =>
    obtain ⟨r, tidy, kept⟩ := ih
    obtain ⟨-, r', ⟨-, kept'⟩, tidy'⟩ := tidy.request keeps.blind ⟨rfl, kept⟩ run run
    exact ⟨r', tidy', kept'⟩
  | handled output sink files _ ih =>
    obtain ⟨r, tidy, kept⟩ := ih
    exact ⟨r, tidy.host output sink files, keeps.host output sink files kept⟩

theorem Session.Reached.bounded {session : Session} {m : Machine} (h : session.Reached m) :
    ∃ r, session.Tidy r m ∧ m.Bounded r := by
  refine h.keeps Machine.Bounded.persists fun sink files => ?_
  exact ⟨fun _ none => none.elim, fun none => (nomatch none),
    fun v hv => absurd hv (Array.not_mem_empty v)⟩

/-- A machine, and the same one with one frame more, into which nothing was put yet. -/
theorem Machine.Bounded.renamed_newFrame {r : Region} {m : Machine} (h : m.Bounded r)
    (silent : m.sink = none) (parent : Option Scope) (given : Table Text Value) :
    m.Renamed (skip m.frames.size) (m.newFrame parent given).2 := by
  have size : (m.newFrame parent given).2.frames.size = m.frames.size + 1 := Array.size_push _
  refine ⟨skip_injective _, fun i => ?_, fun f hf => ?_, fun f name => ?_, ?_, rfl, rfl, rfl,
    silent, silent⟩
  · rw [size, skip_of_le (Nat.le_add_right _ _), Nat.add_right_comm]
  · rw [size, skip_of_lt hf]
    exact Nat.lt_succ_of_lt hf
  · rw [m.defined?_newFrame]
    rcases Nat.lt_or_ge f.index m.frames.size with old | new
    · rw [skip_of_lt old]
      cases found : m.defined? f name with
      | none => rfl
      | some v => exact congrArg some (h.bindings found _ (Nat.le_refl _)).symm
    · have later (i : Nat) (hi : m.frames.size ≤ i) : m.defined? ⟨i⟩ name = none := by
        rw [Machine.defined?, Machine.frame?, Array.getElem?_eq_none hi, Option.bind_none]
      rw [skip_of_le new, later _ (Nat.le_succ_of_le new), later _ new, Option.map_none]
  · apply Array.ext_getElem?
    intro i
    show m.cells[i]? = _
    rw [Array.getElem?_map]
    cases found : m.cells[i]? with
    | none => rfl
    | some v =>
      exact congrArg some (h.contents v (Array.mem_of_getElem? found) _ (Nat.le_refl _)).symm

end MiniLisp
