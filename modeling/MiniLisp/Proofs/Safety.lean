import MiniLisp.Proofs.Answers

/-! A safe computation, started from two machines that agree on a closed region, gives the same
answer on both and changes nothing else. What it means to agree is a parameter, so one proof serves
runs of one machine and comparisons of two. -/
namespace MiniLisp

def EvalM.exec {α : Type} (x : EvalM α) (m : Machine) : Except Halt α × Machine := x.run.run m

namespace EvalM

variable {α β : Type}

@[simp] theorem exec_pure (a : α) (m : Machine) : (pure a : EvalM α).exec m = (.ok a, m) := rfl

@[simp] theorem exec_fail (e : Error) (m : Machine) :
    (fail e : EvalM α).exec m = (.error (.error e), m) := rfl

@[simp] theorem exec_get (m : Machine) : (get : EvalM Machine).exec m = (.ok m, m) := rfl

@[simp] theorem exec_newFrame (parent : Option Scope) (given : Table Text Value) (m : Machine) :
    (newFrame parent given).exec m =
      (.ok (m.newFrame parent given).1, (m.newFrame parent given).2) := rfl

theorem exec_bind (x : EvalM α) (f : α → EvalM β) (m : Machine) :
    (x >>= f).exec m = match x.exec m with
      | (.ok a, m') => (f a).exec m'
      | (.error h, m') => (.error h, m') := by
  show (ExceptT.bind x f).run m = _
  rw [ExceptT.bind, ExceptT.mk]
  show StateT.run (StateT.bind x (ExceptT.bindCont f)) m = _
  rw [EvalM.exec]
  show ExceptT.bindCont f (StateT.run x.run m).1 (StateT.run x.run m).2 = _
  rcases StateT.run x.run m with ⟨a | a, m'⟩ <;> rfl

theorem exec_bind_ok {x : EvalM α} {m m' : Machine} {a : α} (h : x.exec m = (.ok a, m'))
    (f : α → EvalM β) : (x >>= f).exec m = (f a).exec m' := by
  rw [exec_bind, h]

theorem exec_bind_error {x : EvalM α} {m m' : Machine} {e : Halt} (h : x.exec m = (.error e, m'))
    (f : α → EvalM β) : (x >>= f).exec m = (.error e, m') := by
  rw [exec_bind, h]

end EvalM

structure Advance (W : FrameId → Prop) (r r' : Region) (m m' : Machine) : Prop where
  le : r ≤ r'
  newScope : ∀ {s}, r'.scope s → r.scope s ∨ m.frames.size ≤ s.id.index
  newCell : ∀ {c}, r'.cell c → r.cell c ∨ m.cells.size ≤ c.index
  frames : m.frames.size ≤ m'.frames.size
  cells : m.cells.size ≤ m'.cells.size
  keptFrame : ∀ {f}, f.index < m.frames.size → ¬W f → m'.frame? f = m.frame? f
  keptCell : ∀ {c : CellId}, c.index < m.cells.size → ¬r.cell c →
    m'.cells[c.index]? = m.cells[c.index]?
  names : ∀ {f name}, (m.defined? f name).isSome → (m'.defined? f name).isSome
  silent : m.sink = none → m'.sink = none

namespace Advance

variable {W : FrameId → Prop} {r r' r'' : Region} {m m' m'' : Machine}

theorem refl (W : FrameId → Prop) (r : Region) (m : Machine) : Advance W r r m m where
  le := le_refl r
  newScope := .inl
  newCell := .inl
  frames := Nat.le_refl _
  cells := Nat.le_refl _
  keptFrame _ _ := rfl
  keptCell _ _ := rfl
  names := id
  silent := id

theorem trans (h : Advance W r r' m m') (k : Advance W r' r'' m' m'') :
    Advance W r r'' m m'' where
  le := h.le.trans k.le
  newScope hs := by
    rcases k.newScope hs with hs | hs
    · exact h.newScope hs
    · exact .inr (Nat.le_trans h.frames hs)
  newCell hc := by
    rcases k.newCell hc with hc | hc
    · exact h.newCell hc
    · exact .inr (Nat.le_trans h.cells hc)
  frames := Nat.le_trans h.frames k.frames
  cells := Nat.le_trans h.cells k.cells
  keptFrame hf hw := (k.keptFrame (Nat.lt_of_lt_of_le hf h.frames) hw).trans (h.keptFrame hf hw)
  keptCell {c} hc hr := by
    have outside : ¬r'.cell c := by
      intro hc'
      rcases h.newCell hc' with hc' | hc'
      · exact hr hc'
      · omega
    exact (k.keptCell (Nat.lt_of_lt_of_le hc h.cells) outside).trans (h.keptCell hc hr)
  names hn := k.names (h.names hn)
  silent hs := k.silent (h.silent hs)

end Advance

/-- New frames may be written to, and so may those that natives evaluate in. -/
structure Machine.Grants (p : Policy) (W : FrameId → Prop) (m : Machine) : Prop where
  fresh : ∀ {f : FrameId}, m.frames.size ≤ f.index → W f
  evals : ∀ {s}, p.evals s → W s.id

theorem Machine.Grants.advance {p : Policy} {W : FrameId → Prop} {r r' : Region}
    {m m' : Machine} (h : m.Grants p W) (k : Advance W r r' m m') : m'.Grants p W where
  fresh hf := h.fresh (Nat.le_trans k.frames hf)
  evals := h.evals

abbrev Agreement := Region → Machine → Machine → Prop

/-- An agreement that evaluation cannot tell from equality: what it reads is equal, and what it
does keeps the machines in agreement. Either both trace alike, or nothing that is traced can fail
and the trace is left out of account. -/
structure Simulation (p : Policy) (A : Agreement) : Prop where
  frames : ∀ {r m₁ m₂}, A r m₁ m₂ → m₁.frames.size = m₂.frames.size
  cells : ∀ {r m₁ m₂}, A r m₁ m₂ → m₁.cells.size = m₂.cells.size
  functions : ∀ {r m₁ m₂}, A r m₁ m₂ → m₁.functions = m₂.functions
  files : ∀ {r m₁ m₂}, A r m₁ m₂ → m₁.files = m₂.files
  binding : ∀ {r m₁ m₂ s name}, A r m₁ m₂ → r.scope s → m₁.local? s name = m₂.local? s name
  content : ∀ {r m₁ m₂ c}, A r m₁ m₂ → r.cell c → m₁.cellContent c = m₂.cellContent c
  tracing :
    ((∀ {r m₁ m₂ s}, A r m₁ m₂ → r.scope s → m₁.isTraced s = m₂.isTraced s) ∧
      ∀ {r m₁ m₂ t}, A r m₁ m₂ → A r (m₁.log t) (m₂.log t)) ∨
    (¬p.absent ∧ ∀ {r m₁ m₂ t}, A r m₁ m₂ → A r (m₁.log t) m₂ ∧ A r m₁ (m₂.log t))
  newFrame : ∀ {r m₁ m₂ parent given}, m₁.Closed p r → A r m₁ m₂ →
    (∀ s, parent = some s → r.scope s) → (∀ e ∈ given.entries, e.2.Within p r) →
    A (r.withScope (m₁.newFrame parent given).1) (m₁.newFrame parent given).2
      (m₂.newFrame parent given).2
  newCell : ∀ {r m₁ m₂ v}, m₁.Closed p r → A r m₁ m₂ → v.Within p r →
    A (r.withCell (m₁.newCell v).1) (m₁.newCell v).2 (m₂.newCell v).2
  newFunction : ∀ {r m₁ m₂}, A r m₁ m₂ → A r m₁.newFunction.2 m₂.newFunction.2
  define : ∀ {r m₁ m₂ s name v}, m₁.Closed p r → A r m₁ m₂ → r.scope s → v.Within p r →
    A r (m₁.define s name v) (m₂.define s name v)
  setCell : ∀ {r m₁ m₂ c v}, m₁.Closed p r → A r m₁ m₂ → r.cell c → v.Within p r →
    A r (m₁.setCell c v) (m₂.setCell c v)
  write : ∀ {r m₁ m₂ t}, A r m₁ m₂ → A r (m₁.write t) (m₂.write t)

theorem Simulation.lookup {p : Policy} {A : Agreement} (sim : Simulation p A) {r : Region}
    {m₁ m₂ : Machine} (closed : m₁.Closed p r) (agree : A r m₁ m₂) (name : Text) :
    (s : Scope) → r.scope s → m₁.lookup name s = m₂.lookup name s
  | .frame id given none, hs => sim.binding agree hs
  | .frame id given (some parent), hs => by
    have outside := sim.lookup closed agree name parent (closed.parent hs rfl)
    rw [Machine.lookup, Machine.lookup, sim.binding agree hs, outside]

/-- Two computations that give the same answer on machines that agree, and keep them in
agreement. -/
def Twins {α : Type} (p : Policy) (W : FrameId → Prop) (A : Agreement) (r : Region)
    (P : Region → α → Prop) (x y : EvalM α) : Prop :=
  ∀ m₁ m₂, m₁.Closed p r → m₁.Grants p W → A r m₁ m₂ →
    ∃ r', Advance W r r' m₁ (x.exec m₁).2 ∧ (x.exec m₁).2.Closed p r' ∧
      A r' (x.exec m₁).2 (y.exec m₂).2 ∧ (x.exec m₁).1 = (y.exec m₂).1 ∧
      Meets (Halt.Within p r') (P r') (x.exec m₁).1

theorem Twins.bind {α β : Type} {p : Policy} {W : FrameId → Prop} {A : Agreement} {r : Region}
    {P : Region → α → Prop} {Q : Region → β → Prop} {x y : EvalM α} {f g : α → EvalM β}
    (h : Twins p W A r P x y)
    (hf : ∀ r' a, r ≤ r' → P r' a → Twins p W A r' Q (f a) (g a)) :
    Twins p W A r Q (x >>= f) (y >>= g) := by
  intro m₁ m₂ closed grants agree
  obtain ⟨r', advance, closed', agree', same, answer⟩ := h m₁ m₂ closed grants agree
  rw [EvalM.exec_bind, EvalM.exec_bind]
  rcases h₁ : x.exec m₁ with ⟨o₁, m₁'⟩
  rcases h₂ : y.exec m₂ with ⟨o₂, m₂'⟩
  rw [h₁, h₂] at same agree'
  rw [h₁] at advance closed' answer
  dsimp only at same agree' advance closed' answer
  subst same
  cases o₁ with
  | error e => exact ⟨r', advance, closed', agree', rfl, answer⟩
  | ok a =>
    obtain ⟨r'', next, closed'', agree'', same', answer'⟩ :=
      hf r' a advance.le answer m₁' m₂' closed' (grants.advance advance) agree'
    exact ⟨r'', advance.trans next, closed'', agree'', same', answer'⟩

theorem Twins.run {α : Type} {p : Policy} {W : FrameId → Prop} {A : Agreement} {r : Region}
    {P : Region → α → Prop} {x y : EvalM α} {m₁ m₂ n₁ n₂ : Machine} {o₁ o₂ : Except Halt α}
    (h : Twins p W A r P x y) (h₁ : x.exec m₁ = (o₁, n₁)) (h₂ : y.exec m₂ = (o₂, n₂))
    (closed : m₁.Closed p r) (grants : m₁.Grants p W) (agree : A r m₁ m₂) :
    o₁ = o₂ ∧ ∃ r', Advance W r r' m₁ n₁ ∧ n₁.Closed p r' ∧ A r' n₁ n₂ ∧
      Meets (Halt.Within p r') (P r') o₁ := by
  obtain ⟨r', advance, closed', agree', same, answer⟩ := h m₁ m₂ closed grants agree
  rw [h₁, h₂] at same agree'
  rw [h₁] at advance closed' answer
  exact ⟨same, r', advance, closed', agree', answer⟩

def Safe {α : Type} (p : Policy) (W : FrameId → Prop) (A : Agreement) (r : Region)
    (P : Region → α → Prop) (x : EvalM α) : Prop := Twins p W A r P x x

namespace Safe

variable {α β : Type} {p : Policy} {W : FrameId → Prop} {A : Agreement} {r : Region}
variable {P : Region → α → Prop} {Q : Region → β → Prop}

/-- A computation that leaves the machine alone and gives a fixed answer. -/
theorem of_answer {x : EvalM α} {o : Except Halt α} (h : ∀ m, x.exec m = (o, m))
    (ho : Meets (Halt.Within p r) (P r) o) : Safe p W A r P x := by
  intro m₁ m₂ closed _ agree
  rw [h, h]
  exact ⟨r, Advance.refl W r m₁, closed, agree, rfl, ho⟩

theorem pure {a : α} (ha : P r a) : Safe p W A r P (pure a) :=
  of_answer (fun _ => rfl) ha

theorem outOfFuel : Safe p W A r P (throw .outOfFuel) :=
  of_answer (fun _ => rfl) trivial

theorem fail {e : Error} (he : e.Within p r) : Safe p W A r P (EvalM.fail e) :=
  of_answer (fun _ => rfl) he

theorem ofExcept {o : Except Error α} (h : Meets (Error.Within p r) (P r) o) :
    Safe p W A r P (EvalM.ofExcept o) := by
  cases o with
  | error e => exact fail h
  | ok a => exact pure h

theorem bind {x : EvalM α} {f : α → EvalM β} (hx : Safe p W A r P x)
    (hf : ∀ r' a, r ≤ r' → P r' a → Safe p W A r' Q (f a)) : Safe p W A r Q (x >>= f) :=
  Twins.bind hx hf

theorem weaken {P' : Region → α → Prop} {x : EvalM α} (hx : Safe p W A r P x)
    (hP : ∀ r' a, P r' a → P' r' a) : Safe p W A r P' x := by
  intro m₁ m₂ closed grants agree
  obtain ⟨r', advance, closed', agree', same, answer⟩ := hx m₁ m₂ closed grants agree
  exact ⟨r', advance, closed', agree', same, answer.weaken (fun _ => id) (hP r')⟩

theorem map {x : EvalM α} {f : α → β} (hx : Safe p W A r P x)
    (hf : ∀ r' a, r ≤ r' → P r' a → Q r' (f a)) : Safe p W A r Q (f <$> x) := by
  rw [map_eq_pure_bind]
  exact hx.bind fun r' a le ha => Safe.pure (hf r' a le ha)

theorem read {f : Machine → EvalM α}
    (same : ∀ m₁ m₂, m₁.Closed p r → A r m₁ m₂ → f m₁ = f m₂)
    (h : ∀ m, m.Closed p r → Safe p W A r P (f m)) : Safe p W A r P (get >>= f) := by
  intro m₁ m₂ closed grants agree
  have run (m : Machine) : (get >>= f).exec m = (f m).exec m :=
    EvalM.exec_bind_ok (EvalM.exec_get m) f
  rw [run, run, ← same m₁ m₂ closed agree]
  exact h m₁ closed m₁ m₂ closed grants agree

/-- What a safe computation that succeeds on one machine leaves there. -/
theorem run {x : EvalM α} {m m' : Machine} {a : α} (h : x.exec m = (.ok a, m'))
    (closed : m.Closed p r) (grants : m.Grants p W)
    (safe : Safe p W (fun _ m₁ m₂ => m₁ = m₂) r P x) :
    ∃ r', Advance W r r' m m' ∧ m'.Closed p r' ∧ P r' a := by
  obtain ⟨r', advance, closed', _, _, answer⟩ := safe m m closed grants rfl
  rw [h] at advance closed' answer
  exact ⟨r', advance, closed', answer⟩

end Safe

end MiniLisp
