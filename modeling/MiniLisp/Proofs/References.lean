import MiniLisp.Proofs.Bounds

/-! Cells and frames that something in a session refers to were made, closures have a scope, and
every frame is younger than the frame around it, so that looking a name up comes to an end. -/
namespace MiniLisp

/-- A walk should meet neither an absent value, nor a cell or a frame that was not made, nor a
closure without a scope, nor a frame inside a younger one. -/
def Item.Sound (m : Machine) : Item → Prop
  | .value .null => False
  | .value (.cell c) => c.index < m.cells.size
  | .value (.closure _ _ _ captured) => captured.isSome
  | .value _ => True
  | .scope s => s.id.index < m.frames.size ∧ ∀ t, s.parent = some t → t.id.index < s.id.index

def Machine.SoundFrom (m : Machine) (x : Item) : Prop := ∀ y, Accesses m [x] y → y.Sound m

namespace Machine.SoundFrom

variable {m : Machine} {x y : Item}

theorem sound (h : m.SoundFrom x) : x.Sound m := h x (.root List.mem_cons_self)

theorem accesses (h : m.SoundFrom x) (hy : Accesses m [x] y) : m.SoundFrom y := by
  rintro z ⟨root, hroot, walk⟩
  rcases List.mem_singleton.mp hroot with rfl
  obtain ⟨start, hstart, before⟩ := hy
  exact h z ⟨start, hstart, before.trans walk⟩

end Machine.SoundFrom

def Scope.chain : Scope → List Scope
  | .frame id given none => [.frame id given none]
  | .frame id given (some parent) => .frame id given (some parent) :: parent.chain

/-- A name is looked up in one frame of the chain after another. -/
theorem Machine.lookup_eq_findSome? (m : Machine) (name : Text) :
    (s : Scope) → m.lookup name s = s.chain.findSome? fun t => m.local? t name
  | .frame id given none => by
    rw [Machine.lookup, Scope.chain, List.findSome?_cons, List.findSome?_nil]
    cases m.local? (.frame id given none) name <;> rfl
  | .frame id given (some parent) => by
    rw [Machine.lookup, Scope.chain, List.findSome?_cons, m.lookup_eq_findSome? name parent]
    cases m.local? (.frame id given (some parent)) name <;> rfl

/-- The region consists of the cells and frames that were made, each frame inside of older ones. -/
structure Machine.Spans (r : Region) (m : Machine) : Prop where
  made : ∀ {s}, r.scope s → s.id.index < m.frames.size
  older : ∀ {s t}, r.scope s → s.parent = some t → t.id.index < s.id.index
  frames : ∀ {f : FrameId}, f.index < m.frames.size → ∃ s, r.scope s ∧ s.id = f
  cells : ∀ {c}, r.cell c ↔ c.index < m.cells.size

namespace Machine.Spans

variable {r : Region} {m : Machine}

theorem newFrame (h : m.Spans r) {parent : Option Scope} (hp : ∀ s, parent = some s → r.scope s)
    (given : Table Text Value) :
    (m.newFrame parent given).2.Spans (r.withScope (m.newFrame parent given).1) where
  made := by
    rintro s (hs | rfl)
    · exact Nat.lt_of_lt_of_eq (Nat.lt_succ_of_lt (h.made hs)) (Array.size_push _).symm
    · exact m.index_newFrame_lt (Nat.le_refl _)
  older := by
    rintro s t (hs | rfl) ht
    · exact h.older hs ht
    · exact h.made (hp t ht)
  frames := by
    intro f hf
    have size : (m.newFrame parent given).2.frames.size = m.frames.size + 1 := Array.size_push _
    rcases Nat.lt_or_eq_of_le (Nat.le_of_lt_succ (size ▸ hf)) with old | new
    · obtain ⟨s, hs, same⟩ := h.frames old
      exact ⟨s, .inl hs, same⟩
    · refine ⟨(m.newFrame parent given).1, .inr rfl, ?_⟩
      exact congrArg FrameId.mk new.symm
  cells := h.cells

theorem newCell (h : m.Spans r) (v : Value) :
    (m.newCell v).2.Spans (r.withCell (m.newCell v).1) where
  made := h.made
  older := h.older
  frames := h.frames
  cells {c} := by
    have size : (m.newCell v).2.cells.size = m.cells.size + 1 := Array.size_push _
    rw [size, Nat.lt_succ_iff_lt_or_eq]
    refine or_congr h.cells ⟨?_, ?_⟩
    · rintro rfl
      rfl
    · exact congrArg CellId.mk

/-- Frames and cells may change, as long as there are as many. -/
theorem of_sizes {n : Machine} (h : m.Spans r) (frames : n.frames.size = m.frames.size)
    (cells : n.cells.size = m.cells.size) : n.Spans r where
  made hs := frames ▸ h.made hs
  older := h.older
  frames hf := h.frames (frames ▸ hf)
  cells := cells ▸ h.cells

theorem persists : Persists fun r m => m.Spans r where
  newFrame _ h hp _ := h.newFrame hp _
  newCell _ h _ := h.newCell _
  newFunction h := h.of_sizes rfl rfl
  define {_ _ m v} s name _ h _ := h.of_sizes (m.size_define s name v) rfl
  setCell _ _ h _ := h.of_sizes rfl Array.size_setIfInBounds
  setTraced {_ m} s b h := h.of_sizes (m.size_setTraced s b) rfl
  host _ _ _ h := h.of_sizes rfl rfl

theorem blank (sink : Option Sink) (files : Assoc Text Text) :
    (Machine.blank sink files).Spans .nothing where
  made hs := hs.elim
  older hs := hs.elim
  frames hf := absurd hf (Nat.not_lt_zero _)
  cells := ⟨fun hc => hc.elim, fun hc => absurd hc (Nat.not_lt_zero _)⟩

variable {evals : Scope → Prop}

theorem sound (h : m.Spans r) {x : Item} (hx : x.Within (.strict evals) r) : x.Sound m := by
  cases x with
  | scope s => exact ⟨h.made hx, fun t ht => h.older hx ht⟩
  | value v =>
    cases hx with
    | null absent => exact absent
    | cell hc => exact h.cells.mp hc
    | @closure _ _ _ captured _ _ attached =>
      cases captured with
      | none => exact (attached rfl).elim
      | some s => exact rfl
    | _ => exact trivial

/-- No walk leaves the region, so all it meets is sound. -/
theorem soundFrom (h : m.Spans r) (closed : m.Closed (.strict evals) r) {x : Item}
    (hx : x.Within (.strict evals) r) : m.SoundFrom x := by
  intro y hy
  refine h.sound (closed.accesses (fun z hz => ?_) hy)
  exact List.mem_singleton.mp hz ▸ hx

end Machine.Spans

/-- What is there for a program, or for the next request, to begin with: the frames of the session,
whatever is defined in any frame, and what the cells contain. -/
inductive Session.Holds (session : Session) (m : Machine) : Item → Prop where
  | core : Holds session m (.scope session.core)
  | global : Holds session m (.scope session.global)
  | defined {f : FrameId} {name : Text} {v : Value} : m.defined? f name = some v →
      Holds session m (.value v)
  | content {c : CellId} : c.index < m.cells.size → Holds session m (.value (m.cellContent c))

def raised {α : Type} : Except Halt α → List Item
  | .error (.error (.thrown v _)) => [.value v]
  | _ => []

def handedOut : Except Halt Response → List Item
  | .ok (.value v _ _) => [.value v]
  | o => raised o

section

variable {session : Session} {r : Region} {m : Machine}

theorem Session.Holds.within (tidy : session.Tidy r m) (spans : m.Spans r) {x : Item}
    (h : session.Holds m x) : x.Within session.plain r := by
  cases h with
  | core => exact tidy.core
  | global => exact tidy.global
  | @defined f name v hv =>
    have made : f.index < m.frames.size := by
      by_contra later
      rw [Machine.defined?, Machine.frame?, Array.getElem?_eq_none (Nat.not_lt.mp later)] at hv
      cases hv
    obtain ⟨s, hs, rfl⟩ := spans.frames made
    have bound : m.local? s name = some v := by
      rw [Machine.local?, hv]
    exact tidy.closed.binding hs bound
  | content hc => exact tidy.closed.content (spans.cells.mpr hc)

theorem raised_within {p : Policy} {α : Type} {o : Except Halt α}
    (h : ∀ e, o = .error e → e.Within p r) : ∀ x ∈ raised o, x.Within p r := by
  intro x hx
  unfold raised at hx
  split at hx
  · rcases List.mem_singleton.mp hx with rfl
    exact h _ rfl
  · cases hx

theorem handedOut_within {p : Policy} {o : Except Halt Response}
    (h : Meets (Halt.Within p r) (Response.Within p r) o) : ∀ x ∈ handedOut o, x.Within p r := by
  intro x hx
  unfold handedOut at hx
  split at hx
  · rcases List.mem_singleton.mp hx with rfl
    exact h
  · refine raised_within (fun e he => ?_) x hx
    subst he
    exact h

namespace Session.Reached

theorem spans (h : session.Reached m) : ∃ r, session.Tidy r m ∧ m.Spans r :=
  h.keeps Machine.Spans.persists Machine.Spans.blank

theorem soundFrom (h : session.Reached m) {x : Item} (held : session.Holds m x) :
    m.SoundFrom x := by
  obtain ⟨r, tidy, spans⟩ := h.spans
  exact spans.soundFrom tidy.closed (held.within tidy spans)

theorem answers (h : session.Reached m) {fuel : Nat} {q : Request} {o : Except Halt Response}
    {n : Machine} (run : (q.run fuel session).exec m = (o, n)) :
    (∀ what, o ≠ .error (.error (.absent what))) ∧ ∀ x ∈ handedOut o, n.SoundFrom x := by
  obtain ⟨r, tidy, spans⟩ := h.spans
  obtain ⟨-, r', ⟨-, spans'⟩, tidy', answer⟩ :=
    tidy.answers Machine.Spans.persists.blind ⟨rfl, spans⟩ run run
  constructor
  · rintro what rfl
    exact answer
  · intro x hx
    exact spans'.soundFrom tidy'.closed (handedOut_within answer x hx)

end Session.Reached

end

end MiniLisp
