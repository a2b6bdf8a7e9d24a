import MiniLisp.Proofs.Primitives

/-! Three agreements of machines that evaluation cannot tell from equality: to be equal, to be equal
up to the trace, and to agree on a region whatever is outside of it. -/
namespace MiniLisp

theorem equality_simulation (p : Policy) : Simulation p fun _ m₁ m₂ => m₁ = m₂ where
  frames h := h ▸ rfl
  cells h := h ▸ rfl
  functions h := h ▸ rfl
  files h := h ▸ rfl
  binding h _ := h ▸ rfl
  content h _ := h ▸ rfl
  tracing := .inl ⟨fun h _ => h ▸ rfl, fun h => h ▸ rfl⟩
  newFrame _ h _ _ := h ▸ rfl
  newCell _ h _ := h ▸ rfl
  newFunction h := h ▸ rfl
  define _ h _ _ := h ▸ rfl
  setCell _ h _ _ := h ▸ rfl
  write h := h ▸ rfl

def Machine.untraced (m : Machine) : Machine := { m with sink := none }

theorem Machine.untraced_of_silent {m : Machine} (silent : m.sink = none) : m.untraced = m := by
  rw [Machine.untraced, ← silent]

theorem Machine.lookup_untraced (m : Machine) (name : Text) (s : Scope) :
    m.untraced.lookup name s = m.lookup name s := by
  have same (s : Scope) : m.untraced.local? s name = m.local? s name := rfl
  exact lookup_congr same s

theorem Machine.Closed.untraced {p : Policy} {r : Region} {m : Machine} (h : m.Closed p r) :
    m.untraced.Closed p r := ⟨h.parent, h.binding, h.content, h.evals⟩

theorem untraced_simulation {p : Policy} (present : ¬p.absent) :
    Simulation p fun _ m₁ m₂ => m₁.untraced = m₂.untraced where
  frames h := congrArg (fun m => m.frames.size) h
  cells h := congrArg (fun m => m.cells.size) h
  functions h := congrArg (fun m => m.functions) h
  files h := congrArg (fun m => m.files) h
  binding {_ _ _ s name} h _ := congrArg (fun m => m.local? s name) h
  content {_ _ _ c} h _ := congrArg (fun m => m.cellContent c) h
  tracing := .inr ⟨present, fun h => ⟨h, h⟩⟩
  newFrame {_ _ _ parent given} _ h _ _ := congrArg (fun m => (m.newFrame parent given).2) h
  newCell {_ _ _ v} _ h _ := congrArg (fun m => (m.newCell v).2) h
  newFunction h := congrArg (fun m => m.newFunction.2) h
  define {_ _ _ s name v} _ h _ _ := congrArg (fun m => m.define s name v) h
  setCell {_ _ _ c v} _ h _ _ := congrArg (fun m => m.setCell c v) h
  write {_ _ _ t} h := congrArg (fun m => m.write t) h

structure Machine.AgreesOn (r : Region) (m₁ m₂ : Machine) : Prop where
  binding : ∀ {s}, r.scope s → ∀ name, m₁.local? s name = m₂.local? s name
  traced : ∀ {s}, r.scope s → m₁.isTraced s = m₂.isTraced s
  content : ∀ {c}, r.cell c → m₁.cellContent c = m₂.cellContent c

structure Machine.SameCounts (m₁ m₂ : Machine) : Prop where
  frames : m₁.frames.size = m₂.frames.size
  cells : m₁.cells.size = m₂.cells.size
  functions : m₁.functions = m₂.functions
  files : m₁.files = m₂.files

/-- Machines that agree on a region and have written the same since their outputs were `o₁` and
`o₂`. -/
structure Machine.Alike (o₁ o₂ : Text) (r : Region) (m₁ m₂ : Machine) : Prop where
  counts : m₁.SameCounts m₂
  agree : m₁.AgreesOn r m₂
  written : ∃ w, m₁.output = o₁ ++ w ∧ m₂.output = o₂ ++ w

namespace Machine

theorem isTraced_newFrame (m : Machine) (parent : Option Scope) (given : Table Text Value)
    (s : Scope) : (m.newFrame parent given).2.isTraced s =
      if s.id.index = m.frames.size then (parent.map m.isTraced).getD false
      else m.isTraced s := by
  simp only [isTraced, newFrame, frame?, Array.getElem?_push]
  split
  · cases parent with
    | none => simp
    | some t => rfl
  · rfl

theorem isTraced_define (m : Machine) (s : Scope) (name : Text) (v : Value) (t : Scope) :
    (m.define s name v).isTraced t = m.isTraced t := by
  rw [isTraced, isTraced, frame?_define]
  split
  · cases m.frame? t.id <;> rfl
  · rfl

namespace AgreesOn

variable {r : Region} {m₁ m₂ : Machine}

theorem symm (h : m₁.AgreesOn r m₂) : m₂.AgreesOn r m₁ where
  binding hs name := (h.binding hs name).symm
  traced hs := (h.traced hs).symm
  content hc := (h.content hc).symm

theorem mono {r' : Region} (h : m₁.AgreesOn r m₂) (le : r' ≤ r) : m₁.AgreesOn r' m₂ where
  binding hs := h.binding (le.1 _ hs)
  traced hs := h.traced (le.1 _ hs)
  content hc := h.content (le.2 _ hc)

theorem closed {p : Policy} (h : m₁.AgreesOn r m₂) (closed : m₁.Closed p r) : m₂.Closed p r where
  parent := closed.parent
  binding hs hv := closed.binding hs ((h.binding hs _).trans hv)
  content hc := h.content hc ▸ closed.content hc
  evals := closed.evals

theorem newFrame (h : m₁.AgreesOn r m₂) (same : m₁.frames.size = m₂.frames.size)
    {parent : Option Scope} (hp : ∀ s, parent = some s → r.scope s) (given : Table Text Value) :
    (m₁.newFrame parent given).2.AgreesOn (r.withScope (m₁.newFrame parent given).1)
      (m₂.newFrame parent given).2 where
  binding {s} hs name := by
    rw [local?_newFrame, local?_newFrame]
    rcases hs with hs | rfl
    · exact h.binding hs name
    · rw [local?_new]
      have frame : (m₁.newFrame parent given).1 = (m₂.newFrame parent given).1 := by
        rw [Machine.newFrame, Machine.newFrame, same]
      rw [frame, local?_new]
  traced {s} hs := by
    rw [isTraced_newFrame, isTraced_newFrame, same]
    split
    · cases parent with
      | none => rfl
      | some t => exact h.traced (hp t rfl)
    · rename_i old
      rcases hs with hs | rfl
      · exact h.traced hs
      · exact absurd same old
  content hc := h.content hc

theorem newCell (h : m₁.AgreesOn r m₂) (same : m₁.cells.size = m₂.cells.size) (v : Value) :
    (m₁.newCell v).2.AgreesOn (r.withCell (m₁.newCell v).1) (m₂.newCell v).2 where
  binding hs := h.binding hs
  traced hs := h.traced hs
  content {c} hc := by
    rw [cellContent_newCell, cellContent_newCell, same]
    split
    · rfl
    · rename_i old
      rcases hc with hc | rfl
      · exact h.content hc
      · exact absurd same old

theorem define (h : m₁.AgreesOn r m₂) (same : m₁.frames.size = m₂.frames.size) (s : Scope)
    (name : Text) (v : Value) : (m₁.define s name v).AgreesOn r (m₂.define s name v) where
  binding ht n := by
    rw [local?_define, local?_define, same, h.binding ht n]
  traced ht := by
    rw [isTraced_define, isTraced_define, h.traced ht]
  content hc := h.content hc

theorem setCell (h : m₁.AgreesOn r m₂) (same : m₁.cells.size = m₂.cells.size) (c : CellId)
    (v : Value) : (m₁.setCell c v).AgreesOn r (m₂.setCell c v) where
  binding hs := h.binding hs
  traced hs := h.traced hs
  content hd := by
    rw [cellContent_setCell, cellContent_setCell, same, h.content hd]

theorem log (h : m₁.AgreesOn r m₂) (t : Text) : (m₁.log t).AgreesOn r (m₂.log t) where
  binding hs := h.binding hs
  traced hs := by
    have traced := h.traced hs
    simpa [isTraced, Machine.log, frame?] using traced
  content hc := h.content hc

end AgreesOn

theorem SameCounts.symm {m₁ m₂ : Machine} (h : m₁.SameCounts m₂) : m₂.SameCounts m₁ :=
  ⟨h.frames.symm, h.cells.symm, h.functions.symm, h.files.symm⟩

theorem Alike.symm {o₁ o₂ : Text} {r : Region} {m₁ m₂ : Machine} (h : m₁.Alike o₁ o₂ r m₂) :
    m₂.Alike o₂ o₁ r m₁ := by
  obtain ⟨w, h₁, h₂⟩ := h.written
  exact ⟨h.counts.symm, h.agree.symm, w, h₂, h₁⟩

end Machine

theorem region_simulation (p : Policy) (o₁ o₂ : Text) :
    Simulation p fun r m₁ m₂ => m₁.Alike o₁ o₂ r m₂ where
  frames h := h.counts.frames
  cells h := h.counts.cells
  functions h := h.counts.functions
  files h := h.counts.files
  binding h hs := h.agree.binding hs _
  content h hc := h.agree.content hc
  tracing := .inl ⟨fun h hs => h.agree.traced hs, fun h => ⟨⟨h.counts.frames, h.counts.cells,
    h.counts.functions, h.counts.files⟩, h.agree.log _, h.written⟩⟩
  newFrame _ h hp _ := by
    refine ⟨⟨?_, h.counts.cells, h.counts.functions, h.counts.files⟩,
      h.agree.newFrame h.counts.frames hp _, h.written⟩
    simp only [Machine.newFrame, Array.size_push, h.counts.frames]
  newCell _ h _ := by
    refine ⟨⟨h.counts.frames, ?_, h.counts.functions, h.counts.files⟩,
      h.agree.newCell h.counts.cells _, h.written⟩
    simp only [Machine.newCell, Array.size_push, h.counts.cells]
  newFunction h := ⟨⟨h.counts.frames, h.counts.cells, congrArg (· + 1) h.counts.functions,
    h.counts.files⟩, ⟨h.agree.binding, h.agree.traced, h.agree.content⟩, h.written⟩
  define _ h _ _ := by
    refine ⟨⟨?_, h.counts.cells, h.counts.functions, h.counts.files⟩,
      h.agree.define h.counts.frames _ _ _, h.written⟩
    rw [Machine.size_define, Machine.size_define, h.counts.frames]
  setCell _ h _ _ := by
    refine ⟨⟨h.counts.frames, ?_, h.counts.functions, h.counts.files⟩,
      h.agree.setCell h.counts.cells _ _, h.written⟩
    simp only [Machine.setCell, Array.size_setIfInBounds, h.counts.cells]
  write {r m₁ m₂ t} h := by
    obtain ⟨w, h₁, h₂⟩ := h.written
    refine ⟨⟨h.counts.frames, h.counts.cells, h.counts.functions, h.counts.files⟩,
      ⟨h.agree.binding, h.agree.traced, h.agree.content⟩, w ++ t, ?_, ?_⟩
    · rw [Machine.write, h₁, ByteArray.append_assoc]
    · rw [Machine.write, h₂, ByteArray.append_assoc]

end MiniLisp
