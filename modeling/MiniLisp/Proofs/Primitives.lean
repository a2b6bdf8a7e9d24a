import MiniLisp.Proofs.Safety

/-! What each effect of a machine does to the bindings of frames and the contents of cells, and that
it is safe. -/
namespace MiniLisp

namespace Machine

variable (m : Machine)

theorem frame?_newFrame (parent : Option Scope) (given : Table Text Value) {f : FrameId}
    (h : f.index < m.frames.size) : (m.newFrame parent given).2.frame? f = m.frame? f := by
  simp only [newFrame, frame?, Array.getElem?_push]
  rw [if_neg (by omega)]

/-- A new frame is the last one, and stays below the number of frames. -/
theorem index_newFrame_lt {m' : Machine} {parent : Option Scope} {given : Table Text Value}
    (h : (m.newFrame parent given).2.frames.size ≤ m'.frames.size) :
    (m.newFrame parent given).1.id.index < m'.frames.size := by
  have pushed : (m.newFrame parent given).2.frames.size = m.frames.size + 1 := Array.size_push _
  have index : (m.newFrame parent given).1.id.index = m.frames.size := rfl
  omega

theorem defined?_newFrame (parent : Option Scope) (given : Table Text Value) (f : FrameId)
    (name : Text) : (m.newFrame parent given).2.defined? f name = m.defined? f name := by
  simp only [newFrame, defined?, frame?, Array.getElem?_push]
  split
  · rename_i h
    have old : m.frames[f.index]? = none := Array.getElem?_eq_none (by omega)
    rw [old, Option.bind_some, Option.bind_none, Std.TreeMap.getElem?_emptyc]
  · rfl

theorem local?_congr {m₁ m₂ : Machine} {s : Scope} {name : Text}
    (h : m₁.defined? s.id name = m₂.defined? s.id name) :
    m₁.local? s name = m₂.local? s name := by
  rw [local?, local?, h]

@[simp] theorem local?_newFrame (parent : Option Scope) (given : Table Text Value) (s : Scope)
    (name : Text) : (m.newFrame parent given).2.local? s name = m.local? s name :=
  local?_congr (m.defined?_newFrame parent given s.id name)

theorem local?_new (parent : Option Scope) (given : Table Text Value) (name : Text) :
    m.local? (m.newFrame parent given).1 name = given.find? name := by
  have old : m.defined? (m.newFrame parent given).1.id name = none := by
    rw [defined?, frame?]
    show (m.frames[m.frames.size]?).bind _ = none
    rw [Array.getElem?_eq_none (Nat.le_refl _), Option.bind_none]
  rw [local?, old]
  rfl

theorem getElem?_modifyFrame (frames : Array Frame) (change : Frame → Frame) (f g : FrameId) :
    (frames.modify g.index change)[f.index]? =
      if f = g then frames[f.index]?.map change else frames[f.index]? := by
  rw [Array.getElem?_modify]
  by_cases h : f = g
  · rw [if_pos h, if_pos (congrArg FrameId.index h.symm)]
  · have indices : ¬g.index = f.index := by
      intro same
      cases f
      cases g
      exact h (congrArg FrameId.mk same.symm)
    rw [if_neg indices, if_neg h]

theorem frame?_define (s : Scope) (name : Text) (v : Value) (f : FrameId) :
    (m.define s name v).frame? f =
      if f = s.id then (m.frame? f).map fun frame =>
        { frame with defined := frame.defined.insert name v }
      else m.frame? f := getElem?_modifyFrame _ _ _ _

theorem frame?_setTraced (s : Scope) (traced : Bool) (f : FrameId) :
    (m.setTraced s traced).frame? f =
      if f = s.id then (m.frame? f).map fun frame => { frame with traced := traced }
      else m.frame? f := getElem?_modifyFrame _ _ _ _

theorem defined?_setTraced (s : Scope) (traced : Bool) (f : FrameId) (name : Text) :
    (m.setTraced s traced).defined? f name = m.defined? f name := by
  rw [defined?, frame?_setTraced, defined?]
  split
  · cases m.frame? f <;> rfl
  · rfl

theorem local?_setTraced (s : Scope) (traced : Bool) (t : Scope) (name : Text) :
    (m.setTraced s traced).local? t name = m.local? t name :=
  local?_congr (m.defined?_setTraced s traced t.id name)

theorem size_setTraced (s : Scope) (traced : Bool) :
    (m.setTraced s traced).frames.size = m.frames.size := Array.size_modify

theorem defined?_define (s : Scope) (name : Text) (v : Value) (f : FrameId) (n : Text) :
    (m.define s name v).defined? f n =
      if f = s.id ∧ name = n ∧ s.id.index < m.frames.size then some v else m.defined? f n := by
  rw [defined?, frame?_define]
  by_cases hf : f = s.id
  · subst hf
    rw [if_pos rfl]
    by_cases hi : s.id.index < m.frames.size
    · have found : m.frame? s.id = some m.frames[s.id.index] := Array.getElem?_eq_getElem hi
      rw [defined?, found, Option.map_some, Option.bind_some, Option.bind_some,
        Std.TreeMap.getElem?_insert]
      simp only [Std.LawfulEqCmp.compare_eq_iff_eq]
      by_cases hn : name = n
      · rw [if_pos hn, if_pos ⟨trivial, hn, hi⟩]
      · rw [if_neg hn, if_neg fun h => hn h.2.1]
    · have none : m.frame? s.id = none := Array.getElem?_eq_none (by omega)
      rw [defined?, none, Option.map_none, if_neg fun h => hi h.2.2]
  · rw [if_neg hf, if_neg fun h => hf h.1, defined?]

theorem local?_define (s : Scope) (name : Text) (v : Value) (t : Scope) (n : Text) :
    (m.define s name v).local? t n =
      if t.id = s.id ∧ name = n ∧ s.id.index < m.frames.size then some v else m.local? t n := by
  rw [local?, defined?_define]
  by_cases h : t.id = s.id ∧ name = n ∧ s.id.index < m.frames.size
  · rw [if_pos h, if_pos h]
  · rw [if_neg h, if_neg h, local?]

theorem size_define (s : Scope) (name : Text) (v : Value) :
    (m.define s name v).frames.size = m.frames.size := Array.size_modify

/-- What a name means depends on what frames bind it to. -/
theorem lookup_congr {m₁ m₂ : Machine} {name : Text}
    (same : ∀ s, m₁.local? s name = m₂.local? s name) :
    (s : Scope) → m₁.lookup name s = m₂.lookup name s
  | .frame id given none => same (.frame id given none)
  | .frame id given (some parent) => by
    rw [lookup, lookup, same, lookup_congr same parent]

/-- In a new frame a name means what the frame was made with, or else what it means around. -/
theorem lookup_newFrame (parent : Option Scope) (given : Table Text Value) (name : Text) :
    (m.newFrame parent given).2.lookup name (m.newFrame parent given).1 =
      (given.find? name).or (parent.bind (m.lookup name)) := by
  have around : (m.newFrame parent given).2.lookup name = m.lookup name :=
    funext (lookup_congr fun s => m.local?_newFrame parent given s name)
  rw [lookup_eq, local?_newFrame, local?_new, around]
  rfl

theorem cellContent_newCell (v : Value) (c : CellId) :
    (m.newCell v).2.cellContent c = if c.index = m.cells.size then v else m.cellContent c := by
  simp only [newCell, cellContent, Printer.content, Array.getElem?_push]
  split <;> rfl

theorem cellContent_setCell (c : CellId) (v : Value) (d : CellId) :
    (m.setCell c v).cellContent d =
      if d = c ∧ c.index < m.cells.size then v else m.cellContent d := by
  simp only [setCell, cellContent, Printer.content, Array.getElem?_setIfInBounds]
  by_cases h : c.index = d.index
  · have hd : d = c := by
      cases c
      cases d
      exact congrArg CellId.mk h.symm
    subst hd
    by_cases hi : d.index < m.cells.size
    · simp [hi]
    · simp [hi]
  · have hd : d ≠ c := fun e => h (e ▸ rfl)
    simp [h, hd]

end Machine

namespace Safe

variable {p : Policy} {W : FrameId → Prop} {A : Agreement} {r : Region}

/-- An effect that makes no frame and no cell. -/
theorem effect {f : Machine → Machine} {P : Region → PUnit → Prop} (hP : P r ⟨⟩)
    (advance : ∀ m, m.Closed p r → m.Grants p W → Advance W r r m (f m))
    (closed : ∀ m, m.Closed p r → (f m).Closed p r)
    (agree : ∀ m₁ m₂, m₁.Closed p r → A r m₁ m₂ → A r (f m₁) (f m₂)) :
    Safe p W A r P (modify f) := by
  intro m₁ m₂ closed₁ grants agrees
  exact ⟨r, advance m₁ closed₁ grants, closed m₁ closed₁, agree m₁ m₂ closed₁ agrees, rfl, hP⟩

theorem newFrame (sim : Simulation p A) {parent : Option Scope} {given : Table Text Value}
    (hp : ∀ s, parent = some s → r.scope s) (hg : ∀ e ∈ given.entries, e.2.Within p r) :
    Safe p W A r (fun r s => r.scope s ∧ W s.id) (EvalM.newFrame parent given) := by
  intro m₁ m₂ closed grants agree
  refine ⟨r.withScope (m₁.newFrame parent given).1, ?_, ?_, sim.newFrame closed agree hp hg, ?_, ?_⟩
  · constructor
    · exact r.le_withScope _
    · intro s hs
      rcases hs with hs | rfl
      · exact .inl hs
      · exact .inr (Nat.le_refl _)
    · exact .inl
    · show m₁.frames.size ≤ (m₁.frames.push _).size
      rw [Array.size_push]
      exact Nat.le_succ _
    · exact Nat.le_refl _
    · intro f hf _
      exact m₁.frame?_newFrame parent given hf
    · exact fun _ _ => rfl
    · intro f name hn
      exact (m₁.defined?_newFrame parent given f name).symm ▸ hn
    · exact id
  · have le := r.le_withScope (m₁.newFrame parent given).1
    constructor
    · intro s t hs ht
      rcases hs with hs | rfl
      · exact .inl (closed.parent hs ht)
      · exact .inl (hp t ht)
    · intro s name v hs hv
      replace hv : m₁.local? s name = some v := (m₁.local?_newFrame parent given s name) ▸ hv
      rcases hs with hs | rfl
      · exact (closed.binding hs hv).mono le
      · rw [m₁.local?_new, Table.find?_eq] at hv
        exact (hg (name, v) (Assoc.mem_of_find? hv)).mono le
    · intro c hc
      exact (closed.content hc).mono le
    · intro s hs
      exact .inl (closed.evals hs)
  · show Except.ok (m₁.newFrame parent given).1 = Except.ok (m₂.newFrame parent given).1
    rw [Machine.newFrame, Machine.newFrame, sim.frames agree]
  · exact ⟨.inr rfl, grants.fresh (Nat.le_refl _)⟩

theorem newCell (sim : Simulation p A) {v : Value} (hv : v.Within p r) :
    Safe p W A r (fun r v => v.Within p r) (EvalM.newCell v) := by
  intro m₁ m₂ closed grants agree
  have le := r.le_withCell (m₁.newCell v).1
  refine ⟨r.withCell (m₁.newCell v).1, ?_, ?_, sim.newCell closed agree hv, ?_, ?_⟩
  · constructor
    · exact le
    · exact .inl
    · intro c hc
      rcases hc with hc | rfl
      · exact .inl hc
      · exact .inr (Nat.le_refl _)
    · exact Nat.le_refl _
    · show m₁.cells.size ≤ (m₁.cells.push v).size
      rw [Array.size_push]
      exact Nat.le_succ _
    · exact fun _ _ => rfl
    · intro c hc _
      show (m₁.cells.push v)[c.index]? = _
      rw [Array.getElem?_push, if_neg (by omega)]
    · exact id
    · exact id
  · constructor
    · exact closed.parent
    · intro s name u hs hu
      exact (closed.binding hs hu).mono le
    · intro c hc
      show ((m₁.newCell v).2.cellContent c).Within p _
      rw [m₁.cellContent_newCell]
      split
      · exact hv.mono le
      · rename_i h
        rcases hc with hc | rfl
        · exact (closed.content hc).mono le
        · exact absurd rfl h
    · exact closed.evals
  · show Except.ok (Value.cell ⟨m₁.cells.size⟩) = Except.ok (Value.cell ⟨m₂.cells.size⟩)
    rw [sim.cells agree]
  · exact .cell (.inr rfl)

/-- Functions are told apart by a count that no region depends on. -/
theorem newFunction (sim : Simulation p A) {P : Region → FunId → Prop} (hP : ∀ id, P r id) :
    Safe p W A r P (modifyGet Machine.newFunction) := by
  intro m₁ m₂ closed grants agree
  refine ⟨r, ⟨le_refl r, .inl, .inl, Nat.le_refl _, Nat.le_refl _, fun _ _ => rfl,
    fun _ _ => rfl, id, id⟩, ⟨closed.parent, closed.binding, closed.content, closed.evals⟩,
    sim.newFunction agree, ?_, hP _⟩
  show Except.ok (FunId.mk m₁.functions) = Except.ok (FunId.mk m₂.functions)
  rw [sim.functions agree]

theorem define (sim : Simulation p A) {P : Region → PUnit → Prop} (hP : P r ⟨⟩) {s : Scope}
    {name : Text} {v : Value} (hs : r.scope s) (hw : W s.id) (hv : v.Within p r) :
    Safe p W A r P (EvalM.define s name v) := by
  refine effect hP ?_ ?_ fun m₁ m₂ closed agree => sim.define closed agree hs hv
  · intro m _ _
    refine ⟨le_refl r, .inl, .inl, ?_, Nat.le_refl _, ?_, fun _ _ => rfl, ?_, id⟩
    · exact Nat.le_of_eq (m.size_define s name v).symm
    · intro f _ hf
      rw [m.frame?_define, if_neg]
      intro h
      subst h
      exact hf hw
    · intro f n hn
      rw [m.defined?_define]
      split
      · rfl
      · exact hn
  · intro m closed
    refine ⟨closed.parent, ?_, closed.content, closed.evals⟩
    intro t n u ht hu
    rw [m.local?_define] at hu
    split at hu
    · exact Option.some.inj hu ▸ hv
    · exact closed.binding ht hu

theorem setCell (sim : Simulation p A) {P : Region → PUnit → Prop} (hP : P r ⟨⟩) {c : CellId}
    {v : Value} (hc : r.cell c) (hv : v.Within p r) :
    Safe p W A r P (modify (·.setCell c v)) := by
  refine effect hP ?_ ?_ fun m₁ m₂ closed agree => sim.setCell closed agree hc hv
  · intro m _ _
    refine ⟨le_refl r, .inl, .inl, Nat.le_refl _, ?_, fun _ _ => rfl, ?_, id, id⟩
    · exact Nat.le_of_eq Array.size_setIfInBounds.symm
    · intro d _ hd
      show (m.cells.setIfInBounds c.index v)[d.index]? = _
      rw [Array.getElem?_setIfInBounds_ne]
      intro h
      apply hd
      cases c
      cases d
      cases h
      exact hc
  · intro m closed
    refine ⟨closed.parent, closed.binding, ?_, closed.evals⟩
    intro d hd
    show ((m.setCell c v).cellContent d).Within p r
    rw [m.cellContent_setCell]
    split
    · exact hv
    · exact closed.content hd

theorem write (sim : Simulation p A) {P : Region → PUnit → Prop} (hP : P r ⟨⟩) (t : Text) :
    Safe p W A r P (modify (·.write t)) := by
  refine effect hP ?_ ?_ fun m₁ m₂ _ agree => sim.write agree
  · exact fun m _ _ => ⟨le_refl r, .inl, .inl, Nat.le_refl _, Nat.le_refl _, fun _ _ => rfl,
      fun _ _ => rfl, id, id⟩
  · exact fun m closed => ⟨closed.parent, closed.binding, closed.content, closed.evals⟩

end Safe

end MiniLisp
