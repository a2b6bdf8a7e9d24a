import MiniLisp.Proofs.Scoping

/-! A collection keeps the frames and cells that the collector's edges lead to. Two machines that
agree on these run an expression alike, whatever else they hold. -/
namespace MiniLisp

abbrev Machine.kept (m : Machine) (roots : List Item) : Region := .ofItems (Reaches m roots)

/-- What a run leaves alone: frames and cells that were there before, if the roots did not lead to
them. -/
structure Machine.Untouched (kept : Region) (m m' : Machine) : Prop where
  frames : ∀ f, f.index < m.frames.size → (∀ s, kept.scope s → s.id ≠ f) →
    m'.frame? f = m.frame? f
  cells : ∀ c : CellId, c.index < m.cells.size → ¬kept.cell c →
    m'.cells[c.index]? = m.cells[c.index]?

def Region.writable (r : Region) (m : Machine) (f : FrameId) : Prop :=
  (∃ s, r.scope s ∧ s.id = f) ∨ m.frames.size ≤ f.index

theorem Advance.untouched {r r' : Region} {m₁ m m' : Machine}
    (h : Advance (r.writable m₁) r r' m m') (same : m₁.frames.size = m.frames.size) :
    m.Untouched r m' where
  frames f hf outside := by
    refine h.keptFrame hf fun hw => ?_
    rcases hw with ⟨s, hs, hid⟩ | hnew
    · exact outside s hs hid
    · omega
  cells c hc outside := h.keptCell hc outside

/-- Evaluation on two machines that agree on what an expression, a scope and the global frame of
the session lead to, and are arbitrary elsewhere. -/
theorem evaluation_needs_what_is_reached {session : Session} {m₁ m₂ : Machine} {e : Value}
    {s : Scope} (counts : m₁.SameCounts m₂)
    (agree : m₁.AgreesOn (m₁.kept [.value e, .scope s, .scope session.global]) m₂)
    (owned : session.Owns m₁ [.value e, .scope s, .scope session.global]) (fuel : Nat) :
    let kept := m₁.kept [.value e, .scope s, .scope session.global]
    let run₁ := (eval fuel e s).exec m₁
    let run₂ := (eval fuel e s).exec m₂
    run₁.1 = run₂.1 ∧
      (∃ w, run₁.2.output = m₁.output ++ w ∧ run₂.2.output = m₂.output ++ w) ∧
      run₁.2.SameCounts run₂.2 ∧
      run₁.2.AgreesOn
        (run₁.2.kept (answered run₁.1 ++ [.scope s, .scope session.global])) run₂.2 ∧
      m₁.Untouched kept run₁.2 ∧ m₂.Untouched kept run₂.2 := by
  intro kept run₁ run₂
  have edges : ∀ x y, Reaches m₁ [.value e, .scope s, .scope session.global] x → Edge m₁ x y →
      Reaches m₁ [.value e, .scope s, .scope session.global] y := by
    intro x y hx he
    exact hx.edge he
  have evals : ∀ id t, Reaches m₁ [.value e, .scope s, .scope session.global]
      (.value (.native id (.evalIn t))) → session.policy.evals t :=
    fun id t ht => owned id t ht.accesses
  have hs : kept.scope s := .root (by simp)
  have hglobal : kept.scope session.global := .root (by simp)
  have he : e.Within session.policy kept :=
    within_of_walk edges (fun _ => trivial) evals trivial e (.root (by simp))
  have closed₁ : m₁.Closed session.policy kept :=
    closed_of_walk edges (fun _ => trivial) evals trivial (by rintro t rfl; exact hglobal)
  have closed₂ := agree.closed closed₁
  have grants (m : Machine) (same : m₁.frames.size = m.frames.size) :
      m.Grants session.policy (kept.writable m₁) :=
    ⟨fun hf => .inr (same ▸ hf), by rintro t rfl; exact .inl ⟨_, hglobal, rfl⟩⟩
  have alike : m₁.Alike m₁.output m₂.output kept m₂ :=
    ⟨counts, agree, .empty, ByteArray.append_empty.symm, ByteArray.append_empty.symm⟩
  have writable : kept.writable m₁ s.id := .inl ⟨s, hs, rfl⟩
  obtain ⟨r₁, advance₁, closed', alike', same, answer⟩ :=
    eval_safe (region_simulation session.policy _ _) fuel kept e s he hs writable
      m₁ m₂ closed₁ (grants m₁ rfl) alike
  obtain ⟨r₂, advance₂, _⟩ :=
    eval_safe (region_simulation session.policy _ _) fuel kept e s he hs writable
      m₂ m₁ closed₂ (grants m₂ counts.frames) alike.symm
  -- whatever is reached afterwards lies in the region that the run ended with
  have reached : ∀ x, Reaches run₁.2 (answered run₁.1 ++ [.scope s, .scope session.global]) x →
      x.Within session.policy r₁ := by
    intro x hx
    have before : ∀ y ∈ [Item.scope s, .scope session.global], y.Within session.policy kept := by
      simp [Item.Within, hs, hglobal]
    exact closed'.accesses_afterwards answer advance₁.le before
      (fun y hy => (List.mem_append.mp hy).symm) hx.accesses
  refine ⟨same, alike'.written, alike'.counts, alike'.agree.mono ⟨?_, ?_⟩,
    advance₁.untouched rfl, advance₂.untouched counts.frames⟩
  · intro t ht
    exact reached (.scope t) ht
  · intro c hc
    cases reached (.value (.cell c)) hc with
    | cell h => exact h

def Session.bare : Session :=
  let core := Scope.frame ⟨0⟩ .empty none
  ⟨core, .frame ⟨1⟩ .empty (some core)⟩

/-- The frames of a bare session, beside a frame and a cell that nothing leads to. -/
def Machine.littered (frame : Frame) (content : Value) (output : Text) : Machine :=
  ⟨#[⟨false, ∅⟩, ⟨false, ∅⟩, frame], #[content], 0, output, none, []⟩

def definition : Value :=
  .list #[.sym (ascii "do"), .list #[.sym (ascii "def!"), .sym (ascii "x"), .int 5],
    .sym (ascii "x")]

theorem litter_makes_no_difference :
    let m₁ := Machine.littered ⟨false, ∅⟩ (.int 1) .empty
    let m₂ := Machine.littered ⟨true, (∅ : Bindings).insert (ascii "x") .nil⟩ (.cell ⟨0⟩)
      (ascii "before")
    let run (m : Machine) := (eval 5 definition Session.bare.global).exec m
    (run m₁).1 = (run m₂).1 ∧ ((run m₁).1 matches .ok (.int 5)) ∧
      (run m₂).2.cells[0]? = some (.cell ⟨0⟩) := by
  intro m₁ m₂ run
  let inside : Region := ⟨fun s => s = Session.bare.core ∨ s = Session.bare.global, fun _ => False⟩
  have unbound (m : Machine) (hm : m = m₁ ∨ m = m₂) {s : Scope} (hs : inside.scope s)
      (name : Text) : m.local? s name = none := by
    rcases hm with rfl | rfl <;> rcases hs with rfl | rfl <;> rfl
  have closed : m₁.Closed ⟨False, fun _ => False, True⟩ inside := by
    refine ⟨?_, ?_, fun h => h.elim, fun h => h.elim⟩
    · rintro s t (rfl | rfl) ht
      · cases ht
      · cases ht
        exact .inl rfl
    · intro s name v hs hv
      rw [unbound m₁ (.inl rfl) hs] at hv
      cases hv
  have roots : ∀ x ∈ [Item.value definition, .scope Session.bare.global,
      .scope Session.bare.global], x.Within ⟨False, fun _ => False, True⟩ inside := by
    intro x hx
    simp only [List.mem_cons, List.not_mem_nil, or_false, or_self] at hx
    rcases hx with rfl | rfl
    · have call : (Value.list #[.sym (ascii "def!"), .sym (ascii "x"), .int 5]).Within
          ⟨False, fun _ => False, True⟩ inside :=
        .list (by simp [Value.Within.sym, Value.Within.int])
      exact .list (by simp [Value.Within.sym, call])
    · exact .inr rfl
  have agree : m₁.AgreesOn inside m₂ := by
    refine ⟨fun hs name => ?_, fun _ => rfl, fun h => h.elim⟩
    rw [unbound m₁ (.inl rfl) hs, unbound m₂ (.inr rfl) hs]
  have kept : m₁.kept [.value definition, .scope Session.bare.global,
      .scope Session.bare.global] ≤ inside := by
    constructor
    · intro s hs
      exact closed.accesses roots hs.accesses
    · intro c hc
      cases closed.accesses roots hc.accesses with
      | cell h => exact h
  have owned : Session.bare.Owns m₁ [.value definition, .scope Session.bare.global,
      .scope Session.bare.global] := by
    intro id t ht
    cases closed.accesses roots ht with
    | native h => exact (h t rfl).elim
  have counts : m₁.SameCounts m₂ := ⟨rfl, rfl, rfl, rfl⟩
  obtain ⟨same, _, _, _, _, untouched⟩ :=
    evaluation_needs_what_is_reached counts (agree.mono kept) owned 5
  exact ⟨same, by decide +kernel, untouched.cells ⟨0⟩ (by decide) (kept.2 _)⟩

end MiniLisp
