import MiniLisp.Proofs.Sessions

/-! Evaluation defines names in the frame it starts in, in frames it makes itself and in frames that
natives evaluate in. All other frames keep their bindings. -/
namespace MiniLisp

/-- A native that evaluates in a frame, and that the roots lead to. -/
def Captured (m : Machine) (roots : List Item) (f : FrameId) : Prop :=
  ∃ id s, Accesses m roots (.value (.native id (.evalIn s))) ∧ s.id = f

def answered : Except Halt Value → List Item
  | .ok v => [.value v]
  | .error (.error (.thrown v _)) => [.value v]
  | .error _ => []

/-- What a run leaves alone. A scope that is met afterwards and whose frame existed before was met
before, with the same parent. -/
structure ScopingKept (roots : List Item) (writable : FrameId → Prop) (m : Machine)
    (run : Except Halt Value × Machine) : Prop where
  frames : ∀ f, f.index < m.frames.size → ¬writable f → run.2.frame? f = m.frame? f
  names : ∀ s name, (m.local? s name).isSome → (run.2.local? s name).isSome
  scopes : ∀ s, Accesses run.2 (roots ++ answered run.1) (.scope s) →
    s.id.index < m.frames.size → Accesses m roots (.scope s)

theorem answered_within {p : Policy} {r : Region} {o : Except Halt Value}
    (h : Meets (Halt.Within p r) (fun v => v.Within p r) o) :
    ∀ x ∈ answered o, x.Within p r := by
  intro x hx
  unfold answered at hx
  split at hx
  · rcases List.mem_singleton.mp hx with rfl
    exact h
  · rcases List.mem_singleton.mp hx with rfl
    exact h
  · cases hx

/-- Whatever is reached from where a run started and from what it hands out lies in the region that
the run ended with. -/
theorem Machine.Closed.accesses_afterwards {p : Policy} {r r' : Region} {m : Machine}
    {o : Except Halt Value} (closed : m.Closed p r')
    (answer : Meets (Halt.Within p r') (fun v => v.Within p r') o) (le : r ≤ r')
    {roots starts : List Item} (within : ∀ x ∈ roots, x.Within p r)
    (from_roots : ∀ x ∈ starts, x ∈ roots ∨ x ∈ answered o) {x : Item}
    (hx : Accesses m starts x) : x.Within p r' := by
  refine closed.accesses (fun y hy => ?_) hx
  rcases from_roots y hy with hy | hy
  · exact (within y hy).mono le
  · exact answered_within answer y hy

def accessPolicy (m : Machine) (roots : List Item) : Policy :=
  ⟨True, fun s => ∃ id, Accesses m roots (.value (.native id (.evalIn s))), True⟩

theorem scopingKept_of_safe {m : Machine} {roots : List Item} {writable : FrameId → Prop}
    {x : EvalM Value} (captured : ∀ f, Captured m roots f → writable f)
    (safe : ∀ r, (∀ y ∈ roots, y.Within (accessPolicy m roots) r) →
      SafeValue (accessPolicy m roots) (fun f => writable f ∨ m.frames.size ≤ f.index)
        (fun _ m₁ m₂ => m₁ = m₂) r x) : ScopingKept roots writable m (x.exec m) := by
  obtain ⟨closed, within⟩ := m.closed_accesses roots (p := accessPolicy m roots)
    (fun _ => trivial) (fun id s h => ⟨id, h⟩) trivial
    fun s ⟨id, h⟩ => h.edge (.evaluated id s)
  have grants : m.Grants (accessPolicy m roots)
      (fun f => writable f ∨ m.frames.size ≤ f.index) :=
    ⟨fun hf => .inr hf, fun ⟨id, h⟩ => .inl (captured _ ⟨id, _, h, rfl⟩)⟩
  obtain ⟨r', advance, closed', _, _, answer⟩ := safe _ within m m closed grants rfl
  constructor
  · intro f hf hw
    refine advance.keptFrame hf fun h => ?_
    rcases h with h | h
    · exact hw h
    · exact absurd hf (Nat.not_lt.mpr h)
  · intro s name hn
    have kept : (m.defined? s.id name).isSome → ((x.exec m).2.defined? s.id name).isSome :=
      advance.names
    unfold Machine.local? at hn ⊢
    cases hd : m.defined? s.id name with
    | some v =>
      rw [hd] at kept
      obtain ⟨u, hu⟩ := Option.isSome_iff_exists.mp (kept rfl)
      rw [hu]
      rfl
    | none =>
      rw [hd] at hn
      split
      · rfl
      · exact hn
  · intro s hs old
    have inside : r'.scope s := closed'.accesses_afterwards answer advance.le within
      (fun y => List.mem_append.mp) hs
    rcases advance.newScope inside with h | h
    · exact h
    · exact absurd old (Nat.not_lt.mpr h)

/-- Evaluating an expression in a scope, and applying a function, write to no older frame but that
scope's own and those that natives evaluate in. In a session only the global frame is such a frame,
and nothing that runs there changes the core frame. -/
theorem mutation_respects_scoping :
    (∀ fuel m e s, ScopingKept [.value e, .scope s]
      (fun f => f = s.id ∨ Captured m [.value e, .scope s] f) m ((eval fuel e s).exec m)) ∧
    (∀ fuel m f args, ScopingKept ((f :: args).map .value)
      (Captured m ((f :: args).map .value)) m ((applyFunction fuel f args).exec m)) ∧
    ∀ fuel config start session m₀ m,
      (makeSession fuel config).exec start = (.ok session, m₀) → session.Runs m₀ m →
      (∀ f, Captured m [.scope session.global] f → f = session.global.id) ∧
        m.frame? session.core.id = m₀.frame? session.core.id := by
  refine ⟨?_, ?_, ?_⟩
  · intro fuel m e s
    refine scopingKept_of_safe (fun f hf => .inr hf) fun r within => ?_
    exact eval_safe (equality_simulation _) fuel r e s (within _ List.mem_cons_self)
      (within _ (List.mem_cons_of_mem _ List.mem_cons_self)) (.inl (.inl rfl))
  · intro fuel m f args
    refine scopingKept_of_safe (fun f hf => hf) fun r within => ?_
    refine applyFunction_safe (equality_simulation _) fuel r f args
      (within _ List.mem_cons_self) fun v hv => ?_
    exact within _ (List.mem_cons_of_mem _ (List.mem_map_of_mem hv))
  · intro fuel config start session m₀ m made runs
    have sound := runs.sound made
    refine ⟨fun f ⟨id, s, h, hf⟩ => ?_, sound.kept⟩
    rw [← hf, sound.owns id s h]

/-- A program that defines a core name anew shadows it in the global frame. -/
theorem core_frame_survives_redefinition :
    ∃ session m₀, (makeSession 20 .plain).exec .empty = (.ok session, m₀) ∧
      let m := ((evalSource 20 (ascii "(def! count 1)") (some session.global)).exec m₀).2
      m.frame? session.core.id = m₀.frame? session.core.id ∧
        (m.local? session.global (ascii "count") matches some (.int 1)) := by
  have shadowed : (match (makeSession 20 .plain).exec .empty with
      | (.ok session, m₀) =>
        let m := ((evalSource 20 (ascii "(def! count 1)") (some session.global)).exec m₀).2
        (m.local? session.global (ascii "count") matches some (.int 1))
      | _ => false) = true := by decide +kernel
  rcases made : (makeSession 20 .plain).exec .empty with ⟨h | session, m₀⟩
  · rw [made] at shadowed
    cases shadowed
  · rw [made] at shadowed
    have runs : session.Runs m₀ _ := .source 20 (ascii "(def! count 1)") .made
    exact ⟨session, m₀, rfl,
      (mutation_respects_scoping.2.2 20 .plain .empty session m₀ _ made runs).2, shadowed⟩

end MiniLisp
