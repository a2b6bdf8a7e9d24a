import Mathlib.Logic.Relation
import Mathlib.Logic.Function.Iterate
import Mathlib.Tactic.Tauto
import MiniLisp.Heap

/-! Whatever is queued is marked, whatever is marked can be reached, and the references of a marked
node no longer queued are marked. So a queue worked off leaves marked exactly what can be reached,
after at most as many turns as there are nodes. -/
namespace MiniLisp

/-- The edges along which a node keeps others alive. -/
inductive Node.Refers : Node → NodeId → Prop where
  | item {items : List (Option NodeId)} {x : NodeId} : some x ∈ items → Refers (.sequence items) x
  | entry {entries : Assoc Text (Option NodeId)} {key : Text} {x : NodeId} :
      (key, some x) ∈ entries → Refers (.map entries) x
  | content (x : NodeId) : Refers (.cell (some x)) x
  | body (x : NodeId) (scope : Option NodeId) : Refers (.closure (some x) scope) x
  | captured (body : Option NodeId) (x : NodeId) : Refers (.closure body (some x)) x
  | parent (x : NodeId) (bindings : Assoc Text (Option NodeId)) :
      Refers (.frame (some x) bindings) x
  | binding {parent : Option NodeId} {bindings : Assoc Text (Option NodeId)} {name : Text}
      {x : NodeId} : (name, some x) ∈ bindings → Refers (.frame parent bindings) x

theorem Assoc.mem_values {m : Assoc Text (Option NodeId)} {r : Option NodeId} :
    r ∈ m.values ↔ ∃ key, (key, r) ∈ m := by
  simp [Assoc.values]

/-- A collection follows all edges, and nothing else. -/
theorem Node.mem_references_iff {n : Node} {x : NodeId} : some x ∈ n.references ↔ n.Refers x := by
  constructor
  · intro h
    cases n with
    | leaf => cases h
    | sequence items => exact .item h
    | map entries =>
      obtain ⟨key, h⟩ := Assoc.mem_values.mp h
      exact .entry h
    | cell content =>
      cases List.mem_singleton.mp h
      exact .content x
    | closure body scope =>
      rcases List.mem_cons.mp h with rfl | h
      · exact .body x scope
      · cases List.mem_singleton.mp h
        exact .captured body x
    | frame parent bindings =>
      rcases List.mem_cons.mp h with rfl | h
      · exact .parent x bindings
      · obtain ⟨name, h⟩ := Assoc.mem_values.mp h
        exact .binding h
  · intro h
    cases h with
    | item h => exact h
    | entry h => exact Assoc.mem_values.mpr ⟨_, h⟩
    | content => exact List.mem_singleton.mpr rfl
    | body => exact List.mem_cons_self
    | captured => exact List.mem_cons_of_mem _ (List.mem_singleton.mpr rfl)
    | parent => exact List.mem_cons_self
    | binding h => exact List.mem_cons_of_mem _ (Assoc.mem_values.mpr ⟨_, h⟩)

namespace Nodes

def node? (nodes : Nodes) (x : NodeId) : Option Node := nodes[x]?.map Tracked.node

def Marked (nodes : Nodes) (x : NodeId) : Prop := ∃ n, nodes[x]? = some ⟨n, true⟩

def Edge (nodes : Nodes) (x y : NodeId) : Prop := ∃ n, nodes.node? x = some n ∧ n.Refers y

def Reachable (nodes : Nodes) (roots : NodeId → Prop) (x : NodeId) : Prop :=
  ∃ root, roots root ∧ Relation.ReflTransGen nodes.Edge root x

/-- Neither a root nor an edge leads to a node that is gone. -/
structure Whole (nodes : Nodes) (roots : NodeId → Prop) : Prop where
  roots : ∀ x, roots x → x ∈ nodes
  edges : ∀ x y, nodes.Edge x y → y ∈ nodes

variable {nodes nodes' : Nodes} {roots : NodeId → Prop} {x y : NodeId}

theorem mem_iff : x ∈ nodes ↔ ∃ n, nodes.node? x = some n := by
  rw [Std.TreeMap.mem_iff_isSome_getElem?, ← Option.isSome_iff_exists, node?, Option.isSome_map]

theorem not_marked_of_fresh {t : Tracked} (found : nodes[x]? = some t) (fresh : t.marked = false) :
    ¬nodes.Marked x := by
  rintro ⟨n, h⟩
  cases found.symm.trans h
  cases fresh

/-- Marking a node changes its mark and nothing else. -/
theorem node?_mark {t : Tracked} (found : nodes[x]? = some t) (y : NodeId) :
    node? (nodes.insert x { t with marked := true }) y = nodes.node? y := by
  rw [node?, node?, Std.TreeMap.getElem?_insert]
  split
  · rename_i same
    cases Std.LawfulEqCmp.eq_of_compare same
    rw [found]
    rfl
  · rfl

theorem marked_mark (t : Tracked) :
    Marked (nodes.insert x { t with marked := true }) y ↔ nodes.Marked y ∨ y = x := by
  rw [Marked, Std.TreeMap.getElem?_insert]
  split
  · rename_i same
    cases Std.LawfulEqCmp.eq_of_compare same
    exact iff_of_true ⟨t.node, rfl⟩ (.inr rfl)
  · rename_i other
    have ne : y ≠ x := by
      rintro rfl
      exact other Std.ReflCmp.compare_self
    rw [Marked]
    simp [ne]

theorem Reachable.root (h : roots x) : nodes.Reachable roots x := ⟨x, h, .refl⟩

theorem Reachable.edge (h : nodes.Reachable roots x) (e : nodes.Edge x y) :
    nodes.Reachable roots y := by
  obtain ⟨root, hr, walk⟩ := h
  exact ⟨root, hr, walk.tail e⟩

theorem Reachable.mem (h : nodes.Reachable roots x) (whole : nodes.Whole roots) : x ∈ nodes := by
  obtain ⟨root, hr, walk⟩ := h
  cases walk with
  | refl => exact whole.roots _ hr
  | tail _ e => exact whole.edges _ _ e

/-- What holds of the roots and is handed on along the edges holds of everything reached. -/
theorem Reachable.induction {P : NodeId → Prop} (h : nodes.Reachable roots x)
    (start : ∀ x, roots x → P x) (next : ∀ x y, P x → nodes.Edge x y → P y) : P x := by
  obtain ⟨root, hr, walk⟩ := h
  induction walk with
  | refl => exact start _ hr
  | tail _ e ih => exact next _ _ ih e

theorem Edge.congr (same : ∀ x, nodes'.node? x = nodes.node? x) :
    nodes'.Edge x y ↔ nodes.Edge x y := by
  rw [Edge, Edge, same]

end Nodes

namespace Marking

/-- What visiting references makes of a collection: those of them that are there get marked, and
what gets marked is queued. -/
structure Visited (s : Marking) (references : List (Option NodeId)) (s' : Marking) : Prop where
  contents : ∀ x, s'.nodes.node? x = s.nodes.node? x
  marked : ∀ x, s'.nodes.Marked x ↔ s.nodes.Marked x ∨ some x ∈ references ∧ x ∈ s.nodes
  queued : ∀ x, x ∈ s'.queue ↔ x ∈ s.queue ∨ s'.nodes.Marked x ∧ ¬s.nodes.Marked x

variable {s s' s'' : Marking} {references rest : List (Option NodeId)} {x : NodeId}

theorem Visited.mem_iff (h : s.Visited references s') : x ∈ s'.nodes ↔ x ∈ s.nodes := by
  rw [Nodes.mem_iff, Nodes.mem_iff, h.contents]

/-- Nothing happens if what is there is marked already. -/
theorem Visited.idle (known : ∀ x, some x ∈ references → x ∈ s.nodes → s.nodes.Marked x) :
    s.Visited references s where
  contents _ := rfl
  marked x := by
    constructor
    · exact .inl
    · rintro (h | ⟨h, there⟩)
      · exact h
      · exact known x h there
  queued x := by
    constructor
    · exact .inl
    · rintro (h | ⟨h, fresh⟩)
      · exact h
      · exact absurd h fresh

theorem Visited.trans (h : s.Visited references s') (h' : s'.Visited rest s'') :
    s.Visited (references ++ rest) s'' where
  contents x := (h'.contents x).trans (h.contents x)
  marked x := by
    rw [h'.marked, h.marked, h.mem_iff, List.mem_append, or_and_right, or_assoc]
  queued x := by
    have first := (h.marked x).mpr ∘ Or.inl
    have second := (h'.marked x).mpr ∘ Or.inl
    rw [h'.queued, h.queued]
    tauto

theorem visit_visited (s : Marking) (r : Option NodeId) : s.Visited [r] (s.visit r) := by
  cases r with
  | none => exact .idle (by simp)
  | some x =>
    rw [visit]
    split
    · rename_i gone
      refine .idle fun y hy there => ?_
      cases List.mem_singleton.mp hy
      obtain ⟨n, there⟩ := Nodes.mem_iff.mp there
      rw [Nodes.node?, gone] at there
      cases there
    · rename_i t found
      split
      · rename_i marked
        refine .idle fun y hy _ => ?_
        cases List.mem_singleton.mp hy
        exact ⟨t.node, by rw [found, ← marked]⟩
      · rename_i fresh
        have unmarked := Nodes.not_marked_of_fresh found (Bool.not_eq_true _ ▸ fresh)
        have there : x ∈ s.nodes := Nodes.mem_iff.mpr ⟨t.node, by rw [Nodes.node?, found]; rfl⟩
        refine ⟨fun y => Nodes.node?_mark found y, fun y => ?_, fun y => ?_⟩
        · rw [Nodes.marked_mark, List.mem_singleton, Option.some.injEq]
          constructor
          · rintro (h | rfl)
            · exact .inl h
            · exact .inr ⟨rfl, there⟩
          · rintro (h | ⟨rfl, _⟩)
            · exact .inl h
            · exact .inr rfl
        · rw [Nodes.marked_mark, List.mem_cons]
          constructor
          · rintro (rfl | h)
            · exact .inr ⟨.inr rfl, unmarked⟩
            · exact .inl h
          · rintro (h | ⟨h | rfl, fresh⟩)
            · exact .inr h
            · exact absurd h fresh
            · exact .inl rfl

theorem visitAll_visited (s : Marking) (references : List (Option NodeId)) :
    s.Visited references (s.visitAll references) := by
  induction references generalizing s with
  | nil => exact .idle (by simp)
  | cons r references ih => exact (s.visit_visited r).trans (ih (s.visit r))

/-- What holds while a collection marks the nodes that it started with. -/
structure Invariant (nodes : Nodes) (roots : NodeId → Prop) (s : Marking) : Prop where
  contents : ∀ x, s.nodes.node? x = nodes.node? x
  rooted : ∀ x, roots x → x ∈ nodes → s.nodes.Marked x
  reached : ∀ x, s.nodes.Marked x → nodes.Reachable roots x
  queued : ∀ x ∈ s.queue, s.nodes.Marked x
  /-- A marked node waits in the queue, or all that it refers to and that is there is marked. -/
  followed : ∀ x y, s.nodes.Marked x → x ∉ s.queue → nodes.Edge x y → y ∈ nodes → s.nodes.Marked y

variable {nodes : Nodes} {roots : NodeId → Prop}

/-- The nodes that the roots refer to are marked first. -/
theorem invariant_start {start : List (Option NodeId)} (clean : ∀ x, ¬nodes.Marked x) :
    Invariant nodes (some · ∈ start) (visitAll ⟨nodes, []⟩ start) := by
  have visited := visitAll_visited ⟨nodes, []⟩ start
  have marks (x : NodeId) : (visitAll ⟨nodes, []⟩ start).nodes.Marked x ↔
      some x ∈ start ∧ x ∈ nodes := by
    rw [visited.marked]
    exact or_iff_right (clean x)
  have queue (x : NodeId) : x ∈ (visitAll ⟨nodes, []⟩ start).queue ↔
      (visitAll ⟨nodes, []⟩ start).nodes.Marked x := by
    rw [visited.queued]
    simp [clean x]
  refine ⟨visited.contents, fun x hx there => ?_, fun x hx => ?_, fun x => (queue x).mp, ?_⟩
  · exact (marks x).mpr ⟨hx, there⟩
  · exact .root ((marks x).mp hx).1
  · intro x y hx waiting _ _
    exact absurd ((queue x).mpr hx) waiting

/-- Visiting the references of a node follows all its edges. -/
theorem mem_referencesOf_iff {y : NodeId} : some y ∈ s.referencesOf x ↔ s.nodes.Edge x y := by
  rw [referencesOf, Nodes.Edge, Nodes.node?]
  cases s.nodes[x]? with
  | none => simp
  | some t => simp [Node.mem_references_iff]

theorem turn_preserves_invariant (h : Invariant nodes roots s) :
    Invariant nodes roots s.turn := by
  obtain ⟨now, queue⟩ := s
  cases queue with
  | nil => exact h
  | cons x queue =>
    have visited := visitAll_visited ⟨now, queue⟩ (referencesOf ⟨now, x :: queue⟩ x)
    have contents (z : NodeId) := (visited.contents z).trans (h.contents z)
    have edge (z y : NodeId) : now.Edge z y ↔ nodes.Edge z y := Nodes.Edge.congr h.contents
    have kept (z : NodeId) (hz : now.Marked z) := (visited.marked z).mpr (.inl hz)
    have marked_x : now.Marked x := h.queued x List.mem_cons_self
    refine ⟨contents, fun z hz there => kept z (h.rooted z hz there), fun z hz => ?_,
      fun z hz => ?_, ?_⟩
    · rcases (visited.marked z).mp hz with hz | ⟨hz, _⟩
      · exact h.reached z hz
      · exact (h.reached x marked_x).edge ((edge x z).mp (mem_referencesOf_iff.mp hz))
    · rcases (visited.queued z).mp hz with hz | ⟨hz, _⟩
      · exact kept z (h.queued z (List.mem_cons_of_mem _ hz))
      · exact hz
    · intro z y hz waiting e there
      have old : now.Marked z := by
        by_contra fresh
        exact waiting ((visited.queued z).mpr (.inr ⟨hz, fresh⟩))
      have gone : z ∉ queue := fun hq => waiting ((visited.queued z).mpr (.inl hq))
      rcases eq_or_ne z x with rfl | other
      · have there : y ∈ now := by rwa [Nodes.mem_iff, h.contents, ← Nodes.mem_iff]
        exact (visited.marked y).mpr (.inr ⟨mem_referencesOf_iff.mpr ((edge z y).mpr e), there⟩)
      · exact kept y (h.followed z y old (by simp [other, gone]) e there)

theorem turns_preserve_invariant (h : Invariant nodes roots s) (turns : Nat) :
    Invariant nodes roots (turn^[turns] s) := by
  induction turns generalizing s with
  | zero => exact h
  | succ turns ih => exact ih (turn_preserves_invariant h)

/-- The queue is worked off after as many turns as the weight, at most. -/
theorem drain_takes_turns (s : Marking) :
    s.drain.queue = [] ∧ ∃ turns ≤ s.weight, s.drain = turn^[turns] s := by
  induction s using drain.induct with
  | case1 s idle =>
    rw [drain, if_pos idle]
    exact ⟨idle, 0, Nat.zero_le _, rfl⟩
  | case2 s busy ih =>
    obtain ⟨worked_off, turns, le, same⟩ := ih
    rw [drain, if_neg busy]
    exact ⟨worked_off, turns + 1, weight_turn busy ▸ Nat.succ_le_succ le, same⟩

/-- With nothing left to do, what is marked is what can be reached and is there. -/
theorem Invariant.marked_iff (h : Invariant nodes roots s) (idle : s.queue = []) :
    s.nodes.Marked x ↔ x ∈ nodes ∧ nodes.Reachable roots x := by
  constructor
  · intro marked
    obtain ⟨n, found⟩ := marked
    refine ⟨Nodes.mem_iff.mpr ⟨n, ?_⟩, h.reached x ⟨n, found⟩⟩
    rw [← h.contents, Nodes.node?, found]
    rfl
  · rintro ⟨there, reach⟩
    refine reach.induction (P := fun x => x ∈ nodes → s.nodes.Marked x) h.rooted ?_ there
    intro z y hz e there
    have known : z ∈ nodes := Nodes.mem_iff.mpr (e.imp fun _ held => held.1)
    exact h.followed z y (hz known) (by simp [idle]) e there

end Marking

theorem Nodes.getElem?_sweep (nodes : Nodes) (x : NodeId) :
    nodes.sweep[x]? =
      nodes[x]?.bind fun t => if t.marked then some { t with marked := false } else none := by
  rw [sweep, Std.TreeMap.getElem?_filterMap']

theorem Nodes.node?_sweep_of_marked {nodes : Nodes} {x : NodeId} (h : nodes.Marked x) :
    nodes.sweep.node? x = nodes.node? x := by
  obtain ⟨n, found⟩ := h
  rw [node?, node?, getElem?_sweep, found]
  rfl

theorem Nodes.node?_sweep_of_not_marked {nodes : Nodes} {x : NodeId} (h : ¬nodes.Marked x) :
    nodes.sweep.node? x = none := by
  rw [node?, getElem?_sweep]
  cases found : nodes[x]? with
  | none => rfl
  | some t =>
    obtain ⟨n, _ | _⟩ := t
    · rfl
    · exact absurd ⟨n, found⟩ h

theorem Nodes.sweep_unmarked (nodes : Nodes) (x : NodeId) : ¬nodes.sweep.Marked x := by
  rintro ⟨n, h⟩
  rw [getElem?_sweep, Option.bind_eq_some_iff] at h
  obtain ⟨t, _, h⟩ := h
  split at h
  · cases h
  · cases h

end MiniLisp
