import MiniLisp.Proofs.Marking

/-! Beside a heap we keep a ledger of what the program has added to which scope and registered how
often. As long as no operation named a node that was gone, a collection keeps exactly the nodes that
can be reached from what the ledger holds. -/
namespace MiniLisp

namespace Node

variable {n : Node} {x : NodeId}

theorem refers_of_insert {m : Assoc Text (Option NodeId)} {key : Text} {c : Option NodeId}
    (h : some x ∈ (m.insert key c).values) : some x ∈ m.values ∨ c = some x := by
  obtain ⟨k, h⟩ := Assoc.mem_values.mp h
  rcases Assoc.mem_insert h with same | h
  · cases same
    exact .inr rfl
  · exact .inl (Assoc.mem_values.mpr ⟨k, h⟩)

theorem refers_of_add {key : Text} {c : Option NodeId} (h : (n.add key c).Refers x) :
    n.Refers x ∨ c = some x := by
  rw [← mem_references_iff] at h ⊢
  cases n with
  | leaf => exact .inl h
  | sequence items =>
    rcases List.mem_append.mp h with h | h
    · exact .inl h
    · exact .inr (List.mem_singleton.mp h).symm
  | map entries => exact refers_of_insert h
  | cell content => exact .inr (List.mem_singleton.mp h).symm
  | closure body scope =>
    rcases List.mem_cons.mp h with h | h
    · exact .inr h.symm
    · exact .inl (List.mem_cons_of_mem _ h)
  | frame parent bindings => exact .inl h

theorem refers_of_capture {scope : Option NodeId} (h : (n.capture scope).Refers x) :
    n.Refers x ∨ scope = some x := by
  rw [← mem_references_iff] at h ⊢
  cases n with
  | closure body old =>
    rcases List.mem_cons.mp h with h | h
    · exact .inl (List.mem_cons.mpr (.inl h))
    · exact .inr (List.mem_singleton.mp h).symm
  | _ => exact .inl h

theorem refers_of_bind {name : Text} {c : Option NodeId} (h : (n.bind name c).Refers x) :
    n.Refers x ∨ c = some x := by
  rw [← mem_references_iff] at h ⊢
  cases n with
  | frame parent bindings =>
    rcases List.mem_cons.mp h with h | h
    · exact .inl (List.mem_cons.mpr (.inl h))
    · rcases refers_of_insert h with h | h
      · exact .inl (List.mem_cons_of_mem _ h)
      · exact .inr h
  | _ => exact .inl h

end Node

namespace Heap

inductive Op where
  | allocate (n : Node)
  | add (x : NodeId) (key : Text) (c : Option NodeId)
  | capture (x : NodeId) (scope : Option NodeId)
  | bind (x : NodeId) (name : Text) (c : Option NodeId)
  | newSlot (c : Option NodeId)
  | newVector (items : List (Option NodeId))
  | setSlot (i : Nat) (c : Option NodeId)
  | setVector (i : Nat) (items : List (Option NodeId))
  | openScope
  | closeScope
  | addRoot (r : Root)
  | register (x : Option NodeId)
  | unregister (x : Option NodeId)
  | assignHandle (name : Text) (x : Option NodeId)
  | moveHandle (target source : Text)
  | constructHandle (target source : Text)
  | resetHandle (name : Text)
  | dropHandle (name : Text)
  | collect
  | maybeCollect
  deriving DecidableEq, Repr

namespace Op

def apply : Op → Heap → Heap
  | allocate n, h => (h.allocate n).2
  | add x key c, h => h.modifyNode x (·.add key c)
  | capture x scope, h => h.modifyNode x (·.capture scope)
  | bind x name c, h => h.modifyNode x (·.bind name c)
  | newSlot c, h => h.newSlot c
  | newVector items, h => h.newVector items
  | setSlot i c, h => h.setSlot i c
  | setVector i items, h => h.setVector i items
  | openScope, h => h.openScope
  | closeScope, h => h.closeScope
  | addRoot r, h => h.addRoot r
  | register x, h => h.register x
  | unregister x, h => h.unregister x
  | assignHandle name x, h => h.assignHandle name x
  | moveHandle target source, h => h.moveHandle target source
  | constructHandle target source, h => h.constructHandle target source
  | resetHandle name, h => h.resetHandle name
  | dropHandle name, h => h.dropHandle name
  | collect, h => h.collect
  | maybeCollect, h => h.maybeCollect

def names (h : Heap) : Op → List (Option NodeId)
  | allocate n => n.references
  | add x _ c | bind x _ c => [some x, c]
  | capture x scope => [some x, scope]
  | newSlot c | setSlot _ c => [c]
  | newVector items | setVector _ items => items
  | addRoot r => h.rootReferences r
  | register x | unregister x | assignHandle _ x => [x]
  | _ => []

/-- The nodes named are still there, and a root is added to an open scope. -/
def Permitted (h : Heap) (op : Op) : Prop :=
  (∀ r ∈ op.names h, ∀ x ∈ r, x ∈ h.nodes) ∧ ∀ r, op = addRoot r → h.scopes ≠ []

instance (h : Heap) (op : Op) : Decidable (op.Permitted h) :=
  match op with
  | addRoot r => decidable_of_iff
      ((∀ c ∈ h.rootReferences r, ∀ x ∈ c, x ∈ h.nodes) ∧ h.scopes ≠ [])
      ⟨fun ⟨there, inside⟩ => ⟨there, fun _ _ => inside⟩,
        fun ⟨there, inside⟩ => ⟨there, inside r rfl⟩⟩
  | allocate _ | add .. | capture .. | bind .. | newSlot _ | newVector _ | setSlot .. | setVector ..
  | openScope | closeScope | register _ | unregister _ | assignHandle .. | moveHandle ..
  | constructHandle .. | resetHandle _ | dropHandle _ | collect | maybeCollect =>
    decidable_of_iff (∀ r ∈ names h _, ∀ x ∈ r, x ∈ h.nodes)
      ⟨fun there => ⟨there, fun _ same => nomatch same⟩, fun h => h.1⟩

end Op

def after (ops : List Op) (h : Heap) : Heap := ops.foldl (fun h op => op.apply h) h

def Allowed : List Op → Heap → Prop
  | [], _ => True
  | op :: ops, h => op.Permitted h ∧ Allowed ops (op.apply h)

instance Allowed.decide : (ops : List Op) → (h : Heap) → Decidable (Allowed ops h)
  | [], _ => isTrue trivial
  | op :: ops, h =>
    have := Allowed.decide ops (op.apply h)
    inferInstanceAs (Decidable (_ ∧ _))

end Heap

inductive Heap.Contains (h : Heap) : Root → NodeId → Prop where
  | slot {i : Nat} {x : NodeId} : h.slots[i]? = some (some x) → Contains h (.slot i) x
  | item {i : Nat} {items : List (Option NodeId)} {x : NodeId} :
      h.vectors[i]? = some items → some x ∈ items → Contains h (.vector i) x

theorem Heap.mem_rootReferences_iff {h : Heap} {r : Root} {x : NodeId} :
    some x ∈ h.rootReferences r ↔ h.Contains r x := by
  constructor
  · intro hx
    cases r with
    | nothing => cases hx
    | slot i =>
      cases found : h.slots[i]? with
      | none => simp [rootReferences, found] at hx
      | some c =>
        rw [rootReferences, found] at hx
        cases List.mem_singleton.mp hx
        exact .slot found
    | vector i =>
      cases found : h.vectors[i]? with
      | none => simp [rootReferences, found] at hx
      | some items =>
        rw [rootReferences, found] at hx
        exact .item found hx
  · intro holds
    cases holds with
    | slot found => simp [rootReferences, found]
    | item found hx => simpa [rootReferences, found] using hx

/-- What a program has added and registered and not yet taken back. -/
structure Ledger where
  /-- What was added to every open scope, the innermost scope first. -/
  scopes : List (List Root)
  /-- How many registrations of a frame have not been undone. -/
  registrations : NodeId → Nat
  handles : Text → Option NodeId

namespace Ledger

def empty : Ledger := ⟨[], fun _ => 0, fun _ => none⟩

def register (l : Ledger) (x : Option NodeId) : Ledger :=
  { l with registrations := fun y => l.registrations y + if x = some y then 1 else 0 }

def unregister (l : Ledger) (x : Option NodeId) : Ledger :=
  { l with registrations := fun y => l.registrations y - if x = some y then 1 else 0 }

def setHandle (l : Ledger) (name : Text) (x : Option NodeId) : Ledger :=
  { l with handles := fun other => if other = name then x else l.handles other }

def release (l : Ledger) (name : Text) : Ledger :=
  (l.unregister (l.handles name)).setHandle name none

def note (l : Ledger) : Heap.Op → Ledger
  | .openScope => { l with scopes := [] :: l.scopes }
  | .closeScope => { l with scopes := l.scopes.tail }
  | .addRoot r => { l with scopes := l.scopes.modifyHead (· ++ [r]) }
  | .register x => l.register x
  | .unregister x => l.unregister x
  | .assignHandle name x => ((l.register x).release name).setHandle name x
  | .moveHandle target source =>
    if target = source then l
    else ((l.release target).setHandle source none).setHandle target (l.handles source)
  | .constructHandle target source =>
    ((l.setHandle source none).release target).setHandle target (l.handles source)
  | .resetHandle name | .dropHandle name => l.release name
  | _ => l

def after (ops : List Heap.Op) (l : Ledger) : Ledger := ops.foldl note l

/-- What the slots and vectors added to open scopes hold now, and the frames with a registration
that has not been undone. -/
def Holds (l : Ledger) (h : Heap) (x : NodeId) : Prop :=
  (∃ scope ∈ l.scopes, ∃ r ∈ scope, h.Contains r x) ∨ 0 < l.registrations x

end Ledger

/-- Roots in the order in which they were added, the lengths at which scopes were opened, and the
scopes one by one. -/
inductive Nested : List Root → List Nat → List (List Root) → Prop where
  | nil : Nested [] [] []
  | scope {below : List Root} {lengths : List Nat} {scopes : List (List Root)} (roots : List Root) :
      Nested below lengths scopes →
      Nested (below ++ roots) (below.length :: lengths) (roots :: scopes)

namespace Nested

variable {roots : List Root} {lengths : List Nat} {scopes : List (List Root)}

theorem opened (h : Nested roots lengths scopes) :
    Nested roots (roots.length :: lengths) ([] :: scopes) := by
  simpa using h.scope []

theorem added (h : Nested roots lengths scopes) (inside : lengths ≠ []) (r : Root) :
    Nested (roots ++ [r]) lengths (scopes.modifyHead (· ++ [r])) := by
  cases h with
  | nil => exact absurd rfl inside
  | scope roots h =>
    rw [List.append_assoc]
    exact h.scope (roots ++ [r])

theorem eq_nil (h : Nested roots [] scopes) : scopes = [] := by
  cases h
  rfl

theorem closed {n : Nat} (h : Nested roots (n :: lengths) scopes) :
    Nested (roots.take n) lengths scopes.tail := by
  cases h with
  | scope roots h => simpa using h

theorem mem_iff (h : Nested roots lengths scopes) {r : Root} :
    r ∈ roots ↔ ∃ scope ∈ scopes, r ∈ scope := by
  induction h with
  | nil => simp
  | scope roots _ ih => simp [ih, or_comm]

end Nested

structure Heap.Consistent (h : Heap) (l : Ledger) : Prop where
  clean : ∀ x, ¬h.nodes.Marked x
  edges : ∀ x y, h.nodes.Edge x y → y ∈ h.nodes
  rooted : ∀ r ∈ h.roots, ∀ x, some x ∈ h.rootReferences r → x ∈ h.nodes
  registered : ∀ x ∈ h.registered, x ∈ h.nodes
  young : ∀ x ∈ h.nodes, x.index < h.total
  counted : h.current = h.nodes.size
  nested : Nested h.roots h.scopes l.scopes
  registrations : ∀ x, l.registrations x = h.registered.count x
  handles : ∀ name, l.handles name = h.held name

namespace Heap

/-- Marking is done within as many turns as there are nodes. -/
theorem mark_takes_turns (h : Heap) : h.mark.queue = [] ∧ ∃ turns ≤ h.nodes.size,
    h.mark = Marking.turn^[turns] (.visitAll ⟨h.nodes, []⟩ h.startingPoints) := by
  obtain ⟨idle, turns, le, same⟩ :=
    Marking.drain_takes_turns (.visitAll ⟨h.nodes, []⟩ h.startingPoints)
  rw [Marking.weight_visitAll] at le
  exact ⟨idle, turns, Nat.le_trans le Std.TreeMap.size_filter_le_size, same⟩

theorem invariant_mark (h : Heap) (clean : ∀ x, ¬h.nodes.Marked x) :
    Marking.Invariant h.nodes (some · ∈ h.startingPoints) h.mark := by
  obtain ⟨_, turns, _, same⟩ := Marking.drain_takes_turns (.visitAll ⟨h.nodes, []⟩ h.startingPoints)
  rw [mark, same]
  exact Marking.turns_preserve_invariant (Marking.invariant_start clean) turns

theorem mem_collect_iff_of_clean (h : Heap) (clean : ∀ x, ¬h.nodes.Marked x) {x : NodeId} :
    x ∈ h.collect.nodes ↔ x ∈ h.nodes ∧ h.nodes.Reachable (some · ∈ h.startingPoints) x := by
  rw [← (h.invariant_mark clean).marked_iff h.mark_takes_turns.1]
  constructor
  · intro hx
    by_contra dead
    obtain ⟨n, found⟩ := Nodes.mem_iff.mp hx
    rw [Heap.collect, Nodes.node?_sweep_of_not_marked dead] at found
    cases found
  · intro live
    rw [Nodes.mem_iff, Heap.collect, Nodes.node?_sweep_of_marked live]
    obtain ⟨n, found⟩ := live
    exact ⟨n, by rw [Nodes.node?, found]; rfl⟩

theorem node?_collect_of_clean (h : Heap) (clean : ∀ x, ¬h.nodes.Marked x) {x : NodeId}
    (kept : x ∈ h.collect.nodes) : h.collect.nodes.node? x = h.nodes.node? x := by
  have invariant := h.invariant_mark clean
  have live : h.mark.nodes.Marked x :=
    (invariant.marked_iff h.mark_takes_turns.1).mpr ((h.mem_collect_iff_of_clean clean).mp kept)
  exact (Nodes.node?_sweep_of_marked live).trans (invariant.contents x)

section

variable {h : Heap}

theorem getElem?_allocate (h : Heap) (n : Node) (x : NodeId) : (h.allocate n).2.nodes[x]? =
    if x = ⟨h.total⟩ then some ⟨n, false⟩ else h.nodes[x]? := by
  rw [allocate, Std.TreeMap.getElem?_insert]
  exact if_congr (Std.compare_eq_iff_eq.trans eq_comm) rfl rfl

theorem clean_allocate (n : Node) (clean : ∀ x, ¬h.nodes.Marked x) (x : NodeId) :
    ¬(h.allocate n).2.nodes.Marked x := by
  rintro ⟨m, marked⟩
  rw [getElem?_allocate] at marked
  split at marked
  · cases marked
  · exact clean x ⟨m, marked⟩

theorem young_allocate (n : Node) (young : ∀ x ∈ h.nodes, x.index < h.total) :
    ∀ x ∈ (h.allocate n).2.nodes, x.index < (h.allocate n).2.total := by
  intro x hx
  rcases Std.TreeMap.mem_insert.mp hx with same | old
  · cases Std.LawfulEqCmp.eq_of_compare same
    exact Nat.lt_succ_self _
  · exact Nat.lt_succ_of_lt (young x old)

theorem size_allocate (n : Node) (young : ∀ x ∈ h.nodes, x.index < h.total) :
    (h.allocate n).2.nodes.size = h.nodes.size + 1 := by
  have fresh : (⟨h.total⟩ : NodeId) ∉ h.nodes := fun old => absurd (young _ old) (Nat.lt_irrefl _)
  rw [allocate, Std.TreeMap.size_insert, if_neg (by simpa using fresh)]

theorem getElem?_modifyNode (h : Heap) (x y : NodeId) (f : Node → Node) :
    (h.modifyNode x f).nodes[y]? =
      h.nodes[y]?.map fun t => if x = y then { t with node := f t.node } else t := by
  rw [modifyNode, Std.TreeMap.getElem?_modify]
  split
  · rename_i same
    cases Std.LawfulEqCmp.eq_of_compare same
    simp
  · rename_i other
    rw [Std.compare_eq_iff_eq] at other
    simp [other]

theorem clean_modifyNode (x : NodeId) (f : Node → Node) (clean : ∀ y, ¬h.nodes.Marked y)
    (y : NodeId) : ¬(h.modifyNode x f).nodes.Marked y := by
  rintro ⟨m, marked⟩
  rw [getElem?_modifyNode] at marked
  obtain ⟨⟨n, mark⟩, old, ht⟩ := Option.map_eq_some_iff.mp marked
  refine clean y ⟨n, old.trans ?_⟩
  split at ht
  · cases ht
    rfl
  · cases ht
    rfl

end

theorem held_setHandle (h : Heap) (name other : Text) (x : Option NodeId) :
    (h.setHandle name x).held other = if other = name then x else h.held other := by
  rw [held, setHandle, Std.TreeMap.getD_insert]
  exact if_congr (Std.compare_eq_iff_eq.trans eq_comm) rfl rfl

namespace Consistent

variable {h : Heap} {l : Ledger}

theorem empty : Heap.empty.Consistent .empty where
  clean x := by
    rintro ⟨n, found⟩
    simp [Heap.empty] at found
  edges x y := by
    rintro ⟨n, found, _⟩
    simp [Heap.empty, Nodes.node?] at found
  rooted r hr := by cases hr
  registered x hx := by cases hx
  young x hx := by simp [Heap.empty] at hx
  counted := rfl
  nested := .nil
  registrations x := rfl
  handles name := by simp [Heap.empty, held, Ledger.empty]

/-- A change of the nodes that loses none of them and makes no dangling edge. -/
theorem withNodes (c : h.Consistent l) {h' : Heap} (same : h' = { h with
      nodes := h'.nodes, current := h'.current, total := h'.total, requested := h'.requested })
    (clean : ∀ x, ¬h'.nodes.Marked x) (kept : ∀ x ∈ h.nodes, x ∈ h'.nodes)
    (edges : ∀ x y, h'.nodes.Edge x y → y ∈ h'.nodes) (young : ∀ x ∈ h'.nodes, x.index < h'.total)
    (counted : h'.current = h'.nodes.size) : h'.Consistent l := by
  rw [same]
  exact ⟨clean, edges, fun r hr x hx => kept x (c.rooted r hr x hx),
    fun x hx => kept x (c.registered x hx), young, counted, c.nested, c.registrations, c.handles⟩

theorem allocate (c : h.Consistent l) {n : Node}
    (there : ∀ r ∈ n.references, ∀ x ∈ r, x ∈ h.nodes) : (h.allocate n).2.Consistent l := by
  have kept (x : NodeId) (hx : x ∈ h.nodes) : x ∈ (h.allocate n).2.nodes :=
    Std.TreeMap.mem_insert.mpr (.inr hx)
  refine c.withNodes rfl (clean_allocate n c.clean) kept ?_ (young_allocate n c.young) ?_
  · rintro x y ⟨m, hm, refers⟩
    rw [Nodes.node?, getElem?_allocate] at hm
    split at hm
    · cases hm
      exact kept y (there _ (Node.mem_references_iff.mpr refers) y rfl)
    · exact kept y (c.edges x y ⟨m, hm, refers⟩)
  · rw [size_allocate n c.young, ← c.counted]
    rfl

/-- Storing into a node keeps the heap consistent if all that the node refers to afterwards it
referred to before, except for a node that is there. -/
theorem modifyNode (c : h.Consistent l) (x : NodeId) {f : Node → Node} {stored : Option NodeId}
    (there : ∀ y ∈ stored, y ∈ h.nodes)
    (adds : ∀ n y, (f n).Refers y → n.Refers y ∨ stored = some y) :
    (h.modifyNode x f).Consistent l := by
  have mem (y : NodeId) : y ∈ (h.modifyNode x f).nodes ↔ y ∈ h.nodes := Std.TreeMap.mem_modify
  refine c.withNodes rfl (clean_modifyNode x f c.clean) (fun y => (mem y).mpr) ?_
    (fun y hy => c.young y ((mem y).mp hy)) ?_
  · rintro y z ⟨m, hm, refers⟩
    rw [mem]
    rw [Nodes.node?, getElem?_modifyNode] at hm
    obtain ⟨t', ht', rfl⟩ := Option.map_eq_some_iff.mp hm
    obtain ⟨t, old, rfl⟩ := Option.map_eq_some_iff.mp ht'
    have before (e : t.node.Refers z) : z ∈ h.nodes :=
      c.edges y z ⟨t.node, by rw [Nodes.node?, old]; rfl, e⟩
    split at refers
    · rcases adds t.node z refers with refers | rfl
      · exact before refers
      · exact there z rfl
    · exact before refers
  · exact c.counted.trans Std.TreeMap.size_modify.symm

theorem withSlots (c : h.Consistent l) {h' : Heap}
    (same : h' = { h with slots := h'.slots, vectors := h'.vectors })
    (named : List (Option NodeId)) (there : ∀ r ∈ named, ∀ x ∈ r, x ∈ h.nodes)
    (adds : ∀ r x, some x ∈ h'.rootReferences r → some x ∈ h.rootReferences r ∨ some x ∈ named) :
    h'.Consistent l := by
  have rooted : ∀ r ∈ h.roots, ∀ x, some x ∈ h'.rootReferences r → x ∈ h.nodes := by
    intro r hr x hx
    rcases adds r x hx with hx | hx
    · exact c.rooted r hr x hx
    · exact there _ hx x rfl
  rw [same] at rooted ⊢
  exact ⟨c.clean, c.edges, rooted, c.registered, c.young, c.counted, c.nested, c.registrations,
    c.handles⟩

theorem newSlot (c : h.Consistent l) {r : Option NodeId} (there : ∀ x ∈ r, x ∈ h.nodes) :
    (h.newSlot r).Consistent l := by
  refine c.withSlots rfl [r] (by simpa using there) fun root x hx => ?_
  cases root with
  | slot i =>
    simp only [rootReferences, Heap.newSlot, Array.getElem?_push] at hx ⊢
    split at hx
    · exact .inr hx
    · exact .inl hx
  | _ => exact .inl hx

theorem newVector (c : h.Consistent l) {items : List (Option NodeId)}
    (there : ∀ r ∈ items, ∀ x ∈ r, x ∈ h.nodes) : (h.newVector items).Consistent l := by
  refine c.withSlots rfl items there fun root x hx => ?_
  cases root with
  | vector i =>
    simp only [rootReferences, Heap.newVector, Array.getElem?_push] at hx ⊢
    split at hx
    · exact .inr hx
    · exact .inl hx
  | _ => exact .inl hx

theorem setSlot (c : h.Consistent l) {i : Nat} {r : Option NodeId} (there : ∀ x ∈ r, x ∈ h.nodes) :
    (h.setSlot i r).Consistent l := by
  refine c.withSlots rfl [r] (by simpa using there) fun root x hx => ?_
  cases root with
  | slot j =>
    simp only [rootReferences, Heap.setSlot, Array.getElem?_setIfInBounds] at hx ⊢
    split at hx
    · split at hx
      · exact .inr hx
      · simp at hx
    · exact .inl hx
  | _ => exact .inl hx

theorem setVector (c : h.Consistent l) {i : Nat} {items : List (Option NodeId)}
    (there : ∀ r ∈ items, ∀ x ∈ r, x ∈ h.nodes) : (h.setVector i items).Consistent l := by
  refine c.withSlots rfl items there fun root x hx => ?_
  cases root with
  | vector j =>
    simp only [rootReferences, Heap.setVector, Array.getElem?_setIfInBounds] at hx ⊢
    split at hx
    · split at hx
      · exact .inr hx
      · simp at hx
    · exact .inl hx
  | _ => exact .inl hx

theorem openScope (c : h.Consistent l) : h.openScope.Consistent (l.note .openScope) :=
  { c with nested := c.nested.opened }

theorem addRoot (c : h.Consistent l) {r : Root}
    (there : ∀ q ∈ h.rootReferences r, ∀ x ∈ q, x ∈ h.nodes) (inside : h.scopes ≠ []) :
    (h.addRoot r).Consistent (l.note (.addRoot r)) := by
  refine { c with nested := c.nested.added inside r, rooted := fun q hq x hx => ?_ }
  rcases List.mem_append.mp hq with hq | hq
  · exact c.rooted q hq x hx
  · cases List.mem_singleton.mp hq
    exact there _ hx x rfl

theorem closeScope (c : h.Consistent l) : h.closeScope.Consistent (l.note .closeScope) := by
  have nested := c.nested
  rw [Heap.closeScope]
  split
  · rename_i none_open
    rw [none_open] at nested
    refine { c with nested := ?_ }
    rw [none_open, Ledger.note, nested.eq_nil]
    rwa [nested.eq_nil] at nested
  · rename_i n lengths opened
    rw [opened] at nested
    exact { c with
      nested := nested.closed
      rooted := fun r hr x hx => c.rooted r (List.mem_of_mem_take hr) x hx }

theorem register (c : h.Consistent l) {x : Option NodeId} (there : ∀ y ∈ x, y ∈ h.nodes) :
    (h.register x).Consistent (l.register x) := by
  refine { c with registered := fun y hy => ?_, registrations := fun y => ?_ }
  · rcases List.mem_append.mp hy with hy | hy
    · exact c.registered y hy
    · exact there y (Option.mem_toList.mp hy)
  · show l.registrations y + _ = (h.registered ++ x.toList).count y
    rw [c.registrations, List.count_append]
    cases x with
    | none => rfl
    | some x => simp [List.count_singleton]

theorem unregister (c : h.Consistent l) (x : Option NodeId) :
    (h.unregister x).Consistent (l.unregister x) := by
  cases x with
  | none => exact { c with }
  | some x =>
    refine { c with registered := fun y hy => ?_, registrations := fun y => ?_ }
    · exact c.registered y (List.mem_of_mem_erase hy)
    · show l.registrations y - _ = (h.registered.erase x).count y
      rw [c.registrations, List.count_erase]
      simp

theorem setHandle (c : h.Consistent l) (name : Text) (x : Option NodeId) :
    (h.setHandle name x).Consistent (l.setHandle name x) := by
  refine { c with handles := fun other => ?_ }
  rw [held_setHandle, ← c.handles]
  rfl

theorem resetHandle (c : h.Consistent l) (name : Text) :
    (h.resetHandle name).Consistent (l.release name) := by
  rw [Heap.resetHandle, Ledger.release, ← c.handles]
  exact (c.unregister _).setHandle name none

theorem assignHandle (c : h.Consistent l) (name : Text) {x : Option NodeId}
    (there : ∀ y ∈ x, y ∈ h.nodes) :
    (h.assignHandle name x).Consistent (l.note (.assignHandle name x)) :=
  ((c.register there).resetHandle name).setHandle name x

theorem moveHandle (c : h.Consistent l) (target source : Text) :
    (h.moveHandle target source).Consistent (l.note (.moveHandle target source)) := by
  rw [Heap.moveHandle, Ledger.note, ← c.handles, ← c.handles]
  split
  · rename_i same
    have kept := c.setHandle target (l.handles target)
    refine { kept with handles := fun other => ?_ }
    rw [← kept.handles]
    show _ = if other = target then l.handles target else l.handles other
    split
    · rename_i same
      rw [same]
    · rfl
  · exact ((c.resetHandle target).setHandle source none).setHandle target _

theorem constructHandle (c : h.Consistent l) (target source : Text) :
    (h.constructHandle target source).Consistent (l.note (.constructHandle target source)) := by
  rw [Heap.constructHandle, Ledger.note, ← c.handles]
  exact ((c.setHandle source none).resetHandle target).setHandle target _

theorem dropHandle (c : h.Consistent l) (name : Text) :
    (h.dropHandle name).Consistent (l.note (.dropHandle name)) := by
  have reset := c.resetHandle name
  refine { reset with handles := fun other => ?_ }
  have before := reset.handles other
  rw [Heap.dropHandle, held, Std.TreeMap.getD_erase]
  split
  · rename_i same
    cases Std.LawfulEqCmp.eq_of_compare same
    simp [Ledger.note, Ledger.release, Ledger.setHandle]
  · exact before

theorem mem_startingPoints_iff (c : h.Consistent l) {x : NodeId} :
    some x ∈ h.startingPoints ↔ l.Holds h x := by
  rw [startingPoints, Ledger.Holds, List.mem_append, List.mem_flatMap, c.registrations,
    List.count_pos_iff]
  simp only [c.nested.mem_iff, List.mem_map, Option.some.injEq, exists_eq_right]
  refine or_congr_left ⟨?_, ?_⟩
  · rintro ⟨r, ⟨scope, hs, hr⟩, hx⟩
    exact ⟨scope, hs, r, hr, mem_rootReferences_iff.mp hx⟩
  · rintro ⟨scope, hs, r, hr, hx⟩
    exact ⟨r, ⟨scope, hs, hr⟩, mem_rootReferences_iff.mpr hx⟩

theorem whole (c : h.Consistent l) : h.nodes.Whole (some · ∈ h.startingPoints) := by
  refine ⟨fun x hx => ?_, c.edges⟩
  rcases List.mem_append.mp hx with hx | hx
  · obtain ⟨r, hr, hx⟩ := List.mem_flatMap.mp hx
    exact c.rooted r hr x hx
  · obtain ⟨y, hy, same⟩ := List.mem_map.mp hx
    cases same
    exact c.registered x hy

theorem mem_collect_iff (c : h.Consistent l) {x : NodeId} :
    x ∈ h.collect.nodes ↔ h.nodes.Reachable (l.Holds h) x := by
  rw [h.mem_collect_iff_of_clean c.clean]
  simp only [c.mem_startingPoints_iff]
  refine and_iff_right_of_imp fun live => live.mem ⟨fun y hy => ?_, c.edges⟩
  exact c.whole.roots y (c.mem_startingPoints_iff.mpr hy)

theorem node?_collect (c : h.Consistent l) {x : NodeId} (live : h.nodes.Reachable (l.Holds h) x) :
    h.collect.nodes.node? x = h.nodes.node? x :=
  h.node?_collect_of_clean c.clean (c.mem_collect_iff.mpr live)

theorem collect (c : h.Consistent l) : h.collect.Consistent l where
  clean := Nodes.sweep_unmarked _
  edges x y := by
    rintro ⟨n, found, refers⟩
    have live := c.mem_collect_iff.mp (Nodes.mem_iff.mpr ⟨n, found⟩)
    rw [c.node?_collect live] at found
    exact c.mem_collect_iff.mpr (live.edge ⟨n, found, refers⟩)
  rooted r hr x hx := by
    have start : some x ∈ h.startingPoints :=
      List.mem_append.mpr (.inl (List.mem_flatMap.mpr ⟨r, hr, hx⟩))
    exact c.mem_collect_iff.mpr (.root (c.mem_startingPoints_iff.mp start))
  registered x hx := by
    refine c.mem_collect_iff.mpr (.root (.inr ?_))
    rw [c.registrations]
    exact List.count_pos_iff.mpr hx
  young x hx := by
    obtain ⟨n, found⟩ := Nodes.mem_iff.mp hx
    rw [c.node?_collect (c.mem_collect_iff.mp hx)] at found
    exact c.young x (Nodes.mem_iff.mpr ⟨n, found⟩)
  counted := rfl
  nested := c.nested
  registrations := c.registrations
  handles := c.handles

/-- One operation. -/
theorem apply (c : h.Consistent l) {op : Op} (permitted : op.Permitted h) :
    (op.apply h).Consistent (l.note op) := by
  obtain ⟨there, inside⟩ := permitted
  cases op with
  | allocate n => exact c.allocate there
  | add x key r =>
    exact c.modifyNode x (there r (by simp [Op.names])) fun _ _ => Node.refers_of_add
  | capture x scope =>
    exact c.modifyNode x (there scope (by simp [Op.names])) fun _ _ => Node.refers_of_capture
  | bind x name r =>
    exact c.modifyNode x (there r (by simp [Op.names])) fun _ _ => Node.refers_of_bind
  | newSlot r => exact c.newSlot (there r List.mem_cons_self)
  | newVector items => exact c.newVector there
  | setSlot i r => exact c.setSlot (there r List.mem_cons_self)
  | setVector i items => exact c.setVector there
  | openScope => exact c.openScope
  | closeScope => exact c.closeScope
  | addRoot r => exact c.addRoot there (inside r rfl)
  | register x => exact c.register (there x List.mem_cons_self)
  | unregister x => exact c.unregister x
  | assignHandle name x => exact c.assignHandle name (there x List.mem_cons_self)
  | moveHandle target source => exact c.moveHandle target source
  | constructHandle target source => exact c.constructHandle target source
  | resetHandle name => exact c.resetHandle name
  | dropHandle name => exact c.dropHandle name
  | collect => exact c.collect
  | maybeCollect =>
    show h.maybeCollect.Consistent l
    rw [Heap.maybeCollect]
    split
    · exact c.collect
    · exact c

/-- Any number of operations. -/
theorem after (c : h.Consistent l) (ops : List Op) (allowed : Allowed ops h) :
    (Heap.after ops h).Consistent (l.after ops) := by
  induction ops generalizing h l with
  | nil => exact c
  | cons op ops ih => exact ih (c.apply allowed.1) allowed.2

end Consistent

end Heap

end MiniLisp
