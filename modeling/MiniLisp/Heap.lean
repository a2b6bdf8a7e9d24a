import MiniLisp.Assoc
import MiniLisp.Text.Order

/-! A collected heap. A collection marks what can be reached from the roots, working off a queue,
and sweeps away what has no mark. An allocation only asks for one, once more nodes exist than the
threshold allows. -/
namespace MiniLisp

structure NodeId where
  index : Nat
  deriving DecidableEq, Repr

namespace NodeId

instance : Ord NodeId := ⟨compareOn index⟩

instance : Std.TransOrd NodeId := inferInstanceAs (Std.TransCmp (compareOn index))

instance : Std.LawfulEqOrd NodeId where
  compare_self := Std.ReflCmp.compare_self
  eq_of_compare := by
    intro a b h
    have same : compare a.index b.index = .eq := h
    have same := Std.LawfulEqCmp.eq_of_compare same
    cases a
    cases b
    exact congrArg _ same

end NodeId

/-- A node with the references it holds. An absent reference keeps nothing alive. -/
inductive Node where
  | leaf
  | sequence (items : List (Option NodeId))
  | map (entries : Assoc Text (Option NodeId))
  | cell (content : Option NodeId)
  | closure (body scope : Option NodeId)
  | frame (parent : Option NodeId) (bindings : Assoc Text (Option NodeId))
  deriving DecidableEq, Repr

namespace Node

def references : Node → List (Option NodeId)
  | leaf => []
  | sequence items => items
  | map entries => entries.values
  | cell content => [content]
  | closure body scope => [body, scope]
  | frame parent bindings => parent :: bindings.values

def add (n : Node) (key : Text) (c : Option NodeId) : Node :=
  match n with
  | cell _ => cell c
  | closure _ scope => closure c scope
  | map entries => map (entries.insert key c)
  | sequence items => sequence (items ++ [c])
  | n => n

def capture (n : Node) (scope : Option NodeId) : Node :=
  match n with
  | closure body _ => closure body scope
  | n => n

def bind (n : Node) (name : Text) (c : Option NodeId) : Node :=
  match n with
  | frame parent bindings => frame parent (bindings.insert name c)
  | n => n

end Node

structure Tracked where
  node : Node
  marked : Bool
  deriving DecidableEq, Repr

abbrev Nodes := Std.TreeMap NodeId Tracked

def Nodes.unmarked (nodes : Nodes) : Nat := (nodes.filter fun _ t => !t.marked).size

theorem Nodes.unmarked_mark {nodes : Nodes} {x : NodeId} {t : Tracked} (found : nodes[x]? = some t)
    (fresh : t.marked = false) :
    unmarked (nodes.insert x { t with marked := true }) + 1 = unmarked nodes := by
  have inside : (nodes.filter fun _ t => !t.marked).contains x = true := by
    rw [Std.TreeMap.contains_eq_isSome_getElem?, Std.TreeMap.getElem?_filter', found]
    simp [fresh]
  have without : ((nodes.insert x { t with marked := true }).filter fun _ t => !t.marked).Equiv
      ((nodes.filter fun _ t => !t.marked).erase x) := by
    refine .of_forall_constGet?_eq fun y => ?_
    rw [Std.TreeMap.getElem?_filter', Std.TreeMap.getElem?_insert, Std.TreeMap.getElem?_erase]
    split
    · rfl
    · rw [Std.TreeMap.getElem?_filter']
  have positive : (nodes.filter fun _ t => !t.marked).size ≠ 0 := by
    intro empty
    rw [Std.TreeMap.contains_of_isEmpty (by simp [Std.TreeMap.isEmpty_eq_size_eq_zero, empty])]
      at inside
    cases inside
  rw [unmarked, unmarked, without.size_eq, Std.TreeMap.size_erase, if_pos inside]
  omega

/-- A collection on its way: the nodes, and those marked ones whose references are still to be
visited, the latest first. -/
structure Marking where
  nodes : Nodes
  queue : List NodeId

namespace Marking

def weight (s : Marking) : Nat := s.nodes.unmarked + s.queue.length

def visit (s : Marking) : Option NodeId → Marking
  | none => s
  | some x =>
    match s.nodes[x]? with
    | none => s
    | some t =>
      if t.marked then s
      else ⟨s.nodes.insert x { t with marked := true }, x :: s.queue⟩

def visitAll (s : Marking) (references : List (Option NodeId)) : Marking := references.foldl visit s

theorem weight_visit (s : Marking) (r : Option NodeId) : (s.visit r).weight = s.weight := by
  unfold visit
  split
  · rfl
  · split
    · rfl
    · rename_i found
      split
      · rfl
      · rename_i fresh
        have one_less := Nodes.unmarked_mark found (Bool.not_eq_true _ ▸ fresh)
        simp only [weight, List.length_cons]
        omega

theorem weight_visitAll (s : Marking) (references : List (Option NodeId)) :
    (s.visitAll references).weight = s.weight := by
  induction references generalizing s with
  | nil => rfl
  | cons r references ih => exact (ih (s.visit r)).trans (s.weight_visit r)

def referencesOf (s : Marking) (x : NodeId) : List (Option NodeId) :=
  match s.nodes[x]? with
  | some t => t.node.references
  | none => []

def turn (s : Marking) : Marking :=
  match s.queue with
  | [] => s
  | x :: queue => { s with queue := queue }.visitAll (s.referencesOf x)

theorem weight_turn {s : Marking} (busy : s.queue ≠ []) : s.turn.weight + 1 = s.weight := by
  obtain ⟨nodes, queue⟩ := s
  cases queue with
  | nil => exact absurd rfl busy
  | cons x queue =>
    rw [turn, weight_visitAll, weight, weight, List.length_cons, Nat.add_assoc]

/-- Goes on until the queue is empty. A node is queued once, so cycles come to an end too. -/
def drain (s : Marking) : Marking := if s.queue = [] then s else s.turn.drain
termination_by s.weight
decreasing_by
  rename_i busy
  exact Nat.lt_of_succ_le (Nat.le_of_eq (weight_turn busy))

end Marking

def Nodes.sweep (nodes : Nodes) : Nodes :=
  nodes.filterMap fun _ t => if t.marked then some { t with marked := false } else none

/-- What a program adds as a root. It goes on using its slots and vectors, so what counts is what
they hold when a collection starts. -/
inductive Root where
  | nothing
  | slot (index : Nat)
  | vector (index : Nat)
  deriving DecidableEq, Repr

structure Heap where
  nodes : Nodes
  current : Nat
  total : Nat
  liveAfterLast : Nat
  threshold : Nat
  collections : Nat
  requested : Bool
  slots : Array (Option NodeId)
  vectors : Array (List (Option NodeId))
  /-- The roots added to open scopes, in the order in which they were added. -/
  roots : List Root
  /-- For every open scope, innermost first, how many roots there were when it was opened. -/
  scopes : List Nat
  /-- One entry for every registration not yet undone. -/
  registered : List NodeId
  handles : Std.TreeMap Text (Option NodeId)

namespace Heap

def minThreshold : Nat := 256

def empty : Heap := ⟨∅, 0, 0, 0, minThreshold, 0, false, #[], #[], [], [], [], ∅⟩

def allocate (h : Heap) (n : Node) : NodeId × Heap :=
  (⟨h.total⟩, { h with
    nodes := h.nodes.insert ⟨h.total⟩ ⟨n, false⟩
    current := h.current + 1
    total := h.total + 1
    requested := h.requested || h.threshold < h.current + 1 })

def fill : Nat → Heap → Heap
  | 0, h => h
  | n + 1, h => fill n (h.allocate .leaf).2

def modifyNode (h : Heap) (x : NodeId) (f : Node → Node) : Heap :=
  { h with nodes := h.nodes.modify x fun t => { t with node := f t.node } }

def openScope (h : Heap) : Heap := { h with scopes := h.roots.length :: h.scopes }

def closeScope (h : Heap) : Heap :=
  match h.scopes with
  | [] => h
  | n :: scopes => { h with roots := h.roots.take n, scopes := scopes }

def addRoot (h : Heap) (r : Root) : Heap := { h with roots := h.roots ++ [r] }

def newSlot (h : Heap) (c : Option NodeId) : Heap := { h with slots := h.slots.push c }

def newVector (h : Heap) (items : List (Option NodeId)) : Heap :=
  { h with vectors := h.vectors.push items }

def addSlot (h : Heap) (c : Option NodeId) : Heap := (h.newSlot c).addRoot (.slot h.slots.size)

def addVector (h : Heap) (items : List (Option NodeId)) : Heap :=
  (h.newVector items).addRoot (.vector h.vectors.size)

def setSlot (h : Heap) (i : Nat) (c : Option NodeId) : Heap :=
  { h with slots := h.slots.setIfInBounds i c }

def setVector (h : Heap) (i : Nat) (items : List (Option NodeId)) : Heap :=
  { h with vectors := h.vectors.setIfInBounds i items }

def register (h : Heap) (x : Option NodeId) : Heap :=
  { h with registered := h.registered ++ x.toList }

def unregister (h : Heap) (x : Option NodeId) : Heap :=
  { h with registered := x.elim h.registered h.registered.erase }

def held (h : Heap) (name : Text) : Option NodeId := h.handles.getD name none

def setHandle (h : Heap) (name : Text) (x : Option NodeId) : Heap :=
  { h with handles := h.handles.insert name x }

def resetHandle (h : Heap) (name : Text) : Heap :=
  (h.unregister (h.held name)).setHandle name none

/-- Makes a handle hold a frame, or nothing. The new frame is registered before the old one is
let go, so a frame held again stays registered throughout. -/
def assignHandle (h : Heap) (name : Text) (x : Option NodeId) : Heap :=
  ((h.register x).resetHandle name).setHandle name x

def moveHandle (h : Heap) (target source : Text) : Heap :=
  if target = source then h.setHandle target (h.held target)
  else
    let x := h.held source
    ((h.resetHandle target).setHandle source none).setHandle target x

/-- Makes a handle anew out of what another one holds, in the place of an older handle of that
name. -/
def constructHandle (h : Heap) (target source : Text) : Heap :=
  ((h.setHandle source none).resetHandle target).setHandle target (h.held source)

def dropHandle (h : Heap) (name : Text) : Heap :=
  let h := h.resetHandle name
  { h with handles := h.handles.erase name }

def holding (h : Heap) : List Text := (h.handles.filter fun _ x => x.isSome).keys

def rootReferences (h : Heap) : Root → List (Option NodeId)
  | .nothing => []
  | .slot i => [h.slots[i]?.getD none]
  | .vector i => h.vectors[i]?.getD []

def startingPoints (h : Heap) : List (Option NodeId) :=
  h.roots.flatMap h.rootReferences ++ h.registered.map some

def mark (h : Heap) : Marking := (Marking.visitAll ⟨h.nodes, []⟩ h.startingPoints).drain

def collect (h : Heap) : Heap :=
  let live := h.mark.nodes.sweep
  { h with
    nodes := live
    current := live.size
    liveAfterLast := live.size
    threshold := max minThreshold (2 * live.size)
    collections := h.collections + 1
    requested := false }

def maybeCollect (h : Heap) : Heap := if h.requested then h.collect else h

end Heap

end MiniLisp
