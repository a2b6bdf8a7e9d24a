import Mathlib.Data.List.Basic
import MiniLisp.Proofs.Collection

/-! A heap counts its nodes and asks for a collection by the count. Beside it we look at the nodes
themselves before and after every operation, and its counters say the same. -/
namespace MiniLisp

theorem Nodes.node?_eq_none {nodes : Nodes} {x : NodeId} (gone : x ∉ nodes) :
    nodes.node? x = none := by
  by_contra found
  exact gone (Nodes.mem_iff.mpr (Option.ne_none_iff_exists'.mp found))

namespace Heap

namespace Op

def allocates : Op → Bool
  | allocate _ => true
  | _ => false

def collects (h : Heap) : Op → Bool
  | collect => true
  | maybeCollect => h.threshold < h.nodes.size
  | _ => false

def freed (op : Op) (h : Heap) : List NodeId :=
  h.nodes.keys.filter fun x => !(op.apply h).nodes.contains x

variable {op : Op} {h : Heap}

theorem freed_of_kept (kept : ∀ x ∈ h.nodes, x ∈ (op.apply h).nodes) : op.freed h = [] := by
  refine List.filter_eq_nil_iff.mpr fun x hx => ?_
  have there := Std.TreeMap.mem_iff_contains.mp (kept x (Std.TreeMap.mem_keys.mp hx))
  rw [there]
  decide

/-- An operation that makes no node leaves those that it does not free. -/
theorem size_add_freed (old : ∀ x ∈ (op.apply h).nodes, x ∈ h.nodes) :
    (op.apply h).nodes.size + (op.freed h).length = h.nodes.size := by
  have survivors : (h.nodes.keys.filter fun x => (op.apply h).nodes.contains x).Perm
      (op.apply h).nodes.keys := by
    refine (List.perm_ext_iff_of_nodup (Std.TreeMap.nodup_keys.filter _)
      Std.TreeMap.nodup_keys).mpr fun x => ?_
    simpa [Std.TreeMap.mem_keys, ← Std.TreeMap.mem_iff_contains] using old x
  have split := List.length_eq_length_filter_add (l := h.nodes.keys)
    fun x => (op.apply h).nodes.contains x
  rw [survivors.length_eq, Std.TreeMap.length_keys, Std.TreeMap.length_keys] at split
  exact split.symm

end Op

structure Account where
  freed : Nat
  /-- How many nodes each collection left, the latest first. -/
  left : List Nat

namespace Account

def empty : Account := ⟨0, []⟩

def note (a : Account) (op : Op) (h : Heap) : Account where
  freed := a.freed + (op.freed h).length
  left := if op.collects h then (op.apply h).nodes.size :: a.left else a.left

def after : List Op → Heap → Account → Account
  | [], _, a => a
  | op :: ops, h, a => after ops (op.apply h) (a.note op h)

/-- How many nodes are allowed: twice as many as the last collection left, and at least 256. -/
def threshold (a : Account) : Nat :=
  match a.left with
  | [] => 256
  | n :: _ => max 256 (2 * n)

theorem note_of_kept (a : Account) (op : Op) {h : Heap}
    (kept : ∀ x ∈ h.nodes, x ∈ (op.apply h).nodes) (idle : op.collects h = false) :
    a.note op h = a := by
  rw [note, Op.freed_of_kept kept, idle]
  rfl

end Account

/-- The counters of a heap tell what happened to its nodes. -/
structure Accounted (h : Heap) (a : Account) : Prop where
  clean : ∀ x, ¬h.nodes.Marked x
  young : ∀ x ∈ h.nodes, x.index < h.total
  current : h.current = h.nodes.size
  total : h.total = h.nodes.size + a.freed
  live : h.liveAfterLast = a.left.headD 0
  collections : h.collections = a.left.length
  threshold : h.threshold = a.threshold
  requested : h.requested ↔ h.threshold < h.nodes.size

namespace Accounted

variable {h : Heap} {a : Account}

theorem empty : Heap.empty.Accounted .empty where
  clean x := by
    rintro ⟨n, found⟩
    simp [Heap.empty] at found
  young x hx := by simp [Heap.empty] at hx
  current := rfl
  total := rfl
  live := rfl
  collections := rfl
  threshold := rfl
  requested := by decide

/-- Roots, registrations and handles are not counted. -/
theorem host (c : h.Accounted a) {h' : Heap} (same : h' = { h with
      slots := h'.slots, vectors := h'.vectors, roots := h'.roots, scopes := h'.scopes,
      registered := h'.registered, handles := h'.handles }) : h'.Accounted a := by
  rw [same]
  exact ⟨c.clean, c.young, c.current, c.total, c.live, c.collections, c.threshold, c.requested⟩

theorem allocate (c : h.Accounted a) (n : Node) : (h.allocate n).2.Accounted a := by
  have size := size_allocate n c.young
  refine ⟨clean_allocate n c.clean, young_allocate n c.young, ?_, ?_, c.live, c.collections,
    c.threshold, ?_⟩
  · rw [size, ← c.current]
    rfl
  · show h.total + 1 = _
    rw [size, c.total]
    omega
  · have before := c.requested
    have current := c.current
    show (h.requested || decide (h.threshold < h.current + 1)) = true ↔ h.threshold < _
    rw [size, Bool.or_eq_true, before, decide_eq_true_iff]
    omega

theorem modifyNode (c : h.Accounted a) (x : NodeId) (f : Node → Node) :
    (h.modifyNode x f).Accounted a := by
  have size : (h.modifyNode x f).nodes.size = h.nodes.size := Std.TreeMap.size_modify
  refine ⟨clean_modifyNode x f c.clean, fun y hy => c.young y (Std.TreeMap.mem_modify.mp hy), ?_,
    ?_, c.live, c.collections, c.threshold, ?_⟩
  · exact c.current.trans size.symm
  · rw [size]
    exact c.total
  · rw [size]
    exact c.requested

/-- A collection leaves fewer nodes than it allows from then on. -/
theorem collect (c : h.Accounted a) : h.collect.Accounted (a.note .collect h) := by
  have old : ∀ x ∈ (Op.collect.apply h).nodes, x ∈ h.nodes := fun x hx =>
    ((h.mem_collect_iff_of_clean c.clean).mp hx).1
  have size : h.collect.nodes.size + (Op.collect.freed h).length = h.nodes.size :=
    Op.size_add_freed old
  refine ⟨Nodes.sweep_unmarked _, fun x hx => c.young x (old x hx), rfl, ?_, rfl, ?_, rfl, ?_⟩
  · show h.total = h.collect.nodes.size + (a.freed + (Op.collect.freed h).length)
    rw [c.total, ← size]
    show h.collect.nodes.size + (Op.collect.freed h).length + a.freed = _
    omega
  · exact congrArg (· + 1) c.collections
  · show false = true ↔ max 256 (2 * h.collect.nodes.size) < h.collect.nodes.size
    simp
    omega

theorem maybeCollect_eq (c : h.Accounted a) :
    h.maybeCollect = if h.threshold < h.nodes.size then h.collect else h := by
  rw [Heap.maybeCollect]
  exact if_congr c.requested rfl rfl

theorem maybeCollect (c : h.Accounted a) : h.maybeCollect.Accounted (a.note .maybeCollect h) := by
  by_cases crowded : h.threshold < h.nodes.size
  · have same : h.maybeCollect = h.collect := by rw [c.maybeCollect_eq, if_pos crowded]
    have noted : a.note .maybeCollect h = a.note .collect h := by
      simp only [Account.note, Op.freed, Op.apply, Op.collects, same, crowded, decide_true, if_true]
    rw [same, noted]
    exact c.collect
  · have same : h.maybeCollect = h := by rw [c.maybeCollect_eq, if_neg crowded]
    rw [same, a.note_of_kept .maybeCollect (fun x hx => ?_) (by simp [Op.collects, crowded])]
    · exact c
    · rw [Op.apply, same]
      exact hx

/-- One operation. -/
theorem apply (c : h.Accounted a) (op : Op) : (op.apply h).Accounted (a.note op h) := by
  have noted (same : (op.apply h).nodes = h.nodes) (idle : op.collects h = false) :
      a.note op h = a := a.note_of_kept op (fun x hx => same ▸ hx) idle
  cases op with
  | allocate n =>
    rw [a.note_of_kept (.allocate n) (fun x hx => Std.TreeMap.mem_insert.mpr (.inr hx)) rfl]
    exact c.allocate n
  | add x key r =>
    rw [a.note_of_kept (.add x key r) (fun y => Std.TreeMap.mem_modify.mpr) rfl]
    exact c.modifyNode x (·.add key r)
  | capture x scope =>
    rw [a.note_of_kept (.capture x scope) (fun y => Std.TreeMap.mem_modify.mpr) rfl]
    exact c.modifyNode x (·.capture scope)
  | bind x name r =>
    rw [a.note_of_kept (.bind x name r) (fun y => Std.TreeMap.mem_modify.mpr) rfl]
    exact c.modifyNode x (·.bind name r)
  | closeScope =>
    have same : h.closeScope.nodes = h.nodes := by
      rw [Heap.closeScope]
      split <;> rfl
    rw [noted same rfl]
    show h.closeScope.Accounted a
    rw [Heap.closeScope]
    split
    · exact c
    · exact c.host rfl
  | moveHandle target source =>
    have same : (h.moveHandle target source).nodes = h.nodes := by
      rw [Heap.moveHandle]
      split <;> rfl
    rw [noted same rfl]
    show (h.moveHandle target source).Accounted a
    rw [Heap.moveHandle]
    split
    · exact c.host rfl
    · exact c.host rfl
  | collect => exact c.collect
  | maybeCollect => exact c.maybeCollect
  | _ =>
    rw [noted rfl rfl]
    exact c.host rfl

/-- Any number of operations. -/
theorem after (c : h.Accounted a) (ops : List Op) :
    (Heap.after ops h).Accounted (a.after ops h) := by
  induction ops generalizing h a with
  | nil => exact c
  | cons op ops ih => exact ih (c.apply op)

/-- What a collection left can still be reached. -/
theorem mem_collect_collect_iff (c : h.Accounted a) {x : NodeId} :
    x ∈ h.collect.collect.nodes ↔ x ∈ h.collect.nodes := by
  have first (x : NodeId) := h.mem_collect_iff_of_clean (x := x) c.clean
  rw [h.collect.mem_collect_iff_of_clean c.collect.clean]
  refine and_iff_left_of_imp fun kept => ?_
  obtain ⟨_, reach⟩ := (first x).mp kept
  refine (reach.induction (P := fun x => h.nodes.Reachable (some · ∈ h.startingPoints) x ∧
    h.collect.nodes.Reachable (some · ∈ h.startingPoints) x)
    (fun x hx => ⟨.root hx, .root hx⟩) ?_).2
  rintro x y ⟨before, after⟩ edge
  obtain ⟨n, found, refers⟩ := edge
  have stays := (first x).mpr ⟨Nodes.mem_iff.mpr ⟨n, found⟩, before⟩
  have held := (h.node?_collect_of_clean c.clean stays).trans found
  exact ⟨before.edge ⟨n, found, refers⟩, after.edge ⟨n, held, refers⟩⟩

end Accounted

theorem total_apply (op : Op) (h : Heap) :
    (op.apply h).total = h.total + if op.allocates then 1 else 0 := by
  cases op with
  | closeScope =>
    show h.closeScope.total = h.total
    rw [closeScope]
    split <;> rfl
  | moveHandle target source =>
    show (h.moveHandle target source).total = h.total
    rw [moveHandle]
    split <;> rfl
  | maybeCollect =>
    show h.maybeCollect.total = h.total
    rw [maybeCollect]
    split <;> rfl
  | _ => rfl

theorem total_after (ops : List Op) (h : Heap) :
    (after ops h).total = h.total + ops.countP Op.allocates := by
  induction ops generalizing h with
  | nil => rfl
  | cons op ops ih =>
    show (after ops (op.apply h)).total = _
    rw [ih, total_apply, List.countP_cons]
    omega

end Heap

/-- Whatever a program does with its heap, the heap counts the nodes that there are, that were
ever made and that the last collection left, and asks for a collection exactly while there are more
nodes than twice those left by the last one, or than 256. A collection granted on request so takes
place exactly then, and a second one right after it finds nothing to do. -/
theorem heap_accounts_are_exact (ops : List Heap.Op) :
    let h := Heap.empty.after ops
    let a := Heap.Account.empty.after ops .empty
    h.current = h.nodes.size ∧
    h.total = ops.countP Heap.Op.allocates ∧ h.total = h.current + a.freed ∧
    h.collections = a.left.length ∧
    (a.left = [] → h.threshold = 256) ∧
    (∀ n ∈ a.left.head?, h.liveAfterLast = n ∧ h.threshold = max 256 (2 * h.liveAfterLast)) ∧
    (h.requested ↔ h.threshold < h.nodes.size) ∧
    (h.maybeCollect = if h.threshold < h.nodes.size then h.collect else h) ∧
    h.collect.maybeCollect = h.collect ∧
    Heap.Op.collect.freed h.collect = [] ∧
    ∀ x, h.collect.collect.nodes.node? x = h.collect.nodes.node? x := by
  intro h a
  have c : h.Accounted a := Heap.Accounted.empty.after ops
  have again (x : NodeId) : x ∈ h.collect.collect.nodes ↔ x ∈ h.collect.nodes :=
    c.mem_collect_collect_iff
  refine ⟨c.current, ?_, ?_, c.collections, fun none => ?_, fun n last => ?_, c.requested,
    c.maybeCollect_eq, rfl, Heap.Op.freed_of_kept fun x => (again x).mpr, fun x => ?_⟩
  · rw [show h.total = _ from Heap.total_after ops .empty]
    exact Nat.zero_add _
  · rw [c.total, c.current]
  · rw [c.threshold, Heap.Account.threshold, none]
  · obtain ⟨rest, left⟩ := List.head?_eq_some_iff.mp last
    have live := c.live
    rw [left] at live
    rw [live, c.threshold, Heap.Account.threshold, left]
    exact ⟨rfl, rfl⟩
  · by_cases kept : x ∈ h.collect.nodes
    · exact h.collect.node?_collect_of_clean c.collect.clean ((again x).mpr kept)
    · rw [Nodes.node?_eq_none kept, Nodes.node?_eq_none (mt (again x).mp kept)]

end MiniLisp
