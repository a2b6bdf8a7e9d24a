import Mathlib.Data.List.Induction
import MiniLisp.Proofs.Collection

/-! A handle registers the frame it holds, and a program can register frames by hand as well. A
handle made under a name that is free is a new one; made under the name of another it takes its
place. -/
namespace MiniLisp

namespace Heap

def holders (h : Heap) (x : NodeId) : Nat := (h.handles.filter fun _ y => y = some x).size

def one (y : Option NodeId) (x : NodeId) : Nat := if y = some x then 1 else 0

/-- A handle counts for the frame that it holds, and the others count as if it were not there. -/
theorem holders_split (handles : Std.TreeMap Text (Option NodeId)) (name : Text) (x : NodeId) :
    (handles.filter fun _ y => y = some x).size =
      ((handles.erase name).filter fun _ y => y = some x).size +
        one (handles.getD name none) x := by
  have others : ((handles.erase name).filter fun _ y => decide (y = some x)).Equiv
      ((handles.filter fun _ y => decide (y = some x)).erase name) := by
    refine .of_forall_constGet?_eq fun other => ?_
    rw [Std.TreeMap.getElem?_filter', Std.TreeMap.getElem?_erase, Std.TreeMap.getElem?_erase]
    split
    · rfl
    · rw [Std.TreeMap.getElem?_filter']
  have counts : (handles.filter fun _ y => decide (y = some x)).contains name = true ↔
      handles.getD name none = some x := by
    rw [Std.TreeMap.contains_eq_isSome_getElem?, Std.TreeMap.getElem?_filter',
      Std.TreeMap.getD_eq_getD_getElem?]
    cases handles[name]? with
    | none => simp
    | some y => by_cases same : y = some x <;> simp [same]
  have positive (h : (handles.filter fun _ y => decide (y = some x)).contains name = true) :
      (handles.filter fun _ y => decide (y = some x)).size ≠ 0 := by
    intro empty
    rw [Std.TreeMap.contains_of_isEmpty (by simp [Std.TreeMap.isEmpty_eq_size_eq_zero, empty])] at h
    cases h
  rw [others.size_eq, Std.TreeMap.size_erase, one]
  by_cases held : handles.getD name none = some x
  · have inside := counts.mpr held
    have := positive inside
    rw [if_pos inside, if_pos held]
    omega
  · rw [if_neg (mt counts.mp held), if_neg held]
    rfl

variable {h : Heap} {m n : NodeId → Nat}

theorem holders_setHandle (h : Heap) (name : Text) (y : Option NodeId) (x : NodeId) :
    (h.setHandle name y).holders x + one (h.held name) x = h.holders x + one y x := by
  have before := holders_split h.handles name x
  have after := holders_split (h.handles.insert name y) name x
  have others : (((h.handles.insert name y).erase name).filter fun _ z => decide (z = some x)).Equiv
      ((h.handles.erase name).filter fun _ z => decide (z = some x)) := by
    refine .of_forall_constGet?_eq fun other => ?_
    rw [Std.TreeMap.getElem?_filter', Std.TreeMap.getElem?_filter', Std.TreeMap.getElem?_erase,
      Std.TreeMap.getElem?_erase, Std.TreeMap.getElem?_insert]
    split <;> rfl
  rw [others.size_eq, Std.TreeMap.getD_insert_self] at after
  unfold holders held
  rw [setHandle, after, before]
  omega

theorem holders_pos_iff (h : Heap) (x : NodeId) :
    0 < h.holders x ↔ ∃ name, h.held name = some x := by
  constructor
  · intro positive
    have inside : (h.handles.filter fun _ y => decide (y = some x)).isEmpty = false := by
      rw [Std.TreeMap.isEmpty_eq_size_eq_zero]
      exact beq_false_of_ne (Nat.ne_of_gt positive)
    obtain ⟨name, mem⟩ := Std.TreeMap.isEmpty_eq_false_iff_exists_mem.mp inside
    obtain ⟨there, found⟩ := Std.TreeMap.mem_filter.mp mem
    refine ⟨name, ?_⟩
    rw [held, Std.TreeMap.getD_eq_getD_getElem?, Std.TreeMap.getElem?_eq_some_getElem there]
    exact of_decide_eq_true found
  · rintro ⟨name, found⟩
    have split := holders_split h.handles name x
    have counts : one (h.handles.getD name none) x = 1 := if_pos found
    rw [counts] at split
    rw [holders, split]
    omega

theorem held_resetHandle (h : Heap) (name other : Text) :
    (h.resetHandle name).held other = if other = name then none else h.held other := by
  rw [Heap.resetHandle, held_setHandle]
  cases h.held name <;> rfl

/-- A frame is registered once for each handle that holds it, and by hand as often as is said. -/
def Balanced (h : Heap) (manual : NodeId → Nat) : Prop :=
  ∀ x, h.registered.count x = h.holders x + manual x

namespace Balanced

theorem register (b : h.Balanced m) (y : Option NodeId) :
    (h.register y).Balanced fun x => m x + one y x := by
  intro x
  have before := b x
  show (h.registered ++ y.toList).count x = h.holders x + _
  rw [List.count_append, before, Nat.add_assoc]
  congr 2
  cases y with
  | none => rfl
  | some y => simp [one, List.count_singleton]

theorem unregister (b : h.Balanced m) {y : Option NodeId} (made : ∀ x, m x = n x + one y x) :
    (h.unregister y).Balanced n := by
  intro x
  have before := b x
  rw [made] at before
  cases y with
  | none => exact before
  | some y =>
    show (h.registered.erase y).count x = h.holders x + n x
    rw [List.count_erase, before, one]
    by_cases same : y = x
    · simp [same]
    · simp [same]

/-- A frame that a handle takes up is one less that is registered by hand, and one that it lets go
of is one more. -/
theorem setHandle (b : h.Balanced m) (name : Text) (y : Option NodeId)
    (taken : ∀ x, n x + one y x = m x + one (h.held name) x) :
    (h.setHandle name y).Balanced n := by
  intro x
  have before := b x
  have moved := holders_setHandle h name y x
  have taken := taken x
  show h.registered.count x = (h.setHandle name y).holders x + n x
  omega

theorem resetHandle (b : h.Balanced m) (name : Text) : (h.resetHandle name).Balanced m := by
  have free := b.setHandle (n := fun x => m x + one (h.held name) x) name none fun x => rfl
  exact free.unregister fun x => rfl

theorem assignHandle (b : h.Balanced m) (name : Text) (y : Option NodeId) :
    (h.assignHandle name y).Balanced m := by
  refine ((b.register y).resetHandle name).setHandle name y fun x => ?_
  rw [held_resetHandle, if_pos rfl]
  rfl

theorem moveHandle (b : h.Balanced m) (target source : Text) :
    (h.moveHandle target source).Balanced m := by
  rw [Heap.moveHandle]
  split
  · exact b.setHandle target _ fun x => rfl
  · rename_i other
    have free := (b.resetHandle target).setHandle (n := fun x => m x + one (h.held source) x)
      source none (fun x => by rw [held_resetHandle, if_neg (Ne.symm other)]; rfl)
    refine free.setHandle target _ fun x => ?_
    rw [held_setHandle, if_neg other, held_resetHandle, if_pos rfl]
    rfl

theorem constructHandle (b : h.Balanced m) (target source : Text) :
    (h.constructHandle target source).Balanced m := by
  have free := b.setHandle (n := fun x => m x + one (h.held source) x) source none fun x => rfl
  refine (free.resetHandle target).setHandle target _ fun x => ?_
  rw [held_resetHandle, if_pos rfl]
  rfl

theorem dropHandle (b : h.Balanced m) (name : Text) : (h.dropHandle name).Balanced m := by
  intro x
  have reset := b.resetHandle name x
  have split := holders_split (h.resetHandle name).handles name x
  have none : (h.resetHandle name).handles.getD name none = none := by
    have held := held_resetHandle h name name
    rwa [if_pos rfl] at held
  rw [none] at split
  rw [holders, split] at reset
  exact reset

end Balanced

namespace Op

/-- How often a frame was registered by hand and this has not been undone. -/
def outstanding (ops : List Op) (x : NodeId) : Nat :=
  ops.count (.register (some x)) - ops.count (.unregister (some x))

def undone? : Op → Option NodeId
  | unregister y => y
  | _ => none

/-- What is undone by hand was registered by hand before and has not been undone since. -/
def Matched (ops : List Op) : Prop :=
  ∀ i < ops.length, ∀ op ∈ ops[i]?, ∀ x ∈ op.undone?, 0 < outstanding (ops.take i) x

instance (ops : List Op) : Decidable (Matched ops) :=
  inferInstanceAs (Decidable (∀ i < ops.length, _))

variable {ops : List Op} {op : Op} {x : NodeId}

theorem Matched.initial (h : Matched (ops ++ [op])) : Matched ops := by
  intro i inside op' there x undoes
  have positive := h i (by simp; omega) op' (by rwa [List.getElem?_append_left inside]) x undoes
  rwa [List.take_append_of_le_length (Nat.le_of_lt inside)] at positive

theorem Matched.undoes (h : Matched (ops ++ [.unregister (some x)])) : 0 < outstanding ops x := by
  have positive := h ops.length (by simp) _ List.getElem?_concat_length x rfl
  rwa [List.take_left] at positive

theorem count_snoc (ops : List Op) (op op' : Op) :
    (ops ++ [op]).count op' = ops.count op' + if op = op' then 1 else 0 := by
  simp only [List.count_append, List.count_singleton, beq_iff_eq]

/-- No more is undone than was done. -/
theorem Matched.undone_le (h : Matched ops) (x : NodeId) :
    ops.count (.unregister (some x)) ≤ ops.count (.register (some x)) := by
  induction ops using List.reverseRecOn with
  | nil => exact Nat.le_refl 0
  | append_singleton ops op ih =>
    have before := ih h.initial
    rw [count_snoc, count_snoc]
    by_cases undoes : op = .unregister (some x)
    · subst undoes
      have := h.undoes
      unfold outstanding at this
      simp
      omega
    · rw [if_neg undoes]
      omega

theorem outstanding_register (h : Matched ops) (y : Option NodeId) (x : NodeId) :
    outstanding (ops ++ [.register y]) x = outstanding ops x + one y x := by
  have := h.undone_le x
  simp only [outstanding, count_snoc, one, register.injEq, reduceCtorEq, if_false]
  omega

theorem outstanding_unregister {y : Option NodeId} (h : Matched (ops ++ [.unregister y]))
    (x : NodeId) : outstanding ops x = outstanding (ops ++ [.unregister y]) x + one y x := by
  have positive : y = some x → 0 < outstanding ops x := by
    rintro rfl
    exact h.undoes
  simp only [outstanding, count_snoc, one, unregister.injEq, reduceCtorEq, if_false] at positive ⊢
  by_cases same : y = some x
  · have := positive same
    rw [if_pos same]
    omega
  · rw [if_neg same]
    omega

theorem outstanding_other (made : ∀ y, op ≠ .register y) (undone : ∀ y, op ≠ .unregister y) :
    outstanding (ops ++ [op]) = outstanding ops := by
  funext x
  simp only [outstanding, count_snoc, if_neg (made (some x)), if_neg (undone (some x)),
    Nat.add_zero]

end Op

theorem Balanced.applyOther (b : h.Balanced m) {op : Op} (made : ∀ y, op ≠ .register y)
    (undone : ∀ y, op ≠ .unregister y) : (op.apply h).Balanced m := by
  cases op with
  | register y => exact absurd rfl (made y)
  | unregister y => exact absurd rfl (undone y)
  | assignHandle name y => exact b.assignHandle name y
  | moveHandle target source => exact b.moveHandle target source
  | constructHandle target source => exact b.constructHandle target source
  | resetHandle name => exact b.resetHandle name
  | dropHandle name => exact b.dropHandle name
  | closeScope =>
    show h.closeScope.Balanced m
    rw [Heap.closeScope]
    split
    · exact b
    · exact b
  | maybeCollect =>
    show h.maybeCollect.Balanced m
    rw [Heap.maybeCollect]
    split
    · exact b
    · exact b
  | _ => exact b

/-- One operation. -/
theorem Balanced.apply {ops : List Op} {op : Op} (b : h.Balanced (Op.outstanding ops))
    (matched : Op.Matched (ops ++ [op])) :
    (op.apply h).Balanced (Op.outstanding (ops ++ [op])) := by
  cases op with
  | register y =>
    intro x
    rw [Op.outstanding_register matched.initial]
    exact b.register y x
  | unregister y => exact b.unregister (Op.outstanding_unregister matched)
  | _ =>
    rw [Op.outstanding_other (by simp) (by simp)]
    exact b.applyOther (by simp) (by simp)

theorem balanced_after {ops : List Op} (matched : Op.Matched ops) :
    (Heap.empty.after ops).Balanced (Op.outstanding ops) := by
  induction ops using List.reverseRecOn with
  | nil => exact fun x => rfl
  | append_singleton ops op ih =>
    rw [after, List.foldl_append]
    exact (ih matched.initial).apply matched

end Heap

/-- Whatever handles are made, moved, reset and dropped and whatever is registered by hand between,
a frame is registered as often as handles hold it and registrations by hand are not undone. So it
is a root as long as a handle or such a registration holds it and no longer. What a handle held is
in the one it was moved into and nowhere else. -/
theorem registrations_match_holders (ops : List Heap.Op) (matched : Heap.Op.Matched ops) :
    let h := Heap.empty.after ops
    (∀ x, h.registered.count x = h.holders x + Heap.Op.outstanding ops x) ∧
    (∀ x, x ∈ h.registered ↔ (∃ name, h.held name = some x) ∨ 0 < Heap.Op.outstanding ops x) ∧
    (∀ name, (h.resetHandle name).held name = none ∧ (h.dropHandle name).held name = none) ∧
    ∀ target source,
      (h.moveHandle target source).held target = h.held source ∧
      (h.constructHandle target source).held target = h.held source ∧
      (source ≠ target → (h.moveHandle target source).held source = none ∧
        (h.constructHandle target source).held source = none) := by
  intro h
  have balanced : h.Balanced (Heap.Op.outstanding ops) := Heap.balanced_after matched
  refine ⟨balanced, fun x => ?_, fun name => ⟨?_, ?_⟩,
    fun target source => ⟨?_, ?_, fun other => ⟨?_, ?_⟩⟩⟩
  · rw [← List.count_pos_iff, balanced x, ← h.holders_pos_iff]
    omega
  · rw [Heap.held_resetHandle, if_pos rfl]
  · exact Std.TreeMap.getD_erase_self
  · rw [Heap.moveHandle]
    split
    · rename_i same
      rw [Heap.held_setHandle, if_pos rfl, same]
    · rw [Heap.held_setHandle, if_pos rfl]
  · rw [Heap.constructHandle, Heap.held_setHandle, if_pos rfl]
  · rw [Heap.moveHandle, if_neg (Ne.symm other), Heap.held_setHandle, if_neg other,
      Heap.held_setHandle, if_pos rfl]
  · rw [Heap.constructHandle, Heap.held_setHandle, if_neg other, Heap.held_resetHandle,
      if_neg other, Heap.held_setHandle, if_pos rfl]

/-- Two handles hold a frame that is registered by hand twice as well. One is moved into itself,
the other takes over from an empty one, and one registration by hand is undone. -/
def handover : List Heap.Op :=
  [.allocate (.frame none []), .register (some ⟨0⟩), .assignHandle (ascii "f") (some ⟨0⟩),
    .assignHandle (ascii "g") (some ⟨0⟩), .moveHandle (ascii "f") (ascii "f"),
    .register (some ⟨0⟩), .assignHandle (ascii "e") none, .moveHandle (ascii "g") (ascii "e"),
    .unregister (some ⟨0⟩), .constructHandle (ascii "k") (ascii "f")]

theorem handover_leaves_two_registrations :
    let h := Heap.empty.after handover
    Heap.Op.Matched handover ∧ h.registered.count ⟨0⟩ = 2 ∧ h.holders ⟨0⟩ = 1 ∧
      Heap.Op.outstanding handover ⟨0⟩ = 1 := by
  intro h
  have matched : Heap.Op.Matched handover := by decide +kernel
  have handles : h.holders ⟨0⟩ = 1 := by decide +kernel
  have manual : Heap.Op.outstanding handover ⟨0⟩ = 1 := by decide +kernel
  obtain ⟨counts, _⟩ := registrations_match_holders handover matched
  refine ⟨matched, ?_, handles, manual⟩
  rw [counts, handles, manual]

end MiniLisp
