import MiniLisp.Value

/-! Data is equal by content, cells and functions only to themselves. Values share parts, so
`Value.decideEqual` takes what is stored at one place for equal without looking into it and compares
sizes before items. It yields the answer of `Value.equal` by its type. -/
namespace MiniLisp

namespace Value

mutual

def equal : Value → Value → Bool
  | null, null => true
  | nil, nil => true
  | bool a, bool b => a = b
  | int a, int b => a = b
  | str a, str b => a = b
  | sym a, sym b => a = b
  | kw a, kw b => a = b
  | list ⟨xs⟩, list ⟨ys⟩ => equalItems xs ys
  | list ⟨xs⟩, vec ⟨ys⟩ => equalItems xs ys
  | vec ⟨xs⟩, list ⟨ys⟩ => equalItems xs ys
  | vec ⟨xs⟩, vec ⟨ys⟩ => equalItems xs ys
  | map ⟨order, ⟨vs⟩⟩, map t =>
    (Table.mk order ⟨vs⟩).size = t.size && boundIn t.find? order.toList vs
  | cell a, cell b => a = b
  | native a _, native b _ => a = b
  | closure a _ _ _, closure b _ _ _ => a = b
  | _, _ => false

def equalItems : List Value → List Value → Bool
  | [], [] => true
  | x :: xs, y :: ys => equal x y && equalItems xs ys
  | _, _ => false

def boundIn (find? : Key → Option Value) : List Key → List Value → Bool
  | k :: ks, v :: vs =>
    match find? k with
    | some w => equal v w && boundIn find? ks vs
    | none => false
  | _, _ => true

end

mutual

/-- Every value equals itself. -/
theorem equal_self : (v : Value) → equal v v = true
  | null | nil | bool _ | int _ | str _ | sym _ | kw _ | cell _ | native _ _
  | closure _ _ _ _ => by simp [equal]
  | list ⟨xs⟩ => by rw [equal, equalItems_self xs]
  | vec ⟨xs⟩ => by rw [equal, equalItems_self xs]
  | map ⟨order, ⟨vs⟩⟩ => by
    rw [equal, boundIn_self _ _ vs fun e he => ?_]
    · simp
    · rw [Table.find?_eq]
      exact Assoc.find?_of_mem (Table.nodup_keys_entries _) he

theorem equalItems_self : (xs : List Value) → equalItems xs xs = true
  | [] => by rw [equalItems]
  | x :: xs => by rw [equalItems, equal_self x, equalItems_self xs, Bool.and_self]

theorem boundIn_self (find? : Key → Option Value) : (ks : List Key) → (vs : List Value) →
    (∀ e ∈ ks.zip vs, find? e.1 = some e.2) → boundIn find? ks vs = true
  | [], _, _ => by rw [boundIn]; simp
  | _ :: _, [], _ => by rw [boundIn]; simp
  | k :: ks, v :: vs, h => by
    rw [boundIn, h (k, v) List.mem_cons_self]
    simp only
    rw [equal_self v, boundIn_self find? ks vs fun e he => h e (List.mem_cons_of_mem _ he),
      Bool.and_self]

end

theorem length_eq_of_equalItems {xs ys : List Value} (h : equalItems xs ys = true) :
    xs.length = ys.length := by
  induction xs generalizing ys with
  | nil => cases ys <;> simp_all [equalItems]
  | cons x xs ih =>
    cases ys with
    | nil => simp [equalItems] at h
    | cons y ys =>
      simp only [equalItems, Bool.and_eq_true] at h
      simp [ih h.2]

def sameSize : Value → Value → Bool
  | list xs, list ys => xs.size = ys.size
  | list xs, vec ys => xs.size = ys.size
  | vec xs, list ys => xs.size = ys.size
  | vec xs, vec ys => xs.size = ys.size
  | map s, map t => s.size = t.size
  | _, _ => true

theorem sameSize_of_equal {a b : Value} (h : equal a b = true) : sameSize a b = true := by
  have items {xs ys : List Value} (h : equalItems xs ys = true) :
      decide ((Array.mk xs).size = (Array.mk ys).size) = true := by
    simpa using length_eq_of_equalItems h
  unfold sameSize
  split
  · exact items (by rwa [equal] at h)
  · exact items (by rwa [equal] at h)
  · exact items (by rwa [equal] at h)
  · exact items (by rwa [equal] at h)
  · rw [equal] at h
    exact (Bool.and_eq_true_iff.1 h).1
  · rfl

abbrev Answer (answer : Bool) := { r : Bool // r = answer }

/-- Compares only what is not stored at one place. -/
@[inline] def unlessShared {answer : Bool} (a b : Value) (self : a = b → answer = true)
    (compare : Unit → Answer answer) : Answer answer :=
  ⟨withPtrEq a b (fun u => (compare u).val) (fun h => (compare ()).property.trans (self h)),
    (compare ()).property⟩

mutual

def decideEqual (a b : Value) : Answer (equal a b) :=
  unlessShared a b (fun h => h ▸ equal_self a) fun _ =>
    if sized : sameSize a b then
      match a, b with
      | list ⟨xs⟩, list ⟨ys⟩ => ⟨(decideItems xs ys).val, by
          rw [equal, (decideItems xs ys).property]⟩
      | list ⟨xs⟩, vec ⟨ys⟩ => ⟨(decideItems xs ys).val, by
          rw [equal, (decideItems xs ys).property]⟩
      | vec ⟨xs⟩, list ⟨ys⟩ => ⟨(decideItems xs ys).val, by
          rw [equal, (decideItems xs ys).property]⟩
      | vec ⟨xs⟩, vec ⟨ys⟩ => ⟨(decideItems xs ys).val, by
          rw [equal, (decideItems xs ys).property]⟩
      | map ⟨order, ⟨vs⟩⟩, map t => ⟨(decideBound t.find? order.toList vs).val, by
          rw [equal, (decideBound t.find? order.toList vs).property]
          exact (congrArg (· && _) sized).symm⟩
      | a, b => ⟨equal a b, rfl⟩
    else ⟨false, (Bool.eq_false_iff.2 fun h => sized (sameSize_of_equal h)).symm⟩

def decideItems (xs ys : List Value) : Answer (equalItems xs ys) :=
  match xs, ys with
  | x :: xs, y :: ys =>
    match decideEqual x y with
    | ⟨true, h⟩ => ⟨(decideItems xs ys).val, by
        rw [equalItems, ← h, Bool.true_and, (decideItems xs ys).property]⟩
    | ⟨false, h⟩ => ⟨false, by rw [equalItems, ← h, Bool.false_and]⟩
  | xs, ys => ⟨equalItems xs ys, rfl⟩

def decideBound (find? : Key → Option Value) (ks : List Key) (vs : List Value) :
    Answer (boundIn find? ks vs) :=
  match ks, vs with
  | k :: ks, v :: vs =>
    match h : find? k with
    | some w =>
      match decideEqual v w with
      | ⟨true, hv⟩ => ⟨(decideBound find? ks vs).val, by
          rw [boundIn, h]
          simp only
          rw [← hv, Bool.true_and, (decideBound find? ks vs).property]⟩
      | ⟨false, hv⟩ => ⟨false, by
          rw [boundIn, h]
          simp only
          rw [← hv, Bool.false_and]⟩
    | none => ⟨false, by rw [boundIn, h]⟩
  | ks, vs => ⟨boundIn find? ks vs, rfl⟩

end

def same (a b : Value) : Bool := (decideEqual a b).val

@[simp] theorem same_eq (a b : Value) : same a b = equal a b := (decideEqual a b).property

end Value

end MiniLisp
