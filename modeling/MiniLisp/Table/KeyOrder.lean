import Std.Data.TreeMap

/-! Distinct keys in an order, with an index that finds the place of a key. The index is no second
truth: where it places a key is where the key stands. -/
namespace MiniLisp

structure KeyOrder (κ : Type) [DecidableEq κ] [Ord κ] where
  keys : Array κ
  places : Std.TreeMap κ Nat
  nodup : keys.toList.Nodup
  places_eq : ∀ k, places[k]? = keys.toList.idxOf? k

namespace KeyOrder

variable {κ : Type} [DecidableEq κ] [Ord κ]

def toList (o : KeyOrder κ) : List κ := o.keys.toList

def size (o : KeyOrder κ) : Nat := o.keys.size

@[inline] def place? (o : KeyOrder κ) (k : κ) : Option Nat := o.places[k]?

theorem place?_eq (o : KeyOrder κ) (k : κ) : o.place? k = o.toList.idxOf? k := o.places_eq k

theorem nodup_toList (o : KeyOrder κ) : o.toList.Nodup := o.nodup

@[simp] theorem length_toList (o : KeyOrder κ) : o.toList.length = o.size :=
  Array.length_toList

theorem place?_eq_none_iff {o : KeyOrder κ} {k : κ} : o.place? k = none ↔ k ∉ o.toList := by
  rw [place?_eq, List.idxOf?_eq_none_iff]

/-- A key stands at its place and nowhere else. -/
theorem place?_eq_some_iff {o : KeyOrder κ} {k : κ} {i : Nat} :
    o.place? k = some i ↔ o.toList[i]? = some k := by
  rw [place?_eq, List.idxOf?_eq_some_iff]
  constructor
  · rintro ⟨h, hk, _⟩
    rw [List.getElem?_eq_getElem h, hk]
  · intro h
    obtain ⟨hi, hk⟩ := List.getElem?_eq_some_iff.1 h
    refine ⟨hi, hk, fun j hj same => ?_⟩
    have := (List.getElem_inj o.nodup_toList).1 (same.trans hk.symm)
    omega

variable [Std.TransOrd κ]

def empty : KeyOrder κ := ⟨#[], ∅, List.nodup_nil, fun k => by simp⟩

@[simp] theorem toList_empty : (empty : KeyOrder κ).toList = [] := rfl

variable [Std.LawfulEqOrd κ]

def push (o : KeyOrder κ) (k : κ) (new : o.place? k = none) : KeyOrder κ :=
  let place := o.keys.size
  { keys := o.keys.push k
    places := o.places.insert k place
    nodup := by
      have hk : k ∉ o.keys.toList := place?_eq_none_iff.1 new
      rw [Array.toList_push]
      exact List.nodup_append.2 ⟨o.nodup, by simp, fun a ha b hb same =>
        hk (List.mem_singleton.1 hb ▸ same ▸ ha)⟩
    places_eq := fun j => by
      have hk : o.keys.toList.idxOf? k = none := (o.places_eq k).symm.trans new
      rw [Array.toList_push, Std.TreeMap.getElem?_insert, List.idxOf?, List.findIdx?_append,
        ← List.idxOf?, o.places_eq, Array.length_toList]
      simp only [Std.LawfulEqCmp.compare_eq_iff_eq]
      by_cases same : k = j
      · subst same
        simp [hk, place]
      · simp [same] }

@[simp] theorem size_push (o : KeyOrder κ) (k : κ) (new : o.place? k = none) :
    (o.push k new).size = o.size + 1 := Array.size_push _

@[simp] theorem toList_push (o : KeyOrder κ) (k : κ) (new : o.place? k = none) :
    (o.push k new).toList = o.toList ++ [k] := Array.toList_push

def insert (o : KeyOrder κ) (k : κ) : KeyOrder κ :=
  match new : o.place? k with
  | some _ => o
  | none => o.push k new

theorem toList_insert (o : KeyOrder κ) (k : κ) :
    (o.insert k).toList = if k ∈ o.toList then o.toList else o.toList ++ [k] := by
  rw [insert]
  split
  · rename_i i h
    rw [if_pos]
    exact Decidable.not_not.1 fun hk => by simp [place?_eq_none_iff.2 hk] at h
  · rename_i h
    rw [toList_push, if_neg (place?_eq_none_iff.1 h)]

theorem insert_of_new (o : KeyOrder κ) (k : κ) (new : o.place? k = none) :
    o.insert k = o.push k new := by
  rw [insert]
  split
  · rename_i h
    rw [new] at h
    cases h
  · rfl

omit [Ord κ] [Std.TransOrd κ] [Std.LawfulEqOrd κ] in
/-- Taking a key out moves each key behind it one place down. -/
theorem idxOf?_eraseIdx {ks : List κ} (nodup : ks.Nodup) {k : κ} {i : Nat}
    (place : ks.idxOf? k = some i) (j : κ) : (ks.eraseIdx i).idxOf? j =
      if k = j then none else (ks.idxOf? j).map fun p => if i < p then p - 1 else p := by
  induction ks generalizing i with
  | nil => simp at place
  | cons a ks ih =>
    obtain ⟨fresh, nodup⟩ := List.nodup_cons.1 nodup
    rw [List.idxOf?_cons] at place
    by_cases here : a = k
    · subst here
      obtain rfl : 0 = i := by simpa using place
      rw [List.eraseIdx_cons_zero, List.idxOf?_cons]
      by_cases same : a = j
      · subst same
        simpa using fresh
      · cases ks.idxOf? j <;> simp [same]
    · rw [if_neg (by simpa using here)] at place
      obtain ⟨i, later, rfl⟩ := Option.map_eq_some_iff.1 place
      rw [List.eraseIdx_cons_succ, List.idxOf?_cons, List.idxOf?_cons, ih nodup later]
      by_cases first : a = j
      · subst first
        simp [Ne.symm here]
      · by_cases same : k = j
        · simp [same, first]
        · cases ks.idxOf? j with
          | none => simp [same, first]
          | some p =>
            simp only [same, first, beq_iff_eq, if_false, Option.map_some, Option.some.injEq]
            split <;> split <;> omega

/-- Takes out the key that stands at a place. The keys behind it move up. -/
def erase (o : KeyOrder κ) (k : κ) {i : Nat} (found : o.place? k = some i) : KeyOrder κ where
  keys := o.keys.eraseIdxIfInBounds i
  places := (o.places.erase k).map fun _ p => if i < p then p - 1 else p
  nodup := by
    rw [Array.toList_eraseIdxIfInBounds]
    exact o.nodup.sublist (List.eraseIdx_sublist _ _)
  places_eq := fun j => by
    have place : o.keys.toList.idxOf? k = some i := (o.places_eq k).symm.trans found
    rw [Array.toList_eraseIdxIfInBounds, idxOf?_eraseIdx o.nodup place,
      Std.TreeMap.getElem?_map, Std.TreeMap.getElem?_erase, o.places_eq]
    simp only [Std.LawfulEqCmp.compare_eq_iff_eq]
    split <;> rfl

theorem place?_erase (o : KeyOrder κ) {k : κ} {i : Nat} (found : o.place? k = some i) (j : κ) :
    (o.erase k found).place? j =
      if k = j then none else (o.place? j).map fun p => if i < p then p - 1 else p := by
  rw [place?_eq, place?_eq]
  show (o.keys.eraseIdxIfInBounds i).toList.idxOf? j = _
  rw [Array.toList_eraseIdxIfInBounds]
  exact idxOf?_eraseIdx o.nodup ((o.places_eq k).symm.trans found) j

@[simp] theorem toList_erase (o : KeyOrder κ) {k : κ} {i : Nat} (found : o.place? k = some i) :
    (o.erase k found).toList = o.toList.eraseIdx i := Array.toList_eraseIdxIfInBounds

def ofList (ks : List κ) : KeyOrder κ := ks.foldl insert empty

theorem ofList_append (ks : List κ) (k : κ) : ofList (ks ++ [k]) = (ofList ks).insert k := by
  rw [ofList, List.foldl_append]
  rfl

theorem toList_ofList {ks : List κ} (nodup : ks.Nodup) : (ofList ks).toList = ks := by
  have onto (ks : List κ) (o : KeyOrder κ) (nodup : (o.toList ++ ks).Nodup) :
      (ks.foldl insert o).toList = o.toList ++ ks := by
    induction ks generalizing o with
    | nil => simp
    | cons k ks ih =>
      have fresh : k ∉ o.toList := fun h =>
        (List.nodup_append.1 nodup).2.2 k h k (List.mem_cons_self) rfl
      have next : (o.insert k).toList = o.toList ++ [k] := by rw [toList_insert, if_neg fresh]
      rw [List.foldl_cons, ih (o.insert k) (by rw [next]; simpa using nodup), next]
      simp
  simpa [ofList] using onto ks empty nodup

theorem sublist_ofList (ks : List κ) : (ofList ks).toList.Sublist ks := by
  have onto (ks : List κ) (o : KeyOrder κ) :
      (ks.foldl insert o).toList.Sublist (o.toList ++ ks) := by
    induction ks generalizing o with
    | nil => simp
    | cons k ks ih =>
      rw [List.foldl_cons, List.append_cons]
      refine (ih _).trans (List.Sublist.append_right ?_ ks)
      rw [toList_insert]
      split
      · exact List.sublist_append_left _ _
      · exact List.Sublist.refl _
  simpa [ofList] using onto ks empty

end KeyOrder

end MiniLisp
