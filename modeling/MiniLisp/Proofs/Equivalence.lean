import Mathlib.Data.List.Perm.Subperm
import Mathlib.Data.List.Forall2
import MiniLisp.Equality
import MiniLisp.Kind

/-! Equal values are equal to the same values, from which symmetry and transitivity follow because
every value equals itself. For maps this needs that their keys are as many and all distinct: only
the keys of one side are looked up in the other. -/
namespace MiniLisp

namespace Value

def parts : Value → List Value
  | list xs => xs.toList
  | vec xs => xs.toList
  | map t => t.values.toList
  | _ => []

section Induction

variable {P : Value → Prop}

mutual

/-- What holds of a value if it holds of its parts holds of every value. -/
theorem of_parts (step : ∀ v, (∀ w ∈ v.parts, P w) → P v) : (v : Value) → P v
  | null | nil | bool _ | int _ | str _ | sym _ | kw _ | cell _ | native _ _
  | closure _ _ _ _ => step _ fun _ h => by simp [parts] at h
  | list ⟨xs⟩ => step _ (all_of_parts step xs)
  | vec ⟨xs⟩ => step _ (all_of_parts step xs)
  | map ⟨_, ⟨vs⟩⟩ => step _ (all_of_parts step vs)

theorem all_of_parts (step : ∀ v, (∀ w ∈ v.parts, P w) → P v) :
    (vs : List Value) → ∀ w ∈ vs, P w
  | [], _, h => by simp at h
  | v :: vs, w, h => by
    rcases List.mem_cons.mp h with same | h
    · rw [same]
      exact of_parts step v
    · exact all_of_parts step vs w h

end

end Induction

theorem equalItems_iff {xs ys : List Value} :
    equalItems xs ys = true ↔ List.Forall₂ (fun x y => equal x y = true) xs ys := by
  induction xs generalizing ys with
  | nil => cases ys <;> simp [equalItems]
  | cons x xs ih => cases ys <;> simp [equalItems, ih]

theorem equal_items {a : Value} {xs : Array Value} (ha : a.items? = some xs) (b : Value) :
    equal a b = (b.items?.elim false fun ys => equalItems xs.toList ys.toList) := by
  obtain ⟨xs⟩ := xs
  cases a with
  | list | vec =>
    cases ha
    cases b <;> rw [equal] <;> simp [items?]
  | _ => cases ha

theorem boundIn_iff {find? : Key → Option Value} {ks : List Key} {vs : List Value} :
    boundIn find? ks vs = true ↔
      ∀ e ∈ ks.zip vs, ∃ w, find? e.1 = some w ∧ equal e.2 w = true := by
  induction ks generalizing vs with
  | nil => simp [boundIn]
  | cons k ks ih =>
    cases vs with
    | nil => simp [boundIn]
    | cons v vs =>
      rw [boundIn, List.zip_cons_cons, List.forall_mem_cons, ← ih]
      cases find? k <;> simp

/-- Every key of a table is bound in the other, to a value equal to its own. -/
def Covered (s t : Table Key Value) : Prop :=
  ∀ k v, s.find? k = some v → ∃ w, t.find? k = some w ∧ equal v w = true

theorem equal_maps {s t : Table Key Value} :
    equal (map s) (map t) = true ↔ s.size = t.size ∧ Covered s t := by
  have bound : equal (map s) (map t) =
      (s.size = t.size && boundIn t.find? s.order.toList s.values.toList) := by
    rw [show s = ⟨s.order, ⟨s.values.toList⟩⟩ from rfl, equal]
  rw [bound, Bool.and_eq_true, decide_eq_true_iff, boundIn_iff]
  refine and_congr_right fun _ => ⟨fun h k v found => ?_, fun h e he => ?_⟩
  · exact h (k, v) (Table.mem_entries_iff.mpr found)
  · exact h e.1 e.2 (Table.mem_entries_iff.mp he)

/-- As many keys, all of them found in the other table, are all the keys of the other. -/
theorem find?_of_covered {s t : Table Key Value} (size : s.size = t.size) (covered : Covered s t)
    {k : Key} {w : Value} (found : t.find? k = some w) :
    ∃ v, s.find? k = some v ∧ equal v w = true := by
  have inside : s.entries.keys ⊆ t.entries.keys := fun j hj => by
    obtain ⟨v, hv⟩ := Table.mem_keys_iff.mp hj
    obtain ⟨w, hw, _⟩ := covered j v hv
    exact Table.mem_keys_iff.mpr ⟨w, hw⟩
  have same : s.entries.keys.Perm t.entries.keys := by
    refine (s.nodup_keys_entries.subperm inside).perm_of_length_le ?_
    simpa [Assoc.keys] using Nat.le_of_eq size.symm
  obtain ⟨v, hv⟩ := Table.mem_keys_iff.mp (same.mem_iff.mpr (Table.mem_keys_iff.mpr ⟨w, found⟩))
  obtain ⟨w', hw', equal_v⟩ := covered k v hv
  obtain rfl : w' = w := Option.some.inj (hw'.symm.trans found)
  exact ⟨v, hv, equal_v⟩

/-- Maps are equal if they bind the same keys to equal values, whatever their order. -/
theorem equal_maps_iff {s t : Table Key Value} :
    equal (map s) (map t) = true ↔ (∀ k, k ∈ s.entries.keys ↔ k ∈ t.entries.keys) ∧
      ∀ k v w, s.find? k = some v → t.find? k = some w → equal v w = true := by
  rw [equal_maps]
  constructor
  · rintro ⟨size, covered⟩
    refine ⟨fun k => ?_, fun k v w hv hw => ?_⟩
    · rw [Table.mem_keys_iff, Table.mem_keys_iff]
      constructor
      · rintro ⟨v, hv⟩
        exact (covered k v hv).imp fun _ => And.left
      · rintro ⟨w, hw⟩
        exact (find?_of_covered size covered hw).imp fun _ => And.left
    · obtain ⟨w', hw', same⟩ := covered k v hv
      rwa [← Option.some.inj (hw'.symm.trans hw)]
  · rintro ⟨keys, values⟩
    refine ⟨?_, fun k v hv => ?_⟩
    · have same := (List.perm_ext_iff_of_nodup s.nodup_keys_entries t.nodup_keys_entries).mpr keys
      simpa [Assoc.keys] using same.length_eq
    · obtain ⟨w, hw⟩ := Table.mem_keys_iff.mp ((keys k).mp (Table.mem_keys_iff.mpr ⟨v, hv⟩))
      exact ⟨w, hw, values k v w hv hw⟩

/-- Whoever a value is equal to is equal to the same values as it. -/
def Substitutes (a : Value) : Prop := ∀ b, equal a b = true → ∀ c, equal a c = equal b c

theorem equalItems_congr {xs ys : List Value} (ih : ∀ x ∈ xs, Substitutes x)
    (h : equalItems xs ys = true) (zs : List Value) : equalItems xs zs = equalItems ys zs := by
  induction xs generalizing ys zs with
  | nil =>
    cases ys with
    | nil => rfl
    | cons => simp [equalItems] at h
  | cons x xs hxs =>
    cases ys with
    | nil => simp [equalItems] at h
    | cons y ys =>
      obtain ⟨first, rest⟩ := Bool.and_eq_true_iff.mp (by simpa [equalItems] using h)
      cases zs with
      | nil => simp [equalItems]
      | cons z zs =>
        rw [equalItems, equalItems, ih x List.mem_cons_self y first z,
          hxs (fun w hw => ih w (List.mem_cons_of_mem x hw)) rest]

theorem items_substitute {a : Value} {xs : Array Value} (ha : a.items? = some xs)
    (ih : ∀ x ∈ xs.toList, Substitutes x) : Substitutes a := by
  intro b h c
  rw [equal_items ha] at h
  cases hb : b.items? with
  | none => simp [hb] at h
  | some ys =>
    rw [equal_items ha, equal_items hb]
    cases c.items? with
    | none => rfl
    | some zs => exact equalItems_congr ih (by simpa [hb] using h) zs.toList

theorem covered_congr {s t : Table Key Value} (ih : ∀ k v, s.find? k = some v → Substitutes v)
    (size : s.size = t.size) (covered : Covered s t) (u : Table Key Value) :
    Covered s u ↔ Covered t u := by
  constructor
  · intro h k w found
    obtain ⟨v, hv, same⟩ := find?_of_covered size covered found
    obtain ⟨x, hx, equal_x⟩ := h k v hv
    exact ⟨x, hx, by rwa [← ih k v hv w same x]⟩
  · intro h k v found
    obtain ⟨w, hw, same⟩ := covered k v found
    obtain ⟨x, hx, equal_x⟩ := h k w hw
    exact ⟨x, hx, by rwa [ih k v found w same x]⟩

theorem map_substitutes {s : Table Key Value}
    (ih : ∀ k v, s.find? k = some v → Substitutes v) : Substitutes (map s) := by
  intro b h c
  cases b with
  | map t =>
    obtain ⟨size, covered⟩ := equal_maps.mp h
    cases c with
    | map u =>
      rw [Bool.eq_iff_iff, equal_maps, equal_maps, size, covered_congr ih size covered u]
    | _ => simp [equal]
  | _ => simp [equal] at h

theorem substitutes : ∀ a, Substitutes a := by
  refine of_parts fun a ih => ?_
  cases a with
  | list xs => exact items_substitute rfl ih
  | vec xs => exact items_substitute rfl ih
  | map s =>
    refine map_substitutes fun k v found => ih v ?_
    exact (List.of_mem_zip (Table.mem_entries_iff (e := (k, v)).mpr found)).2
  | null | nil =>
    intro b h c
    cases b <;> simp only [equal, Bool.false_eq_true] at h
    rfl
  | _ =>
    -- Atoms, cells and functions are compared by what identifies them.
    intro b h c
    cases b <;> simp only [equal, decide_eq_true_eq, Bool.false_eq_true] at h
    all_goals subst h
    all_goals cases c <;> simp [equal]

theorem equal_symm {a b : Value} (h : equal a b = true) : equal b a = true := by
  rw [← substitutes a b h a]
  exact equal_self a

theorem equal_trans {a b c : Value} (h : equal a b = true) (h' : equal b c = true) :
    equal a c = true := by
  rw [substitutes a b h c]
  exact h'

/-- A value built anew from the same cells and functions, and from like atoms. -/
inductive Copy : Value → Value → Prop where
  | shared (v : Value) : Copy v v
  | list {xs ys : Array Value} (size : xs.size = ys.size)
      (items : ∀ p ∈ xs.toList.zip ys.toList, Copy p.1 p.2) : Copy (list xs) (list ys)
  | vec {xs ys : Array Value} (size : xs.size = ys.size)
      (items : ∀ p ∈ xs.toList.zip ys.toList, Copy p.1 p.2) : Copy (vec xs) (vec ys)
  | map {s t : Table Key Value} (keys : s.entries.keys = t.entries.keys)
      (values : ∀ k v w, s.find? k = some v → t.find? k = some w → Copy v w) :
      Copy (map s) (map t)

theorem Copy.equal {a b : Value} (copy : Copy a b) : a.equal b = true := by
  have items {xs ys : Array Value} (size : xs.size = ys.size)
      (ih : ∀ p ∈ xs.toList.zip ys.toList, p.1.equal p.2 = true) :
      equalItems xs.toList ys.toList = true := by
    rw [equalItems_iff, List.forall₂_iff_zip]
    exact ⟨by simpa using size, fun h => ih _ h⟩
  induction copy with
  | shared v => exact equal_self v
  | list size _ ih | vec size _ ih => rw [equal_items rfl]; exact items size ih
  | map keys _ ih => exact equal_maps_iff.mpr ⟨fun k => by rw [keys], ih⟩

/-- Equality is an equivalence, the absent value included. Taking what is stored at one place
for equal changes no answer, for a copy of a value is equal to it as well. -/
theorem same_is_equivalence :
    Equivalence (fun a b : Value => a.same b = true) ∧
    (∀ a b : Value, a.same b = a.equal b) ∧ (∀ a b, Copy a b → a.equal b = true) ∧
    ∀ s t : Table Key Value, (map s).same (map t) = true ↔
      (∀ k, s.contains k = t.contains k) ∧
      ∀ k v w, s.find? k = some v → t.find? k = some w → v.same w = true := by
  refine ⟨?_, same_eq, fun _ _ => Copy.equal, fun s t => ?_⟩
  · simp only [same_eq]
    exact ⟨equal_self, equal_symm, equal_trans⟩
  · simp only [same_eq]
    rw [equal_maps_iff]
    refine and_congr_left fun _ => forall_congr' fun k => ?_
    rw [← Assoc.contains_iff, ← Assoc.contains_iff, ← Table.contains_eq, ← Table.contains_eq]
    exact Bool.eq_iff_iff.symm

end Value

end MiniLisp
