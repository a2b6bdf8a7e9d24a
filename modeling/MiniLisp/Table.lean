import MiniLisp.Assoc
import MiniLisp.Table.KeyOrder

/-! A table is an insertion-ordered finite map that finds its keys through an index: the keys with
their places, and the values in the order of the keys. A key or a value without a partner is no
entry, and the operations work all the same. -/
namespace MiniLisp

structure Table (κ α : Type) [DecidableEq κ] [Ord κ] where
  order : KeyOrder κ
  values : Array α

namespace Table

variable {κ α : Type} [DecidableEq κ] [Ord κ]

def entries (t : Table κ α) : Assoc κ α := t.order.toList.zip t.values.toList

def size (t : Table κ α) : Nat := min t.order.size t.values.size

@[simp] theorem length_entries (t : Table κ α) : t.entries.length = t.size := by
  simp [entries, size]

def find? (t : Table κ α) (k : κ) : Option α :=
  match t.order.place? k with
  | some i => t.values[i]?
  | none => none

def contains (t : Table κ α) (k : κ) : Bool := (t.find? k).isSome

omit [Ord κ] in
theorem find?_zip {ks : List κ} (nodup : ks.Nodup) (vs : List α) (k : κ) :
    Assoc.find? (ks.zip vs) k = (ks.idxOf? k).bind (vs[·]?) := by
  induction ks generalizing vs with
  | nil => simp
  | cons j ks ih =>
    cases vs with
    | nil => cases h : (j :: ks).idxOf? k <;> simp
    | cons v vs =>
      by_cases same : j = k
      · simp [Assoc.find?, List.idxOf?_cons, same]
      · rw [List.zip_cons_cons, Assoc.find?, if_neg same, ih (List.nodup_cons.1 nodup).2,
          List.idxOf?_cons]
        cases h : ks.idxOf? k <;> simp [same]

theorem find?_eq (t : Table κ α) (k : κ) : t.find? k = t.entries.find? k := by
  rw [entries, find?_zip t.order.nodup_toList, ← t.order.place?_eq, find?]
  cases t.order.place? k <;> simp

theorem contains_eq (t : Table κ α) (k : κ) : t.contains k = t.entries.contains k := by
  rw [contains, Assoc.contains, find?_eq]

theorem mem_keys_iff {t : Table κ α} {k : κ} : k ∈ t.entries.keys ↔ ∃ v, t.find? k = some v := by
  rw [← Assoc.contains_iff, ← contains_eq, contains, Option.isSome_iff_exists]

theorem keys_entries (t : Table κ α) : t.entries.keys = t.order.toList.take t.values.size := by
  rw [entries, Assoc.keys_zip, Array.length_toList]

/-- No key comes twice. -/
theorem nodup_keys_entries (t : Table κ α) : t.entries.keys.Nodup := by
  rw [keys_entries]
  exact t.order.nodup_toList.sublist (List.take_sublist _ _)

theorem mem_entries_iff {t : Table κ α} {e : κ × α} : e ∈ t.entries ↔ t.find? e.1 = some e.2 := by
  rw [find?_eq]
  exact ⟨Assoc.find?_of_mem t.nodup_keys_entries, Assoc.mem_of_find?⟩

variable [Std.TransOrd κ]

def empty : Table κ α := ⟨.empty, #[]⟩

@[simp] theorem entries_empty : (empty : Table κ α).entries = [] := rfl

variable [Std.LawfulEqOrd κ]

def ofEntries (es : Assoc κ α) : Table κ α := ⟨.ofList es.keys, es.values.toArray⟩

theorem entries_ofEntries {es : Assoc κ α} (nodup : es.keys.Nodup) :
    (ofEntries es).entries = es := by
  rw [entries, ofEntries, KeyOrder.toList_ofList nodup]
  simp [Assoc.keys, Assoc.values, List.zip_map']

def trim (t : Table κ α) : Table κ α :=
  if t.order.size = t.values.size then t else ofEntries t.entries

theorem entries_trim (t : Table κ α) : t.trim.entries = t.entries := by
  rw [trim]
  split
  · rfl
  · exact entries_ofEntries t.nodup_keys_entries

theorem size_order_trim (t : Table κ α) : t.trim.order.size = t.trim.values.size := by
  rw [trim]
  split
  · assumption
  · rw [← KeyOrder.length_toList, ofEntries, KeyOrder.toList_ofList t.nodup_keys_entries]
    simp [Assoc.keys, Assoc.values]

def keys (t : Table κ α) : List κ := t.trim.order.toList

def vals (t : Table κ α) : Array α := t.trim.values

theorem keys_eq (t : Table κ α) : t.keys = t.entries.keys := by
  rw [← entries_trim, keys_entries, ← size_order_trim, ← KeyOrder.length_toList,
    List.take_length, keys]

theorem toList_vals (t : Table κ α) : t.vals.toList = t.entries.values := by
  rw [← entries_trim, Assoc.values, entries, List.map_snd_zip, vals]
  exact Nat.le_of_eq (by rw [KeyOrder.length_toList, size_order_trim, Array.length_toList])

@[specialize] def mapM {m : Type → Type} [Monad m] {β : Type} (f : α → m β) (t : Table κ α) :
    m (Table κ β) := do
  pure ⟨t.trim.order, (← t.vals.toList.mapM f).toArray⟩

def insertTrimmed (k : κ) (v : α) : Table κ α → Table κ α
  | ⟨order, values⟩ =>
    match new : order.place? k with
    | some i => ⟨order, values.setIfInBounds i v⟩
    | none => ⟨order.push k new, values.push v⟩

theorem insertTrimmed_of_some {order : KeyOrder κ} {k : κ} {i : Nat}
    (found : order.place? k = some i) (v : α) (values : Array α) :
    insertTrimmed k v ⟨order, values⟩ = ⟨order, values.setIfInBounds i v⟩ := by
  rw [insertTrimmed]
  split
  · rename_i j h
    rw [Option.some.inj (h.symm.trans found)]
  · rename_i h
    cases h.symm.trans found

theorem insertTrimmed_of_none {order : KeyOrder κ} {k : κ} (new : order.place? k = none) (v : α)
    (values : Array α) :
    insertTrimmed k v ⟨order, values⟩ = ⟨order.push k new, values.push v⟩ := by
  rw [insertTrimmed]
  split
  · rename_i h
    cases h.symm.trans new
  · rfl

def insert (t : Table κ α) (k : κ) (v : α) : Table κ α := insertTrimmed k v t.trim

omit [DecidableEq κ] [Ord κ] [Std.TransOrd κ] [Std.LawfulEqOrd κ] in
theorem zip_set {ks : List κ} {i : Nat} {k : κ} (h : ks[i]? = some k) (vs : List α) (v : α) :
    ks.zip (vs.set i v) = (ks.zip vs).set i (k, v) := by
  induction ks generalizing vs i with
  | nil => simp at h
  | cons j ks ih =>
    cases vs with
    | nil => simp
    | cons u vs =>
      cases i with
      | zero => simp_all
      | succ i => simp [ih (by simpa using h)]

omit [Std.TransOrd κ] [Std.LawfulEqOrd κ] in
theorem place?_entries {t : Table κ α} (sized : t.order.size = t.values.size) (k : κ) :
    t.entries.place? k = t.order.place? k := by
  rw [Assoc.place?_eq, keys_entries, KeyOrder.place?_eq, ← sized, ← KeyOrder.length_toList,
    List.take_length]

theorem entries_insertTrimmed {t : Table κ α} (sized : t.order.size = t.values.size) (k : κ)
    (v : α) : (insertTrimmed k v t).entries = t.entries.insert k v := by
  have place := place?_entries sized k
  obtain ⟨order, values⟩ := t
  rw [Assoc.insert, place]
  cases found : order.place? k with
  | some i =>
    rw [insertTrimmed_of_some found]
    simp only [entries, Array.toList_setIfInBounds]
    exact zip_set (KeyOrder.place?_eq_some_iff.1 found) _ v
  | none =>
    rw [insertTrimmed_of_none found]
    simp only [entries, KeyOrder.toList_push, Array.toList_push]
    rw [List.zip_append (by simpa using sized)]
    rfl

theorem entries_insert (t : Table κ α) (k : κ) (v : α) :
    (t.insert k v).entries = t.entries.insert k v := by
  rw [insert, entries_insertTrimmed t.size_order_trim, entries_trim]

theorem size_order_insertTrimmed {t : Table κ α} (sized : t.order.size = t.values.size) (k : κ)
    (v : α) : (insertTrimmed k v t).order.size = (insertTrimmed k v t).values.size := by
  obtain ⟨order, values⟩ := t
  cases place : order.place? k with
  | some i =>
    rw [insertTrimmed_of_some place]
    simpa using sized
  | none =>
    rw [insertTrimmed_of_none place]
    simpa using sized

theorem find?_insert (t : Table κ α) (k j : κ) (v : α) :
    (t.insert k v).find? j = if k = j then some v else t.find? j := by
  rw [find?_eq, entries_insert, Assoc.find?_insert, find?_eq]

theorem entries_insert_of_new {t : Table κ α} {k : κ} (new : k ∉ t.entries.keys) (v : α) :
    (t.insert k v).entries = t.entries ++ [(k, v)] := by
  rw [entries_insert, Assoc.insert, Assoc.place?_eq, List.idxOf?_eq_none_iff.2 new]

theorem foldlM_insert {m : Type → Type} [Monad m] [LawfulMonad m] {β : Type} (f : α → m β)
    (es : Assoc κ α) (t : Table κ β) (nodup : (t.entries.keys ++ es.keys).Nodup) :
    entries <$> es.foldlM (fun t e => do pure (t.insert e.1 (← f e.2))) t =
      (fun vs => t.entries ++ es.keys.zip vs) <$> es.values.mapM f := by
  induction es generalizing t with
  | nil => simp [Assoc.keys, Assoc.values]
  | cons e es ih =>
    have new : e.1 ∉ t.entries.keys := fun old =>
      (List.nodup_append.1 nodup).2.2 _ old _ List.mem_cons_self rfl
    have keys (v : β) : (t.insert e.1 v).entries.keys ++ Assoc.keys es =
        t.entries.keys ++ e.1 :: Assoc.keys es := by
      rw [entries_insert_of_new new, Assoc.keys, List.map_append, List.append_assoc]
      rfl
    have next (v : β) := ih (t.insert e.1 v) (keys v ▸ nodup)
    simp only [entries_insert_of_new new, List.append_assoc] at next
    rw [List.foldlM_cons, bind_assoc, map_bind, Assoc.values, List.map_cons, List.mapM_cons,
      map_bind]
    refine bind_congr fun v => ?_
    rw [pure_bind, next]
    simp [Assoc.keys, Assoc.values]

/-- Mapping the values comes to the same entries as inserting them mapped, one by one. -/
theorem entries_mapM {m : Type → Type} [Monad m] [LawfulMonad m] {β : Type} (f : α → m β)
    (t : Table κ α) : entries <$> t.mapM f =
      entries <$> t.entries.foldlM (fun t e => do pure (t.insert e.1 (← f e.2))) empty := by
  rw [foldlM_insert f t.entries empty t.nodup_keys_entries, mapM, toList_vals, ← keys_eq,
    entries_empty]
  simp [entries, keys]

def insertAll (t : Table κ α) (pairs : List (κ × α)) : Table κ α :=
  pairs.foldl (fun t p => t.insert p.1 p.2) t

theorem entries_insertAll (t : Table κ α) (pairs : List (κ × α)) :
    (t.insertAll pairs).entries = t.entries.insertAll pairs := by
  induction pairs generalizing t with
  | nil => rfl
  | cons p pairs ih =>
    rw [insertAll, List.foldl_cons, ← insertAll, ih, entries_insert]
    rfl

def ofPairs (pairs : List (κ × α)) : Table κ α := empty.insertAll pairs

theorem entries_ofPairs (pairs : List (κ × α)) :
    (ofPairs pairs : Table κ α).entries = Assoc.ofPairs pairs := entries_insertAll empty pairs

theorem insert_ofEntries {es : Assoc κ α} (nodup : es.keys.Nodup) (k : κ) (v : α) :
    (ofEntries es).insert k v = ofEntries (es.insert k v) := by
  have sized : (ofEntries es).order.size = (ofEntries es).values.size := by
    rw [← KeyOrder.length_toList, ofEntries, KeyOrder.toList_ofList nodup]
    simp [Assoc.keys, Assoc.values]
  have place : es.place? k = (KeyOrder.ofList es.keys).place? k := by
    rw [KeyOrder.place?_eq, KeyOrder.toList_ofList nodup, Assoc.place?_eq]
  rw [insert, trim, if_pos sized, ofEntries, Assoc.insert, place]
  cases found : (KeyOrder.ofList es.keys).place? k with
  | some i =>
    rw [insertTrimmed_of_some found, ofEntries, Assoc.keys_set (place.trans found),
      Assoc.values, Assoc.values, List.map_set, List.setIfInBounds_toArray]
  | none =>
    have keys : Assoc.keys (es ++ [(k, v)]) = es.keys ++ [k] := List.map_append
    rw [insertTrimmed_of_none found, ofEntries, keys, KeyOrder.ofList_append,
      KeyOrder.insert_of_new _ _ found]
    simp [Assoc.values]

theorem insertAll_ofEntries {es : Assoc κ α} (nodup : es.keys.Nodup) (pairs : List (κ × α)) :
    (ofEntries es).insertAll pairs = ofEntries (es.insertAll pairs) := by
  induction pairs generalizing es with
  | nil => rfl
  | cons p pairs ih =>
    rw [insertAll, List.foldl_cons, insert_ofEntries nodup, ← insertAll,
      ih (Assoc.nodup_insert nodup p.1 p.2)]
    rfl

/-- A table is determined by the map that the pairs define. -/
theorem ofPairs_eq (pairs : List (κ × α)) :
    (ofPairs pairs : Table κ α) = ofEntries (Assoc.ofPairs pairs) := by
  have nodup : (Assoc.keys ([] : Assoc κ α)).Nodup := List.nodup_nil
  exact insertAll_ofEntries nodup pairs

def eraseTrimmed (k : κ) : Table κ α → Bool × Table κ α
  | ⟨order, values⟩ =>
    match found : order.place? k with
    | some i => (true, ⟨order.erase k found, values.eraseIdxIfInBounds i⟩)
    | none => (false, ⟨order, values⟩)

theorem eraseTrimmed_of_some {order : KeyOrder κ} {k : κ} {i : Nat}
    (found : order.place? k = some i) (values : Array α) : eraseTrimmed k ⟨order, values⟩ =
      (true, ⟨order.erase k found, values.eraseIdxIfInBounds i⟩) := by
  rw [eraseTrimmed]
  split
  · rename_i j h
    cases h.symm.trans found
    rfl
  · rename_i h
    cases h.symm.trans found

theorem eraseTrimmed_of_none {order : KeyOrder κ} {k : κ} (absent : order.place? k = none)
    (values : Array α) : eraseTrimmed k ⟨order, values⟩ = (false, ⟨order, values⟩) := by
  rw [eraseTrimmed]
  split
  · rename_i h
    cases h.symm.trans absent
  · rfl

def erase (t : Table κ α) (k : κ) : Bool × Table κ α := eraseTrimmed k t.trim

omit [DecidableEq κ] [Ord κ] [Std.TransOrd κ] [Std.LawfulEqOrd κ] in
theorem zip_eraseIdx (ks : List κ) (vs : List α) (i : Nat) :
    (ks.eraseIdx i).zip (vs.eraseIdx i) = (ks.zip vs).eraseIdx i := by
  induction ks generalizing vs i with
  | nil => simp
  | cons k ks ih =>
    cases vs with
    | nil => simp
    | cons v vs =>
      cases i with
      | zero => rfl
      | succ i => simp [ih]

theorem entries_eraseTrimmed {t : Table κ α} (sized : t.order.size = t.values.size) (k : κ) :
    (eraseTrimmed k t).2.entries = t.entries.erase k := by
  have place := place?_entries sized k
  obtain ⟨order, values⟩ := t
  rw [Assoc.erase_eq_eraseIdx, place]
  cases found : order.place? k with
  | some i =>
    rw [eraseTrimmed_of_some found]
    simp only [entries, KeyOrder.toList_erase, Array.toList_eraseIdxIfInBounds]
    exact zip_eraseIdx _ _ _
  | none => rw [eraseTrimmed_of_none found]

theorem entries_erase (t : Table κ α) (k : κ) : (t.erase k).2.entries = t.entries.erase k := by
  rw [erase, entries_eraseTrimmed t.size_order_trim, entries_trim]

theorem size_order_eraseTrimmed {t : Table κ α} (sized : t.order.size = t.values.size) (k : κ) :
    (eraseTrimmed k t).2.order.size = (eraseTrimmed k t).2.values.size := by
  obtain ⟨order, values⟩ := t
  cases place : order.place? k with
  | some i =>
    rw [eraseTrimmed_of_some place, ← KeyOrder.length_toList, KeyOrder.toList_erase,
      ← Array.length_toList, Array.toList_eraseIdxIfInBounds, List.length_eraseIdx,
      List.length_eraseIdx, KeyOrder.length_toList, Array.length_toList, sized]
  | none =>
    rw [eraseTrimmed_of_none place]
    exact sized

/-- Erasing says whether the key was there. -/
theorem fst_erase (t : Table κ α) (k : κ) : (t.erase k).1 = t.contains k := by
  have sized := t.size_order_trim
  rw [contains_eq, ← entries_trim, ← contains_eq, contains, find?, erase]
  generalize t.trim = t at sized
  obtain ⟨order, values⟩ := t
  cases place : order.place? k with
  | some i =>
    have here := (List.getElem?_eq_some_iff.1 (KeyOrder.place?_eq_some_iff.1 place)).1
    rw [KeyOrder.length_toList, sized] at here
    rw [eraseTrimmed_of_some place]
    simp [here]
  | none =>
    rw [eraseTrimmed_of_none place]
    simp

theorem find?_erase (t : Table κ α) (k j : κ) :
    (t.erase k).2.find? j = if k = j then none else t.find? j := by
  rw [find?_eq, entries_erase, find?_eq]
  split
  · rename_i same
    rw [← same, Assoc.find?_erase_self t.nodup_keys_entries]
  · rename_i other
    exact Assoc.find?_erase_ne other _

def eraseAll (t : Table κ α) (ks : List κ) : Table κ α := ks.foldl (fun t k => (t.erase k).2) t

theorem entries_eraseAll (t : Table κ α) (ks : List κ) :
    (t.eraseAll ks).entries = ks.foldl Assoc.erase t.entries := by
  induction ks generalizing t with
  | nil => rfl
  | cons k ks ih => rw [eraseAll, List.foldl_cons, ← eraseAll, ih, entries_erase, List.foldl_cons]

theorem find?_eraseAll (t : Table κ α) (ks : List κ) (k : κ) :
    (t.eraseAll ks).find? k = if k ∈ ks then none else t.find? k := by
  rw [find?_eq, entries_eraseAll, Assoc.find?_eraseAll t.nodup_keys_entries, find?_eq]

end Table

end MiniLisp
