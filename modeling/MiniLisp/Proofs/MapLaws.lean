import MiniLisp.Native.Effect
import MiniLisp.Proofs.RoundTrip
import MiniLisp.Proofs.Turns

/-! Each native on maps has a lemma saying what it makes of a table, so the laws of the natives come
from the table. -/
namespace MiniLisp

theorem alternating_append (es fs : List (Key × Value)) :
    alternating (es ++ fs) = alternating es ++ alternating fs := List.flatMap_append

namespace Value

theorem keyArg_toValue (who : Text) (k : Key) : k.toValue.keyArg who = .ok k := by
  cases k <;> rfl

theorem mapM_keyArg (who : Text) (ks : List Key) :
    (ks.map Key.toValue).mapM (keyArg who) = .ok ks := by
  induction ks with
  | nil => rfl
  | cons k ks ih =>
    rw [List.map_cons, List.mapM_cons, keyArg_toValue, ih]
    rfl

end Value

namespace DataOp

variable (t : Table Key Value)

theorem assocPairs_alternating (who : Text) (es : List (Key × Value)) :
    Mapping.assocPairs who t (alternating es) = .ok (.map (t.insertAll es)) := by
  rw [Mapping.assocPairs, if_pos (even_alternating es),
    pairUp_alternating (Value.keyArg_toValue who)]
  rfl

theorem run_hashMap (es : List (Key × Value)) :
    hashMap.run (alternating es) = .ok (.map (.ofPairs es)) :=
  assocPairs_alternating .empty hashMap.name es

theorem run_assoc (es : List (Key × Value)) :
    assoc.run (.map t :: alternating es) = .ok (.map (t.insertAll es)) :=
  assocPairs_alternating t assoc.name es

theorem run_dissoc (ks : List Key) :
    dissoc.run (.map t :: ks.map Key.toValue) = .ok (.map (t.eraseAll ks)) := by
  show (ks.map Key.toValue).mapM (Value.keyArg dissoc.name) >>=
    (fun ks => .ok (Value.map (t.eraseAll ks))) = _
  rw [Value.mapM_keyArg]
  rfl

theorem run_get (k : Key) : get.run [.map t, k.toValue] = .ok ((t.find? k).getD .nil) := by
  show k.toValue.keyArg get.name >>= (fun k => .ok ((t.find? k).getD Value.nil)) = _
  rw [Value.keyArg_toValue]
  rfl

theorem run_contains (k : Key) :
    contains.run [.map t, k.toValue] = .ok (.bool (t.contains k)) := by
  show k.toValue.keyArg contains.name >>= (fun k => .ok (Value.bool (t.contains k))) = _
  rw [Value.keyArg_toValue]
  rfl

theorem run_keys : keys.run [.map t] = .ok (.list (t.entries.keys.map Key.toValue).toArray) := by
  rw [← Table.keys_eq]
  rfl

theorem run_vals : vals.run [.map t] = .ok (.list t.entries.values.toArray) := by
  rw [← Table.toList_vals]
  rfl

end DataOp

open DataOp

namespace Table

/-- The keys and the values of a map as its natives list them: each key once, with its value at
the same place, and all of them. -/
structure ListedAs (t : Table Key Value) (ks : List Key) (vs : List Value) : Prop where
  keys : DataOp.keys.run [.map t] = .ok (.list (ks.map Key.toValue).toArray)
  vals : DataOp.vals.run [.map t] = .ok (.list vs.toArray)
  length : ks.length = vs.length
  nodup : ks.Nodup
  get : ∀ (i : Nat) (k : Key) (v : Value), ks[i]? = some k → vs[i]? = some v →
    DataOp.get.run [.map t, k.toValue] = .ok v
  contains : ∀ k : Key, DataOp.contains.run [.map t, k.toValue] = .ok (.bool (k ∈ ks))
  rebuilt : ∃ t', hashMap.run (alternating (ks.zip vs)) = .ok (.map t') ∧
    (Value.map t').datum = (Value.map t).datum

variable (t : Table Key Value)

theorem zip_entries : t.entries.keys.zip t.entries.values = t.entries := by
  rw [Assoc.keys, Assoc.values, List.zip_map']
  simp

theorem listedAs : t.ListedAs t.entries.keys t.entries.values where
  keys := run_keys t
  vals := run_vals t
  length := by rw [Assoc.keys, Assoc.values, List.length_map, List.length_map]
  nodup := t.nodup_keys_entries
  get i k v hk hv := by
    have entry : (t.entries.keys.zip t.entries.values)[i]? = some (k, v) :=
      List.getElem?_zip_eq_some.mpr ⟨hk, hv⟩
    rw [zip_entries] at entry
    rw [run_get, mem_entries_iff.mp (List.mem_of_getElem? entry)]
    rfl
  contains k := by
    have present : t.contains k = decide (k ∈ t.entries.keys) := by
      rw [Bool.eq_iff_iff, contains_eq, Assoc.contains_iff, decide_eq_true_iff]
    rw [run_contains, present]
  rebuilt := by
    refine ⟨_, run_hashMap _, ?_⟩
    rw [zip_entries, Value.datum_map, Value.datum_map, entries_ofPairs,
      Assoc.ofPairs_of_nodup t.nodup_keys_entries]

end Table

theorem Table.insertAll_ofPairs (es fs : List (Key × Value)) :
    (ofPairs es : Table Key Value).insertAll fs = ofPairs (es ++ fs) := by
  rw [ofPairs, ofPairs, insertAll, insertAll, insertAll, List.foldl_append]

/-- Going on with a map that pairs made is making it from all of them at once. -/
theorem assoc_hashMap (es fs : List (Key × Value)) :
    ∃ m m', hashMap.run (alternating es) = .ok m ∧ assoc.run (m :: alternating fs) = .ok m' ∧
      hashMap.run (alternating es ++ alternating fs) = .ok m' := by
  refine ⟨_, _, run_hashMap es, run_assoc (.ofPairs es) fs, ?_⟩
  rw [← alternating_append, run_hashMap, Table.insertAll_ofPairs]

theorem get_assoc (t : Table Key Value) (k j : Key) (v : Value) :
    get.run [.map (t.insert k v), j.toValue] =
      if j = k then .ok v else get.run [.map t, j.toValue] := by
  rw [run_get, run_get, Table.find?_insert]
  by_cases same : k = j
  · rw [if_pos same, if_pos same.symm]
    rfl
  · rw [if_neg same, if_neg (Ne.symm same)]

theorem entries_dissoc (t : Table Key Value) (ks : List Key) :
    (t.eraseAll ks).entries = t.entries.filter fun e => e.1 ∉ ks := by
  rw [Table.entries_eraseAll, Assoc.eraseAll_eq_filter t.nodup_keys_entries]

/-- The natives on maps make up one algebra, whatever keys are repeated, and none of them does
anything to the store that a map it was given refers to. -/
theorem map_laws (t : Table Key Value) :
    (∀ es fs : List (Key × Value), ∃ m m', hashMap.run (alternating es) = .ok m ∧
      assoc.run (m :: alternating fs) = .ok m' ∧
      hashMap.run (alternating es ++ alternating fs) = .ok m') ∧
    (∃ ks vs, t.ListedAs ks vs) ∧
    (∀ (k : Key) (v : Value), ∃ t', assoc.run [.map t, k.toValue, v] = .ok (.map t') ∧
      ∀ j : Key, get.run [.map t', j.toValue] =
        if j = k then .ok v else get.run [.map t, j.toValue]) ∧
    (∀ ks : List Key, ∃ t', dissoc.run (.map t :: ks.map Key.toValue) = .ok (.map t') ∧
      t'.entries = t.entries.filter fun e => e.1 ∉ ks) ∧
    ∀ (op : DataOp) (args : List Value) (evaluate : Value → Scope → EvalM Value)
      (apply : Applier) (m : Machine),
      ((Native.data op).run evaluate apply args).Ends m (op.run args) m := by
  refine ⟨assoc_hashMap, ⟨_, _, t.listedAs⟩, fun k v => ?_, fun ks => ?_, ?_⟩
  · exact ⟨t.insert k v, run_assoc t [(k, v)], fun j => get_assoc t k j v⟩
  · exact ⟨t.eraseAll ks, run_dissoc t ks, entries_dissoc t ks⟩
  · intro op args evaluate apply m
    exact EvalM.ends_ofExcept (op.run args) m

end MiniLisp
