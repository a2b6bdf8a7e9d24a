import Mathlib.Data.Finset.Card
import MiniLisp.Key
import MiniLisp.Table

/-! What a table holds can be read off the insertions and erasures that made it: the last insertion
of a key decides its value, the first one since the key was last erased decides its place. -/
namespace MiniLisp

inductive Change (κ α : Type) where
  | insert (key : κ) (value : α)
  | erase (key : κ)

namespace Change

section History

variable {κ α : Type} {ops : List (Change κ α)} {c : Change κ α} {k : κ} {v : α}

def key : Change κ α → κ
  | insert k _ => k
  | erase k => k

@[simp] theorem key_insert (k : κ) (v : α) : (insert k v).key = k := rfl

@[simp] theorem key_erase (k : κ) : (erase k : Change κ α).key = k := rfl

/-- The value that was inserted under a key last, the key not having been erased since. -/
def LastWrite (ops : List (Change κ α)) (k : κ) (v : α) : Prop :=
  ∃ before after, ops = before ++ insert k v :: after ∧ ∀ c ∈ after, c.key ≠ k

def Erased (ops : List (Change κ α)) (k : κ) : Prop :=
  ∀ before v after, ops = before ++ insert k v :: after → erase k ∈ after

/-- When a key was inserted for the first time since it was last erased. -/
def FirstWrite (ops : List (Change κ α)) (k : κ) (i : Nat) : Prop :=
  ∃ before v after, ops = before ++ insert k v :: after ∧ before.length = i ∧
    erase k ∉ after ∧ Erased before k

theorem snoc_eq_split {x : Change κ α} {before after : List (Change κ α)}
    (h : ops ++ [c] = before ++ x :: after) :
    (c = x ∧ after = []) ∨ ∃ between, after = between ++ [c] ∧ ops = before ++ x :: between := by
  rcases List.eq_nil_or_concat after with rfl | ⟨between, d, rfl⟩
  · exact .inl ⟨List.singleton_inj.mp (List.append_inj' h rfl).2, rfl⟩
  · rw [List.concat_eq_append, ← List.cons_append, ← List.append_assoc] at h
    obtain ⟨first, last⟩ := List.append_inj' h rfl
    obtain rfl := List.singleton_inj.mp last
    exact .inr ⟨between, List.concat_eq_append, first⟩

theorem lastWrite_snoc :
    LastWrite (ops ++ [c]) k v ↔ c = insert k v ∨ c.key ≠ k ∧ LastWrite ops k v := by
  constructor
  · rintro ⟨before, after, split, other⟩
    rcases snoc_eq_split split with ⟨rfl, _⟩ | ⟨between, rfl, first⟩
    · exact .inl rfl
    · refine .inr ⟨other c (by simp), before, between, first, fun d hd => other d ?_⟩
      exact List.mem_append_left _ hd
  · rintro (rfl | ⟨other, before, after, rfl, others⟩)
    · exact ⟨ops, [], rfl, by simp⟩
    · refine ⟨before, after ++ [c], by simp, fun d hd => ?_⟩
      rcases List.mem_append.mp hd with hd | hd
      · exact others d hd
      · rwa [List.mem_singleton.mp hd]

theorem Erased.snoc (h : Erased ops k) (new : ∀ v, c ≠ insert k v) : Erased (ops ++ [c]) k := by
  intro before v after split
  rcases snoc_eq_split split with ⟨same, _⟩ | ⟨between, rfl, first⟩
  · exact absurd same (new v)
  · exact List.mem_append_left _ (h before v between first)

theorem erased_snoc_erase (ops : List (Change κ α)) (k : κ) : Erased (ops ++ [erase k]) k := by
  intro before v after split
  rcases snoc_eq_split split with ⟨same, _⟩ | ⟨between, rfl, _⟩
  · cases same
  · simp

theorem FirstWrite.lt {i : Nat} (h : FirstWrite ops k i) : i < ops.length := by
  obtain ⟨before, v, after, rfl, rfl, _⟩ := h
  simp

theorem FirstWrite.snoc {i : Nat} (h : FirstWrite ops k i) (kept : c ≠ erase k) :
    FirstWrite (ops ++ [c]) k i := by
  obtain ⟨before, v, after, rfl, length, present, fresh⟩ := h
  refine ⟨before, v, after ++ [c], by simp, length, fun gone => ?_, fresh⟩
  rcases List.mem_append.mp gone with gone | gone
  · exact present gone
  · exact kept (List.mem_singleton.mp gone).symm

theorem FirstWrite.not_lt {i j : Nat} (h : FirstWrite ops k i) (h' : FirstWrite ops k j) :
    ¬ i < j := by
  intro lt
  obtain ⟨before, v, after, split, rfl, kept, _⟩ := h
  obtain ⟨before', w, after', split', rfl, _, erased⟩ := h'
  -- The earlier insertion stands before the later one, so an erasure stands between them.
  rcases List.append_eq_append_iff.mp (split.symm.trans split') with
    ⟨between, first, second⟩ | ⟨between, first, _⟩
  · cases between with
    | nil =>
      rw [first, List.append_nil] at lt
      exact lt.false
    | cons c between =>
      obtain ⟨rfl, rfl⟩ := List.cons.inj second
      exact kept (List.mem_append_left _ (erased before v between first))
  · rw [first, List.length_append] at lt
    omega

theorem FirstWrite.unique {i j : Nat} (h : FirstWrite ops k i) (h' : FirstWrite ops k j) :
    i = j := by
  have := h.not_lt h'
  have := h'.not_lt h
  omega

theorem Erased.firstWrite (h : Erased ops k) (v : α) :
    FirstWrite (ops ++ [insert k v]) k ops.length :=
  ⟨ops, v, [], rfl, rfl, List.not_mem_nil, h⟩

variable [DecidableEq κ]

structure Ordered (ops : List (Change κ α)) (keys : List κ) : Prop where
  increasing : keys.Pairwise fun a b => ∃ i j, i < j ∧ FirstWrite ops a i ∧ FirstWrite ops b j
  present : ∀ k ∈ keys, ∃ i, FirstWrite ops k i
  absent : ∀ k, k ∉ keys → Erased ops k

theorem Ordered.insert {ops : List (Change κ α)} {keys : List κ} (h : Ordered ops keys) (k : κ)
    (v : α) : Ordered (ops ++ [.insert k v]) (if k ∈ keys then keys else keys ++ [k]) := by
  have kept {a : κ} {i : Nat} (ha : FirstWrite ops a i) :
      FirstWrite (ops ++ [.insert k v]) a i := ha.snoc (by simp)
  have increasing : keys.Pairwise fun a b => ∃ i j, i < j ∧
      FirstWrite (ops ++ [.insert k v]) a i ∧ FirstWrite (ops ++ [.insert k v]) b j :=
    h.increasing.imp fun ⟨i, j, lt, ha, hb⟩ => ⟨i, j, lt, kept ha, kept hb⟩
  split
  case isTrue old =>
    refine ⟨increasing, fun a ha => ?_, fun a ha => ?_⟩
    · obtain ⟨i, hi⟩ := h.present a ha
      exact ⟨i, kept hi⟩
    · exact (h.absent a ha).snoc fun w same => ha (by cases same; exact old)
  case isFalse new =>
    have last := (h.absent k new).firstWrite v
    refine ⟨List.pairwise_append.mpr ⟨increasing, by simp, ?_⟩, fun a ha => ?_, fun a ha => ?_⟩
    · intro a ha b hb
      obtain ⟨i, hi⟩ := h.present a ha
      rw [List.mem_singleton.mp hb]
      exact ⟨i, ops.length, hi.lt, kept hi, last⟩
    · rcases List.mem_append.mp ha with ha | ha
      · obtain ⟨i, hi⟩ := h.present a ha
        exact ⟨i, kept hi⟩
      · rw [List.mem_singleton.mp ha]
        exact ⟨ops.length, last⟩
    · refine (h.absent a fun old => ha (List.mem_append_left _ old)).snoc fun w same => ha ?_
      cases same
      exact List.mem_append_right _ (List.mem_singleton.mpr rfl)

theorem Ordered.erase {ops : List (Change κ α)} {keys : List κ} (h : Ordered ops keys)
    (nodup : keys.Nodup) (k : κ) : Ordered (ops ++ [.erase k]) (keys.erase k) := by
  have kept {a : κ} (ha : a ∈ keys.erase k) {i : Nat} (hi : FirstWrite ops a i) :
      FirstWrite (ops ++ [.erase k]) a i :=
    hi.snoc fun same => nodup.not_mem_erase (by cases same; exact ha)
  refine ⟨?_, fun a ha => ?_, fun a ha => ?_⟩
  · refine (h.increasing.sublist List.erase_sublist).imp_of_mem ?_
    exact fun ha hb ⟨i, j, lt, hi, hj⟩ => ⟨i, j, lt, kept ha hi, kept hb hj⟩
  · obtain ⟨i, hi⟩ := h.present a (List.mem_of_mem_erase ha)
    exact ⟨i, kept ha hi⟩
  · by_cases same : a = k
    · rw [same]
      exact erased_snoc_erase ops k
    · exact (h.absent a fun old => ha ((List.mem_erase_of_ne same).mpr old)).snoc (by simp)

end History

section Replay

variable {κ α : Type} [DecidableEq κ] [Ord κ] [Std.TransOrd κ] [Std.LawfulEqOrd κ]
  {t : Table κ α} {c : Change κ α} {k : κ}

def apply : Change κ α → Table κ α → Table κ α
  | insert k v, t => t.insert k v
  | erase k, t => (t.erase k).2

def replay (ops : List (Change κ α)) : Table κ α := ops.foldl (fun t c => c.apply t) .empty

theorem replay_snoc (ops : List (Change κ α)) (c : Change κ α) :
    replay (ops ++ [c]) = c.apply (replay ops) := by simp [replay]

theorem find?_apply_of_ne (other : c.key ≠ k) (t : Table κ α) :
    (c.apply t).find? k = t.find? k := by
  cases c with
  | insert j v =>
    rw [key_insert] at other
    rw [apply, Table.find?_insert, if_neg other]
  | erase j =>
    rw [key_erase] at other
    rw [apply, Table.find?_erase, if_neg other]

theorem find?_apply_insert (t : Table κ α) (k : κ) (v : α) :
    ((insert k v).apply t).find? k = some v := by
  rw [apply, Table.find?_insert, if_pos rfl]

theorem find?_apply_erase (t : Table κ α) (k : κ) : ((erase k).apply t).find? k = none := by
  rw [apply, Table.find?_erase, if_pos rfl]

theorem find?_replay (ops : List (Change κ α)) (k : κ) (v : α) :
    (replay ops).find? k = some v ↔ LastWrite ops k v := by
  induction ops using List.reverseRecOn with
  | nil =>
    refine ⟨fun h => ?_, fun ⟨_, _, split, _⟩ => by simp at split⟩
    rw [Table.find?_eq, show replay ([] : List (Change κ α)) = .empty from rfl] at h
    cases h
  | append_singleton ops c ih =>
    rw [replay_snoc, lastWrite_snoc]
    by_cases other : c.key = k
    · subst other
      cases c with
      | insert j w =>
        rw [key_insert, find?_apply_insert]
        simp
      | erase j =>
        rw [key_erase, find?_apply_erase]
        simp
    · rw [find?_apply_of_ne other, ih]
      refine ⟨fun h => .inr ⟨other, h⟩, fun h => h.elim (fun same => ?_) And.right⟩
      exact absurd (by rw [same]; rfl) other

/-- Changes of other keys make no difference to a key. -/
theorem find?_replay_filter (p : Change κ α → Bool) (kept : ∀ c, c.key = k → p c = true)
    (ops : List (Change κ α)) : (replay (ops.filter p)).find? k = (replay ops).find? k := by
  induction ops using List.reverseRecOn with
  | nil => rfl
  | append_singleton ops c ih =>
    rw [List.filter_append, replay_snoc]
    by_cases other : c.key = k
    · rw [List.filter_cons_of_pos (kept c other), List.filter_nil, replay_snoc]
      subst other
      cases c with
      | insert j w => rw [key_insert, find?_apply_insert, find?_apply_insert]
      | erase j => rw [key_erase, find?_apply_erase, find?_apply_erase]
    · rw [find?_apply_of_ne other, ← ih]
      cases hp : p c with
      | true => rw [List.filter_cons_of_pos hp, List.filter_nil, replay_snoc,
          find?_apply_of_ne other]
      | false => rw [List.filter_cons_of_neg (by simp [hp]), List.filter_nil, List.append_nil]

/-- Erasing takes one entry away if the key was there, and none otherwise. -/
theorem size_erase (t : Table κ α) (k : κ) :
    (t.erase k).2.size + (t.erase k).1.toNat = t.size := by
  rw [← Table.length_entries, ← Table.length_entries, Table.entries_erase, Table.fst_erase,
    Table.contains_eq, Assoc.contains]
  cases found : t.entries.find? k with
  | some v => exact (Assoc.length_erase found).symm
  | none =>
    have absent : k ∉ t.entries.keys := Assoc.find?_eq_none_iff.mp found
    rw [Assoc.erase_eq_eraseIdx, Assoc.place?_eq, List.idxOf?_eq_none_iff.mpr absent]
    rfl

theorem ordered_replay (ops : List (Change κ α)) : Ordered ops (replay ops).entries.keys := by
  induction ops using List.reverseRecOn with
  | nil => exact ⟨List.Pairwise.nil, by simp [replay, Assoc.keys], by simp [Erased]⟩
  | append_singleton ops c ih =>
    rw [replay_snoc]
    cases c with
    | insert k v =>
      rw [apply, Table.entries_insert, Assoc.keys_insert]
      exact ih.insert k v
    | erase k =>
      rw [apply, Table.entries_erase, Assoc.keys_erase]
      exact ih.erase (Table.nodup_keys_entries _) k

theorem sized_replay (ops : List (Change κ α)) :
    (replay ops).order.size = (replay ops).values.size := by
  induction ops using List.reverseRecOn with
  | nil => rfl
  | append_singleton ops c =>
    rw [replay_snoc]
    cases c with
    | insert k v => exact Table.size_order_insertTrimmed (Table.size_order_trim _) k v
    | erase k => exact Table.size_order_eraseTrimmed (Table.size_order_trim _) k

omit [Std.TransOrd κ] [Std.LawfulEqOrd κ] in
theorem place?_iff (sized : t.order.size = t.values.size) {i : Nat} :
    t.order.place? k = some i ↔ t.entries.keys[i]? = some k := by
  rw [KeyOrder.place?_eq_some_iff, Table.keys_entries, ← sized, ← KeyOrder.length_toList,
    List.take_length]

/-- Erasing a key moves each key behind it one place down and leaves the places before it. -/
theorem place?_erase (sized : t.order.size = t.values.size) {i : Nat}
    (found : t.order.place? k = some i) (j : κ) : (t.erase k).2.order.place? j =
      if k = j then none else (t.order.place? j).map fun p => if i < p then p - 1 else p := by
  rw [Table.erase, Table.trim, if_pos sized]
  obtain ⟨order, values⟩ := t
  rw [Table.eraseTrimmed_of_some found]
  exact order.place?_erase found j

end Replay

/-- A table is the insertion-ordered map of its history. -/
structure Refines {α : Type} (ops : List (Change Key α)) (t : Table Key α) : Prop where
  /-- Under each key stands the value of its last insertion, unless it was erased since. -/
  found : ∀ k v, t.find? k = some v ↔ LastWrite ops k v
  /-- Erasing says whether the key is present, and takes away one entry if it is. -/
  erasing : ∀ k, ((t.erase k).1 = true ↔ ∃ v, LastWrite ops k v) ∧
    (t.erase k).2.size + (t.erase k).1.toNat = t.size
  /-- The entries are the present keys with what is found under them, each once. -/
  once : t.entries.keys.Nodup
  listed : ∀ k v, (k, v) ∈ t.entries ↔ t.find? k = some v
  /-- They come in the order of the first insertions since their keys were last erased. -/
  first : ∀ k ∈ t.entries.keys, ∃! i, FirstWrite ops k i
  ordered : t.entries.keys.Pairwise fun a b =>
    ∃ i j, i < j ∧ FirstWrite ops a i ∧ FirstWrite ops b j
  counted : ∃ present : Finset Key,
    (∀ k, k ∈ present ↔ ∃ v, LastWrite ops k v) ∧ t.size = present.card
  /-- Changes of a string make no difference to the keyword with its text, nor the other way. -/
  distinct : ∀ x,
    (replay (ops.filter (·.key ≠ .string x))).find? (.keyword x) = t.find? (.keyword x) ∧
    (replay (ops.filter (·.key ≠ .keyword x))).find? (.string x) = t.find? (.string x)
  /-- The index has the places of the present keys among the entries, and nothing else. -/
  indexed : ∀ k i, t.order.place? k = some i ↔ t.entries.keys[i]? = some k
  /-- Erasing a present key takes it out of the index and moves those behind it one place down. -/
  shifted : ∀ k i, t.order.place? k = some i → ∀ j, (t.erase k).2.order.place? j =
    if k = j then none else (t.order.place? j).map fun p => if i < p then p - 1 else p

theorem replay_refines {α : Type} (ops : List (Change Key α)) : Refines ops (replay ops) := by
  have present (k : Key) : (replay ops).contains k = true ↔ ∃ v, LastWrite ops k v := by
    rw [Table.contains, Option.isSome_iff_exists]
    exact exists_congr fun v => find?_replay ops k v
  have once := (replay ops).nodup_keys_entries
  have sized := sized_replay ops
  obtain ⟨increasing, first, _⟩ := ordered_replay ops
  exact {
    found := find?_replay ops
    erasing := fun k => ⟨by rw [Table.fst_erase, present], size_erase _ k⟩
    once := once
    listed := fun k v => Table.mem_entries_iff
    first := fun k hk => (first k hk).elim fun i hi => ⟨i, hi, fun j hj => hj.unique hi⟩
    ordered := increasing
    counted := by
      refine ⟨(replay ops).entries.keys.toFinset, fun k => ?_, ?_⟩
      · rw [List.mem_toFinset, Table.mem_keys_iff]
        exact exists_congr fun v => find?_replay ops k v
      · rw [List.toFinset_card_of_nodup once, ← Table.length_entries, Assoc.keys,
          List.length_map]
    distinct := fun x => ⟨find?_replay_filter _ (by rintro c h; simp [h]) ops,
      find?_replay_filter _ (by rintro c h; simp [h]) ops⟩
    indexed := fun k i => place?_iff sized
    shifted := fun k i found => place?_erase sized found }

end Change

end MiniLisp
