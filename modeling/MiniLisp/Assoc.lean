/-! Insertion-ordered finite maps. Overwriting keeps the position of a key, inserting after an
erasure appends it. -/
namespace MiniLisp

abbrev Assoc (κ : Type) (ν : Type) := List (κ × ν)

namespace Assoc

variable {κ ν : Type} [DecidableEq κ]

def find? : Assoc κ ν → κ → Option ν
  | [], _ => none
  | (k, v) :: m, x => if k = x then some v else find? m x

def contains (m : Assoc κ ν) (x : κ) : Bool := (find? m x).isSome

def place? (m : Assoc κ ν) (x : κ) : Option Nat := m.findIdx? fun p => p.1 = x

def insert (m : Assoc κ ν) (x : κ) (w : ν) : Assoc κ ν :=
  match m.place? x with
  | some i => m.set i (x, w)
  | none => m ++ [(x, w)]

def erase (m : Assoc κ ν) (x : κ) : Assoc κ ν := m.eraseP fun p => p.1 = x

def keys (m : Assoc κ ν) : List κ := m.map Prod.fst

def values (m : Assoc κ ν) : List ν := m.map Prod.snd

omit [DecidableEq κ] in
theorem keys_zip (ks : List κ) (vs : List ν) : keys (ks.zip vs) = ks.take vs.length := by
  induction ks generalizing vs with
  | nil => simp [keys]
  | cons k ks ih =>
    cases vs with
    | nil => rfl
    | cons v vs => exact congrArg (k :: ·) (ih vs)

@[simp] theorem find?_nil (x : κ) : find? ([] : Assoc κ ν) x = none := rfl

theorem place?_cons (k x : κ) (v : ν) (m : Assoc κ ν) :
    place? ((k, v) :: m) x = if k = x then some 0 else (m.place? x).map (· + 1) := by
  by_cases h : k = x <;> simp [place?, List.findIdx?_cons, h]

@[simp] theorem insert_nil (x : κ) (w : ν) : insert [] x w = [(x, w)] := rfl

theorem place?_eq (m : Assoc κ ν) (x : κ) : m.place? x = m.keys.idxOf? x := by
  rw [place?, keys, List.idxOf?, List.findIdx?_map]
  congr 1

/-- Inserting stops at the first entry with the key. -/
theorem insert_cons (k x : κ) (v w : ν) (m : Assoc κ ν) :
    insert ((k, v) :: m) x w = if k = x then (k, w) :: m else (k, v) :: insert m x w := by
  simp only [insert, place?_cons]
  by_cases h : k = x
  · simp [h]
  · cases m.place? x <;> simp [h]

@[simp] theorem erase_nil (x : κ) : erase ([] : Assoc κ ν) x = [] := rfl

theorem erase_cons (k x : κ) (v : ν) (m : Assoc κ ν) :
    erase ((k, v) :: m) x = if k = x then m else (k, v) :: erase m x := by
  by_cases h : k = x <;> simp [erase, h]

theorem erase_eq_eraseIdx (m : Assoc κ ν) (x : κ) : erase m x =
    match m.place? x with
    | some i => m.eraseIdx i
    | none => m := by
  induction m with
  | nil => rfl
  | cons p m ih =>
    obtain ⟨k, v⟩ := p
    rw [erase_cons, place?_cons, ih]
    by_cases h : k = x
    · simp [h]
    · cases place? m x <;> simp [h]

theorem find?_insert (m : Assoc κ ν) (x y : κ) (w : ν) :
    (insert m x w).find? y = if x = y then some w else m.find? y := by
  induction m with
  | nil => simp [find?]
  | cons p m ih =>
    obtain ⟨k, v⟩ := p
    by_cases hk : k = x
    · subst hk
      by_cases hy : k = y <;> simp [insert_cons, find?, hy]
    · by_cases hy : k = y
      · subst hy
        simp [insert_cons, find?, hk, Ne.symm hk]
      · simp [insert_cons, find?, hk, hy, ih]

theorem mem_insert {m : Assoc κ ν} {x : κ} {w : ν} {e : κ × ν} (h : e ∈ insert m x w) :
    e = (x, w) ∨ e ∈ m := by
  rw [insert] at h
  split at h
  · rcases List.mem_or_eq_of_mem_set h with h | h
    · exact .inr h
    · exact .inl h
  · rcases List.mem_append.1 h with h | h
    · exact .inr h
    · exact .inl (List.mem_singleton.1 h)

theorem mem_of_mem_erase {m : Assoc κ ν} {x : κ} {e : κ × ν} (h : e ∈ erase m x) : e ∈ m :=
  List.mem_of_mem_eraseP h

theorem mem_of_mem_eraseAll {m : Assoc κ ν} {ks : List κ} {e : κ × ν}
    (h : e ∈ ks.foldl erase m) : e ∈ m := by
  induction ks generalizing m with
  | nil => exact h
  | cons k ks ih => exact mem_of_mem_erase (ih h)

theorem find?_erase_ne {x y : κ} (h : x ≠ y) (m : Assoc κ ν) :
    (erase m x).find? y = m.find? y := by
  induction m with
  | nil => rfl
  | cons p m ih =>
    obtain ⟨k, v⟩ := p
    by_cases hk : k = x
    · subst hk; simp [erase_cons, find?, h]
    · simp only [erase_cons, find?, hk, if_false, ih]

theorem find?_eq_none_iff {m : Assoc κ ν} {x : κ} : m.find? x = none ↔ x ∉ m.keys := by
  induction m with
  | nil => simp [keys]
  | cons p m ih =>
    obtain ⟨k, v⟩ := p
    by_cases hk : k = x
    · simp [find?, keys, hk]
    · simpa [find?, keys, hk, Ne.symm hk] using ih

theorem find?_of_mem {m : Assoc κ ν} (h : m.keys.Nodup) {e : κ × ν} (he : e ∈ m) :
    m.find? e.1 = some e.2 := by
  induction m with
  | nil => cases he
  | cons p m ih =>
    obtain ⟨k, v⟩ := p
    obtain ⟨hk, hm⟩ := List.nodup_cons.1 h
    rcases List.mem_cons.1 he with rfl | he
    · simp [find?]
    · rw [find?, if_neg fun same => hk (List.mem_map.2 ⟨e, he, same.symm⟩), ih hm he]

theorem mem_of_find? {m : Assoc κ ν} {x : κ} {w : ν} (h : m.find? x = some w) : (x, w) ∈ m := by
  induction m with
  | nil => cases h
  | cons p m ih =>
    obtain ⟨k, v⟩ := p
    by_cases hk : k = x
    · rw [find?, if_pos hk] at h
      exact List.mem_cons.2 (.inl (by rw [← hk, ← Option.some.inj h]))
    · rw [find?, if_neg hk] at h
      exact List.mem_cons_of_mem _ (ih h)

theorem contains_iff {m : Assoc κ ν} {x : κ} : m.contains x = true ↔ x ∈ m.keys := by
  rw [contains, Option.isSome_iff_ne_none, Ne, find?_eq_none_iff, Decidable.not_not]

/-- Overwriting keeps the order of the keys and a new key comes last. -/
theorem keys_insert (m : Assoc κ ν) (x : κ) (w : ν) :
    (insert m x w).keys = if x ∈ m.keys then m.keys else m.keys ++ [x] := by
  induction m with
  | nil => simp [keys]
  | cons p m ih =>
    obtain ⟨k, v⟩ := p
    by_cases hk : k = x
    · simp [insert_cons, keys, hk]
    · simp only [keys] at ih
      simp only [insert_cons, keys, hk, if_false, List.map_cons, ih, List.mem_cons, Ne.symm hk,
        false_or]
      split <;> simp_all

theorem keys_erase (m : Assoc κ ν) (x : κ) : (erase m x).keys = m.keys.erase x := by
  induction m with
  | nil => rfl
  | cons p m ih =>
    obtain ⟨k, v⟩ := p
    by_cases hk : k = x
    · simp [erase_cons, keys, hk]
    · simp only [keys] at ih
      simp [erase_cons, keys, hk, ih]

theorem length_erase {m : Assoc κ ν} {x : κ} {w : ν} (h : m.find? x = some w) :
    m.length = (erase m x).length + 1 := by
  induction m with
  | nil => cases h
  | cons p m ih =>
    obtain ⟨k, v⟩ := p
    by_cases hk : k = x
    · simp [erase_cons, hk]
    · simp only [find?, hk, if_false] at h
      simp [erase_cons, hk, ih h]

theorem nodup_insert {m : Assoc κ ν} (h : m.keys.Nodup) (x : κ) (w : ν) :
    (insert m x w).keys.Nodup := by
  rw [keys_insert]
  split
  · exact h
  · rename_i hx
    exact List.nodup_append.2 ⟨h, by simp, by
      intro a ha b hb hab
      exact hx (List.mem_singleton.1 hb ▸ hab ▸ ha)⟩

theorem nodup_erase {m : Assoc κ ν} (h : m.keys.Nodup) (x : κ) : (erase m x).keys.Nodup := by
  rw [keys_erase]
  exact h.erase x

/-- Erasing a key leaves all other entries. -/
theorem erase_eq_filter {m : Assoc κ ν} (h : m.keys.Nodup) (x : κ) :
    erase m x = m.filter fun p => p.1 ≠ x := by
  induction m with
  | nil => rfl
  | cons p m ih =>
    obtain ⟨k, v⟩ := p
    obtain ⟨hk, hm⟩ := List.nodup_cons.1 h
    rw [erase_cons]
    by_cases same : k = x
    · subst same
      rw [if_pos rfl, List.filter_cons_of_neg (by simp), eq_comm, List.filter_eq_self]
      intro q hq
      exact decide_eq_true fun e => hk (List.mem_map.2 ⟨q, hq, e⟩)
    · rw [if_neg same, List.filter_cons_of_pos (by simpa using same), ih hm]

theorem find?_erase_self {m : Assoc κ ν} (h : m.keys.Nodup) (x : κ) :
    (erase m x).find? x = none := by
  rw [find?_eq_none_iff, keys_erase]
  exact h.not_mem_erase

/-- Erasing keys one by one leaves the entries whose keys are none of them. -/
theorem eraseAll_eq_filter {m : Assoc κ ν} (h : m.keys.Nodup) (ks : List κ) :
    ks.foldl erase m = m.filter fun p => p.1 ∉ ks := by
  induction ks generalizing m with
  | nil => exact (List.filter_eq_self.2 fun p _ => by simp).symm
  | cons k ks ih =>
    rw [List.foldl_cons, ih (nodup_erase h k), erase_eq_filter h, List.filter_filter]
    congr 1
    funext p
    simp [Bool.and_comm]

theorem find?_eraseAll {m : Assoc κ ν} (h : m.keys.Nodup) (ks : List κ) (x : κ) :
    (ks.foldl erase m).find? x = if x ∈ ks then none else m.find? x := by
  induction ks generalizing m with
  | nil => simp
  | cons k ks ih =>
    rw [List.foldl_cons, ih (nodup_erase h k)]
    by_cases later : x ∈ ks
    · simp [later]
    · by_cases first : k = x
      · subst first
        simp [find?_erase_self h]
      · simp [later, Ne.symm first, find?_erase_ne first]

def insertAll (m : Assoc κ ν) (pairs : List (κ × ν)) : Assoc κ ν :=
  pairs.foldl (fun m p => m.insert p.1 p.2) m

def ofPairs (pairs : List (κ × ν)) : Assoc κ ν := insertAll [] pairs

/-- Inserting new keys appends their entries. -/
theorem insertAll_of_nodup {m : Assoc κ ν} {pairs : List (κ × ν)}
    (h : (m ++ pairs : Assoc κ ν).keys.Nodup) : m.insertAll pairs = m ++ pairs := by
  induction pairs generalizing m with
  | nil => exact (List.append_nil m).symm
  | cons p pairs ih =>
    have fresh : m.place? p.1 = none := by
      rw [place?_eq, List.idxOf?_eq_none_iff]
      rw [keys, List.map_append, List.map_cons, List.nodup_append] at h
      exact fun hp => h.2.2 _ hp _ List.mem_cons_self rfl
    have step : m.insert p.1 p.2 = m ++ [p] := by rw [insert, fresh]
    have rest := ih (m := m ++ [p]) (by rw [List.append_assoc]; exact h)
    rw [insertAll, List.foldl_cons, step, ← insertAll, rest, List.append_assoc]
    rfl

theorem insertAll_append (m : Assoc κ ν) (pairs more : List (κ × ν)) :
    m.insertAll (pairs ++ more) = (m.insertAll pairs).insertAll more := List.foldl_append

/-- Only pairs with a key decide what is found under it. -/
theorem find?_insertAll_of_notMem {pairs : List (κ × ν)} {x : κ} (h : x ∉ keys pairs)
    (m : Assoc κ ν) : (m.insertAll pairs).find? x = m.find? x := by
  induction pairs generalizing m with
  | nil => rfl
  | cons p pairs ih =>
    obtain ⟨other, others⟩ := not_or.1 (mt List.mem_cons.2 h)
    rw [insertAll, List.foldl_cons, ← insertAll, ih others, find?_insert, if_neg (Ne.symm other)]

/-- The last pair with a key decides its value. -/
theorem find?_ofPairs_of_last {before after : List (κ × ν)} {x : κ} (h : x ∉ keys after) (v : ν) :
    (ofPairs (before ++ (x, v) :: after)).find? x = some v := by
  rw [ofPairs, insertAll_append, insertAll, List.foldl_cons, ← insertAll,
    find?_insertAll_of_notMem h, find?_insert, if_pos rfl]

theorem ofPairs_of_nodup {pairs : Assoc κ ν} (h : pairs.keys.Nodup) : ofPairs pairs = pairs :=
  insertAll_of_nodup (m := []) h

theorem keys_set {m : Assoc κ ν} {x : κ} {i : Nat} (h : m.place? x = some i) (w : ν) :
    keys (m.set i (x, w)) = m.keys := by
  rw [place?_eq, List.idxOf?_eq_some_iff] at h
  obtain ⟨hi, hx, _⟩ := h
  rw [keys, List.map_set]
  show List.set m.keys i x = m.keys
  rw [← hx, List.set_getElem_self]

/-- Maps with the same keys in the same order that find the same are the same. -/
theorem ext {m m' : Assoc κ ν} (nodup : m.keys.Nodup) (same : m.keys = m'.keys)
    (h : ∀ x, m.find? x = m'.find? x) : m = m' := by
  induction m generalizing m' with
  | nil =>
    cases m' with
    | nil => rfl
    | cons => cases same
  | cons p m ih =>
    cases m' with
    | nil => cases same
    | cons q m' =>
      obtain ⟨k, v⟩ := p
      obtain ⟨k', v'⟩ := q
      obtain ⟨rfl, rest⟩ : k = k' ∧ keys m = keys m' := List.cons.inj same
      obtain ⟨fresh, nodup⟩ := List.nodup_cons.mp nodup
      have first : v = v' := by simpa [find?] using h k
      have later (x : κ) : find? m x = find? m' x := by
        by_cases hx : k = x
        · subst hx
          rw [find?_eq_none_iff.mpr fresh, find?_eq_none_iff.mpr (rest ▸ fresh)]
        · simpa [find?, hx] using h x
      rw [first, ih nodup rest later]

theorem mem_insertAll {m : Assoc κ ν} {pairs : List (κ × ν)} {e : κ × ν}
    (h : e ∈ m.insertAll pairs) : e ∈ m ∨ e ∈ pairs := by
  induction pairs generalizing m with
  | nil => exact .inl h
  | cons p pairs ih =>
    rcases ih h with h | h
    · rcases mem_insert h with rfl | h
      · exact .inr List.mem_cons_self
      · exact .inl h
    · exact .inr (List.mem_cons_of_mem p h)

theorem nodup_insertAll {m : Assoc κ ν} (h : m.keys.Nodup) (pairs : List (κ × ν)) :
    (m.insertAll pairs).keys.Nodup := by
  induction pairs generalizing m with
  | nil => exact h
  | cons p pairs ih => exact ih (nodup_insert h p.1 p.2)

theorem mem_ofPairs {pairs : List (κ × ν)} {e : κ × ν} (h : e ∈ ofPairs pairs) : e ∈ pairs := by
  rcases mem_insertAll h with h | h
  · cases h
  · exact h

theorem nodup_ofPairs (pairs : List (κ × ν)) : (ofPairs pairs).keys.Nodup :=
  nodup_insertAll (by simp [keys]) pairs

end Assoc

end MiniLisp
