import Mathlib.Data.List.Forall2
import Mathlib.Data.List.Induction
import MiniLisp.Native.Data
import MiniLisp.Proofs.Equivalence
import MiniLisp.Proofs.MapLaws

/-! Two equal values agree in everything but their parts, and their parts are equal. What a native
on data asks of an argument is asked at this one level. -/
namespace MiniLisp

/-- Related values, or errors of one class. -/
inductive Agree {α β : Type} (R : α → β → Prop) : Except Error α → Except Error β → Prop where
  | ok {a : α} {b : β} (h : R a b) : Agree R (.ok a) (.ok b)
  | error {e e' : Error} (h : e.errorClass = e'.errorClass) : Agree R (.error e) (.error e')

namespace Agree

variable {α β γ δ : Type} {R : α → β → Prop} {S : γ → δ → Prop}

theorem refl {R : α → α → Prop} (h : ∀ a, R a a) (o : Except Error α) : Agree R o o := by
  cases o with
  | error e => exact .error rfl
  | ok a => exact .ok (h a)

theorem bind {o : Except Error α} {o' : Except Error β} {f : α → Except Error γ}
    {g : β → Except Error δ} (h : Agree R o o') (hf : ∀ a b, R a b → Agree S (f a) (g b)) :
    Agree S (o >>= f) (o' >>= g) := by
  cases h with
  | error h => exact .error h
  | ok h => exact hf _ _ h

theorem map {o : Except Error α} {o' : Except Error β} {f : α → γ} {g : β → δ}
    (h : Agree R o o') (hf : ∀ a b, R a b → S (f a) (g b)) : Agree S (o.map f) (o'.map g) := by
  cases h with
  | error h => exact .error h
  | ok h => exact .ok (hf _ _ h)

theorem mapM {f : α → Except Error γ} {g : β → Except Error δ}
    (hf : ∀ a b, R a b → Agree S (f a) (g b)) {xs : List α} {ys : List β}
    (h : List.Forall₂ R xs ys) : Agree (List.Forall₂ S) (xs.mapM f) (ys.mapM g) := by
  induction h with
  | nil => exact .ok .nil
  | cons first _ ih =>
    rw [List.mapM_cons, List.mapM_cons]
    exact (hf _ _ first).bind fun _ _ head => ih.bind fun _ _ tail => .ok (.cons head tail)

end Agree

namespace Value

abbrev EqualItems (xs ys : List Value) : Prop := List.Forall₂ (fun x y => equal x y = true) xs ys

def EqualEntries (s t : Table Key Value) : Prop :=
  ∀ k, Option.Rel (fun v w => equal v w = true) (s.find? k) (t.find? k)

theorem equalItems_refl (xs : List Value) : EqualItems xs xs :=
  List.forall₂_same.mpr fun x _ => equal_self x

theorem equal_of_items {a b : Value} {xs ys : Array Value} (ha : a.items? = some xs)
    (hb : b.items? = some ys) (h : EqualItems xs.toList ys.toList) : equal a b = true := by
  rw [equal_items ha, hb]
  exact equalItems_iff.mpr h

theorem items_of_equal {a b : Value} {xs : Array Value} (ha : a.items? = some xs)
    (h : equal a b = true) : ∃ ys, b.items? = some ys ∧ EqualItems xs.toList ys.toList := by
  rw [equal_items ha] at h
  cases hb : b.items? with
  | none => simp [hb] at h
  | some ys => exact ⟨ys, rfl, equalItems_iff.mp (by simpa [hb] using h)⟩

/-- Equality of maps does not see the order in which they were built. -/
theorem equal_maps_iff_find? {s t : Table Key Value} :
    equal (map s) (map t) = true ↔ EqualEntries s t := by
  constructor
  · intro h k
    obtain ⟨size, covered⟩ := equal_maps.mp h
    cases hs : s.find? k with
    | some v =>
      obtain ⟨w, hw, same⟩ := covered k v hs
      rw [hw]
      exact .some same
    | none =>
      cases ht : t.find? k with
      | none => exact .none
      | some w =>
        obtain ⟨v, hv, _⟩ := find?_of_covered size covered ht
        exact absurd (hs.symm.trans hv) nofun
  · intro h
    refine equal_maps_iff.mpr ⟨fun k => ?_, fun k v w hv hw => ?_⟩
    · have found := h k
      rw [Table.mem_keys_iff, Table.mem_keys_iff]
      generalize s.find? k = o, t.find? k = o' at found
      cases found <;> simp
    · have found := h k
      rw [hv, hw] at found
      cases found with
      | some same => exact same

/-- Values that are equal, seen no deeper than their parts. -/
inductive Matches : Value → Value → Prop where
  | self (v : Value) : Matches v v
  | lists {xs ys : Array Value} (h : EqualItems xs.toList ys.toList) : Matches (list xs) (list ys)
  | listVec {xs ys : Array Value} (h : EqualItems xs.toList ys.toList) :
      Matches (list xs) (vec ys)
  | vecList {xs ys : Array Value} (h : EqualItems xs.toList ys.toList) :
      Matches (vec xs) (list ys)
  | vecs {xs ys : Array Value} (h : EqualItems xs.toList ys.toList) : Matches (vec xs) (vec ys)
  | maps {s t : Table Key Value} (h : EqualEntries s t) : Matches (map s) (map t)
  | natives {id : FunId} {op op' : Native} : Matches (native id op) (native id op')
  | closures {id : FunId} {params params' : Params} {body body' : Value}
      {scope scope' : Option Scope} :
      Matches (closure id params body scope) (closure id params' body' scope')

theorem matches_of_equal {a b : Value} (h : equal a b = true) : Matches a b := by
  cases a with
  | list xs | vec xs =>
    obtain ⟨ys, hb, items⟩ := items_of_equal rfl h
    cases b with
    | list | vec =>
      cases hb
      constructor
      exact items
    | _ => cases hb
  | map s =>
    cases b with
    | map t => exact .maps (equal_maps_iff_find?.mp h)
    | _ => simp [equal] at h
  | null | nil =>
    cases b <;> simp only [equal, Bool.false_eq_true] at h
    exact .self _
  | _ =>
    -- Atoms, cells and functions are compared by what identifies them.
    cases b <;> simp only [equal, decide_eq_true_eq, Bool.false_eq_true] at h
    subst h
    constructor

theorem Matches.equal {a b : Value} (h : Matches a b) : equal a b = true := by
  cases h with
  | self => exact equal_self _
  | lists h | listVec h | vecList h | vecs h => exact equal_of_items rfl rfl h
  | maps h => exact equal_maps_iff_find?.mpr h
  | natives | closures => simp [Value.equal]

section Arguments

variable {who : Text} {a b : Value}

/-- Only which of list and vector it is can be told apart. -/
theorem Matches.is (h : Matches a b) {k : Kind} (hk : k ≠ .list ∧ k ≠ .vector) :
    a.is k = b.is k := by
  obtain ⟨notList, notVector⟩ := hk
  cases h with
  | lists | listVec | vecList | vecs =>
    simp [Value.is, kind?, notList.symm, notVector.symm]
  | _ => rfl

theorem Matches.isSequential (h : Matches a b) : a.isSequential = b.isSequential := by
  cases h <;> rfl

theorem Matches.isTruthy (h : Matches a b) : a.isTruthy = b.isTruthy := by
  cases h <;> rfl

theorem Matches.integerArg (h : Matches a b) : Agree Eq (a.integerArg who) (b.integerArg who) := by
  cases h with
  | self => exact .refl (fun _ => rfl) _
  | _ => exact .error rfl

theorem Matches.textArg (h : Matches a b) : Agree Eq (a.textArg who) (b.textArg who) := by
  cases h with
  | self => exact .refl (fun _ => rfl) _
  | _ => exact .error rfl

theorem Matches.keyArg (h : Matches a b) : Agree Eq (a.keyArg who) (b.keyArg who) := by
  cases h with
  | self => exact .refl (fun _ => rfl) _
  | _ => exact .error rfl

theorem Matches.itemsArg (h : Matches a b) :
    Agree (fun xs ys => EqualItems xs.toList ys.toList) (a.itemsArg who) (b.itemsArg who) := by
  cases h with
  | self => exact .refl (fun xs => equalItems_refl xs.toList) _
  | lists h | listVec h | vecList h | vecs h => exact .ok h
  | _ => exact .error rfl

theorem Matches.tableArg (h : Matches a b) :
    Agree EqualEntries (a.tableArg who) (b.tableArg who) := by
  cases h with
  | self => exact .refl (fun t => equal_maps_iff_find?.mp (equal_self (map t))) _
  | maps h => exact .ok h
  | _ => exact .error rfl

end Arguments

/-- The items at every place are equal, or there is none in either. -/
theorem EqualItems.getElem? {xs ys : Array Value} (h : EqualItems xs.toList ys.toList) (i : Nat) :
    Option.Rel (fun v w => equal v w = true) xs[i]? ys[i]? := by
  rw [← Array.getElem?_toList, ← Array.getElem?_toList]
  generalize xs.toList = xs, ys.toList = ys at h
  induction h generalizing i with
  | nil => exact .none
  | cons first _ ih =>
    cases i with
    | zero => exact .some first
    | succ i => exact ih i

theorem equal_getD {o o' : Option Value} (h : Option.Rel (fun v w => equal v w = true) o o')
    (v : Value) : equal (o.getD v) (o'.getD v) = true := by
  cases h with
  | some same => exact same
  | none => exact equal_self v

theorem equal_congr {a a' b b' : Value} (ha : equal a a' = true) (hb : equal b b' = true) :
    equal a b = equal a' b' := by
  rw [substitutes a a' ha b, Bool.eq_iff_iff]
  exact ⟨fun h => equal_trans h hb, fun h => equal_trans h (equal_symm hb)⟩

end Value

open Value (EqualItems EqualEntries Matches)

abbrev AgreeOnValue : Except Error Value → Except Error Value → Prop :=
  Agree fun v w => v.equal w = true

namespace Agree

theorem itself (o : Except Error Value) : AgreeOnValue o o := .refl Value.equal_self o

theorem lists {xs ys : Array Value} (h : EqualItems xs.toList ys.toList) :
    AgreeOnValue (.ok (.list xs)) (.ok (.list ys)) := .ok (Value.equal_of_items rfl rfl h)

theorem maps {s t : Table Key Value} (h : EqualEntries s t) :
    AgreeOnValue (.ok (.map s)) (.ok (.map t)) := .ok (Value.equal_maps_iff_find?.mpr h)

theorem arguments {β : Type} {S : β → β → Prop} {f : Value → Except Error β}
    (hf : ∀ a b, Matches a b → Agree S (f a) (f b)) {args args' : List Value}
    (h : EqualItems args args') : Agree (List.Forall₂ S) (args.mapM f) (args'.mapM f) :=
  .mapM (fun a b same => hf a b (Value.matches_of_equal same)) h

end Agree

namespace Arity

variable {who : Text} {args args' : List Value}

theorem unary_agree {f : Value → Except Error Value} (h : EqualItems args args')
    (hf : ∀ a a', Matches a a' → AgreeOnValue (f a) (f a')) :
    AgreeOnValue (unary who f args) (unary who f args') := by
  rcases h with _ | ⟨ha, _ | ⟨hb, rest⟩⟩
  · exact .error rfl
  · exact hf _ _ (Value.matches_of_equal ha)
  · exact .error rfl

theorem binary_agree {f : Value → Value → Except Error Value} (h : EqualItems args args')
    (hf : ∀ a a' b b', Matches a a' → Matches b b' → AgreeOnValue (f a b) (f a' b')) :
    AgreeOnValue (binary who f args) (binary who f args') := by
  rcases h with _ | ⟨ha, _ | ⟨hb, _ | ⟨hc, rest⟩⟩⟩
  · exact .error rfl
  · exact .error rfl
  · exact hf _ _ _ _ (Value.matches_of_equal ha) (Value.matches_of_equal hb)
  · exact .error rfl

theorem leading_agree {f : Value → List Value → Except Error Value} (h : EqualItems args args')
    (hf : ∀ a a' rest rest', Matches a a' → EqualItems rest rest' →
      AgreeOnValue (f a rest) (f a' rest')) :
    AgreeOnValue (leading who f args) (leading who f args') := by
  rcases h with _ | ⟨ha, rest⟩
  · exact .error rfl
  · exact hf _ _ _ _ (Value.matches_of_equal ha) rest

end Arity

namespace Arithmetic

variable {who : Text} {a a' b b' : Value}

theorem operands_agree (ha : Matches a a') (hb : Matches b b') :
    Agree Eq (operands who a b) (operands who a' b') :=
  ha.integerArg.bind fun _ _ hx => hb.integerArg.bind fun _ _ hy => .ok (by rw [hx, hy])

/-- Whatever is computed from the integers alone is the same on both sides. -/
theorem of_operands_agree (ha : Matches a a') (hb : Matches b b')
    (f : Int64 × Int64 → Except Error Value) :
    AgreeOnValue (operands who a b >>= f) (operands who a' b' >>= f) := by
  refine (operands_agree ha hb).bind fun xy xy' same => ?_
  subst same
  exact .itself _

end Arithmetic

namespace Sequence

variable {who : Text} {a a' b b' : Value} {args args' : List Value}

theorem cons_agree (ha : Matches a a') (hb : Matches b b') :
    AgreeOnValue (cons who a b) (cons who a' b') := by
  refine hb.itemsArg.bind fun xs ys items => .lists ?_
  simpa using ⟨ha.equal, items⟩

theorem toList_join (parts : List (Array Value)) :
    (join parts).toList = parts.flatMap Array.toList := by
  have folded (rest : List (Array Value)) (done : Array Value) :
      (rest.foldl (· ++ ·) done).toList = done.toList ++ rest.flatMap Array.toList := by
    induction rest generalizing done with
    | nil => simp
    | cons xs rest ih => rw [List.foldl_cons, ih]; simp
  cases parts with
  | nil => rfl
  | cons xs rest => exact folded rest xs

theorem concat_agree (h : EqualItems args args') :
    AgreeOnValue (concat who args) (concat who args') := by
  refine (Agree.arguments (fun _ _ => Matches.itemsArg) h).bind fun xss yss items => .lists ?_
  rw [toList_join, toList_join]
  exact List.rel_flatMap items fun _ _ h => h

theorem isEmpty_agree (h : Matches a a') : AgreeOnValue (isEmpty who a) (isEmpty who a') := by
  refine h.itemsArg.bind fun xs ys items => .ok ?_
  have sizes : xs.size = ys.size := items.length_eq
  rw [Array.isEmpty, Array.isEmpty, sizes]
  exact Value.equal_self _

theorem count_agree (h : Matches a a') : (count a).equal (count a') = true := by
  have sizes {xs ys : Array Value} (items : EqualItems xs.toList ys.toList) :
      Int64.ofNat xs.size = Int64.ofNat ys.size := congrArg Int64.ofNat items.length_eq
  cases h with
  | lists h | listVec h | vecList h | vecs h =>
    simpa [count, Value.items?, Value.equal] using sizes h
  | self => exact Value.equal_self _
  | _ => simp [count, Value.items?, Value.equal]

theorem nth_agree (ha : Matches a a') (hb : Matches b b') :
    AgreeOnValue (nth who a b) (nth who a' b') := by
  refine ha.itemsArg.bind fun xs ys items => ?_
  refine hb.integerArg.bind fun i j same => ?_
  subst same
  by_cases negative : i < 0
  · simp only [negative, if_true]
    exact .error rfl
  · have found := items.getElem? i.toInt.toNat
    simp only [negative, if_false]
    generalize xs[i.toInt.toNat]? = o, ys[i.toInt.toNat]? = o' at found
    cases found with
    | some same => exact .ok same
    | none => exact .error rfl

theorem first_agree (h : Matches a a') : AgreeOnValue (first who a) (first who a') := by
  cases h with
  | self => exact .itself _
  | lists h | listVec h | vecList h | vecs h => exact .ok (Value.equal_getD (h.getElem? 0) .nil)
  | _ => exact .error rfl

theorem rest_agree (h : Matches a a') : AgreeOnValue (rest who a) (rest who a') := by
  have dropped {xs ys : Array Value} (items : EqualItems xs.toList ys.toList) :
      EqualItems (xs.extract 1 xs.size).toList (ys.extract 1 ys.size).toList := by
    rw [Array.toList_extract, Array.toList_extract, List.extract_eq_take_drop,
      List.extract_eq_take_drop, show xs.size = ys.size from items.length_eq]
    exact List.forall₂_take _ (List.forall₂_drop 1 items)
  cases h with
  | self => exact .itself _
  | lists h | listVec h | vecList h | vecs h => exact .lists (dropped h)
  | _ => exact .error rfl

theorem vec_agree (h : Matches a a') : AgreeOnValue (vec who a) (vec who a') :=
  h.itemsArg.bind fun _ _ items => .ok (Value.equal_of_items rfl rfl items)

end Sequence

namespace Value.EqualEntries

variable {s t : Table Key Value}

theorem insert (h : EqualEntries s t) (k : Key) {v w : Value} (same : v.equal w = true) :
    EqualEntries (s.insert k v) (t.insert k w) := by
  intro j
  rw [Table.find?_insert, Table.find?_insert]
  split
  · exact .some same
  · exact h j

/-- Repeated keys overwrite at other places on the two sides, but with equal values. -/
theorem insertAll (h : EqualEntries s t) {pairs pairs' : List (Key × Value)}
    (same : List.Forall₂ (fun p q => p.1 = q.1 ∧ p.2.equal q.2 = true) pairs pairs') :
    EqualEntries (s.insertAll pairs) (t.insertAll pairs') := by
  induction same generalizing s t with
  | nil => exact h
  | cons first _ ih =>
    obtain ⟨keys, values⟩ := first
    refine ih ?_
    dsimp only
    rw [keys]
    exact h.insert _ values

theorem eraseAll (h : EqualEntries s t) (ks : List Key) :
    EqualEntries (s.eraseAll ks) (t.eraseAll ks) := by
  intro j
  rw [Table.find?_eraseAll, Table.find?_eraseAll]
  split
  · exact .none
  · exact h j

end Value.EqualEntries

namespace Mapping

variable {who : Text} {a a' b b' : Value} {args args' : List Value} {s t : Table Key Value}

theorem pairUp_agree (h : EqualItems args args') {done done' : List (Key × Value)}
    (paired : List.Forall₂ (fun p q => p.1 = q.1 ∧ p.2.equal q.2 = true) done done') :
    Agree (List.Forall₂ fun p q => p.1 = q.1 ∧ p.2.equal q.2 = true)
      (Value.pairUp (Value.keyArg who) args done)
      (Value.pairUp (Value.keyArg who) args' done') := by
  induction args using List.twoStepInduction generalizing args' done done' with
  | nil =>
    cases h
    exact .ok (List.rel_reverse paired)
  | singleton k =>
    rcases h with _ | ⟨_, _ | _⟩
    exact .ok (List.rel_reverse paired)
  | cons_cons k v rest ih =>
    rcases h with _ | ⟨key, _ | ⟨value, rest⟩⟩
    rw [Value.pairUp, Value.pairUp]
    refine (Value.matches_of_equal key).keyArg.bind fun k k' same => ?_
    exact ih rest (.cons ⟨same, value⟩ paired)

theorem assocPairs_agree (ht : EqualEntries s t) (h : EqualItems args args') :
    AgreeOnValue (assocPairs who s args) (assocPairs who t args') := by
  rw [assocPairs, assocPairs, h.length_eq]
  split
  · refine (pairUp_agree h .nil).map fun pairs pairs' same => ?_
    exact Value.equal_maps_iff_find?.mpr (ht.insertAll same)
  · exact .error rfl

theorem assoc_agree (ha : Matches a a') (h : EqualItems args args') :
    AgreeOnValue (assoc who a args) (assoc who a' args') :=
  ha.tableArg.bind fun _ _ ht => assocPairs_agree ht h

theorem dissoc_agree (ha : Matches a a') (h : EqualItems args args') :
    AgreeOnValue (dissoc who a args) (dissoc who a' args') := by
  refine ha.tableArg.bind fun s t ht => ?_
  refine (Agree.arguments (fun _ _ => Matches.keyArg) h).bind fun ks ks' same => ?_
  rw [List.forall₂_eq_eq_eq] at same
  subst same
  exact .maps (ht.eraseAll ks)

/-- What depends on nothing but the value under a key. -/
theorem find_agree (ha : Matches a a') (hb : Matches b b') {f : Option Value → Value}
    (hf : ∀ o o', Option.Rel (fun v w => v.equal w = true) o o' → (f o).equal (f o') = true) :
    AgreeOnValue (do let t ← a.tableArg who; let k ← b.keyArg who; .ok (f (t.find? k)))
      (do let t ← a'.tableArg who; let k ← b'.keyArg who; .ok (f (t.find? k))) := by
  refine ha.tableArg.bind fun s t ht => hb.keyArg.bind fun j k same => ?_
  subst same
  exact .ok (hf _ _ (ht j))

theorem get_agree (ha : Matches a a') (hb : Matches b b') :
    AgreeOnValue (get who a b) (get who a' b') := by
  by_cases none : a = .nil
  · subst none
    cases ha
    exact .itself _
  · have none' : a' ≠ .nil := by
      rintro rfl
      cases ha
      exact none rfl
    rw [get, get]
    · exact find_agree ha hb fun _ _ found => Value.equal_getD found .nil
    · exact none'
    · exact none

theorem contains_agree (ha : Matches a a') (hb : Matches b b') :
    AgreeOnValue (contains who a b) (contains who a' b') := by
  refine find_agree ha hb (f := fun o => .bool o.isSome) fun o o' found => ?_
  cases found <;> exact Value.equal_self _

end Mapping

namespace Naming

variable {who : Text} {a a' : Value}

/-- Whatever is computed from the text alone is the same on both sides. -/
theorem of_text_agree (h : Matches a a') (f : Text → Except Error Value) :
    AgreeOnValue (a.textArg who >>= f) (a'.textArg who >>= f) := by
  refine h.textArg.bind fun t t' same => ?_
  subst same
  exact .itself _

theorem keyword_agree (h : Matches a a') : AgreeOnValue (keyword who a) (keyword who a') := by
  cases h with
  | self => exact .itself _
  | _ => exact .error rfl

end Naming

namespace DataOp

/-- Equal arguments have equal answers. -/
def RespectsEquality (op : DataOp) : Prop :=
  ∀ args args' : List Value, List.Forall₂ (fun a b => a.same b = true) args args' →
    Agree (fun v w => v.same w = true) (op.run args) (op.run args')

theorem test_agree {who : Text} {p : Value → Bool} {args args' : List Value}
    (hp : ∀ a a', Matches a a' → p a = p a') (h : EqualItems args args') :
    AgreeOnValue (test who p args) (test who p args') := by
  refine Arity.unary_agree h fun a a' ha => ?_
  rw [hp a a' ha]
  exact .itself _

theorem run_agree (op : DataOp) (hop : op ∉ [isList, isVector, keys, vals])
    {args args' : List Value} (h : EqualItems args args') :
    AgreeOnValue (op.run args) (op.run args') := by
  cases op with
  | isList | isVector | keys | vals => simp at hop
  | add | sub | mul | div | greater | greaterEqual | less | lessEqual =>
    exact Arity.binary_agree h fun _ _ _ _ ha hb => Arithmetic.of_operands_agree ha hb _
  | equal =>
    refine Arity.binary_agree h fun a a' b b' ha hb => ?_
    rw [Value.same_eq, Value.same_eq, Value.equal_congr ha.equal hb.equal]
    exact .itself _
  | cons => exact Arity.binary_agree h fun _ _ _ _ => Sequence.cons_agree
  | concat => exact Sequence.concat_agree h
  | list => exact .lists h
  | vector => exact .ok (Value.equal_of_items rfl rfl h)
  | isEmpty => exact Arity.unary_agree h fun _ _ => Sequence.isEmpty_agree
  | count => exact Arity.unary_agree h fun _ _ ha => .ok (Sequence.count_agree ha)
  | nth => exact Arity.binary_agree h fun _ _ _ _ => Sequence.nth_agree
  | first => exact Arity.unary_agree h fun _ _ => Sequence.first_agree
  | rest => exact Arity.unary_agree h fun _ _ => Sequence.rest_agree
  | vec => exact Arity.unary_agree h fun _ _ => Sequence.vec_agree
  | hashMap => exact Mapping.assocPairs_agree (fun _ => .none) h
  | assoc => exact Arity.leading_agree h fun _ _ _ _ => Mapping.assoc_agree
  | dissoc => exact Arity.leading_agree h fun _ _ _ _ => Mapping.dissoc_agree
  | get => exact Arity.binary_agree h fun _ _ _ _ => Mapping.get_agree
  | contains => exact Arity.binary_agree h fun _ _ _ _ => Mapping.contains_agree
  | symbol | readString => exact Arity.unary_agree h fun _ _ ha => Naming.of_text_agree ha _
  | keyword => exact Arity.unary_agree h fun _ _ => Naming.keyword_agree
  | isSequential => exact test_agree (fun _ _ => Matches.isSequential) h
  | isMap | isNil | isSymbol | isKeyword | isCell =>
    exact test_agree (fun _ _ ha => ha.is (by decide)) h
  | isTrue | isFalse =>
    refine test_agree (fun a a' ha => ?_) h
    rw [ha.is (by decide), ha.isTruthy]

theorem not_respectsEquality {op : DataOp} {v w x y : Value} (same : v.equal w = true)
    (hv : op.run [v] = .ok x) (hw : op.run [w] = .ok y) (other : x.equal y = false) :
    ¬ op.RespectsEquality := by
  intro h
  have agree := h [v] [w] (.cons ((Value.same_eq v w).trans same) .nil)
  rw [hv, hw] at agree
  cases agree with
  | ok equal =>
    rw [Value.same_eq, other] at equal
    cases equal

/-- Built in another order from the same entries, a map is equal to what it was. -/
theorem equal_ofPairs {ps qs : List (Key × Value)} (nodup : (Assoc.keys ps).Nodup)
    (perm : ps.Perm qs) : (Value.map (.ofPairs ps)).equal (.map (.ofPairs qs)) = true := by
  have nodup' : (Assoc.keys qs).Nodup := (perm.map Prod.fst).nodup_iff.mp nodup
  refine Value.equal_maps_iff.mpr ⟨fun k => ?_, fun k v w hv hw => ?_⟩
  · rw [Table.entries_ofPairs, Table.entries_ofPairs, Assoc.ofPairs_of_nodup nodup,
      Assoc.ofPairs_of_nodup nodup']
    exact (perm.map Prod.fst).mem_iff
  · rw [Table.find?_eq, Table.entries_ofPairs] at hv hw
    rw [Assoc.ofPairs_of_nodup nodup] at hv
    rw [Assoc.ofPairs_of_nodup nodup'] at hw
    have found := Assoc.find?_of_mem nodup (perm.mem_iff.mpr (Assoc.mem_of_find? hw))
    obtain rfl : v = w := Option.some.inj (hv.symm.trans found)
    exact Value.equal_self v

def twoEntries : List (Key × Value) :=
  [(.keyword (ascii "a"), .nil), (.keyword (ascii "b"), .bool true)]

theorem not_respectsEquality_of_mem {op : DataOp} (h : op ∈ [isList, isVector, keys, vals]) :
    ¬ op.RespectsEquality := by
  have nodup : (Assoc.keys twoEntries).Nodup := by decide
  have nodup' : (Assoc.keys twoEntries.reverse).Nodup := by decide
  have flipped := equal_ofPairs nodup twoEntries.reverse_perm.symm
  have unlike : (Value.list #[]).equal (.vec #[]) = true := Value.equal_of_items rfl rfl .nil
  simp only [List.mem_cons, List.not_mem_nil, or_false] at h
  rcases h with rfl | rfl | rfl | rfl
  · exact not_respectsEquality unlike rfl rfl (by decide)
  · exact not_respectsEquality unlike rfl rfl (by decide)
  · refine not_respectsEquality flipped (run_keys _) (run_keys _) ?_
    rw [Table.entries_ofPairs, Table.entries_ofPairs, Assoc.ofPairs_of_nodup nodup,
      Assoc.ofPairs_of_nodup nodup']
    decide
  · refine not_respectsEquality flipped (run_vals _) (run_vals _) ?_
    rw [Table.entries_ofPairs, Table.entries_ofPairs, Assoc.ofPairs_of_nodup nodup,
      Assoc.ofPairs_of_nodup nodup']
    decide

/-- The natives that do not tell equal values apart are all but these four. -/
theorem respectsEquality_iff (op : DataOp) :
    op.RespectsEquality ↔ op ∉ [isList, isVector, keys, vals] := by
  constructor
  · intro h hop
    exact not_respectsEquality_of_mem hop h
  · intro hop args args' h
    simp only [Value.same_eq] at h ⊢
    exact run_agree op hop h

end DataOp

end MiniLisp
