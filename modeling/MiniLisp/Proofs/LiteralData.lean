import Mathlib.Data.List.Forall2
import MiniLisp.Proofs.Adequacy
import MiniLisp.Proofs.Datum
import MiniLisp.Proofs.Equivalence

/-! Literal data holds no symbol and no call. Evaluation builds its vectors and maps anew around the
same atoms, cells and functions, so what comes out shows no difference. -/
namespace MiniLisp

open EvalM Filter

/-- Values that mean themselves, and vectors and maps of such values. -/
inductive Value.Literal : Value → Prop where
  | nil : Literal .nil
  | bool (b : Bool) : Literal (.bool b)
  | int (n : Int64) : Literal (.int n)
  | str (t : Text) : Literal (.str t)
  | kw (name : Text) : Literal (.kw name)
  | cell (c : CellId) : Literal (.cell c)
  | native (id : FunId) (op : Native) : Literal (.native id op)
  | closure (id : FunId) (params : Params) (body : Value) (scope : Option Scope) :
      Literal (.closure id params body scope)
  | empty : Literal (.list #[])
  | vec {xs : Array Value} : (∀ v ∈ xs.toList, Literal v) → Literal (.vec xs)
  | map {t : Table Key Value} : (∀ v ∈ t.entries.values, Literal v) → Literal (.map t)

/-- The second value is what evaluation builds from the first, wherever it does so, and from the
second it builds the same again. -/
structure Value.Rebuilt (v w : Value) : Prop where
  shown : w.datum = v.datum
  copy : v.Copy w
  literal : w.Literal
  once : ∀ s m, Evaluates v s m (.ok w) m
  again : ∀ s m, Evaluates w s m (.ok w) m

namespace Value.Rebuilt

variable {s : Scope} {m : Machine} {vs ws : List Value} {t : Table Key Value}

theorem constant {v : Value} (h : v.isConstant) (literal : v.Literal) : v.Rebuilt v :=
  ⟨rfl, .shared v, literal, fun _ _ => .constant h, fun _ _ => .constant h⟩

theorem exists_all (h : ∀ v ∈ vs, ∃ w, Rebuilt v w) : ∃ ws, List.Forall₂ Rebuilt vs ws := by
  induction vs with
  | nil => exact ⟨[], .nil⟩
  | cons v vs ih =>
    obtain ⟨w, hw⟩ := h v List.mem_cons_self
    obtain ⟨ws, hws⟩ := ih fun u hu => h u (List.mem_cons_of_mem v hu)
    exact ⟨w :: ws, .cons hw hws⟩

theorem evaluates_all (h : List.Forall₂ Rebuilt vs ws) : EvaluatesAll vs s m (.ok ws) m := by
  induction h with
  | nil => exact .nil
  | cons hv _ ih => exact .cons (hv.once s m) ih

theorem evaluates_all_again (h : List.Forall₂ Rebuilt vs ws) :
    EvaluatesAll ws s m (.ok ws) m := by
  induction h with
  | nil => exact .nil
  | cons hv _ ih => exact .cons (hv.again s m) ih

theorem map_datum (h : List.Forall₂ Rebuilt vs ws) : ws.map datum = vs.map datum := by
  induction h with
  | nil => rfl
  | cons hv _ ih => rw [List.map_cons, List.map_cons, hv.shown, ih]

theorem all_literal (h : List.Forall₂ Rebuilt vs ws) : ∀ w ∈ ws, w.Literal := by
  induction h with
  | nil => simp
  | cons hv _ ih => exact List.forall_mem_cons.mpr ⟨hv.literal, ih⟩

theorem vec (h : List.Forall₂ Rebuilt vs ws) : Rebuilt (.vec ⟨vs⟩) (.vec ⟨ws⟩) where
  shown := by rw [datum_vec, datum_vec, map_datum h]
  copy := by
    refine .vec (by simpa using h.length_eq) fun p hp => ?_
    exact (List.forall₂_zip h hp).copy
  literal := .vec (all_literal h)
  once _ _ := .vec (evaluates_all h)
  again _ _ := .vec (evaluates_all_again h)

/-- The entries of a map with other values under the same keys. -/
theorem entries_rebuilt (t : Table Key Value) (ws : List Value) :
    (⟨t.trim.order, ⟨ws⟩⟩ : Table Key Value).entries = t.entries.keys.zip ws := by
  rw [← t.keys_eq]
  rfl

theorem length_values (h : List.Forall₂ Rebuilt t.entries.values ws) :
    ws.length = t.entries.keys.length := by
  rw [← h.length_eq, Assoc.values, Assoc.keys, List.length_map, List.length_map]

theorem map_shown (h : List.Forall₂ Rebuilt t.entries.values ws) :
    (Value.map ⟨t.trim.order, ⟨ws⟩⟩).datum = (Value.map t).datum := by
  have split : t.entries = t.entries.keys.zip t.entries.values := by
    simp [Assoc.keys, Assoc.values, List.zip_map']
  have shown (us : List Value) : (t.entries.keys.zip us).map (fun e => (e.1, e.2.datum)) =
      t.entries.keys.zip (us.map datum) := by
    rw [List.zip_map_right]
    rfl
  rw [datum_map, datum_map, entries_rebuilt, shown, map_datum h, ← shown, ← split]

theorem map_copy (h : List.Forall₂ Rebuilt t.entries.values ws) :
    (Value.map t).Copy (.map ⟨t.trim.order, ⟨ws⟩⟩) := by
  have split : t.entries.keys.zip t.entries.values = t.entries := by
    simp [Assoc.keys, Assoc.values, List.zip_map']
  refine .map ?_ fun k v w hv hw => ?_
  · rw [entries_rebuilt, Assoc.keys_zip, length_values h, List.take_length]
  · -- what is found under a key stands in the place of the key
    rw [Table.find?_eq, ← split, Table.find?_zip t.nodup_keys_entries] at hv
    rw [Table.find?_eq, entries_rebuilt, Table.find?_zip t.nodup_keys_entries] at hw
    obtain ⟨i, hi, hv⟩ := Option.bind_eq_some_iff.mp hv
    rw [hi, Option.bind_some] at hw
    obtain ⟨hi, rfl⟩ := List.getElem?_eq_some_iff.mp hv
    obtain ⟨hi', rfl⟩ := List.getElem?_eq_some_iff.mp hw
    exact (h.get hi hi').copy

theorem trim_rebuilt (h : List.Forall₂ Rebuilt t.entries.values ws) :
    (⟨t.trim.order, ⟨ws⟩⟩ : Table Key Value).trim = ⟨t.trim.order, ⟨ws⟩⟩ := by
  refine if_pos ?_
  rw [← KeyOrder.length_toList]
  show t.keys.length = ws.length
  rw [t.keys_eq, length_values h]

theorem map (h : List.Forall₂ Rebuilt t.entries.values ws) :
    Rebuilt (.map t) (.map ⟨t.trim.order, ⟨ws⟩⟩) where
  shown := map_shown h
  copy := map_copy h
  literal := by
    refine .map fun w hw => all_literal h w ?_
    rw [entries_rebuilt, Assoc.values, List.map_snd_zip (Nat.le_of_eq (length_values h))] at hw
    exact hw
  once s m := by
    rw [← Table.toList_vals] at h
    exact .map (evaluates_all h)
  again s m := by
    have values : (⟨t.trim.order, ⟨ws⟩⟩ : Table Key Value).vals.toList = ws := by
      rw [Table.vals, trim_rebuilt h]
    have whole := Evaluates.map (values.symm ▸ evaluates_all_again h :
      EvaluatesAll (⟨t.trim.order, ⟨ws⟩⟩ : Table Key Value).vals.toList s m (.ok ws) m)
    rwa [trim_rebuilt h] at whole

end Value.Rebuilt

/-- By induction on how deep the vectors and maps are nested. -/
theorem Value.Literal.rebuilt {v : Value} (h : v.Literal) : ∃ w, v.Rebuilt w := by
  induction h with
  | vec _ ih =>
    obtain ⟨ws, rebuilt⟩ := Rebuilt.exists_all ih
    exact ⟨_, Rebuilt.vec rebuilt⟩
  | map _ ih =>
    obtain ⟨ws, rebuilt⟩ := Rebuilt.exists_all ih
    exact ⟨_, Rebuilt.map rebuilt⟩
  | empty => exact ⟨_, rfl, .shared _, .empty, fun _ _ => .empty, fun _ _ => .empty⟩
  | nil => exact ⟨_, .constant rfl .nil⟩
  | bool b => exact ⟨_, .constant rfl (.bool b)⟩
  | int n => exact ⟨_, .constant rfl (.int n)⟩
  | str t => exact ⟨_, .constant rfl (.str t)⟩
  | kw name => exact ⟨_, .constant rfl (.kw name)⟩
  | cell c => exact ⟨_, .constant rfl (.cell c)⟩
  | native id op => exact ⟨_, .constant rfl (.native id op)⟩
  | closure id params body scope => exact ⟨_, .constant rfl (.closure id params body scope)⟩

/-- What is evaluated without a trace is evaluated with one too, and what comes out can be
evaluated in its turn. -/
theorem eval_ends_of_untraced {p : Policy} {r : Region} {e v : Value} {s : Scope}
    {m n : Machine} {fuel : Nat} (present : ¬p.absent) (he : e.Within p r) (hs : r.scope s)
    (closed : m.Closed p r) (run : (eval fuel e s).Ends m.untraced (.ok v) n) :
    ∃ m', (eval fuel e s).Ends m (.ok v) m' ∧ m'.untraced = n ∧
      ∃ r', r ≤ r' ∧ m'.Closed p r' ∧ v.Within p r' := by
  have run := (eval_untraced present he hs closed fuel).symm.trans run
  rw [Prod.mk.injEq] at run
  have traced : (eval fuel e s).Ends m (.ok v) ((eval fuel e s).exec m).2 := Prod.ext run.1 rfl
  obtain ⟨r', advance, closed', hv⟩ := Safe.run traced closed ⟨fun _ => trivial, fun _ => trivial⟩
    (eval_safe (equality_simulation p) fuel r e s he hs trivial)
  exact ⟨_, traced, run.2, r', advance.le, closed', hv⟩

/-- Literal data evaluates to a value that shows no difference and is equal to it, and that
evaluates to itself from then on. Neither evaluation changes a binding, a cell or the output. -/
theorem literal_data_evaluates_to_itself {v : Value} {s : Scope} {m : Machine}
    (literal : v.Literal) (present : ∀ x, Accesses m [.value v, .scope s] x → x ≠ .value .null) :
    ∃ w : Value, w.datum = v.datum ∧ v.equal w = true ∧ w.Literal ∧
      ∃ least, ∀ fuel, least ≤ fuel →
        ∃ m₁ m₂, (eval fuel v s).Ends m (.ok w) m₁ ∧ m₁.untraced = m.untraced ∧
          (eval fuel w s).Ends m₁ (.ok w) m₂ ∧ m₂.untraced = m.untraced := by
  let roots : List Item := [.value v, .scope s]
  let p : Policy := ⟨False, fun t => Accesses m roots (.scope t), True⟩
  let r : Region := .ofItems (Accesses m roots)
  obtain ⟨closed, within⟩ := m.closed_accesses roots (p := p) (fun h => present _ h rfl)
    (fun id t h => h.edge (.evaluated id t)) trivial fun _ h => h
  have hv : v.Within p r := within _ List.mem_cons_self
  have hs : r.scope s := within (.scope s) (List.mem_cons_of_mem _ List.mem_cons_self)
  obtain ⟨w, rebuilt⟩ := literal.rebuilt
  have first := ((rebuilt.once s m.untraced).settles rfl).ends
  have second := ((rebuilt.again s m.untraced).settles rfl).ends
  obtain ⟨least, runs⟩ := eventually_atTop.mp (first.and second)
  refine ⟨w, rebuilt.shown, rebuilt.copy.equal, rebuilt.literal, least, fun fuel enough => ?_⟩
  obtain ⟨once, again⟩ := runs fuel enough
  obtain ⟨m₁, run₁, same₁, r₁, le, closed₁, hw⟩ :=
    eval_ends_of_untraced (p := p) id hv hs closed once
  rw [← same₁] at again
  obtain ⟨m₂, run₂, same₂, _⟩ := eval_ends_of_untraced (p := p) id hw (le.1 s hs) closed₁ again
  exact ⟨m₁, m₂, run₁, same₁, run₂, same₂.trans same₁⟩

/-- The data `[<cell> {:k [() <function>]}]`, where the function is the one of `(fn* (x) x)`. -/
def nestedLiteral : Value :=
  let name := Value.sym (ascii "x")
  let identity := Value.closure ⟨0⟩ (.ofNames [ascii "x"]) name
    (some (.frame ⟨0⟩ .empty none))
  .vec #[.cell ⟨0⟩, .map (.ofPairs [(.keyword (ascii "k"), .vec #[.list #[], identity])])]

theorem nested_data_evaluates_to_itself :
    let s := Scope.frame ⟨0⟩ .empty none
    let m : Machine := { Machine.traced with cells := #[.int 1] }
    nestedLiteral.Literal ∧
      (∀ x, Accesses m [.value nestedLiteral, .scope s] x → x ≠ .value .null) ∧
      ∃ w fuel m', w.datum = nestedLiteral.datum ∧ (eval fuel nestedLiteral s).Ends m (.ok w) m' ∧
        m'.untraced = m.untraced := by
  intro s m
  have entries (v : Value) : (Table.ofPairs [(Key.keyword (ascii "k"), v)]).entries =
      [(.keyword (ascii "k"), v)] := by
    rw [Table.entries_ofPairs]
    rfl
  have literal : nestedLiteral.Literal := by
    refine .vec fun v hv => ?_
    simp only [List.mem_cons, List.not_mem_nil, or_false] at hv
    rcases hv with rfl | rfl
    · exact .cell ⟨0⟩
    · refine .map fun v hv => ?_
      rw [entries, Assoc.values, List.map_singleton, List.mem_singleton] at hv
      subst hv
      refine .vec fun v hv => ?_
      simp only [List.mem_cons, List.not_mem_nil, or_false] at hv
      rcases hv with rfl | rfl
      · exact .empty
      · exact .closure _ _ _ _
  let p : Policy := ⟨False, fun _ => False, True⟩
  let r : Region := ⟨fun t => t = s, fun c => c = ⟨0⟩⟩
  have closed : m.Closed p r := by
    constructor
    · rintro t u rfl ht
      cases ht
    · rintro t name v rfl hv
      have none : m.local? s name = none := rfl
      rw [none] at hv
      cases hv
    · rintro c rfl
      exact .int 1
    · intro t ht
      exact ht.elim
  have within : ∀ x ∈ [Item.value nestedLiteral, .scope s], x.Within p r := by
    have cell : (Value.cell ⟨0⟩).Within p r := .cell rfl
    have identity : (Value.closure ⟨0⟩ (.ofNames [ascii "x"]) (.sym (ascii "x")) (some s)).Within
        p r := .closure (.sym _) (by rintro t ⟨⟩; rfl) (by rintro ⟨⟩)
    have inner : (Value.vec #[.list #[], .closure ⟨0⟩ (.ofNames [ascii "x"]) (.sym (ascii "x"))
        (some s)]).Within p r := by
      refine .vec ?_
      simpa using ⟨.list (by simp), identity⟩
    have outer : nestedLiteral.Within p r := by
      refine .vec ?_
      simp only [List.mem_toArray, List.forall_mem_cons]
      refine ⟨cell, .map fun e he => ?_, by simp⟩
      rw [entries, List.mem_singleton] at he
      exact he ▸ inner
    simp [Item.Within, outer, r]
  have present : ∀ x, Accesses m [.value nestedLiteral, .scope s] x → x ≠ .value .null := by
    rintro x hx rfl
    cases closed.accesses within hx with
    | null absent => exact absent
  obtain ⟨w, shown, _, _, least, runs⟩ := literal_data_evaluates_to_itself literal present
  obtain ⟨m', _, run, same, _⟩ := runs least (Nat.le_refl least)
  exact ⟨literal, present, w, least, m', shown, run, same⟩

end MiniLisp
