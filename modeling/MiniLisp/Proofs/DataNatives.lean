import MiniLisp.Native.Data
import MiniLisp.Proofs.Literals

/-! A native on data takes its result apart from its arguments, so it leads nowhere that they do not
lead. -/
namespace MiniLisp

section

variable {p : Policy} {r : Region}

abbrev Stays (p : Policy) (r : Region) : Except Error Value → Prop :=
  Meets (Error.Within p r) fun v => v.Within p r

namespace Value

/-- Only the absent value has no kind. -/
theorem Within.kind {v : Value} (h : v.Within p r) (hk : v.kind? = none) : p.absent := by
  cases h with
  | null absent => exact absent
  | _ => cases hk

theorem mismatch_within (who : Text) (wanted : Shape) {v : Value} (h : v.Within p r) :
    (v.mismatch who wanted).Within p r := by
  rw [mismatch]
  split
  · exact trivial
  · rename_i hk
    exact h.kind hk

theorem integerArg_meets (who : Text) {v : Value} (h : v.Within p r) :
    Meets (Error.Within p r) (fun _ => True) (v.integerArg who) := by
  unfold integerArg
  split
  · exact trivial
  · exact mismatch_within who _ h

theorem textArg_meets (who : Text) {v : Value} (h : v.Within p r) :
    Meets (Error.Within p r) (fun _ => True) (v.textArg who) := by
  unfold textArg
  split
  · exact trivial
  · exact mismatch_within who _ h

theorem keyArg_meets (who : Text) (v : Value) :
    Meets (Error.Within p r) (fun _ => True) (v.keyArg who) := by
  unfold keyArg
  split
  · exact trivial
  · exact trivial

theorem itemsArg_meets (who : Text) {v : Value} (h : v.Within p r) :
    Meets (Error.Within p r) (fun xs => ∀ u ∈ xs, u.Within p r) (v.itemsArg who) := by
  unfold itemsArg
  split
  · exact h.of_items? rfl
  · exact h.of_items? rfl
  · exact mismatch_within who _ h

theorem tableArg_meets (who : Text) {v : Value} (h : v.Within p r) :
    Meets (Error.Within p r) (fun t => ∀ e ∈ t.entries, e.2.Within p r) (v.tableArg who) := by
  unfold tableArg
  split
  · cases h with
    | map hs => exact hs
  · exact mismatch_within who _ h

theorem cellArg_meets (who : Text) {v : Value} (h : v.Within p r) :
    Meets (Error.Within p r) r.cell (v.cellArg who) := by
  unfold cellArg
  split
  · cases h with
    | cell hc => exact hc
  · exact mismatch_within who _ h

theorem functionArg_meets (who : Text) {v : Value} (h : v.Within p r) :
    Stays p r (v.functionArg who) := by
  unfold functionArg
  split
  · exact h
  · exact mismatch_within who _ h

end Value

namespace Arity

variable {α : Type} {P : α → Prop} {args : List Value}

theorem unary_meets (who : Text) {f : Value → Except Error α} (h : AllWithin p r args)
    (hf : ∀ a, a.Within p r → Meets (Error.Within p r) P (f a)) :
    Meets (Error.Within p r) P (unary who f args) := by
  unfold unary
  split
  · exact hf _ (h _ List.mem_cons_self)
  · exact trivial

theorem binary_meets (who : Text) {f : Value → Value → Except Error α} (h : AllWithin p r args)
    (hf : ∀ a b, a.Within p r → b.Within p r → Meets (Error.Within p r) P (f a b)) :
    Meets (Error.Within p r) P (binary who f args) := by
  unfold binary
  split
  · exact hf _ _ (h _ List.mem_cons_self) (h _ (List.mem_cons_of_mem _ List.mem_cons_self))
  · exact trivial

theorem leading_meets (who : Text) {f : Value → List Value → Except Error α}
    (h : AllWithin p r args)
    (hf : ∀ a rest, a.Within p r → AllWithin p r rest → Meets (Error.Within p r) P (f a rest)) :
    Meets (Error.Within p r) P (leading who f args) := by
  unfold leading
  split
  · exact hf _ _ (h _ List.mem_cons_self) fun v hv => h v (List.mem_cons_of_mem _ hv)
  · exact trivial

end Arity

namespace Arithmetic

section

variable (who : Text) {a b : Value} (ha : a.Within p r) (hb : b.Within p r)
include ha hb

theorem operands_meets : Meets (Error.Within p r) (fun _ => True) (operands who a b) :=
  (a.integerArg_meets who ha).bind fun _ _ => (b.integerArg_meets who hb).bind fun _ _ => trivial

theorem checked_stays (f : Int64 → Int64 → Option Int64) : Stays p r (checked who f a b) := by
  refine (operands_meets who ha hb).bind ?_
  intro xy _
  dsimp only
  split
  · exact .int _
  · exact trivial

theorem division_stays : Stays p r (division who a b) := by
  refine (operands_meets who ha hb).bind ?_
  intro xy _
  dsimp only
  split
  · exact trivial
  · split
    · exact .int _
    · exact trivial

theorem comparison_stays (holds : Int64 → Int64 → Bool) :
    Stays p r (comparison who holds a b) :=
  (operands_meets who ha hb).bind fun _ _ => .bool _

end

end Arithmetic

namespace Sequence

theorem cons_stays (who : Text) {a b : Value} (ha : a.Within p r) (hb : b.Within p r) :
    Stays p r (cons who a b) := by
  refine (b.itemsArg_meets who hb).bind ?_
  intro xs hs
  refine .list fun v hv => ?_
  rcases Array.mem_append.mp hv with hv | hv
  · rcases Array.mem_push.mp hv with hv | rfl
    · simp at hv
    · exact ha
  · exact hs v hv

theorem join_within {parts : List (Array Value)}
    (h : ∀ xs ∈ parts, ∀ v ∈ xs, v.Within p r) : ∀ v ∈ join parts, v.Within p r := by
  have folded : ∀ (rest : List (Array Value)) (done : Array Value),
      (∀ v ∈ done, v.Within p r) → (∀ xs ∈ rest, ∀ v ∈ xs, v.Within p r) →
      ∀ v ∈ rest.foldl (· ++ ·) done, v.Within p r := by
    intro rest
    induction rest with
    | nil => exact fun done hd _ => hd
    | cons xs rest ih =>
      intro done hd hr
      obtain ⟨hx, hr⟩ := List.forall_mem_cons.mp hr
      refine ih (done ++ xs) (fun v hv => ?_) hr
      rcases Array.mem_append.mp hv with hv | hv
      · exact hd v hv
      · exact hx v hv
  cases parts with
  | nil => exact fun v hv => by simp [join] at hv
  | cons xs rest =>
    obtain ⟨hx, hr⟩ := List.forall_mem_cons.mp h
    exact folded rest xs hx hr

theorem concat_stays (who : Text) {args : List Value} (h : AllWithin p r args) :
    Stays p r (concat who args) :=
  (Meets.mapM fun a ha => a.itemsArg_meets who (h a ha)).bind fun _ hs => .list (join_within hs)

theorem isEmpty_stays (who : Text) {a : Value} (h : a.Within p r) : Stays p r (isEmpty who a) :=
  (a.itemsArg_meets who h).bind fun _ _ => .bool _

theorem nth_stays (who : Text) {a b : Value} (ha : a.Within p r) (hb : b.Within p r) :
    Stays p r (nth who a b) := by
  refine (a.itemsArg_meets who ha).bind ?_
  intro xs hs
  refine (b.integerArg_meets who hb).bind ?_
  intro i _
  split
  · rename_i v hv
    split at hv
    · cases hv
    · exact hs v (Array.mem_of_getElem? hv)
  · exact trivial

theorem first_stays (who : Text) {a : Value} (h : a.Within p r) : Stays p r (first who a) := by
  unfold first
  split
  · exact .nil
  · refine (Value.itemsArg_meets who h).bind ?_
    intro xs hs
    show Value.Within p r (xs[0]?.getD .nil)
    cases hx : xs[0]? with
    | none => exact .nil
    | some v => exact hs v (Array.mem_of_getElem? hx)

theorem rest_stays (who : Text) {a : Value} (h : a.Within p r) : Stays p r (rest who a) := by
  unfold rest
  split
  · exact .list fun v hv => by simp at hv
  · refine (Value.itemsArg_meets who h).bind ?_
    intro xs hs
    refine .list fun v hv => ?_
    obtain ⟨i, _, rfl⟩ := Array.mem_extract_iff_getElem.mp hv
    exact hs _ (Array.getElem_mem _)

theorem vec_stays (who : Text) {a : Value} (h : a.Within p r) : Stays p r (vec who a) :=
  (a.itemsArg_meets who h).bind fun _ hs => .vec hs

end Sequence

namespace Mapping

theorem assocPairs_stays (who : Text) {t : Table Key Value} {args : List Value}
    (ht : ∀ e ∈ t.entries, e.2.Within p r) (h : AllWithin p r args) :
    Stays p r (assocPairs who t args) := by
  unfold assocPairs
  split
  · refine (Meets.pairs (fun v => v.keyArg_meets who) h).map fun pairs hp => ?_
    refine Value.Within.map fun e he => ?_
    rw [Table.entries_insertAll] at he
    rcases Assoc.mem_insertAll he with he | he
    · exact ht e he
    · exact hp e he
  · exact trivial

theorem assoc_stays (who : Text) {a : Value} {args : List Value} (ha : a.Within p r)
    (h : AllWithin p r args) : Stays p r (assoc who a args) :=
  (a.tableArg_meets who ha).bind fun _ ht => assocPairs_stays who ht h

theorem dissoc_stays (who : Text) {a : Value} (ha : a.Within p r) (args : List Value) :
    Stays p r (dissoc who a args) := by
  refine (a.tableArg_meets who ha).bind ?_
  intro t ht
  refine (Meets.mapM fun k _ => k.keyArg_meets who).bind ?_
  intro ks _
  refine Value.Within.map fun e he => ?_
  rw [Table.entries_eraseAll] at he
  exact ht e (Assoc.mem_of_mem_eraseAll he)

theorem get_stays (who : Text) {a : Value} (ha : a.Within p r) (b : Value) :
    Stays p r (get who a b) := by
  unfold get
  split
  · exact .nil
  · refine (Value.tableArg_meets who ha).bind ?_
    intro t ht
    refine (Value.keyArg_meets who b).bind ?_
    intro k _
    show Value.Within p r ((t.find? k).getD .nil)
    cases hk : t.find? k with
    | none => exact .nil
    | some v =>
      rw [Table.find?_eq] at hk
      exact ht (k, v) (Assoc.mem_of_find? hk)

theorem contains_stays (who : Text) {a : Value} (ha : a.Within p r) (b : Value) :
    Stays p r (contains who a b) :=
  (a.tableArg_meets who ha).bind fun _ _ => (b.keyArg_meets who).bind fun _ _ => .bool _

theorem keys_stays (who : Text) {a : Value} (ha : a.Within p r) : Stays p r (keys who a) := by
  refine (a.tableArg_meets who ha).bind ?_
  intro t _
  refine .list fun v hv => ?_
  obtain ⟨k, _, rfl⟩ := List.mem_map.mp (List.mem_toArray.mp hv)
  cases k with
  | string t => exact .str t
  | keyword name => exact .kw name

theorem vals_stays (who : Text) {a : Value} (ha : a.Within p r) : Stays p r (vals who a) := by
  refine (a.tableArg_meets who ha).bind ?_
  intro t ht
  refine .list fun v hv => ?_
  have found := Array.mem_toList_iff.mpr hv
  rw [Table.toList_vals] at found
  obtain ⟨e, he, rfl⟩ := List.mem_map.mp found
  exact ht e he

end Mapping

namespace Naming

theorem symbol_stays (who : Text) {a : Value} (ha : a.Within p r) : Stays p r (symbol who a) :=
  (a.textArg_meets who ha).bind fun _ _ => .sym _

theorem keyword_stays (who : Text) {a : Value} (ha : a.Within p r) : Stays p r (keyword who a) := by
  unfold keyword
  split
  · exact .kw _
  · exact (Value.textArg_meets who ha).bind fun _ _ => .kw _

theorem readString_stays (who : Text) {a : Value} (ha : a.Within p r) :
    Stays p r (readString who a) := by
  refine (a.textArg_meets who ha).bind ?_
  intro t _
  have read := readFirst_within (p := p) (r := r) t
  split
  · rename_i form hf
    rw [hf] at read
    cases form with
    | none => exact .nil
    | some v => exact read v rfl
  · exact trivial

end Naming

theorem DataOp.test_stays (who : Text) (holds : Value → Bool) {args : List Value}
    (h : AllWithin p r args) : Stays p r (test who holds args) :=
  Arity.unary_meets who h fun _ _ => .bool _

theorem DataOp.run_stays (op : DataOp) {args : List Value} (h : AllWithin p r args) :
    Stays p r (op.run args) := by
  cases op with
  | add | sub | mul =>
    exact Arity.binary_meets _ h fun _ _ ha hb => Arithmetic.checked_stays _ ha hb _
  | div => exact Arity.binary_meets _ h fun _ _ ha hb => Arithmetic.division_stays _ ha hb
  | equal => exact Arity.binary_meets _ h fun _ _ _ _ => .bool _
  | greater | greaterEqual | less | lessEqual =>
    exact Arity.binary_meets _ h fun _ _ ha hb => Arithmetic.comparison_stays _ ha hb _
  | cons => exact Arity.binary_meets _ h fun _ _ ha hb => Sequence.cons_stays _ ha hb
  | concat => exact Sequence.concat_stays _ h
  | list => exact .list fun v hv => h v (List.mem_toArray.mp hv)
  | vector => exact .vec fun v hv => h v (List.mem_toArray.mp hv)
  | isEmpty => exact Arity.unary_meets _ h fun _ ha => Sequence.isEmpty_stays _ ha
  | count => exact Arity.unary_meets _ h fun _ _ => .int _
  | nth => exact Arity.binary_meets _ h fun _ _ ha hb => Sequence.nth_stays _ ha hb
  | first => exact Arity.unary_meets _ h fun _ ha => Sequence.first_stays _ ha
  | rest => exact Arity.unary_meets _ h fun _ ha => Sequence.rest_stays _ ha
  | vec => exact Arity.unary_meets _ h fun _ ha => Sequence.vec_stays _ ha
  | hashMap => exact Mapping.assocPairs_stays _ (fun e he => absurd he List.not_mem_nil) h
  | assoc => exact Arity.leading_meets _ h fun _ _ ha hs => Mapping.assoc_stays _ ha hs
  | dissoc => exact Arity.leading_meets _ h fun _ rest ha _ => Mapping.dissoc_stays _ ha rest
  | get => exact Arity.binary_meets _ h fun _ b ha _ => Mapping.get_stays _ ha b
  | contains => exact Arity.binary_meets _ h fun _ b ha _ => Mapping.contains_stays _ ha b
  | keys => exact Arity.unary_meets _ h fun _ ha => Mapping.keys_stays _ ha
  | vals => exact Arity.unary_meets _ h fun _ ha => Mapping.vals_stays _ ha
  | symbol => exact Arity.unary_meets _ h fun _ ha => Naming.symbol_stays _ ha
  | keyword => exact Arity.unary_meets _ h fun _ ha => Naming.keyword_stays _ ha
  | readString => exact Arity.unary_meets _ h fun _ ha => Naming.readString_stays _ ha
  | isList | isMap | isSequential | isVector | isNil | isSymbol | isKeyword | isTrue | isFalse
  | isCell => exact test_stays _ _ h

end

end MiniLisp
