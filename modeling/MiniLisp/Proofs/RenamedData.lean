import MiniLisp.Native.Data
import MiniLisp.Proofs.Literals
import MiniLisp.Proofs.Renaming

/-! A native on data never looks into the scopes of its arguments, so its answer to renamed
arguments is its answer renamed. -/
namespace MiniLisp

section

variable (ρ : FrameId → FrameId)

abbrev renamed {α β : Type} (f : α → β) : Except Error α → Except Error β :=
  carry (Error.rename ρ) f

abbrev renamedValue : Except Error Value → Except Error Value := renamed ρ (Value.rename ρ)

/-- A value that leads to no scope looks the same under every renaming. -/
theorem Value.Within.rename_literal {v : Value}
    (h : v.Within ⟨True, fun _ => False, True⟩ ⟨fun _ => False, fun _ => False⟩) : v.rename ρ = v :=
  h.rename_eq (fun _ => False.elim) fun _ => False.elim

theorem readAll_rename {t : Text} {forms : List Value} (h : readAll t = .ok forms) :
    ∀ v ∈ forms, v.rename ρ = v := by
  have literal := readAll_within (p := ⟨True, fun _ => False, True⟩)
    (r := ⟨fun _ => False, fun _ => False⟩) t
  rw [h] at literal
  exact fun v hv => (literal v hv).rename_literal ρ

theorem readFirst_rename {t : Text} {v : Value} (h : readFirst t = .ok (some v)) :
    v.rename ρ = v := by
  have literal := readFirst_within (p := ⟨True, fun _ => False, True⟩)
    (r := ⟨fun _ => False, fun _ => False⟩) t
  rw [h] at literal
  exact (literal v rfl).rename_literal ρ

namespace Value

variable (who : Text) (v : Value)

theorem integerArg_rename : (v.rename ρ).integerArg who = renamed ρ id (v.integerArg who) := by
  cases v <;> simp [integerArg, carry, mismatch, kind?, Error.rename]

theorem textArg_rename : (v.rename ρ).textArg who = renamed ρ id (v.textArg who) := by
  cases v <;> simp [textArg, carry, mismatch, kind?, Error.rename]

theorem cellArg_rename : (v.rename ρ).cellArg who = renamed ρ id (v.cellArg who) := by
  cases v <;> simp [cellArg, carry, mismatch, kind?, Error.rename]

theorem itemsArg_rename :
    (v.rename ρ).itemsArg who = renamed ρ (·.map (rename ρ)) (v.itemsArg who) := by
  cases v <;> simp [itemsArg, carry, mismatch, kind?, Error.rename]

theorem tableArg_rename :
    (v.rename ρ).tableArg who = renamed ρ (·.mapValues (rename ρ)) (v.tableArg who) := by
  cases v <;> simp [tableArg, carry, mismatch, kind?, Error.rename]

theorem functionArg_rename :
    (v.rename ρ).functionArg who = renamedValue ρ (v.functionArg who) := by
  rw [functionArg, functionArg, isFunction_rename]
  split
  · rfl
  · simp [carry]

theorem keyArg_rename : (v.rename ρ).keyArg who = renamed ρ id (v.keyArg who) := by
  rw [keyArg, keyArg, ofValue?_rename]
  cases Key.ofValue? v <;> rfl

theorem pairUp_rename : (items : List Value) → (done : List (Key × Value)) →
    pairUp (keyArg who) (items.map (rename ρ)) (done.map fun e => (e.1, e.2.rename ρ)) =
      renamed ρ (List.map fun e => (e.1, e.2.rename ρ)) (pairUp (keyArg who) items done)
  | [], done | [_], done => by simp [pairUp, carry]
  | k :: v :: rest, done => by
    rw [List.map_cons, List.map_cons, pairUp, pairUp]
    exact carry_bind (k.keyArg_rename ρ who) fun key => pairUp_rename rest ((key, v) :: done)

end Value

namespace Arity

variable {α β : Type} {g : α → β} (who : Text) (args : List Value)

theorem unary_rename {f : Value → Except Error α} {f' : Value → Except Error β}
    (hf : ∀ a, f' (a.rename ρ) = renamed ρ g (f a)) :
    unary who f' (args.map (Value.rename ρ)) = renamed ρ g (unary who f args) := by
  rcases args with _ | ⟨a, _ | ⟨b, rest⟩⟩
  · rfl
  · exact hf a
  · simp [unary, carry, Error.rename]

theorem binary_rename {f : Value → Value → Except Error α} {f' : Value → Value → Except Error β}
    (hf : ∀ a b, f' (a.rename ρ) (b.rename ρ) = renamed ρ g (f a b)) :
    binary who f' (args.map (Value.rename ρ)) = renamed ρ g (binary who f args) := by
  rcases args with _ | ⟨a, _ | ⟨b, _ | ⟨c, rest⟩⟩⟩
  · rfl
  · rfl
  · exact hf a b
  · simp [binary, carry, Error.rename]

theorem leading_rename {f : Value → List Value → Except Error α}
    {f' : Value → List Value → Except Error β}
    (hf : ∀ a rest, f' (a.rename ρ) (rest.map (Value.rename ρ)) = renamed ρ g (f a rest)) :
    leading who f' (args.map (Value.rename ρ)) = renamed ρ g (leading who f args) := by
  rcases args with _ | ⟨a, rest⟩
  · rfl
  · exact hf a rest

end Arity

namespace Arithmetic

variable (who : Text) (a b : Value)

theorem operands_rename :
    operands who (a.rename ρ) (b.rename ρ) = renamed ρ id (operands who a b) :=
  carry_bind (a.integerArg_rename ρ who) fun _ =>
    carry_bind (b.integerArg_rename ρ who) fun _ => rfl

theorem checked_rename (f : Int64 → Int64 → Option Int64) :
    checked who f (a.rename ρ) (b.rename ρ) = renamedValue ρ (checked who f a b) := by
  refine carry_bind (operands_rename ρ who a b) fun xy => ?_
  dsimp only [id]
  cases f xy.1 xy.2 <;> simp [carry, Error.rename]

theorem division_rename :
    division who (a.rename ρ) (b.rename ρ) = renamedValue ρ (division who a b) := by
  refine carry_bind (operands_rename ρ who a b) fun xy => ?_
  dsimp only [id]
  split
  · rfl
  · cases Integer.div? xy.1 xy.2 <;> simp [carry, Error.rename]

theorem comparison_rename (holds : Int64 → Int64 → Bool) :
    comparison who holds (a.rename ρ) (b.rename ρ) = renamedValue ρ (comparison who holds a b) :=
  carry_bind (operands_rename ρ who a b) fun xy => by simp [carry]

end Arithmetic

namespace Sequence

variable (who : Text) (a b : Value)

theorem cons_rename : cons who (a.rename ρ) (b.rename ρ) = renamedValue ρ (cons who a b) :=
  carry_bind (b.itemsArg_rename ρ who) fun xs => by simp [carry]

theorem join_rename (parts : List (Array Value)) :
    join (parts.map fun xs => xs.map (Value.rename ρ)) = (join parts).map (Value.rename ρ) := by
  have folded (rest : List (Array Value)) (done : Array Value) :
      (rest.map fun xs => xs.map (Value.rename ρ)).foldl (· ++ ·) (done.map (Value.rename ρ)) =
        (rest.foldl (· ++ ·) done).map (Value.rename ρ) := by
    induction rest generalizing done with
    | nil => rfl
    | cons xs rest ih =>
      rw [List.map_cons, List.foldl_cons, ← Array.map_append, ih, List.foldl_cons]
  cases parts with
  | nil => simp [join]
  | cons xs rest => exact folded rest xs

theorem concat_rename (args : List Value) :
    concat who (args.map (Value.rename ρ)) = renamedValue ρ (concat who args) := by
  refine carry_bind (carry_mapM (fun a => a.itemsArg_rename ρ who) args) fun parts => ?_
  rw [join_rename, carry, Value.rename_list]

theorem isEmpty_rename : isEmpty who (a.rename ρ) = renamedValue ρ (isEmpty who a) :=
  carry_bind (a.itemsArg_rename ρ who) fun xs => by simp [carry, Array.isEmpty]

theorem count_rename : count (a.rename ρ) = (count a).rename ρ := by
  rw [count, count, Value.items?_rename]
  cases a.items? <;> simp

theorem nth_rename : nth who (a.rename ρ) (b.rename ρ) = renamedValue ρ (nth who a b) := by
  refine carry_bind (a.itemsArg_rename ρ who) fun xs => ?_
  refine carry_bind (b.integerArg_rename ρ who) fun i => ?_
  dsimp only [id]
  rw [Array.getElem?_map]
  by_cases negative : i < 0
  · simp [negative, carry, Error.rename]
  · simp only [negative, if_false]
    cases xs[i.toInt.toNat]? <;> rfl

theorem first_rename : first who (a.rename ρ) = renamedValue ρ (first who a) := by
  by_cases none : a = .nil
  · subst none
    simp [first, carry]
  rw [first, first]
  · refine carry_bind (a.itemsArg_rename ρ who) fun xs => ?_
    rw [Array.getElem?_map]
    cases xs[0]? <;> simp [carry]
  · exact none
  · rwa [Value.rename_eq_nil_iff]

theorem rest_rename : rest who (a.rename ρ) = renamedValue ρ (rest who a) := by
  by_cases none : a = .nil
  · subst none
    simp [rest, carry]
  rw [rest, rest]
  · refine carry_bind (a.itemsArg_rename ρ who) fun xs => ?_
    simp [carry]
  · exact none
  · rwa [Value.rename_eq_nil_iff]

theorem vec_rename : vec who (a.rename ρ) = renamedValue ρ (vec who a) :=
  carry_bind (a.itemsArg_rename ρ who) fun xs => by simp [carry]

end Sequence

namespace Mapping

variable (who : Text) (a b : Value) (args : List Value)

theorem assocPairs_rename (t : Table Key Value) :
    assocPairs who (t.mapValues (Value.rename ρ)) (args.map (Value.rename ρ)) =
      renamedValue ρ (assocPairs who t args) := by
  rw [assocPairs, assocPairs, List.length_map]
  split
  · have pairs := Value.pairUp_rename ρ who args []
    rw [List.map_nil] at pairs
    rw [pairs]
    cases Value.pairUp (Value.keyArg who) args [] with
    | error e => rfl
    | ok pairs => simp [carry, Except.map, Table.insertAll_mapValues]
  · rfl

theorem assoc_rename :
    assoc who (a.rename ρ) (args.map (Value.rename ρ)) = renamedValue ρ (assoc who a args) :=
  carry_bind (a.tableArg_rename ρ who) fun t => assocPairs_rename ρ who args t

theorem dissoc_rename :
    dissoc who (a.rename ρ) (args.map (Value.rename ρ)) = renamedValue ρ (dissoc who a args) := by
  refine carry_bind (a.tableArg_rename ρ who) fun t => ?_
  refine carry_bind (carry_mapM (fun k => k.keyArg_rename ρ who) args) fun ks => ?_
  simp [carry, Table.eraseAll_mapValues]

theorem get_rename : get who (a.rename ρ) (b.rename ρ) = renamedValue ρ (get who a b) := by
  by_cases none : a = .nil
  · subst none
    simp [get, carry]
  rw [get, get]
  · refine carry_bind (a.tableArg_rename ρ who) fun t => ?_
    refine carry_bind (b.keyArg_rename ρ who) fun k => ?_
    rw [id, Table.find?_mapValues]
    cases t.find? k <;> simp [carry]
  · exact none
  · rwa [Value.rename_eq_nil_iff]

theorem contains_rename :
    contains who (a.rename ρ) (b.rename ρ) = renamedValue ρ (contains who a b) :=
  carry_bind (a.tableArg_rename ρ who) fun t =>
    carry_bind (b.keyArg_rename ρ who) fun k => by simp [carry]

theorem keys_rename : keys who (a.rename ρ) = renamedValue ρ (keys who a) :=
  carry_bind (a.tableArg_rename ρ who) fun t => by simp [carry, Function.comp_def]

theorem vals_rename : vals who (a.rename ρ) = renamedValue ρ (vals who a) :=
  carry_bind (a.tableArg_rename ρ who) fun t => by simp [carry]

end Mapping

namespace Naming

variable (who : Text) (a : Value)

theorem symbol_rename : symbol who (a.rename ρ) = renamedValue ρ (symbol who a) :=
  carry_bind (a.textArg_rename ρ who) fun t => by simp [carry]

theorem keyword_rename : keyword who (a.rename ρ) = renamedValue ρ (keyword who a) := by
  have text : (do
      let t ← (a.rename ρ).textArg who
      .ok (.kw t)) = renamedValue ρ (do
        let t ← a.textArg who
        .ok (.kw t)) :=
    carry_bind (a.textArg_rename ρ who) fun t => by simp [carry]
  cases a with
  | kw name => simp [keyword, carry]
  | _ => simpa [keyword] using text

theorem readString_rename : readString who (a.rename ρ) = renamedValue ρ (readString who a) := by
  refine carry_bind (a.textArg_rename ρ who) fun t => ?_
  rw [id]
  cases h : readFirst t with
  | error e => rfl
  | ok form =>
    cases form with
    | none => simp [carry]
    | some v => exact congrArg Except.ok (readFirst_rename ρ h).symm

end Naming

theorem DataOp.test_rename (who : Text) {holds : Value → Bool}
    (h : ∀ v, holds (v.rename ρ) = holds v) (args : List Value) :
    test who holds (args.map (Value.rename ρ)) = renamedValue ρ (test who holds args) :=
  Arity.unary_rename ρ who args fun v => by simp [carry, h]

theorem DataOp.run_rename (op : DataOp) (args : List Value) :
    op.run (args.map (Value.rename ρ)) = renamedValue ρ (op.run args) := by
  cases op with
  | add | sub | mul =>
    exact Arity.binary_rename ρ _ args fun a b => Arithmetic.checked_rename ρ _ a b _
  | div => exact Arity.binary_rename ρ _ args (Arithmetic.division_rename ρ _)
  | equal =>
    refine Arity.binary_rename ρ _ args fun a b => ?_
    simp [carry, Value.equal_rename]
  | greater | greaterEqual | less | lessEqual =>
    exact Arity.binary_rename ρ _ args fun a b => Arithmetic.comparison_rename ρ _ a b _
  | cons => exact Arity.binary_rename ρ _ args (Sequence.cons_rename ρ _)
  | concat => exact Sequence.concat_rename ρ _ args
  | list | vector => simp [run, carry]
  | isEmpty => exact Arity.unary_rename ρ _ args (Sequence.isEmpty_rename ρ _)
  | count =>
    exact Arity.unary_rename ρ _ args fun a => congrArg Except.ok (Sequence.count_rename ρ a)
  | nth => exact Arity.binary_rename ρ _ args (Sequence.nth_rename ρ _)
  | first => exact Arity.unary_rename ρ _ args (Sequence.first_rename ρ _)
  | rest => exact Arity.unary_rename ρ _ args (Sequence.rest_rename ρ _)
  | vec => exact Arity.unary_rename ρ _ args (Sequence.vec_rename ρ _)
  | hashMap => exact Mapping.assocPairs_rename ρ _ args .empty
  | assoc => exact Arity.leading_rename ρ _ args (Mapping.assoc_rename ρ _)
  | dissoc => exact Arity.leading_rename ρ _ args (Mapping.dissoc_rename ρ _)
  | get => exact Arity.binary_rename ρ _ args (Mapping.get_rename ρ _)
  | contains => exact Arity.binary_rename ρ _ args (Mapping.contains_rename ρ _)
  | keys => exact Arity.unary_rename ρ _ args (Mapping.keys_rename ρ _)
  | vals => exact Arity.unary_rename ρ _ args (Mapping.vals_rename ρ _)
  | symbol => exact Arity.unary_rename ρ _ args (Naming.symbol_rename ρ _)
  | keyword => exact Arity.unary_rename ρ _ args (Naming.keyword_rename ρ _)
  | readString => exact Arity.unary_rename ρ _ args (Naming.readString_rename ρ _)
  | isList | isMap | isSequential | isVector | isNil | isSymbol | isKeyword | isTrue | isFalse
  | isCell => exact test_rename ρ _ (fun v => by simp) args

end

end MiniLisp
