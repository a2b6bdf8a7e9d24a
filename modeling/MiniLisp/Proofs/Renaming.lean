import Mathlib.Data.List.InsertIdx
import MiniLisp.Equality
import MiniLisp.Eval
import MiniLisp.Proofs.Answers

/-! Values and scopes refer to frames by identifiers that mean nothing in themselves. Renaming them
changes neither what a value looks like nor which values are equal. -/
namespace MiniLisp

namespace Table

section

variable {α : Type} (f : α → α)

def mapFirst : Nat → List α → List α
  | 0, vs => vs
  | _, [] => []
  | n + 1, v :: vs => f v :: mapFirst n vs

@[simp] theorem mapFirst_nil (n : Nat) : mapFirst f n [] = [] := by cases n <;> rfl

@[simp] theorem length_mapFirst (n : Nat) (vs : List α) :
    (mapFirst f n vs).length = vs.length := by
  induction n generalizing vs with
  | zero => rfl
  | succ n ih =>
    cases vs with
    | nil => rfl
    | cons v vs => exact congrArg (· + 1) (ih vs)

theorem mapFirst_of_le {n : Nat} {vs : List α} (h : vs.length ≤ n) :
    mapFirst f n vs = vs.map f := by
  induction n generalizing vs with
  | zero => rw [List.length_eq_zero_iff.mp (Nat.le_zero.mp h)]; rfl
  | succ n ih =>
    cases vs with
    | nil => rfl
    | cons v vs => exact congrArg (f v :: ·) (ih (Nat.le_of_succ_le_succ h))

theorem zip_mapFirst {κ : Type} (ks : List κ) (vs : List α) :
    ks.zip (mapFirst f ks.length vs) = (ks.zip vs).map fun e => (e.1, f e.2) := by
  induction ks generalizing vs with
  | nil => rfl
  | cons k ks ih =>
    cases vs with
    | nil => rfl
    | cons v vs => exact congrArg ((k, f v) :: ·) (ih vs)

theorem mapFirst_eq_self {κ : Type} {ks : List κ} {vs : List α}
    (h : ∀ e ∈ ks.zip vs, f e.2 = e.2) : mapFirst f ks.length vs = vs := by
  induction ks generalizing vs with
  | nil => rfl
  | cons k ks ih =>
    cases vs with
    | nil => rfl
    | cons v vs =>
      obtain ⟨first, others⟩ := List.forall_mem_cons.mp h
      rw [List.length_cons, mapFirst, first, ih others]

end

variable {κ α : Type} [DecidableEq κ] [Ord κ] {f : α → α}

def mapValues (f : α → α) (t : Table κ α) : Table κ α :=
  ⟨t.order, ⟨mapFirst f t.order.size t.values.toList⟩⟩

@[simp] theorem order_mapValues (t : Table κ α) : (t.mapValues f).order = t.order := rfl

@[simp] theorem size_values_mapValues (t : Table κ α) :
    (t.mapValues f).values.size = t.values.size := by
  show (mapFirst f t.order.size t.values.toList).length = _
  rw [length_mapFirst, Array.length_toList]

@[simp] theorem size_mapValues (t : Table κ α) : (t.mapValues f).size = t.size := by
  rw [size, size, order_mapValues, size_values_mapValues]

/-- Where every value has a key, all of them change. -/
theorem mapValues_of_sized {t : Table κ α} (h : t.order.size = t.values.size) :
    t.mapValues f = ⟨t.order, t.values.map f⟩ := by
  rw [mapValues, mapFirst_of_le f (by simp [h]), ← Array.toList_map]

theorem entries_mapValues (t : Table κ α) :
    (t.mapValues f).entries = t.entries.map fun e => (e.1, f e.2) := by
  show t.order.toList.zip (mapFirst f t.order.size t.values.toList) = _
  rw [← KeyOrder.length_toList, zip_mapFirst, entries]

theorem mapValues_eq_self {t : Table κ α} (h : ∀ e ∈ t.entries, f e.2 = e.2) :
    t.mapValues f = t := by
  rw [mapValues, ← KeyOrder.length_toList, mapFirst_eq_self f h]

@[simp] theorem find?_mapValues (t : Table κ α) (k : κ) :
    (t.mapValues f).find? k = (t.find? k).map f := by
  rw [find?_eq, find?_eq, entries_mapValues]
  generalize t.entries = es
  induction es with
  | nil => rfl
  | cons e es ih =>
    rw [List.map_cons, Assoc.find?, ih, Assoc.find?]
    split <;> rfl

@[simp] theorem contains_mapValues (t : Table κ α) (k : κ) :
    (t.mapValues f).contains k = t.contains k := by
  rw [contains, contains, find?_mapValues, Option.isSome_map]

omit [DecidableEq κ] [Ord κ] in
theorem keys_map (es : Assoc κ α) : Assoc.keys (es.map fun e => (e.1, f e.2)) = es.keys := by
  rw [Assoc.keys, Assoc.keys, List.map_map]
  rfl

variable [Std.TransOrd κ]

@[simp] theorem mapValues_empty : (empty : Table κ α).mapValues f = empty := rfl

variable [Std.LawfulEqOrd κ]

theorem mapValues_ofEntries {es : Assoc κ α} (nodup : es.keys.Nodup) :
    (ofEntries es).mapValues f = ofEntries (es.map fun e => (e.1, f e.2)) := by
  have sized : (ofEntries es).order.size = (ofEntries es).values.size := by
    rw [← KeyOrder.length_toList, ofEntries, KeyOrder.toList_ofList nodup]
    simp [Assoc.keys, Assoc.values]
  rw [mapValues_of_sized sized, ofEntries, ofEntries, keys_map]
  simp [Assoc.values, Function.comp_def]

@[simp] theorem trim_mapValues (t : Table κ α) : (t.mapValues f).trim = t.trim.mapValues f := by
  rw [trim, trim, order_mapValues, size_values_mapValues]
  split
  · rfl
  · rw [mapValues_ofEntries t.nodup_keys_entries, entries_mapValues]

@[simp] theorem keys_mapValues (t : Table κ α) : (t.mapValues f).keys = t.keys := by
  rw [keys, trim_mapValues, order_mapValues, keys]

@[simp] theorem vals_mapValues (t : Table κ α) : (t.mapValues f).vals = t.vals.map f := by
  rw [vals, trim_mapValues, mapValues_of_sized t.size_order_trim, vals]

theorem insert_mapValues (t : Table κ α) (k : κ) (v : α) :
    (t.mapValues f).insert k (f v) = (t.insert k v).mapValues f := by
  have sized := t.size_order_trim
  rw [insert, insert, trim_mapValues]
  generalize t.trim = t at sized
  obtain ⟨order, values⟩ := t
  dsimp only at sized
  rw [mapValues_of_sized sized]
  cases place : order.place? k with
  | some i =>
    rw [insertTrimmed_of_some place, insertTrimmed_of_some place,
      mapValues_of_sized (by simpa using sized), Array.map_setIfInBounds]
  | none =>
    have pushed : (order.push k place).size = order.size + 1 := Array.size_push _
    rw [insertTrimmed_of_none place, insertTrimmed_of_none place,
      mapValues_of_sized (by simpa [pushed] using sized), Array.map_push]

theorem insertAll_mapValues (t : Table κ α) (pairs : List (κ × α)) :
    (t.mapValues f).insertAll (pairs.map fun e => (e.1, f e.2)) =
      (t.insertAll pairs).mapValues f := by
  induction pairs generalizing t with
  | nil => rfl
  | cons p pairs ih =>
    rw [List.map_cons, insertAll, List.foldl_cons, insert_mapValues, ← insertAll, ih]
    rfl

theorem snd_erase_mapValues (t : Table κ α) (k : κ) :
    ((t.mapValues f).erase k).2 = (t.erase k).2.mapValues f := by
  have sized := t.size_order_trim
  rw [erase, erase, trim_mapValues]
  generalize t.trim = t at sized
  rw [mapValues_of_sized sized, mapValues_of_sized (size_order_eraseTrimmed sized k)]
  obtain ⟨order, values⟩ := t
  cases place : order.place? k with
  | some i =>
    have erased : (values.map f).eraseIdxIfInBounds i = (values.eraseIdxIfInBounds i).map f := by
      apply Array.toList_inj.mp
      simp [List.eraseIdx_map]
    rw [eraseTrimmed_of_some place, eraseTrimmed_of_some place, erased]
  | none => rw [eraseTrimmed_of_none place, eraseTrimmed_of_none place]

theorem eraseAll_mapValues (t : Table κ α) (ks : List κ) :
    (t.mapValues f).eraseAll ks = (t.eraseAll ks).mapValues f := by
  induction ks generalizing t with
  | nil => rfl
  | cons k ks ih =>
    rw [eraseAll, List.foldl_cons, snd_erase_mapValues, ← eraseAll, ih]
    rfl

end Table

/-- The arguments of a call, one for each parameter. -/
theorem Params.mapValues_bind {α : Type} (f : α → α) (p : Params) {args : List α}
    (fit : p.names.length = args.length) : (p.bind args).mapValues f = p.bind (args.map f) := by
  rw [bind, bind]
  split
  · rename_i all
    rw [Table.mapValues_of_sized (by simpa using all.trans fit), List.map_toArray]
  · have empty := Table.insertAll_mapValues (f := f) (.empty : Table Text α) (p.names.zip args)
    rw [Table.ofPairs, ← empty, Table.ofPairs, Table.mapValues_empty, List.zip_map_right]
    rfl

mutual

def Value.rename (ρ : FrameId → FrameId) : Value → Value
  | .null => .null
  | .nil => .nil
  | .bool b => .bool b
  | .int n => .int n
  | .str t => .str t
  | .sym name => .sym name
  | .kw name => .kw name
  | .list ⟨xs⟩ => .list ⟨Value.renameFirst ρ xs.length xs⟩
  | .vec ⟨xs⟩ => .vec ⟨Value.renameFirst ρ xs.length xs⟩
  | .map ⟨order, ⟨vs⟩⟩ => .map ⟨order, ⟨Value.renameFirst ρ order.size vs⟩⟩
  | .cell c => .cell c
  | .native id op => .native id (op.rename ρ)
  | .closure id params body none => .closure id params (body.rename ρ) none
  | .closure id params body (some s) => .closure id params (body.rename ρ) (some (s.rename ρ))

def Native.rename (ρ : FrameId → FrameId) : Native → Native
  | .evalIn s => .evalIn (s.rename ρ)
  | .data op => .data op
  | .cell op => .cell op
  | .text op => .text op
  | .call op => .call op
  | .throw => .throw
  | .slurp => .slurp
  | .host name op => .host name op

def Scope.rename (ρ : FrameId → FrameId) : Scope → Scope
  | .frame id ⟨order, ⟨vs⟩⟩ none => .frame (ρ id) ⟨order, ⟨Value.renameFirst ρ order.size vs⟩⟩ none
  | .frame id ⟨order, ⟨vs⟩⟩ (some parent) =>
    .frame (ρ id) ⟨order, ⟨Value.renameFirst ρ order.size vs⟩⟩ (some (parent.rename ρ))

def Value.renameFirst (ρ : FrameId → FrameId) : Nat → List Value → List Value
  | 0, vs => vs
  | _, [] => []
  | n + 1, v :: vs => v.rename ρ :: Value.renameFirst ρ n vs

end

section

variable (ρ : FrameId → FrameId)

theorem Value.renameFirst_eq (n : Nat) (vs : List Value) :
    renameFirst ρ n vs = Table.mapFirst (rename ρ) n vs := by
  induction n generalizing vs with
  | zero => rw [renameFirst, Table.mapFirst]
  | succ n ih =>
    cases vs with
    | nil => rw [renameFirst, Table.mapFirst_nil]; simp
    | cons v vs => rw [renameFirst, Table.mapFirst, ih]

namespace Value

@[simp] theorem rename_null : rename ρ .null = .null := rfl

@[simp] theorem rename_nil : rename ρ .nil = .nil := rfl

@[simp] theorem rename_bool (b : Bool) : rename ρ (.bool b) = .bool b := rfl

@[simp] theorem rename_int (n : Int64) : rename ρ (.int n) = .int n := rfl

@[simp] theorem rename_str (t : Text) : rename ρ (.str t) = .str t := rfl

@[simp] theorem rename_sym (name : Text) : rename ρ (.sym name) = .sym name := rfl

@[simp] theorem rename_kw (name : Text) : rename ρ (.kw name) = .kw name := rfl

@[simp] theorem rename_cell (c : CellId) : rename ρ (.cell c) = .cell c := rfl

@[simp] theorem rename_list (xs : Array Value) :
    rename ρ (.list xs) = .list (xs.map (rename ρ)) := by
  obtain ⟨xs⟩ := xs
  rw [rename, renameFirst_eq, Table.mapFirst_of_le _ (Nat.le_refl _), List.map_toArray]

@[simp] theorem rename_vec (xs : Array Value) :
    rename ρ (.vec xs) = .vec (xs.map (rename ρ)) := by
  obtain ⟨xs⟩ := xs
  rw [rename, renameFirst_eq, Table.mapFirst_of_le _ (Nat.le_refl _), List.map_toArray]

@[simp] theorem rename_map (t : Table Key Value) :
    rename ρ (.map t) = .map (t.mapValues (rename ρ)) := by
  obtain ⟨order, ⟨vs⟩⟩ := t
  rw [rename, renameFirst_eq]
  rfl

@[simp] theorem rename_native (id : FunId) (op : Native) :
    rename ρ (.native id op) = .native id (op.rename ρ) := rfl

@[simp] theorem rename_closure (id : FunId) (params : Params) (body : Value)
    (scope : Option Scope) :
    rename ρ (.closure id params body scope) =
      .closure id params (body.rename ρ) (scope.map (Scope.rename ρ)) := by
  cases scope <;> rfl

end Value

@[simp] theorem Scope.rename_frame (id : FrameId) (given : Table Text Value)
    (parent : Option Scope) :
    rename ρ (.frame id given parent) =
      .frame (ρ id) (given.mapValues (Value.rename ρ)) (parent.map (rename ρ)) := by
  obtain ⟨order, ⟨vs⟩⟩ := given
  cases parent <;> rw [rename, Value.renameFirst_eq] <;> rfl

namespace Scope

variable (s : Scope)

@[simp] theorem id_rename : (s.rename ρ).id = ρ s.id := by
  cases s
  rw [rename_frame, id, id]

@[simp] theorem given_rename : (s.rename ρ).given = s.given.mapValues (Value.rename ρ) := by
  cases s
  rw [rename_frame, given, given]

end Scope

@[simp] theorem Native.name_rename (op : Native) : (op.rename ρ).name = op.name := by
  cases op <;> rfl

namespace Value

variable (v : Value)

@[simp] theorem kind?_rename : (v.rename ρ).kind? = v.kind? := by cases v <;> simp [kind?]

@[simp] theorem is_rename (k : Kind) : (v.rename ρ).is k = v.is k := by rw [is, is, kind?_rename]

@[simp] theorem isSequential_rename : (v.rename ρ).isSequential = v.isSequential := by
  simp [isSequential]

@[simp] theorem isFunction_rename : (v.rename ρ).isFunction = v.isFunction := by
  simp [isFunction]

@[simp] theorem isTruthy_rename : (v.rename ρ).isTruthy = v.isTruthy := by
  cases v <;> simp [isTruthy]

@[simp] theorem items?_rename : (v.rename ρ).items? = v.items?.map (·.map (rename ρ)) := by
  cases v <;> simp [items?]

@[simp] theorem ofValue?_rename : Key.ofValue? (v.rename ρ) = Key.ofValue? v := by
  cases v <;> simp [Key.ofValue?]

@[simp] theorem rename_toValue (k : Key) : k.toValue.rename ρ = k.toValue := by
  cases k <;> simp [Key.toValue]

@[simp] theorem rename_eq_null_iff : v.rename ρ = .null ↔ v = .null := by cases v <;> simp

@[simp] theorem rename_eq_nil_iff : v.rename ρ = .nil ↔ v = .nil := by cases v <;> simp

end Value

namespace Value

mutual

theorem equal_rename : (a b : Value) → equal (a.rename ρ) (b.rename ρ) = equal a b
  | .null, b | .nil, b | .bool _, b | .int _, b | .str _, b | .sym _, b | .kw _, b | .cell _, b
  | .native _ _, b | .closure _ _ _ _, b => by
    cases b <;> simp [equal]
  | .list ⟨xs⟩, b | .vec ⟨xs⟩, b => by
    cases b with
    | list ys | vec ys =>
      obtain ⟨ys⟩ := ys
      simp only [rename_list, rename_vec, List.map_toArray, equal]
      exact equalItems_rename xs ys
    | _ => simp [equal]
  | .map ⟨order, ⟨vs⟩⟩, b => by
    cases b with
    | map t =>
      have renamed : rename ρ (.map ⟨order, ⟨vs⟩⟩) =
          .map ⟨order, ⟨Table.mapFirst (rename ρ) order.size vs⟩⟩ := rename_map ρ _
      have size : (Table.mk order ⟨Table.mapFirst (rename ρ) order.size vs⟩).size =
          (Table.mk order ⟨vs⟩).size := Table.size_mapValues (f := rename ρ) ⟨order, ⟨vs⟩⟩
      have find : (t.mapValues (rename ρ)).find? = fun k => (t.find? k).map (rename ρ) :=
        funext t.find?_mapValues
      have bound := boundIn_rename t.find? order.toList vs
      rw [KeyOrder.length_toList] at bound
      rw [renamed, rename_map, equal, equal, size, Table.size_mapValues, find, bound]
    | _ => simp [equal]

theorem equalItems_rename : (xs ys : List Value) →
    equalItems (xs.map (rename ρ)) (ys.map (rename ρ)) = equalItems xs ys
  | [], ys => by cases ys <;> simp [equalItems]
  | x :: xs, [] => by simp [equalItems]
  | x :: xs, y :: ys => by
    simp only [List.map_cons, equalItems]
    rw [equal_rename x y, equalItems_rename xs ys]

theorem boundIn_rename (find? : Key → Option Value) : (ks : List Key) → (vs : List Value) →
    boundIn (fun k => (find? k).map (rename ρ)) ks (Table.mapFirst (rename ρ) ks.length vs) =
      boundIn find? ks vs
  | [], vs => by simp [boundIn]
  | k :: ks, [] => by simp [boundIn]
  | k :: ks, v :: vs => by
    simp only [List.length_cons, Table.mapFirst, boundIn]
    cases find? k with
    | none => rfl
    | some w =>
      simp only [Option.map_some]
      rw [equal_rename v w, boundIn_rename find? ks vs]

end

end Value

namespace Printer

variable (readable : Bool) (cell : CellPrinter)

mutual

theorem appendValue_rename : (v : Value) → (out : Text) →
    appendValue readable cell out (v.rename ρ) = appendValue readable cell out v
  | .null, _ | .nil, _ | .bool _, _ | .int _, _ => by simp
  | .str _, _ | .sym _, _ | .kw _, _ | .cell _, _ => by simp
  | .native _ _, _ | .closure _ _ _ _, _ => by simp [appendValue]
  | .list ⟨xs⟩, out => by
    simp only [Value.rename_list, List.map_toArray, appendValue, appendItems_rename (ascii " ") xs]
  | .vec ⟨xs⟩, out => by
    simp only [Value.rename_vec, List.map_toArray, appendValue, appendItems_rename (ascii " ") xs]
  | .map ⟨order, ⟨vs⟩⟩, out => by
    have renamed : Value.rename ρ (.map ⟨order, ⟨vs⟩⟩) =
        .map ⟨order, ⟨Table.mapFirst (Value.rename ρ) order.size vs⟩⟩ := Value.rename_map ρ _
    have entries := appendEntries_rename order.toList vs
    rw [KeyOrder.length_toList] at entries
    rw [renamed, appendValue, appendValue, entries]

theorem appendItems_rename (separator : Text) : (vs : List Value) → (out : Text) →
    appendItems readable cell separator out (vs.map (Value.rename ρ)) =
      appendItems readable cell separator out vs
  | [], _ => rfl
  | [v], out => by
    simp only [List.map_cons, List.map_nil, appendItems, appendValue_rename v]
  | v :: w :: vs, out => by
    have others (out : Text) := appendItems_rename separator (w :: vs) out
    rw [List.map_cons] at others
    simp only [List.map_cons, appendItems, appendValue_rename v, others]

theorem appendEntries_rename : (ks : List Key) → (vs : List Value) → (lead out : Text) →
    appendEntries readable cell lead out ks (Table.mapFirst (Value.rename ρ) ks.length vs) =
      appendEntries readable cell lead out ks vs
  | [], vs, _, _ => rfl
  | _ :: _, [], _, _ => rfl
  | k :: ks, v :: vs, lead, out => by
    simp only [List.length_cons, Table.mapFirst, appendEntries, appendValue_rename v,
      appendEntries_rename ks vs]

end

theorem content_rename (cells : Array Value) (c : CellId) :
    content (cells.map (Value.rename ρ)) c = (content cells c).rename ρ := by
  rw [content, content, Array.getElem?_map]
  cases cells[c.index]? <;> simp

theorem appendCell_rename (cells : Array Value) (depth : Nat) (entered : List CellId) :
    appendCell (cells.map (Value.rename ρ)) readable depth entered =
      appendCell cells readable depth entered := by
  induction depth generalizing entered with
  | zero => rfl
  | succ depth ih =>
    funext out c
    rw [appendCell, appendCell, ih, content_rename, appendValue_rename]

theorem room_rename (separator : Text) (vs : List Value) :
    room separator (vs.map (Value.rename ρ)) = room separator vs := by
  rw [room, room, List.foldl_map]
  congr 1
  funext n v
  cases v <;> simp

end Printer

theorem printValue_rename (cells : Array Value) (readable : Bool) (v : Value) :
    printValue (cells.map (Value.rename ρ)) readable (v.rename ρ) =
      printValue cells readable v := by
  rw [printValue, printValue, Array.size_map, Printer.appendCell_rename,
    Printer.appendValue_rename]

theorem printAll_rename (cells : Array Value) (readable : Bool) (separator : Text)
    (vs : List Value) :
    printAll (cells.map (Value.rename ρ)) readable separator (vs.map (Value.rename ρ)) =
      printAll cells readable separator vs := by
  rw [printAll, printAll, Array.size_map, Printer.appendCell_rename, Printer.room_rename,
    Printer.appendItems_rename]

def Error.rename : Error → Error
  | .thrown payload message => .thrown (payload.rename ρ) message
  | e => e

def Halt.rename : Halt → Halt
  | .error e => .error (e.rename ρ)
  | .outOfFuel => .outOfFuel

@[simp] theorem Value.mismatch_rename (who : Text) (wanted : Shape) (v : Value) :
    (v.rename ρ).mismatch who wanted = v.mismatch who wanted := by
  rw [mismatch, mismatch, kind?_rename]

@[simp] theorem Value.rename_mismatch (who : Text) (wanted : Shape) (v : Value) :
    (v.mismatch who wanted).rename ρ = v.mismatch who wanted := by
  rw [mismatch]
  split <;> rfl

section

variable {ρ} {p : Policy} {r : Region}

/-- A value that leads to no scope but such as are fixed is fixed. -/
theorem Value.Within.rename_eq (evals : ∀ s, p.evals s → s.rename ρ = s)
    (scopes : ∀ s, r.scope s → s.rename ρ = s) {v : Value} (h : v.Within p r) :
    v.rename ρ = v := by
  have array {xs : Array Value} (h : ∀ v ∈ xs, v.rename ρ = v) : xs.map (Value.rename ρ) = xs := by
    apply Array.toList_inj.mp
    rw [Array.toList_map]
    refine (List.map_congr_left fun v hv => ?_).trans (List.map_id _)
    exact h v (Array.mem_toList_iff.mp hv)
  induction h with
  | null | nil | bool | int | str | sym | kw | cell => simp
  | list _ ih => rw [rename_list, array ih]
  | vec _ ih => rw [rename_vec, array ih]
  | map _ ih => rw [rename_map, Table.mapValues_eq_self ih]
  | native hs =>
    rename_i id op
    cases op with
    | evalIn s => rw [rename_native, Native.rename, evals s (hs s rfl)]
    | _ => rw [rename_native, Native.rename]
  | closure _ hs _ ih =>
    rename_i scope _ _
    rw [rename_closure, ih]
    cases scope with
    | none => rfl
    | some s => rw [Option.map_some, scopes s (hs s rfl)]

end

end

end MiniLisp
