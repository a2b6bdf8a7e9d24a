import Mathlib.Data.List.Forall2
import MiniLisp.Native.Effect
import MiniLisp.Proofs.Parsing
import MiniLisp.Proofs.Safety

/-! A value that was read says no more than its dump does: its tables are those of their entries,
and its names are tokens. So what is read from its written form is the value that was written. -/
namespace MiniLisp

open Reader

/-- Data whose tables are made from their entries, and show nothing of how these came together. -/
inductive Canonical : Value → Prop where
  | nil : Canonical .nil
  | bool (b : Bool) : Canonical (.bool b)
  | int (n : Int64) : Canonical (.int n)
  | str (t : Text) : Canonical (.str t)
  | sym {name : Text} : SymbolToken name → Canonical (.sym name)
  | kw {name : Text} : KeywordName name → Canonical (.kw name)
  | list {vs : List Value} : (∀ v ∈ vs, Canonical v) → Canonical (.list vs.toArray)
  | vec {vs : List Value} : (∀ v ∈ vs, Canonical v) → Canonical (.vec vs.toArray)
  | map {es : Assoc Key Value} : es.keys.Nodup → (∀ e ∈ es, WrittenKey e.1) →
      (∀ e ∈ es, Canonical e.2) → Canonical (.map (.ofEntries es))

/-- Items are the same if they are so whenever their dumps are. -/
theorem eq_of_map_eq {α β : Type} {vs ws : List α} {f : α → β} (same : vs.map f = ws.map f)
    (h : ∀ v ∈ vs, ∀ w ∈ ws, f v = f w → v = w) : vs = ws := by
  induction vs generalizing ws with
  | nil => exact (List.map_eq_nil_iff.mp same.symm).symm
  | cons v vs ih =>
    cases ws with
    | nil => cases same
    | cons w ws =>
      obtain ⟨first, rest⟩ := List.cons.inj same
      rw [h v List.mem_cons_self w List.mem_cons_self first,
        ih rest fun v hv w hw => h v (List.mem_cons_of_mem _ hv) w (List.mem_cons_of_mem _ hw)]

namespace Canonical

theorem data {v : Value} (h : Canonical v) : Data v := by
  induction h with
  | nil => exact .nil
  | bool b => exact .bool b
  | int n => exact .int n
  | str t => exact .str t
  | sym name => exact .sym name
  | kw name => exact .kw name
  | list _ ih => exact .list fun v hv => ih v (List.mem_toArray.mp hv)
  | vec _ ih => exact .vec fun v hv => ih v (List.mem_toArray.mp hv)
  | map nodup written _ ih =>
    refine .map ?_ ?_
    · rwa [Table.entries_ofEntries nodup]
    · rwa [Table.entries_ofEntries nodup]

/-- What has a dump without parts is its dump. -/
theorem eq_of_leaf {v w : Value} (hw : Canonical w) (same : Datum.leaf v = w.datum) : v = w := by
  cases hw with
  | list _ | vec _ | map _ _ _ => simp [Value.datum] at same
  | _ => exact Datum.leaf.inj same

/-- The dump of a value that can be read tells the value. -/
theorem eq_of_datum {v w : Value} (hv : Canonical v) (hw : Canonical w)
    (same : v.datum = w.datum) : v = w := by
  induction hv generalizing w with
  | @list vs _ ih =>
    cases hw with
    | @list ws hws =>
      rw [Value.datum_list, Value.datum_list] at same
      rw [eq_of_map_eq (Datum.list.inj same) fun v hv w hw => ih v hv (hws w hw)]
    | _ => simp [Value.datum] at same
  | @vec vs _ ih =>
    cases hw with
    | @vec ws hws =>
      rw [Value.datum_vec, Value.datum_vec] at same
      rw [eq_of_map_eq (Datum.vec.inj same) fun v hv w hw => ih v hv (hws w hw)]
    | _ => simp [Value.datum] at same
  | @map es nodup _ _ ih =>
    cases hw with
    | @map es' nodup' _ hes' =>
      rw [Value.datum_map, Table.entries_ofEntries nodup, Value.datum_map,
        Table.entries_ofEntries nodup'] at same
      rw [eq_of_map_eq (Datum.map.inj same) fun e he e' he' both => ?_]
      obtain ⟨key, value⟩ := Prod.mk.inj both
      exact Prod.ext key (ih e he (hes' e' he') value)
    | _ => simp [Value.datum] at same
  | _ => exact hw.eq_of_leaf same

end Canonical

theorem symbolToken_of_not_numeric {name : Text} (nonempty : name.bytes ≠ [])
    (undivided : ∀ b ∈ name.bytes, Token.isDelimiter b = false)
    (noDeref : name.bytes.head? ≠ some Byte.atSign) (noKeyword : name.bytes.head? ≠ some Byte.colon)
    (notNumeric : ¬Numeric name.bytes) (notNil : name ≠ ascii "nil") (notTrue : name ≠ ascii "true")
    (notFalse : name ≠ ascii "false") : SymbolToken name := by
  refine ⟨nonempty, undivided, noDeref, noKeyword, notNil, notTrue, notFalse, ?_, ?_⟩
  · intro b rest bytes
    by_contra digit
    rw [Bool.not_eq_false] at digit
    exact notNumeric (bytes ▸ .digit rest .none digit)
  · intro sign b rest bytes signed
    by_contra digit
    rw [Bool.not_eq_false] at digit
    rcases signed with rfl | rfl
    · exact notNumeric (bytes ▸ .digit rest .plus digit)
    · exact notNumeric (bytes ▸ .digit rest .minus digit)

theorem canonical_of_denotes {bs : List UInt8} {v : Value} (nonempty : bs ≠ [])
    (undivided : ∀ b ∈ bs, Token.isDelimiter b = false) (noDeref : bs.head? ≠ some Byte.atSign)
    (h : Denotes bs v) : Canonical v := by
  cases h with
  | nil => exact .nil
  | true => exact .bool true
  | false => exact .bool false
  | @keyword name named =>
    refine .kw ⟨by rwa [Text.bytes_ofBytes], ?_⟩
    rw [Text.bytes_ofBytes]
    exact fun b hb => undivided b (List.mem_cons_of_mem _ hb)
  | integer _ _ _ _ => exact .int _
  | symbol noKeyword notNumeric notNil notTrue notFalse =>
    exact .sym (symbolToken_of_not_numeric nonempty undivided noDeref noKeyword notNumeric notNil
      notTrue notFalse)

theorem canonical_derefOf {v : Value} (h : Canonical v) : Canonical (derefOf v) := by
  have sign : Denotes (ascii "deref").bytes (.sym (ascii "deref")) := denotes_of_value (by rfl)
  have first : Canonical (.sym (ascii "deref")) :=
    canonical_of_denotes (by decide) (undivided_of_all (by decide)) (by decide) sign
  have items : ∀ u ∈ [.sym (ascii "deref"), v], Canonical u :=
    List.forall_mem_cons.mpr ⟨first, List.forall_mem_singleton.mpr h⟩
  exact .list items

theorem writtenKey_of_canonical {k : Key} (h : Canonical k.toValue) : WrittenKey k := by
  cases k with
  | string t => exact trivial
  | keyword name =>
    cases h with
    | kw named => exact named

theorem mem_alternating {es : List (Key × Value)} {e : Key × Value} (h : e ∈ es) :
    e.1.toValue ∈ alternating es ∧ e.2 ∈ alternating es :=
  ⟨List.mem_flatMap.mpr ⟨e, h, by simp⟩, List.mem_flatMap.mpr ⟨e, h, by simp⟩⟩

mutual

/-- Whatever bytes a form is made of, its value is written as a token, a string or a bracket of
such values. -/
theorem Form.canonical {t : List UInt8} {v : Value} {r : List UInt8} (h : Form t v r) :
    Canonical v := by
  match h with
  | .list forms => exact .list forms.canonical
  | .vec forms => exact .vec forms.canonical
  | @Form.map _ pairs entries _ forms gathers =>
    have inside := forms.canonical
    obtain rfl := gathers.eq_ofPairs
    refine .map (Assoc.nodup_ofPairs pairs) (fun e he => ?_) fun e he => ?_
    · exact writtenKey_of_canonical (inside _ (mem_alternating (Assoc.mem_ofPairs he)).1)
    · exact inside _ (mem_alternating (Assoc.mem_ofPairs he)).2
  | .deref _ form => exact canonical_derefOf form.canonical
  | .string _ => exact .str _
  | .token nonempty undivided noDeref _ denotes =>
    exact canonical_of_denotes nonempty undivided noDeref denotes

theorem Forms.canonical {t : List UInt8} {vs : List Value} {r : List UInt8} (h : Forms t vs r) :
    ∀ v ∈ vs, Canonical v := by
  match h with
  | .none _ =>
    intro v hv
    cases hv
  | .cons _ form forms =>
    have first := form.canonical
    have rest := forms.canonical
    exact List.forall_mem_cons.mpr ⟨first, rest⟩

end

theorem canonical_of_readAll {t : Text} {forms : List Value} (h : readAll t = .ok forms) :
    ∀ v ∈ forms, Canonical v := (readAll_iff.mp h).canonical

theorem sideBySide_spaced (xs : List (List UInt8)) :
    SideBySide (xs.map Text.ofBytes) (spaced xs) := by
  induction xs with
  | nil => exact .nil .nil
  | cons x xs ih =>
    cases xs with
    | nil => simpa [spaced] using SideBySide.cons (x := .ofBytes x) .nil .nil (by simp) (.nil .nil)
    | cons y ys =>
      have blank : Trivia [Byte.space] := .blank (by decide) .nil
      simpa [spaced] using SideBySide.cons (x := .ofBytes x) .nil blank (by simp) ih

/-- Values that can be read are written, and the text of them reads as these very values. -/
theorem printed_forms_are_read {forms : List Value} (h : ∀ v ∈ forms, Canonical v) :
    ∃ text, (∀ cells, printAll cells true (ascii " ") forms = .ok text) ∧
      readAll text = .ok forms := by
  obtain ⟨xs, ws, written, spelled, datums⟩ := items_reread fun v hv => (h v hv).data.rereads
  refine ⟨.ofBytes (spaced xs), fun cells => ?_, ?_⟩
  · obtain ⟨text, printed, bytes⟩ := appendItems_writes written
      (Printer.appendCell cells true (cells.size + 1) [])
      (.emptyFor (Printer.room (ascii " ") forms))
    rw [printAll, printed, ← Text.ofBytes_bytes text, bytes]
    simp
  · have leads : Leads (spaced xs) ⟨[], []⟩ ⟨[], ws.reverse ++ []⟩ := by
      refine leads_sideBySide (sideBySide_spaced xs) ?_ []
      rw [List.forall₂_map_left_iff]
      simpa using spelled
    rw [List.append_nil] at leads
    have read : readAll (.ofBytes (spaced xs)) = .ok ws := by
      rw [readAll_of_leads (by rwa [Text.bytes_ofBytes]), List.reverse_reverse]
    have same : ws = forms := eq_of_map_eq datums fun w hw v hv =>
      (canonical_of_readAll read w hw).eq_of_datum (h v hv)
    rw [read, same]

/-- These are all the values that can be read. -/
theorem canonical_iff_read {v : Value} : Canonical v ↔ ∃ t, readAll t = .ok [v] := by
  constructor
  · intro h
    obtain ⟨text, _, read⟩ := printed_forms_are_read (List.forall_mem_singleton.mpr h)
    exact ⟨text, read⟩
  · rintro ⟨t, read⟩
    exact canonical_of_readAll read v (List.mem_singleton_self v)

/-- What a text reads as is data, and its readable text reads as the same forms again, so it is
printed as the same text again. The text does not depend on any cells. -/
theorem printing_normalises {t : Text} {forms : List Value} (h : readAll t = .ok forms) :
    (∀ v ∈ forms, Data v) ∧
      ∃ text, (∀ m, (TextOp.prStr.run forms).exec m = (.ok (.str text), m)) ∧
        readAll text = .ok forms := by
  have canonical := canonical_of_readAll h
  obtain ⟨text, printed, read⟩ := printed_forms_are_read canonical
  refine ⟨fun v hv => (canonical v hv).data, text, fun m => ?_, read⟩
  have joined :
      (EvalM.ofExcept (printAll m.cells true (ascii " ") forms)).exec m = (.ok text, m) := by
    rw [printed]
    rfl
  rw [TextOp.run, EvalM.exec_bind_ok (EvalM.exec_get m)]
  exact EvalM.exec_bind_ok joined _

/-- Numbers with signs and zeros in front of them, a keyword with a second colon, a sign for
dereferencing and a map with a key that comes twice. -/
theorem odd_tokens_are_normalised :
    let t := ascii "+007 -0 ::a a@b @x \x7b:k 1 \"k\" 2 :k +-5\x7d"
    let forms : List Value := [.int 7, .int 0, .kw (ascii ":a"), .sym (ascii "a@b"),
      .list #[.sym (ascii "deref"), .sym (ascii "x")],
      .map (.ofPairs [(.keyword (ascii "k"), .sym (ascii "+-5")), (.string (ascii "k"), .int 2)])]
    readAll t = .ok forms ∧ (∀ v ∈ forms, Data v) ∧
      ∃ text, (∀ m, (TextOp.prStr.run forms).exec m = (.ok (.str text), m)) ∧
        readAll text = .ok forms := by
  intro t forms
  have read : readAll t = .ok forms := by rfl
  exact ⟨read, printing_normalises read⟩

end MiniLisp
