import Mathlib.Data.List.Forall2
import Mathlib.Data.List.TakeWhile
import MiniLisp.Proofs.Datum
import MiniLisp.Proofs.Reading

/-! The readable texts of data, put side by side with any trivia around them, are read as forms of
the same shapes. -/
namespace MiniLisp

open Reader

theorem isDigit_ofDigit {n : Nat} (h : n < 10) : Byte.isDigit (Byte.ofDigit n) = true :=
  (by decide : ∀ k : Fin 10, Byte.isDigit (Byte.ofDigit k) = true) ⟨n, h⟩

theorem digit_undivided {n : Nat} (h : n < 10) : Token.isDelimiter (Byte.ofDigit n) = false :=
  (by decide : ∀ k : Fin 10, Token.isDelimiter (Byte.ofDigit k) = false) ⟨n, h⟩

theorem digit_unlike {n : Nat} (h : n < 10) : Byte.ofDigit n ≠ Byte.atSign ∧
    Byte.ofDigit n ≠ Byte.colon ∧ Token.isSign (Byte.ofDigit n) = false :=
  (by decide : ∀ k : Fin 10, Byte.ofDigit k ≠ Byte.atSign ∧ Byte.ofDigit k ≠ Byte.colon ∧
    Token.isSign (Byte.ofDigit k) = false) ⟨n, h⟩

theorem mem_digits {n : Nat} {b : UInt8} (h : b ∈ Decimal.digits n) :
    ∃ d < 10, b = Byte.ofDigit d := by
  rw [Decimal.digits] at h
  split at h
  · rename_i small
    exact ⟨n, small, List.mem_singleton.mp h⟩
  · rcases List.mem_append.mp h with h | h
    · exact mem_digits h
    · exact ⟨n % 10, by omega, List.mem_singleton.mp h⟩
termination_by n
decreasing_by omega

theorem digits_ne_nil (n : Nat) : Decimal.digits n ≠ [] := by
  rw [Decimal.digits]
  split
  · simp
  · simp

theorem digits_all (n : Nat) : (Decimal.digits n).all Byte.isDigit = true := by
  rw [List.all_eq_true]
  intro b hb
  obtain ⟨d, hd, rfl⟩ := mem_digits hb
  exact isDigit_ofDigit hd

/-- A sign is no digit, so the digits of a token stand where its sign ends. -/
theorem integer_of_unsigned {token ds : List UInt8} (n : Int64)
    (hu : Token.unsigned token = ds) (hd : ds.all Byte.isDigit = true)
    (hw : Token.word? (token.head? = some Byte.minus) ds = some n) :
    Token.integer token = .ok n := by
  have digits : ds.takeWhile Byte.isDigit = ds :=
    List.takeWhile_eq_self_iff.mpr (List.all_eq_true.mp hd)
  simp only [Token.integer, hu, digits, hw, hd, if_true]

theorem word?_digits (negative : Bool) (n : Nat) :
    Token.word? negative (Decimal.digits n) =
      Integer.ofInt? (if negative then -(n : Int) else n) := by
  rw [Token.word?_eq, Decimal.toNat_digits]

theorem ofInt?_toInt (n : Int64) : Integer.ofInt? n.toInt = some n := by
  have low := Int64.le_toInt n
  have high := Int64.toInt_lt n
  rw [Integer.ofInt?, if_pos ⟨by simpa using low, by omega⟩, Int64.ofInt_toInt]

/-- The text of a word is a numeric token that denotes the word. -/
theorem value_ofInt (n : Int64) : Token.value (Text.ofInt n.toInt).bytes = .ok (.int n) := by
  obtain ⟨b, ds, hds⟩ := List.exists_cons_of_ne_nil (digits_ne_nil n.toInt.natAbs)
  have hall := digits_all n.toInt.natAbs
  have hb : b ∈ Decimal.digits n.toInt.natAbs := hds ▸ List.mem_cons_self
  have hbd : Byte.isDigit b = true := List.all_eq_true.mp hall b hb
  obtain ⟨d, hd, rfl⟩ := mem_digits hb
  obtain ⟨-, noColon, noSign⟩ := digit_unlike hd
  by_cases negative : n.toInt < 0
  · have hw : Token.word? true (Decimal.digits n.toInt.natAbs) = some n := by
      rw [word?_digits, if_pos rfl, show -(n.toInt.natAbs : Int) = n.toInt by omega,
        ofInt?_toInt]
    have hn : Token.integer (Byte.minus :: Decimal.digits n.toInt.natAbs) = .ok n :=
      integer_of_unsigned n (by rfl) hall (by simpa using hw)
    have numeric : Token.isNumeric (Byte.minus :: Decimal.digits n.toInt.natAbs) = true := by
      rw [hds]
      simp [Token.isNumeric, hbd, Token.isSign]
    rw [Text.ofInt, if_pos negative, Text.bytes_ofBytes, Token.value,
      List.head?_cons, if_neg (by decide), numeric, if_pos rfl, hn]
    rfl
  · have hw : Token.word? false (Decimal.digits n.toInt.natAbs) = some n := by
      rw [word?_digits, if_neg (by simp), show (n.toInt.natAbs : Int) = n.toInt by omega,
        ofInt?_toInt]
    have notMinus : Byte.ofDigit d ≠ Byte.minus := by
      intro h
      rw [h] at noSign
      cases noSign
    have hn : Token.integer (Decimal.digits n.toInt.natAbs) = .ok n := by
      refine integer_of_unsigned n ?_ hall ?_
      · rw [hds, Token.unsigned, if_neg (by simp [noSign])]
      · rw [hds] at hw ⊢
        simpa [notMinus] using hw
    have numeric : Token.isNumeric (Decimal.digits n.toInt.natAbs) = true := by
      rw [hds]
      cases ds <;> simp [Token.isNumeric, hbd]
    rw [Text.ofInt, if_neg negative, Text.ofNat, Text.bytes_ofBytes, Token.value,
      if_neg (by rw [hds]; simp [noColon]), numeric, if_pos rfl, hn]
    rfl

theorem spells_int (n : Int64) : Spells (Text.ofInt n.toInt).bytes (.int n) := by
  refine spells_token ?_ ?_ ?_ (value_ofInt n)
  · rw [Text.ofInt]
    split
    · simp
    · simpa [Text.ofNat] using digits_ne_nil _
  · intro b hb
    rw [Text.ofInt] at hb
    split at hb
    · rw [Text.bytes_ofBytes, List.mem_cons] at hb
      rcases hb with rfl | hb
      · decide
      · obtain ⟨d, hd, rfl⟩ := mem_digits hb
        exact digit_undivided hd
    · rw [Text.ofNat, Text.bytes_ofBytes] at hb
      obtain ⟨d, hd, rfl⟩ := mem_digits hb
      exact digit_undivided hd
  · rw [Text.ofInt]
    split
    · rw [Text.bytes_ofBytes, List.head?_cons]
      decide
    · obtain ⟨b, ds, hds⟩ := List.exists_cons_of_ne_nil (digits_ne_nil n.toInt.natAbs)
      obtain ⟨d, hd, rfl⟩ := mem_digits (hds ▸ List.mem_cons_self)
      rw [Text.ofNat, Text.bytes_ofBytes, hds]
      simpa using (digit_unlike hd).1

theorem SymbolToken.not_numeric {name : Text} (h : SymbolToken name) :
    Token.isNumeric name.bytes = false := by
  rcases hn : name.bytes with - | ⟨b, - | ⟨c, rest⟩⟩
  · rfl
  · exact h.noDigit b [] hn
  · have hb := h.noDigit b (c :: rest) hn
    have hc := h.noSignedDigit b c rest hn
    by_cases sign : b = Byte.plus ∨ b = Byte.minus
    · simp [Token.isNumeric, hb, hc sign]
    · simp [Token.isNumeric, hb, Token.isSign, sign]

theorem SymbolToken.spells {name : Text} (h : SymbolToken name) :
    Spells name.bytes (.sym name) := by
  refine spells_token h.nonempty h.undivided h.noDeref ?_
  have symbol : Token.constant? name = none := by
    rw [Token.constant?, if_neg h.notNil, if_neg h.notTrue, if_neg h.notFalse]
  simp only [Token.value, if_neg h.noKeyword, h.not_numeric, Text.ofBytes_bytes, symbol]
  rfl

theorem KeywordName.spells {name : Text} (h : KeywordName name) :
    Spells (Byte.colon :: name.bytes) (.kw name) := by
  refine spells_token (by simp) ?_ (by rw [List.head?_cons]; decide) ?_
  · intro b hb
    rcases List.mem_cons.mp hb with rfl | hb
    · decide
    · exact h.undivided b hb
  · rw [Token.value, List.head?_cons, if_pos rfl, List.tail_cons, if_neg h.nonempty,
      Text.ofBytes_bytes]

def Puts (readable : Bool) (cell : Printer.CellPrinter) (v : Value) (bs : List UInt8) : Prop :=
  ∀ out, ∃ t, Printer.appendValue readable cell out v = .ok t ∧ t.bytes = out.bytes ++ bs

def Writes (v : Value) (bs : List UInt8) : Prop :=
  ∀ cell out, ∃ t, Printer.appendValue true cell out v = .ok t ∧ t.bytes = out.bytes ++ bs

/-- The value has a written form, which spells a value of its shape. -/
def Rereads (v : Value) : Prop := ∃ bs w, Writes v bs ∧ Spells bs w ∧ w.datum = v.datum

theorem Writes.of_eq {v : Value} {bs : List UInt8} (f : Text → Text)
    (h : ∀ cell out, Printer.appendValue true cell out v = .ok (f out))
    (hf : ∀ out, (f out).bytes = out.bytes ++ bs) : Writes v bs :=
  fun cell out => ⟨f out, h cell out, hf out⟩

theorem undivided_of_all {bs : List UInt8} (h : bs.all (!Token.isDelimiter ·) = true) :
    ∀ b ∈ bs, Token.isDelimiter b = false := by
  simpa using h

theorem rereads_constant {v : Value} (word : Text) (nonempty : word.bytes ≠ [])
    (undivided : ∀ b ∈ word.bytes, Token.isDelimiter b = false)
    (noDeref : word.bytes.head? ≠ some Byte.atSign) (hv : Token.value word.bytes = .ok v)
    (h : ∀ cell out, Printer.appendValue true cell out v = .ok (out ++ word)) : Rereads v :=
  ⟨word.bytes, v, Writes.of_eq (· ++ word) h fun out => Text.bytes_append out word,
    spells_token nonempty undivided noDeref hv, rfl⟩

theorem rereads_bool (b : Bool) : Rereads (.bool b) := by
  cases b
  · exact rereads_constant (ascii "false") (by decide) (undivided_of_all (by decide)) (by decide)
      (by rfl) fun _ _ => rfl
  · exact rereads_constant (ascii "true") (by decide) (undivided_of_all (by decide)) (by decide)
      (by rfl) fun _ _ => rfl

variable {readable : Bool}

section

variable {cell : Printer.CellPrinter}

theorem appendItems_cons (separator out : Text) (v : Value) {vs : List Value} (more : vs ≠ []) :
    Printer.appendItems readable cell separator out (v :: vs) =
      Printer.appendValue readable cell out v >>= fun t =>
        Printer.appendItems readable cell separator (t ++ separator) vs := by
  rw [Printer.appendItems]
  exact more

/-- The text of several values, given the text of each. -/
theorem appendItems_puts {vs : List Value} {xs : List (List UInt8)}
    (h : List.Forall₂ (Puts readable cell) vs xs) (out : Text) :
    ∃ t, Printer.appendItems readable cell (ascii " ") out vs = .ok t ∧
      t.bytes = out.bytes ++ spaced xs := by
  induction h generalizing out with
  | nil => exact ⟨out, rfl, (List.append_nil _).symm⟩
  | @cons v x vs xs hv hvs ih =>
    obtain ⟨t, ht, hb⟩ := hv out
    cases hvs with
    | nil =>
      refine ⟨t, ?_, by simpa [spaced] using hb⟩
      rw [Printer.appendItems, ht]
    | @cons v' x' vs xs hv' hvs =>
      obtain ⟨u, hu, hc⟩ := ih (t ++ ascii " ")
      refine ⟨u, ?_, ?_⟩
      · rw [appendItems_cons _ _ _ (List.cons_ne_nil v' vs), ht]
        exact hu
      · rw [hc, Text.bytes_append, hb]
        simp [spaced]
        rfl

/-- A bracketed value, given what its brackets enclose. -/
theorem Puts.bracketed {v : Value} {bs : List UInt8} (b : Bracket)
    {inner : Text → Except Error Text}
    (hv : ∀ out, Printer.appendValue readable cell out v =
      (inner (out.push b.opener)).bind fun t => .ok (t.push b.closer))
    (hi : ∀ out, ∃ t, inner out = .ok t ∧ t.bytes = out.bytes ++ bs) :
    Puts readable cell v (b.opener :: (bs ++ [b.closer])) := by
  intro out
  obtain ⟨t, ht, hb⟩ := hi (out.push b.opener)
  refine ⟨t.push b.closer, by rw [hv, ht]; rfl, ?_⟩
  rw [Text.bytes_push, hb, Text.bytes_push]
  simp

end

theorem appendItems_writes {vs : List Value} {xs : List (List UInt8)}
    (h : List.Forall₂ Writes vs xs) (cell : Printer.CellPrinter) (out : Text) :
    ∃ t, Printer.appendItems true cell (ascii " ") out vs = .ok t ∧
      t.bytes = out.bytes ++ spaced xs := by
  have each : List.Forall₂ (Puts true cell) vs xs := h.imp fun _ _ hw => hw cell
  exact appendItems_puts each out

theorem Writes.bracketed {v : Value} {bs : List UInt8} (b : Bracket)
    (inner : Printer.CellPrinter → Text → Except Error Text)
    (hv : ∀ cell out, Printer.appendValue true cell out v =
      (inner cell (out.push b.opener)).bind fun t => .ok (t.push b.closer))
    (hi : ∀ cell out, ∃ t, inner cell out = .ok t ∧ t.bytes = out.bytes ++ bs) :
    Writes v (b.opener :: (bs ++ [b.closer])) :=
  fun cell => Puts.bracketed b (hv cell) (hi cell)

theorem items_reread {vs : List Value} (h : ∀ v ∈ vs, Rereads v) :
    ∃ xs ws, List.Forall₂ Writes vs xs ∧ List.Forall₂ Spells xs ws ∧
      ws.map Value.datum = vs.map Value.datum := by
  induction vs with
  | nil => exact ⟨[], [], .nil, .nil, rfl⟩
  | cons v vs ih =>
    obtain ⟨x, w, hx, hw, hd⟩ := h v List.mem_cons_self
    obtain ⟨xs, ws, hxs, hws, hds⟩ := ih fun u hu => h u (List.mem_cons_of_mem v hu)
    exact ⟨x :: xs, w :: ws, .cons hx hxs, .cons hw hws, by rw [List.map_cons, hd, hds]; rfl⟩

theorem rereads_list {vs : List Value} (h : ∀ v ∈ vs, Rereads v) :
    Rereads (.list vs.toArray) := by
  obtain ⟨xs, ws, hxs, hws, hd⟩ := items_reread h
  refine ⟨_, .list ws.toArray, Writes.bracketed .round _ (fun _ _ => rfl)
    (appendItems_writes hxs), spells_bracket hws rfl, ?_⟩
  rw [Value.datum_list, hd, Value.datum_list]

theorem rereads_vec {vs : List Value} (h : ∀ v ∈ vs, Rereads v) :
    Rereads (.vec vs.toArray) := by
  obtain ⟨xs, ws, hxs, hws, hd⟩ := items_reread h
  refine ⟨_, .vec ws.toArray, Writes.bracketed .square _ (fun _ _ => rfl)
    (appendItems_writes hxs), spells_bracket hws rfl, ?_⟩
  rw [Value.datum_vec, hd, Value.datum_vec]

def keyBytes : Key → List UInt8
  | .string t => Byte.quote :: (t.bytes.flatMap Printer.escaped ++ [Byte.quote])
  | .keyword name => Byte.colon :: name.bytes

theorem bytes_appendKey (out : Text) (k : Key) :
    (Printer.appendKey true out k).bytes = out.bytes ++ keyBytes k := by
  cases k with
  | string t => exact Printer.bytes_appendQuoted out t
  | keyword name =>
    rw [Printer.appendKey, Printer.appendKeyword, Text.bytes_append, Text.bytes_push, keyBytes]
    simp

theorem WrittenKey.spells {k : Key} (h : WrittenKey k) : Spells (keyBytes k) k.toValue := by
  cases k with
  | string t => exact spells_string t
  | keyword name => exact KeywordName.spells h

def alternating (es : List (Key × Value)) : List Value := es.flatMap fun e => [e.1.toValue, e.2]

theorem length_alternating (es : List (Key × Value)) : (alternating es).length = 2 * es.length := by
  induction es with
  | nil => rfl
  | cons e es ih =>
    rw [alternating, List.flatMap_cons, List.length_append, ← alternating, ih]
    simp
    omega

theorem even_alternating (es : List (Key × Value)) : (alternating es).length % 2 = 0 := by
  rw [length_alternating]
  omega

theorem pairUp_alternating {ε : Type} {key : Value → Except ε Key}
    (accepts : ∀ k : Key, key k.toValue = .ok k) (es done : List (Key × Value)) :
    Value.pairUp key (alternating es) done = .ok (done.reverse ++ es) := by
  induction es generalizing done with
  | nil => simp [alternating, Value.pairUp]
  | cons e es ih =>
    obtain ⟨k, v⟩ := e
    show Value.pairUp key (k.toValue :: v :: alternating es) done = _
    rw [Value.pairUp, accepts]
    show Value.pairUp key (alternating es) ((k, v) :: done) = _
    rw [ih, List.reverse_cons, List.append_assoc]
    rfl

theorem mapKey_toValue (k : Key) : mapKey k.toValue = .ok k := by
  cases k <;> rfl

theorem enclosed_alternating (es : List (Key × Value)) :
    enclosed .curly (alternating es) = .ok (.map (.ofPairs es)) := by
  rw [enclosed, if_pos (even_alternating es), pairUp_alternating mapKey_toValue]
  rfl

theorem appendValue_key (cell : Printer.CellPrinter) (out : Text) (k : Key) :
    Printer.appendValue readable cell out k.toValue = .ok (Printer.appendKey readable out k) := by
  cases k with
  | string t => rfl
  | keyword name => rfl

theorem appendEntries_of_empty (cell : Printer.CellPrinter) (lead out : Text) {ks : List Key}
    {vs : List Value} (empty : ks.zip vs = []) :
    Printer.appendEntries readable cell lead out ks vs = .ok out := by
  rcases List.zip_eq_nil_iff.mp empty with rfl | rfl
  · cases vs <;> rfl
  · cases ks <;> rfl

/-- The entries of a map are written like items that are keys and values in turn. -/
theorem appendEntries_eq (cell : Printer.CellPrinter) (lead out : Text) {ks : List Key}
    {vs : List Value} (nonempty : ks.zip vs ≠ []) :
    Printer.appendEntries readable cell lead out ks vs =
      Printer.appendItems readable cell (ascii " ") (out ++ lead) (alternating (ks.zip vs)) := by
  induction ks generalizing vs lead out with
  | nil => exact absurd rfl nonempty
  | cons k ks ih =>
    cases vs with
    | nil => exact absurd rfl nonempty
    | cons v vs =>
      have space (t : Text) : t.push Byte.space = t ++ ascii " " :=
        Text.bytes_inj (by rw [Text.bytes_push, Text.bytes_append]; rfl)
      have items : alternating ((k :: ks).zip (v :: vs)) =
          k.toValue :: v :: alternating (ks.zip vs) := rfl
      rw [Printer.appendEntries, items, appendItems_cons _ _ _ (List.cons_ne_nil _ _),
        appendValue_key, space]
      show _ = Printer.appendItems readable cell (ascii " ") _ _
      by_cases last : ks.zip vs = []
      · rw [last]
        simp only [appendEntries_of_empty cell _ _ last]
        exact bind_pure _
      · have more : alternating (ks.zip vs) ≠ [] := by
          obtain ⟨e, es, zipped⟩ := List.exists_cons_of_ne_nil last
          rw [zipped]
          exact List.cons_ne_nil _ _
        rw [appendItems_cons _ _ _ more]
        simp only [ih (ascii " ") _ last]

theorem appendValue_map (t : Table Key Value) (cell : Printer.CellPrinter) (out : Text) :
    Printer.appendValue readable cell out (.map t) =
      (Printer.appendItems readable cell (ascii " ") (out.push Bracket.curly.opener)
        (alternating t.entries)).bind fun u => .ok (u.push Bracket.curly.closer) := by
  obtain ⟨order, ⟨vs⟩⟩ := t
  rw [Printer.appendValue]
  by_cases empty : order.toList.zip vs = []
  · rw [appendEntries_of_empty cell _ _ empty, Table.entries, empty]
    rfl
  · rw [appendEntries_eq cell _ _ empty, ByteArray.append_empty]
    rfl

theorem writes_key (k : Key) : Writes k.toValue (keyBytes k) :=
  fun cell out => ⟨_, appendValue_key cell out k, bytes_appendKey out k⟩

/-- The entries of a map are written and read back as its keys and values in turn. -/
theorem entries_reread {es : List (Key × Value)} (hk : ∀ e ∈ es, WrittenKey e.1)
    (hv : ∀ e ∈ es, Rereads e.2) :
    ∃ xs fs, List.Forall₂ Writes (alternating es) xs ∧ List.Forall₂ Spells xs (alternating fs) ∧
      fs.map (fun e => (e.1, e.2.datum)) = es.map fun e => (e.1, e.2.datum) := by
  induction es with
  | nil => exact ⟨[], [], .nil, .nil, rfl⟩
  | cons e es ih =>
    rw [List.forall_mem_cons] at hk hv
    obtain ⟨xs, fs, writes, spells, hd⟩ := ih hk.2 hv.2
    obtain ⟨x, w, hx, hw, hdw⟩ := hv.1
    refine ⟨keyBytes e.1 :: x :: xs, (e.1, w) :: fs, .cons (writes_key e.1) (.cons hx writes),
      .cons (WrittenKey.spells hk.1) (.cons hw spells), ?_⟩
    rw [List.map_cons, hd, hdw]
    rfl

theorem rereads_map {t : Table Key Value} (hk : ∀ e ∈ t.entries, WrittenKey e.1)
    (hv : ∀ e ∈ t.entries, Rereads e.2) : Rereads (.map t) := by
  obtain ⟨xs, fs, writes, spells, hd⟩ := entries_reread hk hv
  have keys : Assoc.keys fs = t.entries.keys := by
    have := congrArg (List.map Prod.fst) hd
    simpa [Assoc.keys, Function.comp_def] using this
  have nodup : (Assoc.keys fs).Nodup := keys ▸ t.nodup_keys_entries
  refine ⟨_, .map (.ofPairs fs), Writes.bracketed .curly _ (appendValue_map t)
    (appendItems_writes writes), spells_bracket spells (enclosed_alternating fs), ?_⟩
  rw [Value.datum_map, Table.entries_ofPairs, Assoc.ofPairs_of_nodup nodup, Value.datum_map, hd]

theorem Data.rereads {v : Value} (h : Data v) : Rereads v := by
  induction h with
  | nil =>
    exact rereads_constant (ascii "nil") (by decide) (undivided_of_all (by decide)) (by decide)
      (by rfl) fun _ _ => rfl
  | bool b => exact rereads_bool b
  | int n =>
    exact ⟨_, _, Writes.of_eq _ (fun _ _ => rfl) fun out => Text.bytes_append out _,
      spells_int n, rfl⟩
  | str t =>
    exact ⟨_, _, Writes.of_eq _ (fun _ _ => rfl) fun out => Printer.bytes_appendQuoted out t,
      spells_string t, rfl⟩
  | @sym name h =>
    exact ⟨_, _, Writes.of_eq _ (fun _ _ => rfl) fun out => Text.bytes_append out name,
      h.spells, rfl⟩
  | @kw name h =>
    exact ⟨_, _, Writes.of_eq _ (fun _ _ => rfl) fun out => bytes_appendKey out (.keyword name),
      h.spells, rfl⟩
  | @list xs _ ih => exact rereads_list fun v hv => ih v (Array.mem_toList_iff.mp hv)
  | @vec xs _ ih => exact rereads_vec fun v hv => ih v (Array.mem_toList_iff.mp hv)
  | map hk _ ih => exact rereads_map hk ih

/-- Texts in order with trivia around them, some of it between any two. -/
inductive SideBySide : List Text → List UInt8 → Prop where
  | nil {trail : List UInt8} : Trivia trail → SideBySide [] trail
  | cons {x : Text} {xs : List Text} {lead gap rest : List UInt8} : Trivia lead → Trivia gap →
      (xs ≠ [] → gap ≠ []) → SideBySide xs rest →
      SideBySide (x :: xs) (lead ++ x.bytes ++ gap ++ rest)

theorem leads_sideBySide {ts : List Text} {bs : List UInt8} (h : SideBySide ts bs)
    {vs : List Value} (hs : List.Forall₂ (fun t v => Spells (Text.bytes t) v) ts vs)
    (forms : List Value) : Leads bs ⟨[], forms⟩ ⟨[], vs.reverse ++ forms⟩ := by
  induction h generalizing vs forms with
  | nil ht =>
    cases hs
    exact leads_trivia ht _
  | @cons x xs lead gap rest hlead hgap hsep hrest ih =>
    cases hs with
    | @cons _ v _ vs hx hxs =>
      have delimited : Delimited (gap ++ rest) := by
        refine (trivia_delimited hgap).append fun none => ?_
        cases hrest with
        | nil ht => exact trivia_delimited ht
        | cons _ _ _ _ => exact absurd none (hsep (by simp))
      have behind : Leads (gap ++ rest) ⟨[], v :: forms⟩ ⟨[], vs.reverse ++ (v :: forms)⟩ :=
        Leads.after_trivia hgap (ih hxs (v :: forms))
      rw [List.append_assoc, List.append_assoc, List.reverse_cons, List.append_assoc]
      exact Leads.after_trivia hlead ((hx ⟨[], forms⟩).trans delimited behind)

/-- Where reading leads at the end of a text is what the text means. -/
theorem readAll_of_leads {t : Text} {forms : List Value}
    (h : Leads t.bytes ⟨[], []⟩ ⟨[], forms⟩) : readAll t = .ok forms.reverse := by
  obtain ⟨s, q, hs, he⟩ := h Position.start
  have finished : s.finish = .ok forms.reverse := by
    obtain ⟨position, mode, stack, done⟩ := s
    cases mode with
    | string bytes => cases he
    | escape bytes => cases he
    | between => simp only [State.finish, he]; rfl
    | comment => cases he
    | token start bytes =>
      simp only [State.finish, he]
      rfl
  have read : State.start.readOn t = .ok s := hs
  rw [readAll, read]
  exact finished

theorem print_data (cells : Array Value) {vs : List Value} (h : ∀ v ∈ vs, Data v) :
    ∃ ts ws, vs.mapM (printValue cells true) = .ok ts ∧
      List.Forall₂ (fun t w => Spells (Text.bytes t) w) ts ws ∧
      ws.map Value.datum = vs.map Value.datum := by
  induction vs with
  | nil => exact ⟨[], [], rfl, .nil, rfl⟩
  | cons v vs ih =>
    obtain ⟨ts, ws, hts, hs, hd⟩ := ih fun u hu => h u (List.mem_cons_of_mem v hu)
    obtain ⟨bs, w, hw, hb, hdw⟩ := (h v List.mem_cons_self).rereads
    obtain ⟨t, ht, hbytes⟩ := hw (Printer.appendCell cells true (cells.size + 1) []) .empty
    rw [Text.bytes_empty, List.nil_append] at hbytes
    refine ⟨t :: ts, w :: ws, ?_, .cons (hbytes ▸ hb) hs, by rw [List.map_cons, hdw, hd]; rfl⟩
    have printed : printValue cells true v = .ok t := ht
    rw [List.mapM_cons, printed, hts]
    rfl

/-- Data can be written, and their texts, side by side with any trivia around them, read as
forms of the same shapes, neither more nor fewer. -/
theorem written_data_reads_back (cells : Array Value) (vs : List Value) (h : ∀ v ∈ vs, Data v) :
    ∃ ts, vs.mapM (printValue cells true) = .ok ts ∧
      ∀ text, SideBySide ts (Text.bytes text) →
        ∃ forms, readAll text = .ok forms ∧ forms.map Value.datum = vs.map Value.datum := by
  obtain ⟨ts, ws, hts, hs, hd⟩ := print_data cells h
  refine ⟨ts, hts, fun text ht => ⟨ws, ?_, hd⟩⟩
  have leads := leads_sideBySide ht hs []
  rw [List.append_nil] at leads
  rw [readAll_of_leads leads, List.reverse_reverse]

/-- A vector of a keyword and a string that needs escapes, next to the least integer. -/
theorem nested_data_reads_back :
    let vs : List Value := [.vec #[.kw (ascii "k"), .str (.ofBytes [34, 0, 10, 255])],
      .int (-9223372036854775808)]
    (∀ v ∈ vs, Data v) ∧
      ∃ ts, vs.mapM (printValue #[] true) = .ok ts ∧
        ∀ text, SideBySide ts (Text.bytes text) →
          ∃ forms, readAll text = .ok forms ∧ forms.map Value.datum = vs.map Value.datum := by
  intro vs
  have keyword : Data (.kw (ascii "k")) := .kw ⟨by decide, undivided_of_all (by decide)⟩
  have data : ∀ v ∈ vs, Data v := by
    intro v hv
    rcases List.mem_cons.mp hv with rfl | hv
    · refine .vec fun u hu => ?_
      rcases List.mem_cons.mp (Array.mem_toList_iff.mpr hu) with rfl | hu
      · exact keyword
      · rw [List.mem_singleton.mp hu]
        exact .str _
    · rw [List.mem_singleton.mp hv]
      exact .int _
  exact ⟨data, written_data_reads_back #[] vs data⟩

end MiniLisp
