import Mathlib.Data.List.Induction
import MiniLisp.Proofs.RoundTrip

/-! What a text may begin with, what that stands for and what is left of the text behind it. Only a
token depends on what is behind it, since it has to go on as far as it can. -/
namespace MiniLisp

/-- Trivia, the last of which may be a comment that the text ends in. -/
inductive Gap : List UInt8 → List UInt8 → Prop where
  | trivia {t : List UInt8} (r : List UInt8) : Trivia t → Gap (t ++ r) r
  | unended {t c : List UInt8} : Trivia t → Byte.newline ∉ c → Gap (t ++ Byte.semicolon :: c) []

namespace Gap

theorem refl (r : List UInt8) : Gap r r := .trivia r .nil

theorem blank {b : UInt8} {t r : List UInt8} (hb : Token.isBlank b = true) (h : Gap t r) :
    Gap (b :: t) r := by
  cases h with
  | trivia r h => exact .trivia r (.blank hb h)
  | unended h hc => exact .unended (.blank hb h) hc

theorem comment {c t r : List UInt8} (hc : Byte.newline ∉ c) (h : Gap t r) :
    Gap (Byte.semicolon :: c ++ Byte.newline :: t) r := by
  cases h with
  | @trivia t r h => simpa using Gap.trivia r (.comment hc h)
  | @unended t d h hd => simpa using Gap.unended (.comment hc h) hd

theorem length_le {t r : List UInt8} (h : Gap t r) : r.length ≤ t.length := by
  cases h with
  | trivia r _ => simp
  | unended _ _ => simp

end Gap

inductive Escape : UInt8 → UInt8 → Prop where
  | newline : Escape 110 Byte.newline
  | tab : Escape 116 Byte.tab
  | carriageReturn : Escape 114 Byte.carriageReturn
  | quote : Escape Byte.quote Byte.quote
  | backslash : Escape Byte.backslash Byte.backslash

inductive Chars : List UInt8 → List UInt8 → List UInt8 → Prop where
  | close (r : List UInt8) : Chars (Byte.quote :: r) [] r
  | plain {b : UInt8} {t cs r : List UInt8} : b ≠ Byte.quote → b ≠ Byte.backslash →
      Chars t cs r → Chars (b :: t) (b :: cs) r
  | escaped {b c : UInt8} {t cs r : List UInt8} : Escape b c → Chars t cs r →
      Chars (Byte.backslash :: b :: t) (c :: cs) r

theorem unescape?_iff {b c : UInt8} : Reader.unescape? b = some c ↔ Escape b c := by
  constructor
  · intro h
    unfold Reader.unescape? at h
    split at h
    · rename_i hb
      cases h
      exact hb ▸ .newline
    · split at h
      · rename_i hb
        cases h
        exact hb ▸ .tab
      · split at h
        · rename_i hb
          cases h
          exact hb ▸ .carriageReturn
        · split at h
          · rename_i hb
            cases h
            rcases hb with rfl | rfl
            · exact .quote
            · exact .backslash
          · cases h
  · intro h
    cases h <;> rfl

inductive Sign : Bool → List UInt8 → Prop where
  | none : Sign false []
  | plus : Sign false [Byte.plus]
  | minus : Sign true [Byte.minus]

inductive Numeric : List UInt8 → Prop where
  | digit {negative : Bool} {sign : List UInt8} {b : UInt8} (rest : List UInt8) :
      Sign negative sign → Byte.isDigit b = true → Numeric (sign ++ b :: rest)

/-- What a token stands for. A keyword needs a name, and what begins like a number has to be one
that a word holds. -/
inductive Denotes : List UInt8 → Value → Prop where
  | nil : Denotes (ascii "nil").bytes .nil
  | true : Denotes (ascii "true").bytes (.bool true)
  | false : Denotes (ascii "false").bytes (.bool false)
  | keyword {name : List UInt8} : name ≠ [] → Denotes (Byte.colon :: name) (.kw (.ofBytes name))
  | integer {negative : Bool} {sign ds : List UInt8} {n : Int64} : Sign negative sign → ds ≠ [] →
      (∀ b ∈ ds, Byte.isDigit b = true) →
      n.toInt = (if negative then -(Decimal.toNat ds : Int) else Decimal.toNat ds) →
      Denotes (sign ++ ds) (.int n)
  | symbol {name : Text} : name.bytes.head? ≠ some Byte.colon → ¬Numeric name.bytes →
      name ≠ ascii "nil" → name ≠ ascii "true" → name ≠ ascii "false" →
      Denotes name.bytes (.sym name)

theorem isSign_iff {b : UInt8} : Token.isSign b = true ↔ b = Byte.plus ∨ b = Byte.minus := by
  simp [Token.isSign]

theorem isNumeric_iff {bs : List UInt8} : Token.isNumeric bs = true ↔ Numeric bs := by
  constructor
  · intro h
    match bs with
    | [] => cases h
    | [b] => exact .digit [] .none h
    | b :: c :: rest =>
      rw [Token.isNumeric, Bool.or_eq_true, Bool.and_eq_true, isSign_iff] at h
      rcases h with h | ⟨rfl | rfl, h⟩
      · exact .digit (c :: rest) .none h
      · exact .digit rest .plus h
      · exact .digit rest .minus h
  · intro h
    cases h with
    | @digit _ _ b rest sign hb =>
      cases sign with
      | none => cases rest <;> simp [Token.isNumeric, hb]
      | plus => simp [Token.isNumeric, hb, Token.isSign]
      | minus => simp [Token.isNumeric, hb, Token.isSign]

theorem ofInt?_eq_some_iff {i : Int} {n : Int64} : Integer.ofInt? i = some n ↔ n.toInt = i := by
  constructor
  · intro h
    rw [Integer.ofInt?] at h
    split at h
    · rename_i range
      cases h
      exact Int64.toInt_ofInt_of_le (by simpa using range.1) (by have := range.2; omega)
    · cases h
  · rintro rfl
    exact ofInt?_toInt n

theorem not_sign_of_isDigit {b : UInt8} (h : Byte.isDigit b = true) :
    b ≠ Byte.plus ∧ b ≠ Byte.minus ∧ b ≠ Byte.colon := by
  refine ⟨?_, ?_, ?_⟩ <;> rintro rfl <;> cases h

/-- A number is read as its sign and what is behind it. -/
theorem unsigned_sign {negative : Bool} {sign : List UInt8} {b : UInt8}
    (h : Sign negative sign) (hb : Byte.isDigit b = true) (rest : List UInt8) :
    Token.unsigned (sign ++ b :: rest) = b :: rest ∧
      decide ((sign ++ b :: rest).head? = some Byte.minus) = negative := by
  obtain ⟨notPlus, notMinus, _⟩ := not_sign_of_isDigit hb
  cases h with
  | none => simp [Token.unsigned, Token.isSign, notPlus, notMinus]
  | plus => exact ⟨rfl, rfl⟩
  | minus => exact ⟨rfl, rfl⟩

theorem integer_iff {negative : Bool} {sign : List UInt8} {b : UInt8} {rest : List UInt8}
    {n : Int64} (hs : Sign negative sign) (hb : Byte.isDigit b = true) :
    Token.integer (sign ++ b :: rest) = .ok n ↔
      (∀ c ∈ b :: rest, Byte.isDigit c = true) ∧
        n.toInt = if negative then -(Decimal.toNat (b :: rest) : Int)
          else Decimal.toNat (b :: rest) := by
  obtain ⟨digits, minus⟩ := unsigned_sign hs hb rest
  constructor
  · intro h
    simp only [Token.integer, digits, minus] at h
    split at h
    · cases h
    · rename_i word
      split at h
      · rename_i all
        cases h
        rw [List.all_eq_true] at all
        rw [List.takeWhile_eq_self_iff.mpr all, Token.word?_eq] at word
        exact ⟨all, ofInt?_eq_some_iff.mp word⟩
      · cases h
  · rintro ⟨all, value⟩
    refine integer_of_unsigned n digits (List.all_eq_true.mpr all) ?_
    rw [minus, Token.word?_eq]
    exact ofInt?_eq_some_iff.mpr value

/-- What is no keyword and no number is a constant or a symbol. -/
theorem denotes_name {bs : List UInt8} (noColon : bs.head? ≠ some Byte.colon)
    (notNumeric : ¬Numeric bs) :
    Denotes bs ((Token.constant? (.ofBytes bs)).getD (.sym (.ofBytes bs))) := by
  have bytes : (Text.ofBytes bs).bytes = bs := Text.bytes_ofBytes bs
  rw [Token.constant?]
  split
  · rename_i h
    rw [← bytes, h]
    exact .nil
  · rename_i notNil
    split
    · rename_i h
      rw [← bytes, h]
      exact .true
    · rename_i notTrue
      split
      · rename_i h
        rw [← bytes, h]
        exact .false
      · rename_i notFalse
        have symbol := Denotes.symbol (by rwa [bytes]) (by rwa [bytes]) notNil notTrue notFalse
        rwa [bytes] at symbol

/-- A token reads as what it denotes. -/
theorem denotes_of_value {bs : List UInt8} {v : Value} (h : Token.value bs = .ok v) :
    Denotes bs v := by
  rw [Token.value] at h
  split at h
  · rename_i colon
    obtain ⟨name, rfl⟩ := List.head?_eq_some_iff.mp colon
    split at h
    · cases h
    · rename_i named
      cases h
      exact .keyword named
  · rename_i noColon
    split at h
    · rename_i numeric
      cases isNumeric_iff.mp numeric with
      | @digit _ sign b rest hs hb =>
        cases hn : Token.integer (sign ++ b :: rest) with
        | error fault =>
          rw [hn] at h
          cases h
        | ok n =>
          rw [hn] at h
          cases h
          obtain ⟨all, value⟩ := (integer_iff hs hb).mp hn
          exact .integer hs (by simp) all value
    · rename_i notNumeric
      cases h
      exact denotes_name noColon (mt isNumeric_iff.mpr notNumeric)

theorem value_of_denotes {bs : List UInt8} {v : Value} (h : Denotes bs v) :
    Token.value bs = .ok v := by
  cases h with
  | nil => rfl
  | true => rfl
  | false => rfl
  | keyword named => simp [Token.value, named]
  | @integer _ sign ds n hs nonempty all value =>
    obtain ⟨b, rest, rfl⟩ := List.exists_cons_of_ne_nil nonempty
    have hb := all b List.mem_cons_self
    have number := (integer_iff hs hb).mpr ⟨all, value⟩
    have numeric := isNumeric_iff.mpr (.digit rest hs hb)
    have noColon : (sign ++ b :: rest).head? ≠ some Byte.colon := by
      cases hs with
      | none => simpa using (not_sign_of_isDigit hb).2.2
      | plus => simp [show Byte.plus ≠ Byte.colon by decide]
      | minus => simp [show Byte.minus ≠ Byte.colon by decide]
    rw [Token.value, if_neg noColon, if_pos numeric, number]
    rfl
  | @symbol name noColon notNumeric notNil notTrue notFalse =>
    have symbol : Token.constant? name = none := by
      rw [Token.constant?, if_neg notNil, if_neg notTrue, if_neg notFalse]
    simp only [Token.value, if_neg noColon, if_neg (mt isNumeric_iff.mp notNumeric),
      Text.ofBytes_bytes, symbol]
    rfl

theorem value_iff {bs : List UInt8} {v : Value} : Token.value bs = .ok v ↔ Denotes bs v :=
  ⟨denotes_of_value, value_of_denotes⟩

/-- A key keeps the place where it came first and takes the value that came last. -/
structure Gathers (pairs entries : Assoc Key Value) : Prop where
  keys : entries.keys = pairs.keys.eraseDups
  values : ∀ k, entries.find? k = Assoc.find? pairs.reverse k

theorem ofPairs_append (pairs : List (Key × Value)) (p : Key × Value) :
    Assoc.ofPairs (pairs ++ [p]) = (Assoc.ofPairs pairs).insert p.1 p.2 := by
  rw [Assoc.ofPairs, Assoc.insertAll_append]
  rfl

theorem gathers_ofPairs (pairs : List (Key × Value)) : Gathers pairs (Assoc.ofPairs pairs) := by
  induction pairs using List.reverseRecOn with
  | nil => exact ⟨rfl, fun _ => rfl⟩
  | append_singleton pairs p ih =>
    refine ⟨?_, fun k => ?_⟩
    · rw [ofPairs_append, Assoc.keys_insert, ih.keys]
      simp only [Assoc.keys, List.map_append, List.map_cons, List.map_nil, List.eraseDups_append,
        List.mem_eraseDups, List.removeAll, List.filter_cons, List.filter_nil]
      split
      · rename_i old
        simp [old]
      · rename_i new
        simp [new, List.eraseDups_cons]
    · rw [ofPairs_append, Assoc.find?_insert, ih.values, List.reverse_append]
      rfl

/-- The entries are determined by the pairs. -/
theorem Gathers.eq_ofPairs {pairs entries : Assoc Key Value} (h : Gathers pairs entries) :
    entries = Assoc.ofPairs pairs := by
  have other := gathers_ofPairs pairs
  refine Assoc.ext ?_ (h.keys.trans other.keys.symm)
    fun k => (h.values k).trans (other.values k).symm
  rw [h.keys, ← other.keys]
  exact Assoc.nodup_ofPairs pairs

open Reader in
mutual

/-- What a text begins with, the value of it and what is left of the text. -/
inductive Form : List UInt8 → Value → List UInt8 → Prop where
  | list {t : List UInt8} {vs : List Value} {r : List UInt8} :
      Forms t vs (Bracket.round.closer :: r) →
      Form (Bracket.round.opener :: t) (.list vs.toArray) r
  | vec {t : List UInt8} {vs : List Value} {r : List UInt8} :
      Forms t vs (Bracket.square.closer :: r) →
      Form (Bracket.square.opener :: t) (.vec vs.toArray) r
  | map {t : List UInt8} {pairs entries : Assoc Key Value} {r : List UInt8} :
      Forms t (alternating pairs) (Bracket.curly.closer :: r) → Gathers pairs entries →
      Form (Bracket.curly.opener :: t) (.map (.ofEntries entries)) r
  | deref {t u : List UInt8} {v : Value} {r : List UInt8} : Gap t u → Form u v r →
      Form (Byte.atSign :: t) (derefOf v) r
  | string {t cs r : List UInt8} : Chars t cs r → Form (Byte.quote :: t) (.str (.ofBytes cs)) r
  | token {bs : List UInt8} {v : Value} {r : List UInt8} : bs ≠ [] →
      (∀ b ∈ bs, Token.isDelimiter b = false) → bs.head? ≠ some Byte.atSign → Delimited r →
      Denotes bs v → Form (bs ++ r) v r

inductive Forms : List UInt8 → List Value → List UInt8 → Prop where
  | none {t r : List UInt8} : Gap t r → Forms t [] r
  | cons {t u : List UInt8} {v : Value} {w : List UInt8} {vs : List Value} {r : List UInt8} :
      Gap t u → Form u v w → Forms w vs r → Forms t (v :: vs) r

end

theorem Chars.length_lt {t cs r : List UInt8} (h : Chars t cs r) : r.length < t.length := by
  induction h with
  | close r => simp
  | plain _ _ _ ih => exact ih.trans (Nat.lt_succ_self _)
  | escaped _ _ ih => exact ih.trans ((Nat.lt_succ_self _).trans (Nat.lt_succ_self _))

mutual

theorem Form.length_lt {t : List UInt8} {v : Value} {r : List UInt8} (h : Form t v r) :
    r.length < t.length := by
  match h with
  | .list forms => exact Nat.lt_succ_of_lt forms.length_le
  | .vec forms => exact Nat.lt_succ_of_lt forms.length_le
  | .map forms _ => exact Nat.lt_succ_of_lt forms.length_le
  | .deref gap form => exact Nat.lt_succ_of_lt (form.length_lt.trans_le gap.length_le)
  | .string chars => exact Nat.lt_succ_of_lt chars.length_lt
  | .token nonempty _ _ _ _ => simpa using List.length_pos_of_ne_nil nonempty

theorem Forms.length_le {t : List UInt8} {vs : List Value} {r : List UInt8} (h : Forms t vs r) :
    r.length ≤ t.length := by
  match h with
  | .none gap => exact gap.length_le
  | .cons gap form forms =>
    exact forms.length_le.trans (form.length_lt.le.trans gap.length_le)

end

theorem Form.ne_nil {t : List UInt8} {v : Value} {r : List UInt8} (h : Form t v r) : t ≠ [] :=
  List.ne_nil_of_length_pos (Nat.zero_lt_of_lt h.length_lt)

end MiniLisp
