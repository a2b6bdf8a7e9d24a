/-! Source text, names, string values and written output are packed arrays of bytes. Nothing here
decodes them: text that is not valid Unicode passes through every operation unchanged. -/
namespace MiniLisp

abbrev Text := ByteArray

instance : DecidableEq Text := ByteArray.instDecidableEq

def ascii (s : String) : Text := s.toByteArray

namespace Byte

abbrev tab : UInt8 := 9
abbrev newline : UInt8 := 10
abbrev verticalTab : UInt8 := 11
abbrev formFeed : UInt8 := 12
abbrev carriageReturn : UInt8 := 13
abbrev space : UInt8 := 32
abbrev quote : UInt8 := 34
abbrev plus : UInt8 := 43
abbrev comma : UInt8 := 44
abbrev minus : UInt8 := 45
abbrev dot : UInt8 := 46
abbrev slash : UInt8 := 47
abbrev zero : UInt8 := 48
abbrev nine : UInt8 := 57
abbrev colon : UInt8 := 58
abbrev semicolon : UInt8 := 59
abbrev atSign : UInt8 := 64
abbrev backslash : UInt8 := 92

def isSpace (b : UInt8) : Bool :=
  b = space || b = tab || b = newline || b = verticalTab || b = formFeed || b = carriageReturn

def isDigit (b : UInt8) : Bool := zero ≤ b && b ≤ nine

def ofDigit (n : Nat) : UInt8 := zero + n.toUInt8

def digitValue (b : UInt8) : Nat := (b - zero).toNat

theorem digitValue_ofDigit {n : Nat} (h : n < 10) : digitValue (ofDigit n) = n :=
  (by decide : ∀ k : Fin 10, digitValue (ofDigit k) = k) ⟨n, h⟩

end Byte

namespace Text

instance : Repr Text where
  reprPrec t _ := repr t.data.toList

def bytes (t : Text) : List UInt8 := t.data.toList

def ofBytes (bs : List UInt8) : Text := bs.toByteArray

def emptyFor (size : Nat) : Text := ByteArray.emptyWithCapacity size

@[simp] theorem bytes_ofBytes (bs : List UInt8) : bytes (ofBytes bs) = bs :=
  List.toList_data_toByteArray

theorem bytes_inj {a b : Text} (h : bytes a = bytes b) : a = b :=
  ByteArray.ext (Array.toList_inj.1 h)

@[simp] theorem ofBytes_bytes (t : Text) : ofBytes (bytes t) = t := bytes_inj (bytes_ofBytes _)

@[simp] theorem bytes_empty : bytes ByteArray.empty = [] := rfl

@[simp] theorem emptyFor_eq (n : Nat) : emptyFor n = ByteArray.empty := rfl

@[simp] theorem bytes_append (a b : Text) : bytes (a ++ b) = bytes a ++ bytes b :=
  ByteArray.toList_data_append

@[simp] theorem bytes_push (t : Text) (b : UInt8) : bytes (t.push b) = bytes t ++ [b] := by
  simp [bytes]

@[simp] theorem length_bytes (t : Text) : (bytes t).length = t.size := by
  simp [bytes]

theorem bytes_drop {t : Text} {i : Nat} (h : i < t.size) :
    (bytes t).drop i = t[i] :: (bytes t).drop (i + 1) := by
  rw [List.drop_eq_getElem_cons (by rw [length_bytes]; exact h)]
  rfl

theorem bytes_drop_size {t : Text} {i : Nat} (h : ¬ i < t.size) : (bytes t).drop i = [] :=
  List.drop_eq_nil_of_le (by rw [length_bytes]; omega)

@[specialize] def foldFrom {α : Type} (f : α → UInt8 → α) (t : Text) (i : Nat) (a : α) : α :=
  if h : i < t.size then foldFrom f t (i + 1) (f a t[i]) else a
termination_by t.size - i

theorem foldFrom_eq {α : Type} (f : α → UInt8 → α) (t : Text) (i : Nat) (a : α) :
    foldFrom f t i a = ((bytes t).drop i).foldl f a := by
  fun_induction foldFrom f t i a with
  | case1 i a h ih => rw [ih, bytes_drop h, List.foldl_cons]
  | case2 i a h => rw [bytes_drop_size h, List.foldl_nil]

@[inline] def fold {α : Type} (f : α → UInt8 → α) (a : α) (t : Text) : α := foldFrom f t 0 a

theorem fold_eq {α : Type} (f : α → UInt8 → α) (a : α) (t : Text) :
    fold f a t = (bytes t).foldl f a := foldFrom_eq f t 0 a

def untilNul (t : Text) : Text := ofBytes ((bytes t).takeWhile (· ≠ 0))

/-- The lines of a text. A newline ends a line; bytes after the last newline are a line too. -/
def lines (t : Text) : List Text :=
  let (last, done) := t.fold (fun (acc : Text × List Text) b =>
    if b = Byte.newline then (.empty, acc.1 :: acc.2) else (acc.1.push b, acc.2)) (.empty, [])
  (if last.isEmpty then done else last :: done).reverse

end Text

end MiniLisp
