/-! 64-bit integers in two's complement. An operation whose exact result has no such word yields
`none`; it never wraps around. -/
namespace MiniLisp

namespace Integer

def InRange (n : Int) : Prop := -9223372036854775808 ≤ n ∧ n ≤ 9223372036854775807

instance (n : Int) : Decidable (InRange n) :=
  inferInstanceAs (Decidable (-9223372036854775808 ≤ n ∧ n ≤ 9223372036854775807))

def ofInt? (n : Int) : Option Int64 := if InRange n then some (Int64.ofInt n) else none

def isAddend (a : Int64) : Bool := -4611686018427387904 ≤ a && a ≤ 4611686018427387903

def isFactor (a : Int64) : Bool := -2147483648 ≤ a && a ≤ 2147483647

def add? (a b : Int64) : Option Int64 :=
  if isAddend a && isAddend b then some (a + b) else ofInt? (a.toInt + b.toInt)

def sub? (a b : Int64) : Option Int64 :=
  if isAddend a && isAddend b then some (a - b) else ofInt? (a.toInt - b.toInt)

def mul? (a b : Int64) : Option Int64 :=
  if isFactor a && isFactor b then some (a * b) else ofInt? (a.toInt * b.toInt)

theorem bounds_of_isAddend {a : Int64} (h : isAddend a = true) :
    -4611686018427387904 ≤ a.toInt ∧ a.toInt ≤ 4611686018427387903 := by
  simpa [isAddend, Int64.le_iff_toInt_le] using h

theorem bounds_of_isFactor {a : Int64} (h : isFactor a = true) :
    -2147483648 ≤ a.toInt ∧ a.toInt ≤ 2147483647 := by
  simpa [isFactor, Int64.le_iff_toInt_le] using h

theorem add?_eq (a b : Int64) : add? a b = ofInt? (a.toInt + b.toInt) := by
  rw [add?]
  split
  · rename_i h
    rw [Bool.and_eq_true] at h
    have ha := bounds_of_isAddend h.1
    have hb := bounds_of_isAddend h.2
    rw [ofInt?, if_pos ⟨by omega, by omega⟩, Int64.ofInt_add, Int64.ofInt_toInt, Int64.ofInt_toInt]
  · rfl

theorem sub?_eq (a b : Int64) : sub? a b = ofInt? (a.toInt - b.toInt) := by
  rw [sub?]
  split
  · rename_i h
    rw [Bool.and_eq_true] at h
    have ha := bounds_of_isAddend h.1
    have hb := bounds_of_isAddend h.2
    rw [ofInt?, if_pos ⟨by omega, by omega⟩, Int64.ofInt_sub, Int64.ofInt_toInt, Int64.ofInt_toInt]
  · rfl

theorem mul?_eq (a b : Int64) : mul? a b = ofInt? (a.toInt * b.toInt) := by
  rw [mul?]
  split
  · rename_i h
    rw [Bool.and_eq_true] at h
    have ha := bounds_of_isFactor h.1
    have hb := bounds_of_isFactor h.2
    have size : (a.toInt * b.toInt).natAbs ≤ 2147483648 * 2147483648 := by
      rw [Int.natAbs_mul]
      exact Nat.mul_le_mul (by omega) (by omega)
    rw [ofInt?, if_pos ⟨by omega, by omega⟩, Int64.ofInt_mul, Int64.ofInt_toInt, Int64.ofInt_toInt]
  · rfl

/-- The quotient towards minus infinity. The machine quotient rounds towards zero, so it is one
too large exactly when the division leaves a remainder and the operands differ in sign. -/
def floorDiv (a b : Int64) : Int64 :=
  if a % b ≠ 0 ∧ decide (a < 0) ≠ decide (b < 0) then a / b - 1 else a / b

/-- The one quotient that no word holds is that of the least word by minus one. -/
def div? (a b : Int64) : Option Int64 :=
  if a = Int64.minValue ∧ b = -1 then none else some (floorDiv a b)

end Integer

end MiniLisp
