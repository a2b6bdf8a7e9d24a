import MiniLisp.Text

/-! Decimal digits without leading zeros. Reading the digits of a number gives the number back. -/
namespace MiniLisp

namespace Decimal

def digits (n : Nat) : List UInt8 :=
  if n < 10 then [Byte.ofDigit n] else digits (n / 10) ++ [Byte.ofDigit (n % 10)]
termination_by n
decreasing_by omega

def toNat (ds : List UInt8) : Nat := ds.foldl (fun n b => 10 * n + Byte.digitValue b) 0

/-- The number a run of decimal digits denotes, unless it is above the bound. No digit is read
after the one that passes it. -/
def toNatUpTo? (bound : Nat) (ds : List UInt8) : Option Nat :=
  ds.foldlM (fun n b =>
    let n := 10 * n + Byte.digitValue b
    if n ≤ bound then some n else none) 0

theorem toNatUpTo?_eq (bound : Nat) (ds : List UInt8) :
    toNatUpTo? bound ds = if toNat ds ≤ bound then some (toNat ds) else none := by
  let read (n : Nat) (b : UInt8) := 10 * n + Byte.digitValue b
  have grows (n : Nat) (ds : List UInt8) : n ≤ ds.foldl read n := by
    induction ds generalizing n with
    | nil => exact Nat.le_refl n
    | cons b ds ih => exact Nat.le_trans (by simp only [read]; omega) (ih (read n b))
  have from_any (n : Nat) (small : n ≤ bound) (ds : List UInt8) :
      ds.foldlM (fun n b => if read n b ≤ bound then some (read n b) else none) n =
        if ds.foldl read n ≤ bound then some (ds.foldl read n) else none := by
    induction ds generalizing n with
    | nil => simp [small]
    | cons b ds ih =>
      rw [List.foldlM_cons, List.foldl_cons]
      split
      · rename_i h
        exact ih (read n b) h
      · rename_i h
        rw [if_neg fun fits => h (Nat.le_trans (grows _ ds) fits)]
        rfl
  exact from_any 0 (Nat.zero_le bound) ds

theorem toNat_digits (n : Nat) : toNat (digits n) = n := by
  rw [digits]
  split
  · rename_i h
    simp [toNat, Byte.digitValue_ofDigit h]
  · have ih := toNat_digits (n / 10)
    simp only [toNat, List.foldl_append, List.foldl_cons, List.foldl_nil] at ih ⊢
    rw [ih, Byte.digitValue_ofDigit (by omega)]
    omega
termination_by n
decreasing_by omega

end Decimal

namespace Text

def ofNat (n : Nat) : Text := ofBytes (Decimal.digits n)

def ofInt (n : Int) : Text :=
  if n < 0 then ofBytes (Byte.minus :: Decimal.digits n.natAbs) else ofNat n.natAbs

end Text

end MiniLisp
