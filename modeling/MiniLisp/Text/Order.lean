import Std.Data.TreeMap
import MiniLisp.Text

/-! Texts are ordered byte by byte, and a text comes before its extensions. The comparison runs
along the packed bytes; it is that of the lists of bytes, from which it takes its laws. -/
namespace MiniLisp

namespace Text

def compareFrom (a b : Text) (i : Nat) : Ordering :=
  if ha : i < a.size then
    if hb : i < b.size then
      (compare a[i] b[i]).then (compareFrom a b (i + 1))
    else .gt
  else if i < b.size then .lt else .eq
termination_by a.size - i

theorem compareFrom_eq (a b : Text) (i : Nat) :
    compareFrom a b i = compare ((bytes a).drop i) ((bytes b).drop i) := by
  fun_induction compareFrom a b i with
  | case1 i ha hb ih => rw [ih, bytes_drop ha, bytes_drop hb, List.compare_cons_cons]
  | case2 i ha hb => rw [bytes_drop ha, bytes_drop_size hb, List.compare_cons_nil]
  | case3 i ha hb => rw [bytes_drop_size ha, bytes_drop hb, List.compare_nil_cons]
  | case4 i ha hb => rw [bytes_drop_size ha, bytes_drop_size hb, List.compare_nil_nil]

instance : Ord Text where
  compare a b := if a = b then .eq else compareFrom a b 0

theorem compare_eq (a b : Text) : compare a b = compare (bytes a) (bytes b) := by
  show (if a = b then .eq else compareFrom a b 0) = _
  split
  · rename_i h
    subst h
    exact Std.ReflCmp.compare_self.symm
  · exact compareFrom_eq a b 0

instance : Std.TransOrd Text where
  eq_swap := by
    intro a b
    rw [compare_eq, compare_eq]
    exact Std.OrientedCmp.eq_swap
  isLE_trans := by
    intro a b c hab hbc
    rw [compare_eq] at *
    exact Std.TransCmp.isLE_trans hab hbc

instance : Std.LawfulEqOrd Text where
  compare_self := by
    intro a
    rw [compare_eq]
    exact Std.ReflCmp.compare_self
  eq_of_compare := by
    intro a b h
    rw [compare_eq] at h
    exact bytes_inj (Std.LawfulEqCmp.eq_of_compare h)

end Text

end MiniLisp
