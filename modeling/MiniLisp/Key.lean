import MiniLisp.Text.Order

/-! A map key is a string or a keyword. Strings come before keywords, and among its like a key has
the place of its text. -/
namespace MiniLisp

inductive Key where
  | string (text : Text)
  | keyword (name : Text)
  deriving DecidableEq, Repr

namespace Key

def isKeyword : Key → Bool
  | string _ => false
  | keyword _ => true

def text : Key → Text
  | string text => text
  | keyword name => name

instance : Ord Key := ⟨compareLex (compareOn isKeyword) (compareOn text)⟩

instance : Std.TransOrd Key :=
  inferInstanceAs (Std.TransCmp (compareLex (compareOn isKeyword) (compareOn text)))

instance : Std.LawfulEqOrd Key where
  compare_self := Std.ReflCmp.compare_self
  eq_of_compare := by
    intro a b h
    obtain ⟨hk, ht⟩ := Ordering.then_eq_eq.1 h
    have hk : a.isKeyword = b.isKeyword := Std.LawfulEqCmp.eq_of_compare hk
    have ht : a.text = b.text := Std.LawfulEqCmp.eq_of_compare ht
    cases a <;> cases b <;> simp_all [isKeyword, text]

end Key

end MiniLisp
