import Mathlib.Algebra.Order.Ring.Int
import MiniLisp.Native.Data
import MiniLisp.Proofs.Conclusions

/-! A quotient is corrected from the one that the machine rounds towards zero, and no step of that
leaves the range of a word. -/
namespace MiniLisp

/-- The quotient towards minus infinity: what it leaves of the dividend is nothing or has the
sign of the divisor, and is smaller than the divisor. -/
def IsFloor (a b q : Int) : Prop :=
  ∃ r, a = q * b + r ∧ (r = 0 ∨ r.sign = b.sign) ∧ r.natAbs < b.natAbs

/-- A remainder with the sign of the divisor lies between nothing and the divisor. -/
theorem remainder_iff (r b : Int) : (r = 0 ∨ r.sign = b.sign) ∧ r.natAbs < b.natAbs ↔
    (0 ≤ r ∧ r < b) ∨ (b < r ∧ r ≤ 0) := by
  rcases lt_trichotomy b 0 with negative | rfl | positive
  · rw [Int.sign_eq_neg_one_of_neg negative, Int.sign_eq_neg_one_iff_neg]
    omega
  · simp
  · rw [Int.sign_eq_one_of_pos positive, Int.sign_eq_one_iff_pos]
    omega

/-- There is one such quotient. -/
theorem isFloor_iff {a b : Int} (nonzero : b ≠ 0) (q : Int) : IsFloor a b q ↔ a.fdiv b = q := by
  have divides (q r : Int) : a = q * b + r ∧ (r = 0 ∨ r.sign = b.sign) ∧ r.natAbs < b.natAbs ↔
      a.fdiv b = q ∧ a.fmod b = r := by
    rw [remainder_iff, Int.mul_comm]
    rcases lt_or_gt_of_ne nonzero with negative | positive
    · rw [Int.fdiv_fmod_unique' negative]
      omega
    · rw [Int.fdiv_fmod_unique positive]
      omega
  constructor
  · rintro ⟨r, h⟩
    exact ((divides q r).mp h).1
  · rintro rfl
    exact ⟨a.fmod b, (divides _ _).mpr ⟨rfl, rfl⟩⟩

namespace Integer

/-- What a division towards zero leaves is smaller than the divisor and on the side of the
dividend. -/
theorem tmod_bounds (a : Int) {b : Int} (nonzero : b ≠ 0) :
    (a.tmod b).natAbs < b.natAbs ∧ (0 ≤ a → 0 ≤ a.tmod b) ∧ (a ≤ 0 → a.tmod b ≤ 0) := by
  refine ⟨?_, Int.tmod_nonneg b, fun negative => ?_⟩
  · rw [Int.natAbs_tmod]
    exact Nat.mod_lt _ (by omega)
  · have := Int.tmod_nonneg b (Int.neg_nonneg_of_nonpos negative)
    rw [Int.neg_tmod] at this
    omega

/-- A divisor that can leave something halves the quotient at least. -/
theorem natAbs_tdiv_le (a : Int) {b : Int} (rest : a.tmod b ≠ 0) (nonzero : b ≠ 0) :
    (a.tdiv b).natAbs ≤ a.natAbs / 2 := by
  have two : 2 ≤ b.natAbs := by
    have := (tmod_bounds a nonzero).1
    omega
  rw [Int.natAbs_tdiv]
  exact Nat.div_le_div_left two (by decide)

section Words

variable {a b : Int64}

theorem toInt_ne_zero (nonzero : b ≠ 0) : b.toInt ≠ 0 := fun h =>
  nonzero (Int64.toInt_inj.mp (h.trans Int64.toInt_zero.symm))

theorem natAbs_toInt_le (a : Int64) : a.toInt.natAbs ≤ 2 ^ 63 := by
  have := a.le_toInt
  have := a.toInt_lt
  omega

theorem toInt_quotient (fits : ¬(a = Int64.minValue ∧ b = -1)) :
    (a / b).toInt = a.toInt.tdiv b.toInt := by
  by_cases least : a = Int64.minValue
  · exact Int64.toInt_div_of_ne_right a b fun one => fits ⟨least, one⟩
  · exact Int64.toInt_div_of_ne_left a b least

/-- Correcting the quotient by one cannot leave the range: what is corrected left something. -/
theorem toInt_corrected (nonzero : b ≠ 0) (fits : ¬(a = Int64.minValue ∧ b = -1))
    (rest : a % b ≠ 0) : (a / b - 1).toInt = a.toInt.tdiv b.toInt - 1 := by
  have left : a.toInt.tmod b.toInt ≠ 0 := by
    rw [← Int64.toInt_mod]
    exact toInt_ne_zero rest
  have small := natAbs_tdiv_le a.toInt left (toInt_ne_zero nonzero)
  have := natAbs_toInt_le a
  rw [Int64.toInt_sub, toInt_quotient fits, show Int64.toInt 1 = 1 from rfl]
  exact Int.bmod_eq_of_le (by omega) (by omega)

theorem isFloor_floorDiv (nonzero : b ≠ 0) (fits : ¬(a = Int64.minValue ∧ b = -1)) :
    IsFloor a.toInt b.toInt (floorDiv a b).toInt := by
  have split := Int.tdiv_mul_add_tmod a.toInt b.toInt
  obtain ⟨size, above, below⟩ := tmod_bounds a.toInt (toInt_ne_zero nonzero)
  have leaves : a % b ≠ 0 ↔ a.toInt.tmod b.toInt ≠ 0 := by
    rw [Ne, ← Int64.toInt_inj, Int64.toInt_mod, Int64.toInt_zero]
  rw [floorDiv]
  simp only [Int64.lt_iff_toInt_lt, Int64.toInt_zero, leaves, ne_eq, decide_eq_decide]
  split
  · rename_i correction
    -- What the quotient loses goes to the remainder, which changes sides.
    refine ⟨a.toInt.tmod b.toInt + b.toInt, ?_, (remainder_iff _ _).mpr ?_⟩
    · rw [toInt_corrected nonzero fits (leaves.mpr correction.1), Int.sub_mul]
      omega
    · omega
  · refine ⟨a.toInt.tmod b.toInt, ?_, (remainder_iff _ _).mpr ?_⟩
    · rw [toInt_quotient fits]
      omega
    · omega

/-- The corrected quotient is the one towards minus infinity. -/
theorem isFloor_floorDiv_iff (nonzero : b ≠ 0) (fits : ¬(a = Int64.minValue ∧ b = -1)) (q : Int) :
    IsFloor a.toInt b.toInt q ↔ q = (floorDiv a b).toInt := by
  have floor := (isFloor_iff (toInt_ne_zero nonzero) _).mp (isFloor_floorDiv nonzero fits)
  rw [isFloor_iff (toInt_ne_zero nonzero), floor, eq_comm]

theorem toInt_ofInt {n : Int} (h : InRange n) : (Int64.ofInt n).toInt = n :=
  Int64.toInt_ofInt_of_le h.1 (Int.lt_add_one_of_le h.2)

end Words

end Integer

open Integer (InRange)

def Refuses (o : Except Error Value) (message : Text) : Prop :=
  ∃ e : Error, o = .error e ∧ e.errorClass = .eval ∧ e.message = message

@[simp] theorem refuses_error {e : Error} {message : Text} :
    Refuses (.error e) message ↔ e.errorClass = .eval ∧ e.message = message := by
  constructor
  · rintro ⟨_, ⟨⟩, refused⟩
    exact refused
  · exact fun refused => ⟨e, rfl, refused⟩

@[simp] theorem not_refuses_ok {v : Value} {message : Text} : ¬Refuses (.ok v) message := nofun

namespace DataOp

/-- The native has the exact result on two integers, or refuses if no word holds it. -/
def IsExact (op : DataOp) (f : Int → Int → Int) : Prop :=
  ∀ a b : Int64,
    (InRange (f a.toInt b.toInt) →
      ∃ n, op.run [.int a, .int b] = .ok (.int n) ∧ n.toInt = f a.toInt b.toInt) ∧
    (¬InRange (f a.toInt b.toInt) →
      Refuses (op.run [.int a, .int b]) (op.name ++ ascii ": integer overflow"))

theorem isExact_of_checked {op : DataOp} {f : Int → Int → Int} {g : Int64 → Int64 → Option Int64}
    (checked : ∀ a b, op.run [.int a, .int b] = match g a b with
      | some n => .ok (.int n)
      | none => .error (.overflow op.name))
    (exact : ∀ a b, g a b = Integer.ofInt? (f a.toInt b.toInt))
    (message : (Error.overflow op.name).message = op.name ++ ascii ": integer overflow") :
    op.IsExact f := by
  intro a b
  rw [checked, exact, Integer.ofInt?]
  constructor
  · intro inside
    rw [if_pos inside]
    exact ⟨_, rfl, Integer.toInt_ofInt inside⟩
  · intro outside
    rw [if_neg outside]
    exact ⟨_, rfl, rfl, message⟩

theorem isExact_add : add.IsExact (· + ·) :=
  isExact_of_checked (fun _ _ => rfl) Integer.add?_eq (by decide)

theorem isExact_sub : sub.IsExact (· - ·) :=
  isExact_of_checked (fun _ _ => rfl) Integer.sub?_eq (by decide)

theorem isExact_mul : mul.IsExact (· * ·) :=
  isExact_of_checked (fun _ _ => rfl) Integer.mul?_eq (by decide)

/-- What the quotient of two integers comes to, and that its steps stay inside the words. -/
structure Divides (a b : Int64) : Prop where
  byZero : Refuses (div.run [.int a, .int b]) (ascii "/: division by zero") ↔ b = 0
  overflow : Refuses (div.run [.int a, .int b]) (ascii "/: integer overflow") ↔
    a = Int64.minValue ∧ b = -1
  floor : b ≠ 0 → ¬(a = Int64.minValue ∧ b = -1) → ∃ q, div.run [.int a, .int b] = .ok (.int q) ∧
    ∀ z : Int, IsFloor a.toInt b.toInt z ↔ z = q.toInt
  quotient : b ≠ 0 → ¬(a = Int64.minValue ∧ b = -1) →
    (a / b).toInt = a.toInt.tdiv b.toInt ∧ (a % b).toInt = a.toInt.tmod b.toInt
  correction : b ≠ 0 → ¬(a = Int64.minValue ∧ b = -1) → a % b ≠ 0 →
    (a / b - 1).toInt = (a / b).toInt - 1

theorem run_div (a b : Int64) : div.run [.int a, .int b] =
    if b = 0 then .error .divisionByZero
    else if a = Int64.minValue ∧ b = -1 then .error (.overflow (ascii "/"))
    else .ok (.int (Integer.floorDiv a b)) := by
  show (if b = 0 then .error .divisionByZero else match Integer.div? a b with
    | some n => .ok (.int n)
    | none => .error (.overflow (ascii "/")) : Except Error Value) = _
  rw [Integer.div?]
  split_ifs <;> rfl

theorem divides (a b : Int64) : Divides a b where
  byZero := by
    have byZero : Error.divisionByZero.message = ascii "/: division by zero" := by decide
    have overflow : (Error.overflow (ascii "/")).message ≠ ascii "/: division by zero" := by decide
    rw [run_div]
    split_ifs with zero large
    · simp [zero, byZero, Error.errorClass]
    · simp [zero, overflow]
    · simp [zero]
  overflow := by
    have byZero : Error.divisionByZero.message ≠ ascii "/: integer overflow" := by decide
    have overflow : (Error.overflow (ascii "/")).message = ascii "/: integer overflow" := by decide
    rw [run_div]
    split_ifs with zero large
    · simp [zero, byZero]
    · simp [large, overflow, Error.errorClass]
    · simp [large]
  floor nonzero fits := by
    refine ⟨Integer.floorDiv a b, ?_, Integer.isFloor_floorDiv_iff nonzero fits⟩
    rw [run_div, if_neg nonzero, if_neg fits]
  quotient _ fits := ⟨Integer.toInt_quotient fits, Int64.toInt_mod a b⟩
  correction nonzero fits rest := by
    rw [Integer.toInt_corrected nonzero fits rest, Integer.toInt_quotient fits]

end DataOp

open DataOp

/-- The four operations on integers are exact or an error, and evaluating a call of one of them
comes to what it computes, whatever is traced. -/
theorem arithmetic_is_exact :
    add.IsExact (· + ·) ∧ sub.IsExact (· - ·) ∧ mul.IsExact (· * ·) ∧ (∀ a b, Divides a b) ∧
    ∀ (op : DataOp) (a b : Int64) (id : FunId) (s : Scope) (m : Machine) (fuel : Nat),
      m.lookup op.name s = some (.native id (.data op)) →
      (eval (fuel + 2) (.list ⟨[.sym op.name, .int a, .int b]⟩) s).Concludes m
        (op.run [.int a, .int b]) m := by
  refine ⟨isExact_add, isExact_sub, isExact_mul, divides, ?_⟩
  intro op a b id s m fuel found
  refine Eval.concludes_data found fun v hv => ?_
  simp only [List.mem_cons, List.not_mem_nil, or_false] at hv
  rcases hv with rfl | rfl
  · exact ⟨rfl, .int a⟩
  · exact ⟨rfl, .int b⟩

def quotientScope : Scope :=
  .frame ⟨0⟩ (.ofPairs [(div.name, .native ⟨0⟩ (.data div))]) none

theorem quotient_of_minus_seven :
    (eval 2 (.list ⟨[.sym (ascii "/"), .int (-7), .int 2]⟩) quotientScope).Concludes Machine.empty
      (.ok (.int (-4))) Machine.empty := by
  have named : Machine.empty.lookup div.name quotientScope = some (.native ⟨0⟩ (.data div)) := rfl
  obtain ⟨_, _, _, _, evaluated⟩ := arithmetic_is_exact
  exact evaluated div (-7) 2 ⟨0⟩ quotientScope Machine.empty 0 named

end MiniLisp
