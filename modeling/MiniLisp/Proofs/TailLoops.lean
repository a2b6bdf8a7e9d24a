import MiniLisp.Proofs.ExactArithmetic
import MiniLisp.Proofs.MoreSteps
import MiniLisp.Proofs.Shadowing

/-! A function that calls itself in tail position goes around in the loop of evaluation. Every round
makes a frame inside the one the function was made in, and nothing else is left of it. -/
namespace MiniLisp

open EvalM Eval

/-- Frames may have been made, and something traced. -/
structure Machine.OnlyAdds (m n : Machine) : Prop where
  output : n.output = m.output
  cells : n.cells = m.cells
  count : m.frames.size ≤ n.frames.size
  frames : ∀ f, f.index < m.frames.size → n.frame? f = m.frame? f

namespace Machine

theorem OnlyAdds.trans {m₁ m₂ m₃ : Machine} (h : m₁.OnlyAdds m₂) (k : m₂.OnlyAdds m₃) :
    m₁.OnlyAdds m₃ where
  output := k.output.trans h.output
  cells := k.cells.trans h.cells
  count := Nat.le_trans h.count k.count
  frames f hf := (k.frames f (Nat.lt_of_lt_of_le hf h.count)).trans (h.frames f hf)

theorem onlyAdds_newFrame (m : Machine) (parent : Option Scope) (given : Table Text Value) :
    m.OnlyAdds (m.newFrame parent given).2 where
  output := rfl
  cells := rfl
  count := by simp [newFrame]
  frames f hf := by
    show (m.frames.push _)[f.index]? = m.frames[f.index]?
    rw [Array.getElem?_push, if_neg (Nat.ne_of_lt hf)]

theorem OnlyAdds.of_untraced {m n n' : Machine} (h : m.OnlyAdds n)
    (same : n'.untraced = n.untraced) : m.OnlyAdds n' := by
  have output : n'.output = n.output := congrArg (fun m => m.output) same
  have cells : n'.cells = n.cells := congrArg (fun m => m.cells) same
  have frames : n'.frames = n.frames := congrArg (fun m => m.frames) same
  refine ⟨output.trans h.output, cells.trans h.cells, frames ▸ h.count, fun f hf => ?_⟩
  rw [frame?, frames]
  exact h.frames f hf

/-- A new frame takes no name its meaning. -/
theorem lookup_beside (m : Machine) (parent : Option Scope) (given : Table Text Value)
    (name : Text) (s : Scope) : (m.newFrame parent given).2.lookup name s = m.lookup name s :=
  lookup_congr (fun s => m.local?_newFrame parent given s name) s

end Machine

namespace SumTo

def name : Text := ascii "sum-to"

def n : Text := ascii "n"

def acc : Text := ascii "acc"

def params : Params := .ofNames [n, acc]

def next : Value :=
  .list ⟨[.sym name, .list ⟨[.sym DataOp.sub.name, .sym n, .int 1]⟩,
    .list ⟨[.sym DataOp.add.name, .sym acc, .sym n]⟩]⟩

def body : Value :=
  SpecialForm.branch.expr [.list ⟨[.sym DataOp.equal.name, .sym n, .int 0]⟩, .sym acc, next]

def function : Value := SpecialForm.function.expr [.list ⟨[n, acc].map .sym⟩, body]

def definition : Value := SpecialForm.define.expr [.sym name, function]

def text : Text :=
  ascii "(def! sum-to (fn* (n acc) (if (= n 0) acc (sum-to (- n 1) (+ acc n)))))"

theorem readAll_text : readAll text = .ok [definition] := by
  rfl

def entered (m : Machine) (s : Scope) (i a : Int64) : Scope × Machine :=
  m.newFrame (some s) (params.bind [.int i, .int a])

/-- In the frame of a round its two numbers are bound, and all else means what it means around. -/
theorem lookup_entered (m : Machine) (s : Scope) (i a : Int64) (x : Text) :
    (entered m s i a).2.lookup x (entered m s i a).1 =
      if n = x then some (.int i) else if acc = x then some (.int a) else m.lookup x s := by
  have bound : (params.bind [Value.int i, .int a]).find? x =
      if n = x then some (Value.int i) else if acc = x then some (Value.int a) else none := by
    rw [Table.find?_eq, Params.entries_bind]
    rfl
  rw [entered, Machine.lookup_newFrame, bound]
  split_ifs <;> rfl

theorem onlyAdds_entered (m : Machine) (s : Scope) (i a : Int64) :
    m.OnlyAdds (entered m s i a).2 := m.onlyAdds_newFrame (some s) _

def Operators (m : Machine) (s : Scope) : Prop :=
  ∀ op ∈ [DataOp.equal, .sub, .add], ∃ id, m.lookup op.name s = some (.native id (.data op))

theorem names_apart : ∀ op ∈ [DataOp.equal, .sub, .add],
    n ≠ op.name ∧ acc ≠ op.name ∧ name ≠ op.name := by
  decide

def closure (id : FunId) (s : Scope) : Value := .closure id params body (some s)

def rounds (fuel : Nat) (id : FunId) (s : Scope) (i a : Int64) (t : Scope) : EvalM Value :=
  call (eval fuel) (applyFunction fuel) (closure id s) [.int i, .int a] t >>= finish fuel

/-- The scope names the natives, and the function that was made in it. -/
structure Bound (m : Machine) (s : Scope) (id : FunId) : Prop where
  operators : Operators m s
  loop : m.lookup name s = some (closure id s)

/-- In the frame of a round the function is still in reach, beside the two numbers. -/
structure Round (m : Machine) (t s : Scope) (id : FunId) (i a : Int64) : Prop where
  operators : Operators m t
  loop : m.lookup name t = some (closure id s)
  counter : m.lookup n t = some (.int i)
  total : m.lookup acc t = some (.int a)

section

variable {m : Machine} {s t : Scope} {id : FunId} {i a : Int64} {fuel : Nat}

theorem Bound.round (h : Bound m s id) (i a : Int64) :
    Round (entered m s i a).2 (entered m s i a).1 s id i a where
  operators op hop := by
    obtain ⟨id, found⟩ := h.operators op hop
    obtain ⟨counter, total, -⟩ := names_apart op hop
    exact ⟨id, by rw [lookup_entered, if_neg counter, if_neg total, found]⟩
  loop := by
    rw [lookup_entered, if_neg (by decide), if_neg (by decide), h.loop]
  counter := by
    rw [lookup_entered, if_pos rfl]
  total := by
    rw [lookup_entered, if_neg (by decide), if_pos rfl]

theorem Bound.entered (h : Bound m s id) (i a : Int64) : Bound (entered m s i a).2 s id where
  operators op hop := by
    rw [SumTo.entered, m.lookup_beside]
    exact h.operators op hop
  loop := by
    rw [SumTo.entered, m.lookup_beside]
    exact h.loop

theorem inert_body : body.Inert := by
  simp [body, next, SpecialForm.expr, Value.Inert, Value.Within.list_iff, Value.Within.sym,
    Value.Within.int]

theorem inert_next : next.Inert := by
  simp [next, Value.Inert, Value.Within.list_iff, Value.Within.sym, Value.Within.int]

theorem inert_function : function.Inert := by
  have whole : Value.Within _ _ body := inert_body
  simp [function, SpecialForm.expr, Value.Inert, Value.Within.list_iff, Value.Within.sym, whole]

theorem inert_definition : definition.Inert := by
  have whole : Value.Within _ _ function := inert_function
  simp [definition, SpecialForm.expr, Value.Inert, Value.Within.list_iff, Value.Within.sym, whole]

theorem inert_ints (vs : List Int64) : ∀ v ∈ vs.map Value.int, v.Inert := by
  simp [Value.Inert, Value.Within.int]

/-- An operation on two parts that are evaluated without an effect. -/
theorem concludes_on {op : DataOp} (hop : op ∈ [DataOp.equal, .sub, .add])
    (operators : Operators m t) {e e' : Value} (he : e.Inert) (he' : e'.Inert) {u v : Int64}
    (first : (eval (fuel + 1) e t).Concludes m (.ok (.int u)) m)
    (second : (eval (fuel + 1) e' t).Concludes m (.ok (.int v)) m) :
    (eval (fuel + 2) (.list ⟨[.sym op.name, e, e']⟩) t).Concludes m
      (op.run [.int u, .int v]) m := by
  obtain ⟨id, found⟩ := operators op hop
  refine concludes_operation found (by simp [he, he']) (inert_ints [u, v]) ?_
  exact .mapM_cons first (.mapM_one second)

theorem concludes_test (h : Round m t s id i a) (fuel : Nat) :
    (eval (fuel + 2) (.list ⟨[.sym DataOp.equal.name, .sym n, .int 0]⟩) t).Concludes m
      (.ok (.bool (i = 0))) m := by
  exact concludes_on (by simp) h.operators (.sym _) (.int _) (concludes_symbol h.counter)
    (concludes_constant rfl (.int 0))

/-- A call of the function comes to what the part that the test chooses comes to in a new frame. -/
theorem concludes_enter (h : Bound m s id) (i a : Int64) (t : Scope) {o : Except Error Value}
    {m' : Machine} (chosen : (eval (fuel + 2) (if i = 0 then .sym acc else next)
      (entered m s i a).1).Concludes (entered m s i a).2 o m') :
    (rounds (fuel + 3) id s i a t).Concludes m o m' := by
  have test := concludes_test (h.round i a) fuel
  refine concludes_closure inert_body (inert_ints [i, a]) rfl ?_
  refine concludes_branch (some next) inert_body test ?_
  simpa [Value.isTruthy, entered] using chosen

/-- What the next round is called with. -/
theorem concludes_operands (h : Round m t s id i a) (fuel : Nat) :
    (eval (fuel + 2) (.list ⟨[.sym DataOp.sub.name, .sym n, .int 1]⟩) t).Concludes m
        (DataOp.sub.run [.int i, .int 1]) m ∧
      (eval (fuel + 2) (.list ⟨[.sym DataOp.add.name, .sym acc, .sym n]⟩) t).Concludes m
        (DataOp.add.run [.int a, .int i]) m := by
  have counter : (eval (fuel + 1) (.sym n) t).Concludes m (.ok (.int i)) m :=
    concludes_symbol h.counter
  have total : (eval (fuel + 1) (.sym acc) t).Concludes m (.ok (.int a)) m :=
    concludes_symbol h.total
  exact ⟨concludes_on (by simp) h.operators (.sym n) (.int 1) counter
      (concludes_constant rfl (.int 1)),
    concludes_on (by simp) h.operators (.sym acc) (.sym n) total counter⟩

/-- Where both operations have a result, the next round is entered from here. -/
theorem concludes_next (h : Round m t s id i a) {i' a' : Int64} {o : Except Error Value}
    {m' : Machine} (less : DataOp.sub.run [.int i, .int 1] = .ok (.int i'))
    (more : DataOp.add.run [.int a, .int i] = .ok (.int a'))
    (rest : (rounds (fuel + 2) id s i' a' t).Concludes m o m') :
    (eval (fuel + 3) next t).Concludes m o m' := by
  obtain ⟨counter, total⟩ := concludes_operands h fuel
  rw [less] at counter
  rw [more] at total
  exact concludes_call rfl inert_next (concludes_symbol h.loop)
    (.mapM_cons counter (.mapM_one total)) rest

theorem concludes_overflow (h : Round m t s id i a) {i' : Int64} {err : Error}
    (less : DataOp.sub.run [.int i, .int 1] = .ok (.int i'))
    (more : DataOp.add.run [.int a, .int i] = .error err) (fuel : Nat) :
    (eval (fuel + 3) next t).Concludes m (.error err) m := by
  obtain ⟨counter, total⟩ := concludes_operands h fuel
  rw [less] at counter
  rw [more] at total
  exact concludes_call_error rfl inert_next (concludes_symbol h.loop)
    (.mapM_cons_error counter (.mapM_error total))

/-- Nothing is left to count. -/
theorem concludes_last (h : Bound m s id) (done : i = 0) (a : Int64) (t : Scope) (fuel : Nat) :
    (rounds (fuel + 3) id s i a t).Concludes m (.ok (.int a)) (entered m s i a).2 := by
  refine concludes_enter h i a t ?_
  rw [if_pos done]
  exact concludes_symbol (h.round i a).total

/-- One round that is not the last: the number that is left goes over to the sum, and the next
round is entered from the frame of this one, unless the sum is too large for a word. -/
theorem concludes_round (h : Bound m s id) (left : 0 < i.toInt) (a : Int64) (t : Scope)
    (fuel : Nat) :
    (∃ i' a' : Int64, i'.toInt = i.toInt - 1 ∧ a'.toInt = a.toInt + i.toInt ∧
      ∀ {o m'}, (rounds (fuel + 2) id s i' a' (entered m s i a).1).Concludes
        (entered m s i a).2 o m' → (rounds (fuel + 4) id s i a t).Concludes m o m') ∨
    9223372036854775807 < a.toInt + i.toInt ∧ ∃ err,
      Refuses (.error err) (ascii "+: integer overflow") ∧
        (rounds (fuel + 4) id s i a t).Concludes m (.error err) (entered m s i a).2 := by
  have more : i ≠ 0 := by
    rintro rfl
    exact absurd left (by decide)
  have fewer : Integer.InRange (i.toInt - (1 : Int64).toInt) := by
    have upper := i.toInt_lt
    have one : (1 : Int64).toInt = 1 := rfl
    rw [Integer.InRange]
    omega
  obtain ⟨i', less, hi'⟩ := (DataOp.isExact_sub i 1).1 fewer
  by_cases fits : Integer.InRange (a.toInt + i.toInt)
  · obtain ⟨a', sum, ha'⟩ := (DataOp.isExact_add a i).1 fits
    refine .inl ⟨i', a', hi', ha', fun rest => concludes_enter h i a t ?_⟩
    rw [if_neg more]
    exact concludes_next (h.round i a) less sum rest
  · have message : DataOp.add.name ++ ascii ": integer overflow" =
        ascii "+: integer overflow" := by decide
    obtain ⟨err, failed, refused⟩ := (DataOp.isExact_add a i).2 fits
    rw [message] at refused
    refine .inr ⟨?_, err, ⟨err, rfl, refused⟩, concludes_enter h i a t ?_⟩
    · have lower := a.le_toInt
      rw [Integer.InRange] at fits
      omega
    · rw [if_neg more]
      exact concludes_overflow (h.round i a) less failed fuel

/-- The number, or the refusal of a sum that is too large for a word. -/
def ComesTo (o : Except Error Value) (z : Int) : Prop :=
  (z ≤ 9223372036854775807 → ∃ r, o = .ok (.int r) ∧ r.toInt = z) ∧
    (9223372036854775807 < z → Refuses o (ascii "+: integer overflow"))

theorem triangle_succ (k : Nat) : (k + 1) * (k + 1 + 1) / 2 = k * (k + 1) / 2 + (k + 1) := by
  have split : (k + 1) * (k + 1 + 1) = k * (k + 1) + (k + 1) * 2 := by grind
  rw [split, Nat.add_mul_div_right _ _ (by decide)]

/-- By induction on the rounds that are left: what was added up so far and what is left to add are
the same sum in each. -/
theorem concludes_rounds (k : Nat) (h : Bound m s id) (hi : i.toInt = k) (a : Int64) (t : Scope)
    (enough : 2 * k + 3 ≤ fuel) : ∃ o m', (rounds fuel id s i a t).Concludes m o m' ∧
      ComesTo o (a.toInt + (k * (k + 1) / 2 : Nat)) ∧ m.OnlyAdds m' := by
  induction k generalizing m i a t fuel with
  | zero =>
    obtain ⟨fuel, rfl⟩ := Nat.exists_eq_add_of_le' enough
    have done : i = 0 := Int64.toInt_inj.mp hi
    have upper := a.toInt_lt
    refine ⟨_, _, concludes_last h done a t fuel, ⟨fun _ => ?_, fun large => ?_⟩,
      onlyAdds_entered m s i a⟩
    · exact ⟨a, rfl, by simp⟩
    · omega
  | succ k ih =>
    obtain ⟨fuel, rfl⟩ : ∃ rest, fuel = rest + 4 := Nat.exists_eq_add_of_le' (by omega)
    have sum := triangle_succ k
    have positive : 0 < i.toInt := by omega
    have adds := onlyAdds_entered m s i a
    rcases concludes_round h positive a t fuel with
      ⟨i', a', fewer, more, enter⟩ | ⟨large, err, refused, run⟩
    · have left : i'.toInt = k := by omega
      have enough : 2 * k + 3 ≤ fuel + 2 := by omega
      obtain ⟨o, m', rest, comes, later⟩ := ih (h.entered i a) left a' _ enough
      have same : a'.toInt + (k * (k + 1) / 2 : Nat) =
          a.toInt + ((k + 1) * (k + 1 + 1) / 2 : Nat) := by omega
      rw [same] at comes
      exact ⟨o, m', enter rest, comes, adds.trans later⟩
    · refine ⟨.error err, _, run, ⟨fun small => ?_, fun _ => refused⟩, adds⟩
      omega

/-- The definition makes the function in the frame it is evaluated in, and binds it there. -/
theorem concludes_definition (operators : Operators m s) (made : s.id.index < m.frames.size) :
    ∃ id m', Bound m' s id ∧ ∀ fuel,
      (evalSource (fuel + 2) text (some s)).Concludes m (.ok (closure id s)) m' := by
  refine ⟨m.newFunction.1, m.newFunction.2.define s name (closure m.newFunction.1 s), ⟨?_, ?_⟩,
    fun fuel => ?_⟩
  · intro op hop
    obtain ⟨id, found⟩ := operators op hop
    obtain ⟨-, -, apart⟩ := names_apart op hop
    have same : m.newFunction.2.lookup op.name s = m.lookup op.name s := by
      refine Machine.lookup_congr (fun u => ?_) s
      rfl
    refine ⟨id, ?_⟩
    rw [Machine.lookup_define_of_hidden fun h => apart h.1.symm, same, found]
  · rw [Machine.lookup_eq, Machine.local?_define, if_pos ⟨rfl, rfl, made⟩]
    rfl
  · exact evalSource_concludes readAll_text
      (concludes_define inert_definition (concludes_function inert_function))

def callWith (i a : Int64) : Value := .list ⟨[.sym name, .int i, .int a]⟩

theorem concludes_callWith (h : Bound m s id) (called : m.lookup name t = some (closure id s))
    {k : Nat} (hi : i.toInt = k) (a : Int64) : ∃ o m',
      (eval (2 * k + 4) (callWith i a) t).Concludes m o m' ∧
      ComesTo o (a.toInt + (k * (k + 1) / 2 : Nat)) ∧ m.OnlyAdds m' := by
  obtain ⟨o, m', rounds, comes, adds⟩ := concludes_rounds k h hi a t (Nat.le_refl _)
  refine ⟨o, m', concludes_call rfl ?_ (concludes_symbol called) ?_ rounds, comes, adds⟩
  · exact Value.Inert.list (by simp [Value.Inert, Value.Within.sym, Value.Within.int])
  · refine concludes_constants fun v hv => ?_
    obtain ⟨j, -, rfl⟩ := List.mem_map.mp (show v ∈ [i, a].map Value.int from hv)
    exact ⟨rfl, .int j⟩

end

end SumTo

open SumTo in
/-- The definition binds the function where it is evaluated. From then on, in every scope where the
name means it, a call with any count from zero on comes to its end within a number of steps that
the count bounds: with the sum, or with an overflow if no word holds it. Nothing but frames is
made on the way. -/
theorem sum_to_comes_to_its_end :
    (∀ m s, Operators m s → s.id.index < m.frames.size → ∃ id m', Bound m' s id ∧
      ∀ fuel, (evalSource (fuel + 2) text (some s)).Concludes m (.ok (closure id s)) m') ∧
    ∀ m s t id, Bound m s id → m.lookup name t = some (closure id s) → ∀ i a : Int64, 0 ≤ i →
      ∃ o m', ComesTo o (a.toInt + i.toInt * (i.toInt + 1) / 2) ∧ m.OnlyAdds m' ∧
        ∀ fuel, 2 * i.toInt.toNat + 4 ≤ fuel → (eval fuel (callWith i a) t).Ends m o m' := by
  refine ⟨fun m s => concludes_definition, fun m s t id bound called i a positive => ?_⟩
  obtain ⟨k, hk⟩ := Int.eq_ofNat_of_zero_le (Int64.le_iff_toInt_le.mp positive)
  obtain ⟨o, m', run, comes, adds⟩ := concludes_callWith bound called hk a
  obtain ⟨m'', ends, same⟩ := run m rfl
  refine ⟨o, m'', ?_, adds.of_untraced same, fun fuel enough => ?_⟩
  · rw [hk]
    simpa using comes
  · rw [hk] at enough
    exact (eval_below enough _ t).ends ends

def Value.operators : List (Text × Value) :=
  [(DataOp.equal.name, .native ⟨0⟩ (.data .equal)), (DataOp.sub.name, .native ⟨1⟩ (.data .sub)),
    (DataOp.add.name, .native ⟨2⟩ (.data .add))]

def Scope.ofOperators : Scope := .frame ⟨0⟩ (.ofPairs Value.operators) none

def Machine.oneFrame : Machine := ⟨#[⟨false, ∅⟩], #[], 3, .empty, none, []⟩

open SumTo in
theorem hundred_thousand_rounds : ∃ id m,
    (evalSource 2 text (some .ofOperators)).Concludes .oneFrame (.ok (closure id .ofOperators)) m ∧
      ∃ m', (eval 200004 (callWith 100000 0) .ofOperators).Ends m (.ok (.int 5000050000)) m' := by
  have operators : Operators .oneFrame .ofOperators := by
    intro op hop
    have means (x : Text) : Machine.oneFrame.lookup x .ofOperators =
        (Assoc.ofPairs Value.operators).find? x := by
      rw [← Table.entries_ofPairs, ← Table.find?_eq]
      rfl
    simp only [List.mem_cons, List.not_mem_nil, or_false] at hop
    rcases hop with rfl | rfl | rfl
    · exact ⟨⟨0⟩, means _⟩
    · exact ⟨⟨1⟩, means _⟩
    · exact ⟨⟨2⟩, means _⟩
  obtain ⟨defines, calls⟩ := sum_to_comes_to_its_end
  obtain ⟨id, m, bound, made⟩ := defines _ _ operators (by decide)
  obtain ⟨o, m', ⟨comes, -⟩, -, ends⟩ :=
    calls m _ _ id bound bound.loop 100000 0 (by decide)
  obtain ⟨r, rfl, sum⟩ := comes (by decide)
  have result : r = 5000050000 := Int64.toInt_inj.mp (sum.trans (by decide))
  rw [result] at ends
  exact ⟨id, m, made 0, m', ends 200004 (by decide)⟩

end MiniLisp
