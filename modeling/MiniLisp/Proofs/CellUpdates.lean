import MiniLisp.Proofs.CallPaths

/-! A swap reads the cell, calls its function and writes what the function returns. In between the
function may do anything to the same cell. -/
namespace MiniLisp

open EvalM

/-- The second machine is the first with another content in one cell. -/
structure Machine.Replaces (m : Machine) (c : CellId) (v : Value) (n : Machine) : Prop where
  content : ∀ d, n.cellContent d = if d = c then v else m.cellContent d
  size : n.cells.size = m.cells.size
  rest : { n with cells := m.cells } = m

namespace Machine

variable {m n : Machine} {c : CellId}

theorem replaces_setCell (allocated : c.index < m.cells.size) (v : Value) :
    m.Replaces c v (m.setCell c v) where
  content d := by
    rw [cellContent_setCell]
    simp only [allocated, and_true]
  size := Array.size_setIfInBounds
  rest := rfl

/-- Nothing is left open by what a replacement says. -/
theorem Replaces.eq {v : Value} {n' : Machine} (h : m.Replaces c v n) (h' : m.Replaces c v n') :
    n = n' := by
  have cells : n.cells = n'.cells := by
    refine Array.ext (h.size.trans h'.size.symm) fun i hi hi' => ?_
    have same := (h.content ⟨i⟩).trans (h'.content ⟨i⟩).symm
    simpa [cellContent, Printer.content, hi, hi'] using same
  have rest := h.rest.trans h'.rest.symm
  cases n
  cases n'
  simp only [Machine.mk.injEq] at cells rest ⊢
  exact ⟨rest.1, cells, rest.2.2⟩

theorem replaces_iff (allocated : c.index < m.cells.size) (v : Value) :
    m.Replaces c v n ↔ n = m.setCell c v := by
  constructor
  · exact fun h => h.eq (replaces_setCell allocated v)
  · rintro rfl
    exact replaces_setCell allocated v

end Machine

section

variable {m n : Machine} {c : CellId} {f : Value} {extra : List Value} {id : FunId}

theorem exec_swap (function : f.isFunction) (fuel : Nat) :
    (applyFunction (fuel + 1) (.native id (.call .swap)) (.cell c :: f :: extra)).exec m =
      (applyFunction fuel f (m.cellContent c :: extra) >>= fun v =>
        modify (·.setCell c v) >>= fun _ => pure v).exec m := by
  have callee : f.functionArg CallOp.swap.name = .ok f := by
    rw [Value.functionArg, if_pos function]
  have ran : applyFunction (fuel + 1) (.native id (.call .swap)) (.cell c :: f :: extra) =
      ofExcept (f.functionArg CallOp.swap.name) >>= fun f => get >>= fun m =>
        applyFunction fuel f (m.cellContent c :: extra) >>= fun v =>
          modify (·.setCell c v) >>= fun _ => pure v := rfl
  rw [ran, callee]
  rfl

theorem Returns.allocated {o : Except Error Value} {args : List Value}
    (h : Returns f args m o n) (allocated : c.index < m.cells.size) : c.index < n.cells.size := by
  obtain ⟨_, advance⟩ := h.advance
  exact Nat.lt_of_lt_of_le allocated advance.cells

/-- A swap returns what its function returns on the content, and puts that in the place of
whatever the function left in the cell. -/
theorem returns_swap_iff (allocated : c.index < m.cells.size) (function : f.isFunction)
    (id : FunId) (v : Value) :
    Returns (.native id (.call .swap)) (.cell c :: f :: extra) m (.ok v) n ↔
      ∃ k, Returns f (m.cellContent c :: extra) m (.ok v) k ∧ k.Replaces c v n := by
  constructor
  · rintro ⟨_ | fuel, run⟩
    · cases run
    · rw [Ends, exec_swap function] at run
      rcases Ends.of_bind run with ⟨err, failed, _⟩ | ⟨w, k, called, written⟩
      · cases failed
      · cases written
        have returned : Returns f (m.cellContent c :: extra) m (.ok v) k := ⟨fuel, called⟩
        exact ⟨k, returned, Machine.replaces_setCell (returned.allocated allocated) v⟩
  · rintro ⟨k, returned, replaced⟩
    rw [Machine.replaces_iff (returned.allocated allocated)] at replaced
    obtain ⟨fuel, run⟩ := returned
    refine ⟨fuel + 1, (exec_swap function fuel).trans ((exec_bind_ok run _).trans ?_)⟩
    rw [replaced]
    rfl

/-- A swap fails where its function does, and writes nothing then. -/
theorem returns_swap_error_iff (function : f.isFunction) (id : FunId) (err : Error) :
    Returns (.native id (.call .swap)) (.cell c :: f :: extra) m (.error err) n ↔
      Returns f (m.cellContent c :: extra) m (.error err) n := by
  constructor
  · rintro ⟨_ | fuel, run⟩
    · cases run
    · rw [Ends, exec_swap function] at run
      rcases Ends.of_bind run with ⟨err', failed, called⟩ | ⟨w, k, _, written⟩
      · cases failed
        exact ⟨fuel, called⟩
      · cases written
  · rintro ⟨fuel, run⟩
    exact ⟨fuel + 1, (exec_swap function fuel).trans (exec_bind_error run _)⟩

theorem returns_reset {o : Except Error Value} {v : Value} (allocated : c.index < m.cells.size)
    (h : Returns (.native id (.cell .reset)) [.cell c, v] m o n) :
    o = .ok v ∧ m.Replaces c v n := by
  have run : Returns (.native id (.cell .reset)) [.cell c, v] m (.ok v) (m.setCell c v) :=
    ⟨1, rfl⟩
  obtain ⟨rfl, rfl⟩ := h.unique run
  exact ⟨rfl, Machine.replaces_setCell allocated v⟩

theorem returns_deref (id : FunId) (c : CellId) (m : Machine) :
    Returns (.native id (.cell .deref)) [.cell c] m (.ok (m.cellContent c)) m := ⟨1, rfl⟩

end

theorem Returns.data {op : DataOp} {args : List Value} {o : Except Error Value} {m n : Machine}
    {id : FunId} (h : Returns (.native id (.data op)) args m o n) : o = op.run args ∧ n = m :=
  h.unique ⟨1, ends_ofExcept (op.run args) m⟩

inductive CellCall where
  | swap (f : Value) (function : f.isFunction) (extra : List Value)
  | reset (v : Value)

namespace CellCall

def op : CellCall → Native
  | swap _ _ _ => .call .swap
  | reset _ => .cell .reset

def args (c : CellId) : CellCall → List Value
  | swap f _ extra => .cell c :: f :: extra
  | reset v => [.cell c, v]

/-- The call is made, on the native itself or by an expression that names the native, the cell and
the other arguments, in whatever scope it stands. What such an expression traces is left out. -/
inductive Made (u : CellCall) (c : CellId) : Machine → Except Error Value → Machine → Prop where
  | applied {id : FunId} {m : Machine} {o : Except Error Value} {n : Machine} :
      Returns (.native id u.op) (u.args c) m o n → u.Made c m o n
  | named {id : FunId} {s : Scope} {g : Text} {xs : List Text} {m : Machine}
      {o : Except Error Value} {n : Machine} :
      (m.sink = none ∨ ∀ z, Accesses m [.scope s] z → z ≠ .value .null) →
      Meant m s g xs (.native id u.op) (u.args c) → Yields (callOf g xs) s m o n →
      u.Made c m.untraced o n.untraced

/-- The function that is called leaves the cell as it found it. -/
def Spares (c : CellId) (m : Machine) : CellCall → Prop
  | swap f _ extra => ∀ o k, Returns f (m.cellContent c :: extra) m o k →
      k.cellContent c = m.cellContent c
  | reset _ => True

inductive Run (c : CellId) : List CellCall → Machine → Machine → Prop where
  | nil {m : Machine} : Run c [] m m
  | cons {u : CellCall} {us : List CellCall} {o : Except Error Value} {m m₁ n : Machine} :
      u.Spares c m → u.Made c m o m₁ → Run c us m₁ n → Run c (u :: us) m n

/-- The left fold of calls over a value. The value is handed on from call to call and never read
from the store: a swap makes of it what its function returns, and keeps it where the function
fails. -/
inductive FoldsTo (c : CellId) : Value → List CellCall → Machine → Value → Machine → Prop where
  | nil {v : Value} {m : Machine} : FoldsTo c v [] m v m
  | swap {v r w f : Value} {function : f.isFunction} {extra : List Value} {us : List CellCall}
      {m k m₁ n : Machine} : Returns f (v :: extra) m (.ok r) k → k.Replaces c r m₁ →
      FoldsTo c r us m₁ w n → FoldsTo c v (.swap f function extra :: us) m w n
  | fail {v w f : Value} {function : f.isFunction} {extra : List Value} {us : List CellCall}
      {err : Error} {m m₁ n : Machine} : Returns f (v :: extra) m (.error err) m₁ →
      FoldsTo c v us m₁ w n → FoldsTo c v (.swap f function extra :: us) m w n
  | reset {v r w : Value} {us : List CellCall} {m m₁ n : Machine} : m.Replaces c r m₁ →
      FoldsTo c r us m₁ w n → FoldsTo c v (.reset r :: us) m w n

theorem Made.returns {u : CellCall} {c : CellId} {m n : Machine} {o : Except Error Value}
    (h : u.Made c m o n) : ∃ id, Returns (.native id u.op) (u.args c) m o n := by
  cases h with
  | applied returns => exact ⟨_, returns⟩
  | named present meant yields =>
    have yields := (yields_untraced_iff_of_names (callOf_within _ _) present).mp ⟨_, yields, rfl⟩
    exact ⟨_, (yields_native_iff rfl meant.untraced).mp yields⟩

/-- The value that is handed on is what the cell holds, by induction on the calls. -/
theorem Run.foldsTo {c : CellId} {us : List CellCall} {m n : Machine} (h : Run c us m n)
    (allocated : c.index < m.cells.size) :
    FoldsTo c (m.cellContent c) us m (n.cellContent c) n := by
  induction h with
  | nil => exact .nil
  | @cons u us o m m₁ n spares made _ ih =>
    obtain ⟨id, returns⟩ := made.returns
    have rest := ih (returns.allocated allocated)
    cases u with
    | swap f function extra =>
      cases o with
      | ok r =>
        obtain ⟨k, called, replaced⟩ := (returns_swap_iff allocated function id r).mp returns
        rw [replaced.content, if_pos rfl] at rest
        exact .swap called replaced rest
      | error err =>
        have called := (returns_swap_error_iff function id err).mp returns
        rw [spares _ _ called] at rest
        exact .fail called rest
    | reset v =>
      obtain ⟨-, replaced⟩ := returns_reset allocated returns
      rw [replaced.content, if_pos rfl] at rest
      exact .reset replaced rest

/-- There is one fold. -/
theorem FoldsTo.unique {c : CellId} {v w w' : Value} {us : List CellCall} {m n n' : Machine}
    (h : FoldsTo c v us m w n) (h' : FoldsTo c v us m w' n') : w = w' ∧ n = n' := by
  induction h generalizing w' n' with
  | nil =>
    cases h'
    exact ⟨rfl, rfl⟩
  | swap called replaced _ ih =>
    cases h' with
    | swap called' replaced' rest =>
      obtain ⟨same, rfl⟩ := called.unique called'
      cases same
      cases replaced.eq replaced'
      exact ih rest
    | fail called' _ => cases (called.unique called').1
  | fail called _ ih =>
    cases h' with
    | swap called' _ _ => cases (called.unique called').1
    | fail called' rest =>
      obtain ⟨-, rfl⟩ := called.unique called'
      exact ih rest
  | reset replaced _ ih =>
    cases h' with
    | reset replaced' rest =>
      cases replaced.eq replaced'
      exact ih rest

def Answers (answer : Value → Except Error Value) : CellCall → Prop
  | swap f _ extra => ∀ v m o n, Returns f (v :: extra) m o n → o = answer v
  | reset r => ∀ v, answer v = .ok r

/-- Where calls depend on the content alone the fold is that of a list. -/
theorem FoldsTo.eq_foldl {c : CellId} {v w : Value} {us : List CellCall} {m n : Machine}
    (h : FoldsTo c v us m w n) {answer : CellCall → Value → Except Error Value}
    (answers : ∀ u ∈ us, u.Answers (answer u)) :
    w = us.foldl (fun v u => (answer u v).toOption.getD v) v := by
  induction h with
  | nil => rfl
  | @swap v r w f function extra us m k m₁ n called _ _ ih =>
    obtain ⟨first, others⟩ := List.forall_mem_cons.mp answers
    rw [ih others, List.foldl_cons, ← first v m _ _ called]
    rfl
  | @fail v w f function extra us err m m₁ n called _ ih =>
    obtain ⟨first, others⟩ := List.forall_mem_cons.mp answers
    rw [ih others, List.foldl_cons, ← first v m _ _ called]
    rfl
  | @reset v r w us m m₁ n _ _ ih =>
    obtain ⟨first, others⟩ := List.forall_mem_cons.mp answers
    rw [ih others, List.foldl_cons, first v]
    rfl

end CellCall

open CellCall

/-- A swap applies its function once, to the content it finds, and its only other effect is to put
the result into the cell. So calls made one after the other, through whatever names of the cell,
leave the left fold of what they do, and whoever reads the cell reads that. -/
theorem swaps_lose_no_update {c : CellId} {m : Machine} (allocated : c.index < m.cells.size) :
    (∀ (f : Value) (extra : List Value) (id : FunId), f.isFunction →
      (∀ v n, Returns (.native id (.call .swap)) (.cell c :: f :: extra) m (.ok v) n ↔
        ∃ k, Returns f (m.cellContent c :: extra) m (.ok v) k ∧ k.Replaces c v n) ∧
      ∀ err n, Returns (.native id (.call .swap)) (.cell c :: f :: extra) m (.error err) n ↔
        Returns f (m.cellContent c :: extra) m (.error err) n) ∧
    ∀ us n, Run c us m n →
      (∃ w, FoldsTo c (m.cellContent c) us m w n ∧
        (∀ w' n', FoldsTo c (m.cellContent c) us m w' n' → w' = w ∧ n' = n) ∧
        (∀ answer : CellCall → Value → Except Error Value,
          (∀ u ∈ us, u.Answers (answer u)) →
            w = us.foldl (fun v u => (answer u v).toOption.getD v) (m.cellContent c)) ∧
        (∀ id, Returns (.native id (.cell .deref)) [.cell c] n (.ok w) n) ∧
        ∀ k s g x id, k.untraced = n.untraced →
          (k.sink = none ∨ ∀ z, Accesses k [.scope s] z → z ≠ .value .null) →
          Meant k s g [x] (.native id (.cell .deref)) [.cell c] →
          ∃ k', Yields (callOf g [x]) s k (.ok w) k' ∧ k'.untraced = n.untraced ∧
            (k.sink = none → k' = k)) := by
  refine ⟨fun f extra id function => ⟨fun v n => ?_, fun err n => ?_⟩, fun us n run => ?_⟩
  · exact returns_swap_iff allocated function id v
  · exact returns_swap_error_iff function id err
  · have fold := run.foldsTo allocated
    refine ⟨n.cellContent c, fold, fun w' n' other => other.unique fold,
      fun answer => fold.eq_foldl, fun id => returns_deref id c n,
      fun k s g x id same present meant => ?_⟩
    have read : ∃ k', Yields (callOf g [x]) s k (.ok (n.cellContent c)) k' ∧
        k'.untraced = n.untraced := by
      rw [yields_untraced_iff_of_names (callOf_within _ _) present,
        yields_native_iff rfl meant.untraced, same]
      exact returns_deref id c n.untraced
    obtain ⟨k', yields, after⟩ := read
    refine ⟨k', yields, after, fun silent => ?_⟩
    obtain ⟨_, advance⟩ := yields.advance
    rw [← Machine.untraced_of_silent (advance.silent silent), after, ← same,
      Machine.untraced_of_silent silent]

def Machine.counting (i : Int64) : Machine := ⟨#[⟨false, ∅⟩], #[.int i], 3, .empty, none, []⟩

def Value.aroundCounter : List (Text × Value) :=
  [(ascii "x", .cell ⟨0⟩), (ascii "y", .cell ⟨0⟩), (ascii "two", .int 2), (ascii "nothing", .nil),
    (CallOp.swap.name, .native ⟨0⟩ (.call .swap)), (DataOp.add.name, .native ⟨1⟩ (.data .add)),
    (CellOp.deref.name, .native ⟨2⟩ (.cell .deref))]

def Scope.ofCounter : Scope := .frame ⟨0⟩ (.ofPairs Value.aroundCounter) none

theorem lookup_ofCounter (i : Int64) (name : Text) : (Machine.counting i).lookup name .ofCounter =
    (Assoc.ofPairs Value.aroundCounter).find? name := by
  rw [← Table.entries_ofPairs, ← Table.find?_eq]
  rfl

def CellCall.adding (v : Value) : CellCall := .swap (.native ⟨1⟩ (.data .add)) rfl [v]

/-- What is no number is not added, and two is added through either name of the cell. -/
theorem counter_is_added_to : ∃ n,
    CellCall.Run ⟨0⟩ [.adding (.int 2), .adding .nil, .adding (.int 2)] (.counting 1) n ∧
      Yields (callOf CellOp.deref.name [ascii "x"]) .ofCounter n (.ok (.int 5)) n := by
  have spares (v : Value) (m : Machine) : (adding v).Spares ⟨0⟩ m :=
    fun _ _ called => congrArg (fun n => n.cellContent ⟨0⟩) called.data.2
  have made {x y : Text} {v : Value} {i j : Int64} {o : Except Error Value}
      (cell : (Assoc.ofPairs Value.aroundCounter).find? x = some (.cell ⟨0⟩))
      (added : (Assoc.ofPairs Value.aroundCounter).find? y = some v)
      (run : (applyFunction 2 (.native ⟨0⟩ (.call .swap)) ((adding v).args ⟨0⟩)).Ends
        (.counting i) o (.counting j)) : (adding v).Made ⟨0⟩ (.counting i) o (.counting j) := by
    have meant : Meant (.counting i) .ofCounter CallOp.swap.name [x, DataOp.add.name, y]
        (.native ⟨0⟩ (.call .swap)) ((adding v).args ⟨0⟩) := by
      refine ⟨by decide, ?_, .cons ?_ (.cons ?_ (.cons ?_ .nil))⟩
      all_goals rw [lookup_ofCounter]
      · rfl
      · exact cell
      · rfl
      · exact added
    exact .named (.inl rfl) meant ((yields_native_iff rfl meant).mpr ⟨2, run⟩)
  have run : CellCall.Run ⟨0⟩ [.adding (.int 2), .adding .nil, .adding (.int 2)] (.counting 1)
      (.counting 5) := by
    have first : (adding (.int 2)).Made ⟨0⟩ (.counting 1) (.ok (.int 3)) (.counting 3) :=
      made (x := ascii "x") (y := ascii "two") rfl rfl rfl
    have refused : (adding .nil).Made ⟨0⟩ (.counting 3)
        (.error (Value.nil.mismatch DataOp.add.name (.kind .integer))) (.counting 3) :=
      made (x := ascii "y") (y := ascii "nothing") rfl rfl rfl
    have last : (adding (.int 2)).Made ⟨0⟩ (.counting 3) (.ok (.int 5)) (.counting 5) :=
      made (x := ascii "y") (y := ascii "two") rfl rfl rfl
    exact .cons (spares _ _) first (.cons (spares _ _) refused (.cons (spares _ _) last .nil))
  have allocated : (⟨0⟩ : CellId).index < (Machine.counting 1).cells.size := by decide
  obtain ⟨w, fold, -, -, -, read⟩ := (swaps_lose_no_update allocated).2 _ _ run
  obtain ⟨rfl, -⟩ := fold.unique (run.foldsTo allocated)
  have named : Meant (.counting 5) .ofCounter CellOp.deref.name [ascii "x"]
      (.native ⟨2⟩ (.cell .deref)) [.cell ⟨0⟩] := by
    refine ⟨by decide, ?_, .cons ?_ .nil⟩
    all_goals rw [lookup_ofCounter]; rfl
  obtain ⟨k, yields, -, kept⟩ :=
    read _ .ofCounter CellOp.deref.name (ascii "x") ⟨2⟩ rfl (.inl rfl) named
  cases kept rfl
  exact ⟨_, run, yields⟩

end MiniLisp
