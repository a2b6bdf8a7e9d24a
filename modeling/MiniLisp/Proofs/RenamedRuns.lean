import MiniLisp.Proofs.Evaluation
import MiniLisp.Proofs.RenamedData

/-! Two machines that are one another's renaming go through the same run, step by step. Neither
leaves a trace, so whether a frame is traced makes no difference. -/
namespace MiniLisp

/-- The refusal to print an absent value names no frame. -/
theorem Printed.rename_eq {p : Policy} {o : Except Error Text} (h : Printed p o)
    (ρ : FrameId → FrameId) : o = renamed ρ (fun t => t) o := by
  cases o with
  | ok t => rfl
  | error e =>
    have he : e = .absent .printed := h.2
    subst he
    rfl

/-- The second machine is the first with its frames renamed. The frames that each makes next
correspond. -/
structure Machine.Renamed (ρ : FrameId → FrameId) (m n : Machine) : Prop where
  injective : Function.Injective ρ
  fresh : ∀ i, ρ ⟨m.frames.size + i⟩ = ⟨n.frames.size + i⟩
  bounded : ∀ f, f.index < m.frames.size → (ρ f).index < n.frames.size
  defined : ∀ f name, n.defined? (ρ f) name = (m.defined? f name).map (Value.rename ρ)
  cells : n.cells = m.cells.map (Value.rename ρ)
  functions : n.functions = m.functions
  output : n.output = m.output
  files : n.files = m.files
  silent : m.sink = none ∧ n.sink = none

namespace Machine.Renamed

variable {ρ : FrameId → FrameId} {m n : Machine}

theorem local? (h : m.Renamed ρ n) (s : Scope) (name : Text) :
    n.local? (s.rename ρ) name = (m.local? s name).map (Value.rename ρ) := by
  rw [Machine.local?, Machine.local?, Scope.id_rename, h.defined, Scope.given_rename,
    Table.find?_mapValues]
  cases m.defined? s.id name <;> rfl

theorem lookup (h : m.Renamed ρ n) (name : Text) :
    (s : Scope) → n.lookup name (s.rename ρ) = (m.lookup name s).map (Value.rename ρ)
  | .frame id given none => by
    have here := h.local? (.frame id given none) name
    rw [Scope.rename_frame] at *
    exact here
  | .frame id given (some parent) => by
    have here := h.local? (.frame id given (some parent)) name
    have outside := h.lookup name parent
    rw [Scope.rename_frame, Option.map_some] at *
    rw [Machine.lookup, Machine.lookup, here, outside]
    cases m.local? (.frame id given (some parent)) name <;> rfl

theorem cellContent (h : m.Renamed ρ n) (c : CellId) :
    n.cellContent c = (m.cellContent c).rename ρ := by
  rw [Machine.cellContent, h.cells, Printer.content_rename, Machine.cellContent]

theorem print (h : m.Renamed ρ n) (readable : Bool) (v : Value) :
    n.print readable (v.rename ρ) = renamed ρ (fun t => t) (m.print readable v) := by
  have printed := m.closed_everything.printed readable v.within_everything
  rw [← printed.rename_eq ρ, Machine.print, h.cells, printValue_rename, Machine.print]

theorem printAll (h : m.Renamed ρ n) (readable : Bool) (separator : Text) (vs : List Value) :
    printAll n.cells readable separator (vs.map (Value.rename ρ)) =
      renamed ρ (fun t => t) (printAll m.cells readable separator vs) := by
  have printed := m.closed_everything.printedAll readable separator
    (fun v (_ : v ∈ vs) => v.within_everything)
  rw [← printed.rename_eq ρ, h.cells, printAll_rename]

theorem file? (h : m.Renamed ρ n) (path : Text) : n.file? path = m.file? path := by
  rw [Machine.file?, Machine.file?, h.files]

theorem isTraced (h : m.Renamed ρ n) (s t : Scope) :
    m.isTraced s = false ∧ n.isTraced t = false := by
  rw [Machine.isTraced, Machine.isTraced, h.silent.1, h.silent.2]
  exact ⟨rfl, rfl⟩

/-- A frame that was not made yet has none that corresponds to it either. -/
theorem bounded_iff (h : m.Renamed ρ n) (f : FrameId) :
    (ρ f).index < n.frames.size ↔ f.index < m.frames.size := by
  refine ⟨fun made => ?_, h.bounded f⟩
  by_contra later
  have next := h.fresh (f.index - m.frames.size)
  rw [Nat.add_sub_cancel' (Nat.le_of_not_lt later)] at next
  rw [next] at made
  exact Nat.not_lt.mpr (Nat.le_add_right _ _) made

theorem newScope (h : m.Renamed ρ n) (parent : Option Scope) (given : Table Text Value) :
    (n.newFrame (parent.map (Scope.rename ρ)) (given.mapValues (Value.rename ρ))).1 =
      (m.newFrame parent given).1.rename ρ := by
  have same := h.fresh 0
  simp only [Nat.add_zero] at same
  simp only [Machine.newFrame, Scope.rename_frame, same]

theorem newFrame (h : m.Renamed ρ n) (parent : Option Scope) (given : Table Text Value) :
    (m.newFrame parent given).2.Renamed ρ
      (n.newFrame (parent.map (Scope.rename ρ)) (given.mapValues (Value.rename ρ))).2 := by
  have size (m : Machine) (parent : Option Scope) (given : Table Text Value) :
      (m.newFrame parent given).2.frames.size = m.frames.size + 1 := Array.size_push _
  constructor
  · exact h.injective
  · intro i
    have next := h.fresh (i + 1)
    rw [size, size]
    rwa [← Nat.add_assoc, ← Nat.add_assoc, Nat.add_right_comm, Nat.add_right_comm n.frames.size]
      at next
  · intro f hf
    rw [size] at hf ⊢
    rcases Nat.lt_succ_iff_lt_or_eq.mp hf with old | new
    · exact Nat.lt_succ_of_lt (h.bounded f old)
    · obtain rfl : f = ⟨m.frames.size⟩ := congrArg FrameId.mk new
      rw [show ρ ⟨m.frames.size⟩ = ⟨n.frames.size⟩ from h.fresh 0]
      exact Nat.lt_succ_self _
  · intro f name
    rw [Machine.defined?_newFrame, Machine.defined?_newFrame, h.defined]
  · exact h.cells
  · exact h.functions
  · exact h.output
  · exact h.files
  · exact h.silent

theorem newCell (h : m.Renamed ρ n) (v : Value) :
    (m.newCell v).2.Renamed ρ (n.newCell (v.rename ρ)).2 :=
  { h with
    cells := by
      show n.cells.push _ = (m.cells.push v).map _
      rw [h.cells, Array.map_push] }

theorem newFunction (h : m.Renamed ρ n) : m.newFunction.2.Renamed ρ n.newFunction.2 :=
  { h with functions := congrArg (· + 1) h.functions }

theorem define (h : m.Renamed ρ n) (s : Scope) (name : Text) (v : Value) :
    (m.define s name v).Renamed ρ (n.define (s.rename ρ) name (v.rename ρ)) := by
  have size := m.size_define s name v
  have size' := n.size_define (s.rename ρ) name (v.rename ρ)
  refine { h with
    fresh := by rw [size, size']; exact h.fresh
    bounded := by rw [size, size']; exact h.bounded
    defined := fun f other => ?_ }
  rw [Machine.defined?_define, Machine.defined?_define, Scope.id_rename]
  simp only [h.bounded_iff, h.injective.eq_iff]
  split
  · rfl
  · exact h.defined f other

theorem setCell (h : m.Renamed ρ n) (c : CellId) (v : Value) :
    (m.setCell c v).Renamed ρ (n.setCell c (v.rename ρ)) :=
  { h with
    cells := by
      show n.cells.setIfInBounds _ _ = (m.cells.setIfInBounds _ _).map _
      rw [h.cells, Array.map_setIfInBounds] }

theorem write (h : m.Renamed ρ n) (t : Text) : (m.write t).Renamed ρ (n.write t) :=
  { h with output := congrArg (· ++ t) h.output }

end Machine.Renamed

/-- Started from renamed machines, the second computation gives the answer of the first one
renamed, and leaves renamed machines. -/
def Tracks {α β : Type} (ρ : FrameId → FrameId) (f : α → β) (x : EvalM α) (y : EvalM β) : Prop :=
  ∀ m n, m.Renamed ρ n → (y.exec n).1 = carry (Halt.rename ρ) f (x.exec m).1 ∧
    (x.exec m).2.Renamed ρ (y.exec n).2

namespace Tracks

variable {α β γ δ : Type} {ρ : FrameId → FrameId} {f : α → γ} {g : β → δ}

theorem pure (ρ : FrameId → FrameId) (f : α → γ) (a : α) : Tracks ρ f (pure a) (pure (f a)) :=
  fun _ _ h => ⟨rfl, h⟩

theorem fail (f : α → γ) (e : Error) :
    Tracks ρ f (EvalM.fail e) (EvalM.fail (e.rename ρ)) := fun _ _ h => ⟨rfl, h⟩

theorem outOfFuel (f : α → γ) : Tracks ρ f (throw .outOfFuel) (throw .outOfFuel) :=
  fun _ _ h => ⟨rfl, h⟩

theorem ofExcept {o : Except Error α} {o' : Except Error γ} (h : o' = renamed ρ f o) :
    Tracks ρ f (EvalM.ofExcept o) (EvalM.ofExcept o') := by
  subst h
  cases o with
  | error e => exact fail f e
  | ok a => exact pure ρ f a

theorem bind {x : EvalM α} {y : EvalM γ} {k : α → EvalM β} {k' : γ → EvalM δ}
    (hx : Tracks ρ f x y) (hk : ∀ a, Tracks ρ g (k a) (k' (f a))) :
    Tracks ρ g (x >>= k) (y >>= k') := by
  intro m n h
  obtain ⟨same, after⟩ := hx m n h
  rw [EvalM.exec_bind, EvalM.exec_bind]
  rcases hm : x.exec m with ⟨o, m'⟩
  rcases hn : y.exec n with ⟨o', n'⟩
  rw [hm, hn] at same after
  dsimp only at same after
  subst same
  cases o with
  | error e => exact ⟨rfl, after⟩
  | ok a => exact hk a m' n' after

theorem discard {x : EvalM α} {y : EvalM γ} (h : Tracks ρ f x y) :
    Tracks ρ (fun u => u) (discard x) (discard y) := by
  show Tracks ρ _ ((fun _ => PUnit.unit) <$> x) ((fun _ => PUnit.unit) <$> y)
  rw [map_eq_pure_bind, map_eq_pure_bind]
  exact h.bind fun _ => pure ρ _ _

theorem read {k : Machine → EvalM α} {k' : Machine → EvalM γ}
    (h : ∀ m n, m.Renamed ρ n → Tracks ρ f (k m) (k' n)) :
    Tracks ρ f (get >>= k) (get >>= k') := by
  intro m n related
  rw [EvalM.exec_bind_ok (EvalM.exec_get m), EvalM.exec_bind_ok (EvalM.exec_get n)]
  exact h m n related m n related

theorem modify {change change' : Machine → Machine}
    (h : ∀ m n, m.Renamed ρ n → (change m).Renamed ρ (change' n)) :
    Tracks ρ (fun u => u) (modify change) (modify change') := fun m n related =>
  ⟨rfl, h m n related⟩

/-- Without a place for it there is no trace. -/
theorem trace (s s' : Scope) (message message' : EvalM Text) :
    Tracks ρ (fun u => u) (EvalM.trace s message) (EvalM.trace s' message') := by
  intro m n h
  obtain ⟨off, off'⟩ := h.isTraced s s'
  rw [EvalM.exec_trace_off off, EvalM.exec_trace_off off']
  exact ⟨rfl, h⟩

/-- There are as many results as items. -/
theorem mapM_bind {ε ζ : Type} {e : ε → ζ} {k : α → EvalM β} {k' : γ → EvalM δ}
    (h : ∀ a, Tracks ρ g (k a) (k' (f a))) (xs : List α) {next : List β → EvalM ε}
    {next' : List δ → EvalM ζ}
    (hn : ∀ bs, bs.length = xs.length → Tracks ρ e (next bs) (next' (bs.map g))) :
    Tracks ρ e (xs.mapM k >>= next) ((xs.map f).mapM k' >>= next') := by
  induction xs generalizing next next' with
  | nil => exact hn [] rfl
  | cons a xs ih =>
    simp only [List.map_cons, List.mapM_cons, bind_assoc, pure_bind]
    refine (h a).bind fun b => ih fun bs same => ?_
    exact hn (b :: bs) (congrArg (· + 1) same)

theorem mapM {k : α → EvalM β} {k' : γ → EvalM δ} (h : ∀ a, Tracks ρ g (k a) (k' (f a)))
    (xs : List α) : Tracks ρ (List.map g) (xs.mapM k) ((xs.map f).mapM k') := by
  have results := mapM_bind h xs (e := List.map g) fun bs _ => pure ρ (List.map g) bs
  rwa [bind_pure, bind_pure] at results

theorem forM {k : α → EvalM PUnit} {k' : γ → EvalM PUnit}
    (h : ∀ a, Tracks ρ (fun u => u) (k a) (k' (f a))) (xs : List α) :
    Tracks ρ (fun u => u) (xs.forM k) ((xs.map f).forM k') := by
  induction xs with
  | nil => exact pure ρ _ _
  | cons a xs ih => exact (h a).bind fun _ => ih

theorem newFrame (parent : Option Scope) (given : Table Text Value) :
    Tracks ρ (Scope.rename ρ) (EvalM.newFrame parent given)
      (EvalM.newFrame (parent.map (Scope.rename ρ)) (given.mapValues (Value.rename ρ))) :=
  fun _ _ h => ⟨congrArg Except.ok (h.newScope parent given), h.newFrame parent given⟩

theorem newCell (v : Value) :
    Tracks ρ (Value.rename ρ) (EvalM.newCell v) (EvalM.newCell (v.rename ρ)) := by
  intro m n h
  refine ⟨?_, h.newCell v⟩
  show Except.ok (Value.cell ⟨n.cells.size⟩) = Except.ok ((Value.cell ⟨m.cells.size⟩).rename ρ)
  rw [Value.rename_cell, h.cells, Array.size_map]

theorem newFunction : Tracks ρ (fun id => id) (modifyGet Machine.newFunction : EvalM FunId)
    (modifyGet Machine.newFunction) := by
  intro m n h
  refine ⟨?_, h.newFunction⟩
  show Except.ok (FunId.mk n.functions) = Except.ok (FunId.mk m.functions)
  rw [h.functions]

theorem newClosure (params : Params) (body : Value) (scope : Option Scope) :
    Tracks ρ (Value.rename ρ) (EvalM.newClosure params body scope)
      (EvalM.newClosure params (body.rename ρ) (scope.map (Scope.rename ρ))) := by
  refine newFunction.bind fun id => ?_
  rw [← Value.rename_closure]
  exact pure ρ _ _

theorem define (s : Scope) (name : Text) (v : Value) :
    Tracks ρ (fun u => u) (EvalM.define s name v)
      (EvalM.define (s.rename ρ) name (v.rename ρ)) :=
  modify fun _ _ h => h.define s name v

theorem lookup (s : Scope) (name : Text) :
    Tracks ρ (Value.rename ρ) (EvalM.lookup s name) (EvalM.lookup (s.rename ρ) name) := by
  refine read fun m n h => ?_
  rw [h.lookup name s]
  cases m.lookup name s with
  | none => exact fail _ (.unbound name)
  | some v => exact pure ρ _ v

theorem readable (v : Value) :
    Tracks ρ (fun t => t) (EvalM.readable v) (EvalM.readable (v.rename ρ)) :=
  read fun _ _ h => ofExcept (h.print true v)

end Tracks

def TrackedEvaluator (ρ : FrameId → FrameId) (evaluate : Value → Scope → EvalM Value) : Prop :=
  ∀ e s, Tracks ρ (Value.rename ρ) (evaluate e s) (evaluate (e.rename ρ) (s.rename ρ))

def TrackedApplier (ρ : FrameId → FrameId) (apply : Applier) : Prop :=
  ∀ f args, Tracks ρ (Value.rename ρ) (apply f args)
    (apply (f.rename ρ) (args.map (Value.rename ρ)))

section

variable {ρ : FrameId → FrameId} (args : List Value)

abbrev TracksValue (ρ : FrameId → FrameId) (x : List Value → EvalM Value) (args : List Value) :
    Prop := Tracks ρ (Value.rename ρ) (x args) (x (args.map (Value.rename ρ)))

theorem Tracks.arity {α β : Type} {f : α → β} (who : Text) (expected : Nat) :
    Tracks ρ f (EvalM.fail (.arity who expected args.length))
      (EvalM.fail (.arity who expected (args.map (Value.rename ρ)).length)) := by
  rw [List.length_map]
  exact fail f _

theorem Tracks.arityAtLeast {α β : Type} {f : α → β} (who : Text) (least : Nat) :
    Tracks ρ f (EvalM.fail (.arityAtLeast who least args.length))
      (EvalM.fail (.arityAtLeast who least (args.map (Value.rename ρ)).length)) := by
  rw [List.length_map]
  exact fail f _

theorem CellOp.run_tracks (op : CellOp) : TracksValue ρ op.run args := by
  cases op with
  | create =>
    rcases args with _ | ⟨v, _ | ⟨w, rest⟩⟩
    · exact Tracks.arity [] _ _
    · exact Tracks.newCell v
    · exact Tracks.arity (v :: w :: rest) _ _
  | deref =>
    rcases args with _ | ⟨a, _ | ⟨w, rest⟩⟩
    · exact Tracks.arity [] _ _
    · refine (Tracks.ofExcept (a.cellArg_rename ρ _)).bind fun c => Tracks.read fun m n h => ?_
      rw [id, h.cellContent]
      exact Tracks.pure ρ _ _
    · exact Tracks.arity (a :: w :: rest) _ _
  | reset =>
    rcases args with _ | ⟨a, _ | ⟨v, _ | ⟨w, rest⟩⟩⟩
    · exact Tracks.arity [] _ _
    · exact Tracks.arity [a] _ _
    · refine (Tracks.ofExcept (a.cellArg_rename ρ _)).bind fun c => ?_
      exact (Tracks.modify fun _ _ h => h.setCell c v).bind fun _ => Tracks.pure ρ _ v
    · exact Tracks.arity (a :: v :: w :: rest) _ _

theorem TextOp.run_tracks (op : TextOp) : TracksValue ρ op.run args := by
  refine Tracks.read fun m n h => ?_
  refine (Tracks.ofExcept (h.printAll op.isReadable op.separator args)).bind fun text => ?_
  split
  · refine (Tracks.modify fun _ _ h => h.write _).bind fun _ => ?_
    exact Tracks.pure ρ (Value.rename ρ) .nil
  · exact Tracks.pure ρ (Value.rename ρ) (.str text)

theorem CallOp.spread_rename (who : Text) :
    spread who (args.map (Value.rename ρ)) =
      renamed ρ (List.map (Value.rename ρ)) (spread who args) := by
  have last : (args.map (Value.rename ρ)).getLast?.getD .null =
      (args.getLast?.getD .null).rename ρ := by
    rw [List.getLast?_map]
    cases args.getLast? <;> simp
  rw [spread, last]
  refine carry_bind (Value.itemsArg_rename ρ who _) fun xs => ?_
  simp [carry, List.map_dropLast]

variable {apply : Applier}

theorem CallOp.run_tracks (ha : TrackedApplier ρ apply) (op : CallOp) :
    TracksValue ρ (op.run apply) args := by
  cases op with
  | apply =>
    rcases args with _ | ⟨f, _ | ⟨a, rest⟩⟩
    · exact Tracks.arityAtLeast [] _ _
    · exact Tracks.arityAtLeast [f] _ _
    · refine (Tracks.ofExcept (f.functionArg_rename ρ _)).bind fun f => ?_
      exact (Tracks.ofExcept (spread_rename (a :: rest) _)).bind fun args => ha f args
  | map =>
    rcases args with _ | ⟨f, _ | ⟨s, _ | ⟨w, rest⟩⟩⟩
    · exact Tracks.arity [] _ _
    · exact Tracks.arity [f] _ _
    · refine (Tracks.ofExcept (f.functionArg_rename ρ _)).bind fun f => ?_
      refine (Tracks.ofExcept (s.itemsArg_rename ρ _)).bind fun items => ?_
      have each : Tracks ρ (List.map (Value.rename ρ)) (items.toList.mapM fun v => apply f [v])
          ((items.toList.map (Value.rename ρ)).mapM fun v => apply (f.rename ρ) [v]) := by
        refine Tracks.mapM ?_ items.toList
        exact fun v => ha f [v]
      rw [Array.toList_map]
      refine each.bind fun results => ?_
      rw [← List.map_toArray, ← Value.rename_list]
      exact Tracks.pure ρ _ _
    · exact Tracks.arity (f :: s :: w :: rest) _ _
  | swap =>
    rcases args with _ | ⟨a, _ | ⟨f, extra⟩⟩
    · exact Tracks.arityAtLeast [] _ _
    · exact Tracks.arityAtLeast [a] _ _
    · refine (Tracks.ofExcept (a.cellArg_rename ρ _)).bind fun c => ?_
      refine (Tracks.ofExcept (f.functionArg_rename ρ _)).bind fun f => ?_
      refine Tracks.read fun m n h => ?_
      rw [id, h.cellContent]
      refine (ha f (m.cellContent c :: extra)).bind fun new => ?_
      exact (Tracks.modify fun _ _ h => h.setCell c new).bind fun _ => Tracks.pure ρ _ new

theorem HostOp.run_tracks (ha : TrackedApplier ρ apply) (op : HostOp) :
    TracksValue ρ (op.run apply) args := by
  cases op with
  | list =>
    have listed := Tracks.pure ρ (Value.rename ρ) (.list args.toArray)
    rwa [Value.rename_list, List.map_toArray] at listed
  | collect => exact Tracks.pure ρ (Value.rename ρ) .nil
  | call =>
    rcases args with _ | ⟨f, rest⟩
    · exact Tracks.fail _ .noFunction
    · exact ha f rest

theorem throwValue_tracks : TracksValue ρ throwValue args := by
  rcases args with _ | ⟨v, _ | ⟨w, rest⟩⟩
  · exact Tracks.arity [] _ _
  · exact (Tracks.readable v).bind fun message => Tracks.fail _ (.thrown v message)
  · exact Tracks.arity (v :: w :: rest) _ _

theorem slurpFile_tracks : TracksValue ρ slurpFile args := by
  rcases args with _ | ⟨a, _ | ⟨w, rest⟩⟩
  · exact Tracks.arity [] _ _
  · refine (Tracks.ofExcept (a.textArg_rename ρ _)).bind fun path => Tracks.read fun m n h => ?_
    rw [id, h.file?]
    cases m.file? path with
    | none => exact Tracks.fail _ (.cannotOpen path)
    | some contents => exact Tracks.pure ρ (Value.rename ρ) (.str contents)
  · exact Tracks.arity (a :: w :: rest) _ _

theorem Native.run_tracks {evaluate : Value → Scope → EvalM Value}
    (he : TrackedEvaluator ρ evaluate) (ha : TrackedApplier ρ apply) (op : Native) :
    Tracks ρ (Value.rename ρ) (op.run evaluate apply args)
      ((op.rename ρ).run evaluate apply (args.map (Value.rename ρ))) := by
  cases op with
  | data op => exact Tracks.ofExcept (op.run_rename ρ args)
  | cell op => exact op.run_tracks args
  | text op => exact op.run_tracks args
  | call op => exact op.run_tracks args ha
  | throw => exact throwValue_tracks args
  | slurp => exact slurpFile_tracks args
  | evalIn scope =>
    rcases args with _ | ⟨e, _ | ⟨w, rest⟩⟩
    · exact Tracks.arity [] _ _
    · exact he e scope
    · exact Tracks.arity (e :: w :: rest) _ _
  | host name op => exact op.run_tracks args ha

end

end MiniLisp
