import Mathlib.Data.List.Forall2
import MiniLisp.Proofs.Adequacy
import MiniLisp.Proofs.MoreSteps
import MiniLisp.Proofs.RenamedRuns

/-! A call in a program goes on in the loop, a call from a native or a host evaluates the body anew.
On a machine that traces nothing the two are the same run, whatever scope the call stands in. -/
namespace MiniLisp

open EvalM

/-- An expression comes to an end, granted enough steps. -/
def Yields (e : Value) (s : Scope) (m : Machine) (o : Except Error Value) (n : Machine) : Prop :=
  ∃ fuel, (eval fuel e s).Ends m o n

/-- A function called with values comes to an end, granted enough steps. -/
def Returns (f : Value) (args : List Value) (m : Machine) (o : Except Error Value)
    (n : Machine) : Prop := ∃ fuel, (applyFunction fuel f args).Ends m o n

def callOf (g : Text) (xs : List Text) : Value := .list ⟨.sym g :: xs.map .sym⟩

structure Meant (m : Machine) (s : Scope) (g : Text) (xs : List Text) (f : Value)
    (args : List Value) : Prop where
  plain : SpecialForm.ofName? g = none
  callee : m.lookup g s = some f
  arguments : List.Forall₂ (fun x v => m.lookup x s = some v) xs args

section

variable {m n n' : Machine} {o o' : Except Error Value}

theorem Yields.unique {e : Value} {s : Scope} (h : Yields e s m o n) (h' : Yields e s m o' n') :
    o = o' ∧ n = n' := by
  obtain ⟨fuel, run⟩ := h
  obtain ⟨fuel', run'⟩ := h'
  have long := (eval_below (Nat.le_max_left fuel fuel') e s).ends run
  have long' := (eval_below (Nat.le_max_right fuel fuel') e s).ends run'
  exact long.unique long'

theorem Returns.unique {f : Value} {args : List Value} (h : Returns f args m o n)
    (h' : Returns f args m o' n') : o = o' ∧ n = n' := by
  obtain ⟨fuel, run⟩ := h
  obtain ⟨fuel', run'⟩ := h'
  have long := (applyFunction_below (Nat.le_max_left fuel fuel') f args).ends run
  have long' := (applyFunction_below (Nat.le_max_right fuel fuel') f args).ends run'
  exact long.unique long'

/-- Whatever number of steps is asked for, as many are granted. -/
theorem Yields.from {e : Value} {s : Scope} (h : Yields e s m o n) (least : Nat) :
    ∃ fuel, (eval (fuel + least) e s).Ends m o n := by
  obtain ⟨fuel, run⟩ := h
  exact ⟨fuel, (eval_below (Nat.le_add_right fuel least) e s).ends run⟩

theorem Returns.from {f : Value} {args : List Value} (h : Returns f args m o n) (least : Nat) :
    ∃ fuel, (applyFunction (fuel + least) f args).Ends m o n := by
  obtain ⟨fuel, run⟩ := h
  exact ⟨fuel, (applyFunction_below (Nat.le_add_right fuel least) f args).ends run⟩

/-- Whatever is run, frames and cells stay, and a machine without a trace has none afterwards. -/
theorem EvalM.Ends.advance {x : EvalM Value} {P : Region → Value → Prop} (run : x.Ends m o n)
    (safe : SafeAlone .lax .everything P x) :
    ∃ r, Advance (fun _ => True) .everything r m n := by
  obtain ⟨r, advance, _⟩ := safe m m m.closed_everything
    ⟨fun _ => trivial, fun _ => trivial⟩ rfl
  rw [run] at advance
  exact ⟨r, advance⟩

theorem Yields.advance {e : Value} {s : Scope} (h : Yields e s m o n) :
    ∃ r, Advance (fun _ => True) .everything r m n := by
  obtain ⟨fuel, run⟩ := h
  exact run.advance (eval_safe (equality_simulation _) fuel _ e s e.within_everything trivial
    trivial)

theorem Returns.advance {f : Value} {args : List Value} (h : Returns f args m o n) :
    ∃ r, Advance (fun _ => True) .everything r m n := by
  obtain ⟨fuel, run⟩ := h
  exact run.advance (applyFunction_safe (equality_simulation _) fuel _ f args f.within_everything
    fun v _ => v.within_everything)

/-- Where nothing is traced, or nothing absent can turn up in the trace, an expression comes to the
same end without a trace. -/
theorem yields_untraced_iff {e : Value} {s : Scope} {p : Policy} {r : Region}
    (quiet : m.sink = none ∨ ¬p.absent ∧ e.Within p r ∧ r.scope s ∧ m.Closed p r) :
    (∃ n', Yields e s m o n' ∧ n'.untraced = n) ↔ Yields e s m.untraced o n := by
  rcases quiet with silent | ⟨present, he, hs, closed⟩
  · rw [Machine.untraced_of_silent silent]
    constructor
    · rintro ⟨n', yields, rfl⟩
      obtain ⟨_, advance⟩ := yields.advance
      rwa [Machine.untraced_of_silent (advance.silent silent)]
    · intro yields
      obtain ⟨_, advance⟩ := yields.advance
      exact ⟨n, yields, Machine.untraced_of_silent (advance.silent silent)⟩
  · have alike := eval_untraced present he hs closed
    constructor
    · rintro ⟨n', ⟨fuel, run⟩, rfl⟩
      exact ⟨fuel, by rw [Ends, alike, run]⟩
    · rintro ⟨fuel, run⟩
      have run := (alike fuel).symm.trans run
      rw [Prod.mk.injEq] at run
      exact ⟨_, ⟨fuel, Prod.ext run.1 rfl⟩, run.2⟩

/-- An expression that consists of names reaches what they mean and nothing else. -/
theorem yields_untraced_iff_of_names {e : Value} {s : Scope} (names : ∀ p r, e.Within p r)
    (present : m.sink = none ∨ ∀ z, Accesses m [.scope s] z → z ≠ .value .null) :
    (∃ n', Yields e s m o n' ∧ n'.untraced = n) ↔ Yields e s m.untraced o n := by
  let p : Policy := ⟨False, fun t => Accesses m [.scope s] (.scope t), True⟩
  refine yields_untraced_iff (p := p) (r := .ofItems (Accesses m [.scope s]))
    (present.imp id fun present => ?_)
  obtain ⟨closed, within⟩ := m.closed_accesses [.scope s] (p := p) (fun h => present _ h rfl)
    (fun id t h => h.edge (.evaluated id t)) trivial fun _ h => h
  exact ⟨id, names _ _, within (.scope s) List.mem_cons_self, closed⟩

theorem callOf_within (g : Text) (xs : List Text) (p : Policy) (r : Region) :
    (callOf g xs).Within p r := by
  simp [callOf, Value.Within.list_iff, Value.Within.sym]

theorem Meant.untraced {s : Scope} {g : Text} {xs : List Text} {f : Value} {args : List Value}
    (meant : Meant m s g xs f args) : Meant m.untraced s g xs f args where
  plain := meant.plain
  callee := (m.lookup_untraced g s).trans meant.callee
  arguments := meant.arguments.imp fun x _ found => (m.lookup_untraced x s).trans found

end

section

variable {p : Policy} {r : Region} {m n : Machine} {s : Scope} {g : Text} {xs : List Text}
variable {f : Value} {args : List Value} {o : Except Error Value}

theorem exec_name {x : Text} {v : Value} (silent : m.sink = none) (found : m.lookup x s = some v)
    (fuel : Nat) : (eval (fuel + 1) (.sym x) s).exec m = (.ok v, m) := by
  have looked : (Eval.data (eval fuel) (.sym x) s).exec m = (.ok v, m) := ends_lookup_found found
  rw [Eval.eval_of_ne_null (by simp), Eval.loop_succ, exec_bind_congr (Eval.step_data silent rfl),
    exec_bind_ok (exec_bind_ok looked _)]
  rfl

theorem exec_names (silent : m.sink = none) (fuel : Nat)
    (found : List.Forall₂ (fun x v => m.lookup x s = some v) xs args) :
    ((xs.map Value.sym).mapM fun e => eval (fuel + 1) e s).exec m = (.ok args, m) := by
  induction found with
  | nil => rfl
  | cons first _ rest =>
    rw [List.map_cons, List.mapM_cons, exec_bind_ok (exec_name silent first fuel),
      exec_bind_ok rest]
    rfl

theorem exec_call_native (quiet : m.Quiet p r) {id : FunId} {op : Native}
    (hf : (Value.native id op).Within p r) (h : AllWithin p r args) (fuel : Nat) :
    (Eval.call (eval fuel) (applyFunction fuel) (.native id op) args s >>=
      Eval.finish fuel).exec m =
      (applyFunction (fuel + 1) (.native id op) args).exec m := by
  have safe := applyFunction_safe (W := fun _ => True) (equality_simulation p) (fuel + 1) r _ args
    hf h
  have ran : applyFunction (fuel + 1) (.native id op) args =
      op.run (eval fuel) (applyFunction fuel) args := rfl
  rw [exec_bind_congr (Eval.call_native quiet.silent id op args), bind_assoc, ran]
  rcases result : (op.run (eval fuel) (applyFunction fuel) args).exec m with ⟨_ | v, m₁⟩
  · exact exec_bind_error result _
  · obtain ⟨_, _, quiet₁, _⟩ := Ends.quiet (a := v) result quiet safe
    rw [exec_bind_ok result, bind_assoc, exec_bind_ok (Eval.traceReturn_ends quiet₁.silent op v)]
    rfl

/-- The loop goes on with the body, which is never absent, as a new evaluation would. -/
theorem exec_call_closure (present : ¬p.absent) (quiet : m.Quiet p r) {id : FunId}
    {params : Params} {body : Value} {captured : Option Scope}
    (hf : (Value.closure id params body captured).Within p r) (fuel : Nat) :
    (Eval.call (eval fuel) (applyFunction fuel) (.closure id params body captured) args s >>=
      Eval.finish fuel).exec m =
        (applyFunction (fuel + 1) (.closure id params body captured) args).exec m := by
  have hbody : body ≠ .null := by
    cases hf with
    | closure hbody _ => exact hbody.ne_null present
  have ran : applyFunction (fuel + 1) (.closure id params body captured) args =
      Eval.callFrame params captured args >>= fun inner => eval fuel body inner := rfl
  rw [exec_bind_congr (Eval.call_closure quiet.silent id params body captured args), ran,
    bind_assoc]
  simp only [pure_bind, Eval.finish, Eval.eval_of_ne_null hbody]

theorem exec_call_finish (present : ¬p.absent) (quiet : m.Quiet p r) (function : f.isFunction)
    (hf : f.Within p r) (h : AllWithin p r args) (fuel : Nat) :
    (Eval.call (eval fuel) (applyFunction fuel) f args s >>= Eval.finish fuel).exec m =
      (applyFunction (fuel + 1) f args).exec m := by
  cases f with
  | native id op => exact exec_call_native quiet hf h fuel
  | closure id params body captured => exact exec_call_closure present quiet hf fuel
  | _ => cases function

/-- A call by name is the run of the function, one step for the names included. -/
theorem exec_callOf (present : ¬p.absent) (quiet : m.Quiet p r) (function : f.isFunction)
    (hf : f.Within p r) (h : AllWithin p r args) (meant : Meant m s g xs f args) (fuel : Nat) :
    (eval (fuel + 2) (callOf g xs) s).exec m = (applyFunction (fuel + 2) f args).exec m := by
  have called : SpecialForm.ofHead? (.sym g) = none := meant.plain
  rw [callOf, Eval.eval_of_ne_null (by simp), Eval.loop_succ,
    exec_bind_congr (Eval.step_call quiet.silent _ called), bind_assoc,
    exec_bind_ok (exec_name quiet.silent meant.callee fuel), bind_assoc,
    exec_bind_ok (exec_names quiet.silent fuel meant.arguments)]
  exact exec_call_finish present quiet function hf h (fuel + 1)

/-- Two ways that are alike from some numbers of steps on come to the same ends. -/
theorem yields_iff_returns {e : Value} {i j : Nat} (alike : ∀ fuel,
    (eval (fuel + i) e s).exec m = (applyFunction (fuel + j) f args).exec m) :
    Yields e s m o n ↔ Returns f args m o n := by
  constructor
  · intro yields
    obtain ⟨fuel, run⟩ := yields.from i
    exact ⟨fuel + j, (alike fuel).symm.trans run⟩
  · intro returns
    obtain ⟨fuel, run⟩ := returns.from j
    exact ⟨fuel + i, (alike fuel).trans run⟩

theorem yields_callOf_iff (present : ¬p.absent) (quiet : m.Quiet p r) (function : f.isFunction)
    (hf : f.Within p r) (h : AllWithin p r args) (meant : Meant m s g xs f args) :
    Yields (callOf g xs) s m o n ↔ Returns f args m o n :=
  yields_iff_returns (exec_callOf present quiet function hf h meant)

/-- A native has no body, so whatever it is called with can be absent. -/
theorem exec_native_call (silent : m.sink = none) (plain : SpecialForm.ofName? g = none)
    {id : FunId} {op : Native} (callee : m.lookup g s = some (.native id op)) (parts : List Value)
    (fuel : Nat) : (eval (fuel + 2) (.list ⟨.sym g :: parts⟩) s).exec m =
      (parts.mapM (fun e => eval (fuel + 1) e s) >>= fun args =>
        applyFunction (fuel + 2) (.native id op) args).exec m := by
  have within (v : Value) : v.Within .lax .everything := v.within_everything
  have quiet : m.Quiet .lax .everything := ⟨m.closed_everything, silent⟩
  have called : SpecialForm.ofHead? (.sym g) = none := plain
  rw [Eval.eval_of_ne_null (by simp), Eval.loop_succ,
    exec_bind_congr (Eval.step_call silent _ called), bind_assoc,
    exec_bind_ok (exec_name silent callee fuel), bind_assoc]
  rcases result : (parts.mapM fun e => eval (fuel + 1) e s).exec m with ⟨_ | args, k⟩
  · rw [exec_bind_error result, exec_bind_error result]
  · have safe : SafeAlone .lax .everything (fun r vs => AllWithin .lax r vs)
        (parts.mapM fun e => eval (fuel + 1) e s) := Safe.mapM fun v _ r' le =>
      eval_safe (equality_simulation _) (fuel + 1) r' v s ((within v).mono le) (le.1 s trivial)
        trivial
    obtain ⟨_, le, quiet', hargs⟩ := Ends.quiet (a := args) result quiet safe
    rw [exec_bind_ok result, exec_bind_ok result]
    exact exec_call_native quiet' ((within _).mono le) hargs (fuel + 1)

theorem exec_callOf_native (silent : m.sink = none) {id : FunId} {op : Native}
    (meant : Meant m s g xs (.native id op) args) (fuel : Nat) :
    (eval (fuel + 2) (callOf g xs) s).exec m =
      (applyFunction (fuel + 2) (.native id op) args).exec m :=
  (exec_native_call silent meant.plain meant.callee _ fuel).trans
    (exec_bind_ok (exec_names silent fuel meant.arguments) _)

theorem yields_native_iff (silent : m.sink = none) {id : FunId} {op : Native}
    (meant : Meant m s g xs (.native id op) args) :
    Yields (callOf g xs) s m o n ↔ Returns (.native id op) args m o n :=
  yields_iff_returns (exec_callOf_native silent meant)

theorem Meant.spread (meant : Meant m s g xs f args) {id : FunId} {y : Text} {l : Value}
    (k : Nat) (apply : m.lookup CallOp.apply.name s = some (.native id (.call .apply)))
    (rest : m.lookup y s = some l) :
    Meant m s CallOp.apply.name (g :: (xs.take k ++ [y])) (.native id (.call .apply))
      (f :: (args.take k ++ [l])) := by
  refine ⟨by decide, apply, .cons meant.callee ?_⟩
  exact List.rel_append (List.forall₂_take k meant.arguments) (.cons rest .nil)

theorem exec_apply (function : f.isFunction) {id : FunId} {l : Value} {k : Nat}
    (items : l.items? = some ⟨args.drop k⟩) (fuel : Nat) :
    (applyFunction (fuel + 1) (.native id (.call .apply)) (f :: (args.take k ++ [l]))).exec m =
      (applyFunction fuel f args).exec m := by
  have callee : f.functionArg CallOp.apply.name = .ok f := by
    rw [Value.functionArg, if_pos function]
  have last : l.itemsArg CallOp.apply.name = .ok ⟨args.drop k⟩ := by
    cases l with
    | list | vec => exact congrArg Except.ok (Option.some.inj items)
    | _ => cases items
  have spread : CallOp.spread CallOp.apply.name (args.take k ++ [l]) = .ok args := by
    rw [CallOp.spread, List.getLast?_concat, List.dropLast_concat, Option.getD_some, last]
    exact congrArg Except.ok (List.take_append_drop k args)
  obtain ⟨a, others, shape⟩ := List.exists_cons_of_ne_nil (l := args.take k ++ [l]) (by simp)
  rw [shape] at spread ⊢
  have ran : applyFunction (fuel + 1) (.native id (.call .apply)) (f :: a :: others) =
      EvalM.ofExcept (f.functionArg CallOp.apply.name) >>= fun f =>
        EvalM.ofExcept (CallOp.spread CallOp.apply.name (a :: others)) >>= fun args =>
          applyFunction fuel f args := rfl
  rw [ran, callee, spread]
  rfl

theorem returns_apply_iff (function : f.isFunction) (id : FunId) {l : Value} {k : Nat}
    (items : l.items? = some ⟨args.drop k⟩) :
    Returns (.native id (.call .apply)) (f :: (args.take k ++ [l])) m o n ↔
      Returns f args m o n := by
  constructor
  · rintro ⟨fuel, run⟩
    cases fuel with
    | zero => cases o <;> cases run
    | succ fuel => exact ⟨fuel, (exec_apply function items fuel).symm.trans run⟩
  · rintro ⟨fuel, run⟩
    exact ⟨fuel + 1, (exec_apply function items fuel).trans run⟩

theorem spread_within (hf : f.Within p r) (h : AllWithin p r args) {l : Value} {k : Nat}
    (items : l.items? = some ⟨args.drop k⟩) : AllWithin p r (f :: (args.take k ++ [l])) := by
  have rest (v : Value) (hv : v ∈ (Array.mk (args.drop k))) : v.Within p r :=
    h v (List.mem_of_mem_drop (List.mem_toArray.mp hv))
  have hl : l.Within p r := by
    cases l with
    | list xs =>
      cases items
      exact .list rest
    | vec xs =>
      cases items
      exact .vec rest
    | _ => cases items
  refine List.forall_mem_cons.mpr ⟨hf, fun v hv => ?_⟩
  rcases List.mem_append.mp hv with hv | hv
  · exact h v (List.mem_of_mem_take hv)
  · exact List.mem_singleton.mp hv ▸ hl

end

/-- Where what is called and what it is called with reach no absent value, a call by name comes to
the same end as the function itself, and so does a call that spreads the last of its arguments.
Which scope the names stand in makes no difference. -/
theorem call_paths_agree {m : Machine} {s : Scope} {g : Text} {xs : List Text} {f : Value}
    {args : List Value} (silent : m.sink = none) (function : f.isFunction)
    (present : ∀ x, Accesses m (.value f :: args.map .value) x → x ≠ .value .null)
    (meant : Meant m s g xs f args) (o : Except Error Value) (n : Machine) :
    (Yields (callOf g xs) s m o n ↔ Returns f args m o n) ∧
    (∀ id y l k, m.lookup CallOp.apply.name s = some (.native id (.call .apply)) →
      m.lookup y s = some l → l.items? = some ⟨args.drop k⟩ →
      (Yields (callOf CallOp.apply.name (g :: (xs.take k ++ [y]))) s m o n ↔
        Returns f args m o n)) ∧
    ∀ t h ys, Meant m t h ys f args →
      (Yields (callOf h ys) t m o n ↔ Yields (callOf g xs) s m o n) := by
  let roots : List Item := .value f :: args.map .value
  let p : Policy := ⟨False, fun t => Accesses m roots (.scope t), True⟩
  obtain ⟨closed, within⟩ := m.closed_accesses roots (p := p) (fun h => present _ h rfl)
    (fun id t h => h.edge (.evaluated id t)) trivial fun _ h => h
  have quiet : m.Quiet p (.ofItems (Accesses m roots)) := ⟨closed, silent⟩
  have hf : f.Within p _ := within (.value f) List.mem_cons_self
  have h : AllWithin p _ args := fun v hv =>
    within (.value v) (List.mem_cons_of_mem _ (List.mem_map_of_mem hv))
  have both {t : Scope} {h' : Text} {ys : List Text} (meant : Meant m t h' ys f args) :
      Yields (callOf h' ys) t m o n ↔ Returns f args m o n :=
    yields_callOf_iff id quiet function hf h meant
  refine ⟨both meant, fun i y l k apply rest items => ?_, fun t h' ys meant' => ?_⟩
  · rw [← returns_apply_iff function i items]
    refine yields_callOf_iff id quiet rfl (.native fun _ same => ?_)
      (spread_within hf h items) (meant.spread k apply rest)
    cases same
  · rw [both meant', both meant]

def Machine.twoFrames : Machine := ⟨#[⟨false, ∅⟩, ⟨false, ∅⟩], #[], 2, .empty, none, []⟩

def Value.second : Value :=
  .closure ⟨0⟩ (.ofNames [ascii "a", ascii "b"]) (.sym (ascii "b"))
    (some (.frame ⟨0⟩ .empty none))

def Value.aroundSecond : List (Text × Value) :=
  [(ascii "second", .second), (ascii "x", .int 1), (ascii "y", .int 2),
    (ascii "more", .vec #[.int 2]), (CallOp.apply.name, .native ⟨1⟩ (.call .apply))]

def Scope.ofSecond : Scope := .frame ⟨1⟩ (.ofPairs Value.aroundSecond) none

theorem lookup_ofSecond (name : Text) : Machine.twoFrames.lookup name .ofSecond =
    (Assoc.ofPairs Value.aroundSecond).find? name := by
  rw [← Table.entries_ofPairs, ← Table.find?_eq]
  rfl

theorem second_present (x : Item)
    (hx : Accesses .twoFrames (.value .second :: [Value.int 1, .int 2].map .value) x) :
    x ≠ .value .null := by
  let p : Policy := ⟨False, fun _ => False, True⟩
  let r : Region := ⟨fun t => t = .frame ⟨0⟩ .empty none, fun _ => False⟩
  have closed : Machine.twoFrames.Closed p r := by
    constructor
    · rintro t u rfl ht
      cases ht
    · rintro t name v rfl hv
      have none : Machine.twoFrames.local? (.frame ⟨0⟩ .empty none) name = none := rfl
      rw [none] at hv
      cases hv
    · intro c hc
      exact hc.elim
    · intro t ht
      exact ht.elim
  have callee : Value.second.Within p r :=
    .closure (.sym _) (fun t ht => (Option.some.inj ht).symm) nofun
  rintro rfl
  cases closed.accesses (by simp [Item.Within, callee, Value.Within.int]) hx with
  | null absent => exact absent

theorem second_returns :
    ∃ n, Returns .second [.int 1, .int 2] .twoFrames (.ok (.int 2)) n := by
  have argument : ((Params.ofNames [ascii "a", ascii "b"]).bind [Value.int 1, .int 2]).find?
      (ascii "b") = some (.int 2) := by
    rw [Table.find?_eq, Params.entries_bind]
    rfl
  have derived : ∃ n, Applies .second [.int 1, .int 2] .twoFrames (.ok (.int 2)) n := by
    refine ⟨_, .closure rfl (.found ?_)⟩
    rw [Machine.lookup_newFrame, argument]
    rfl
  obtain ⟨n, applies⟩ := derived
  exact ⟨n, (applies.settles rfl).ends.exists⟩

theorem second_is_called_both_ways :
    ∃ n, Yields (callOf (ascii "second") [ascii "x", ascii "y"]) .ofSecond .twoFrames
        (.ok (.int 2)) n ∧
      Yields (callOf CallOp.apply.name [ascii "second", ascii "x", ascii "more"]) .ofSecond
        .twoFrames (.ok (.int 2)) n := by
  have meant : Meant .twoFrames .ofSecond (ascii "second") [ascii "x", ascii "y"] .second
      [.int 1, .int 2] := by
    refine ⟨by decide, ?_, .cons ?_ (.cons ?_ .nil)⟩
    all_goals rw [lookup_ofSecond]; rfl
  obtain ⟨n, returns⟩ := second_returns
  obtain ⟨direct, spread, _⟩ :=
    call_paths_agree rfl rfl second_present meant (.ok (.int 2)) n
  have more : (Value.vec #[.int 2]).items? = some ⟨[Value.int 1, .int 2].drop 1⟩ := rfl
  refine ⟨n, direct.mpr returns, (spread ⟨1⟩ (ascii "more") _ 1 ?_ ?_ more).mpr returns⟩
  all_goals rw [lookup_ofSecond]; rfl

end MiniLisp
