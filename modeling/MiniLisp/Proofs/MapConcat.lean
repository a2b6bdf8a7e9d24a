import MiniLisp.Proofs.CallPaths

/-! A function is mapped over a sequence from left to right, on what each call left. So it makes no
difference whether sequences are joined before or afterwards, whatever the function does to the
store. -/
namespace MiniLisp

open EvalM

/-- The function returns one value for each value it is called with, one call after the other. -/
inductive Images (f : Value) : List Value → List Value → Machine → Machine → Prop where
  | nil {m : Machine} : Images f [] [] m m
  | cons {u v : Value} {us vs : List Value} {m m₁ n : Machine} : Returns f [u] m (.ok v) m₁ →
      Images f us vs m₁ n → Images f (u :: us) (v :: vs) m n

/-- The function has an image for each of the values, or it fails on one of them, after images for
those before it and without being called with those after it. -/
def Maps (f : Value) (us : List Value) (m : Machine) (o : Except Error (List Value))
    (n : Machine) : Prop :=
  match o with
  | .ok vs => Images f us vs m n
  | .error err => ∃ before u after vs k, us = before ++ u :: after ∧ Images f before vs m k ∧
      Returns f [u] k (.error err) n

section

variable {f : Value} {us vs : List Value} {m n : Machine} {o : Except Error (List Value)}

namespace Images

theorem length_eq (h : Images f us vs m n) : vs.length = us.length := by
  induction h with
  | nil => rfl
  | cons _ _ ih => rw [List.length_cons, List.length_cons, ih]

/-- Every image is what the function returns on its value, where the calls before left the
machine. -/
theorem returns (h : Images f us vs m n) {i : Nat} {u : Value} (hu : us[i]? = some u) :
    ∃ v k k', vs[i]? = some v ∧ Images f (us.take i) (vs.take i) m k ∧
      Returns f [u] k (.ok v) k' := by
  induction h generalizing i with
  | nil => cases hu
  | @cons u' v us vs m m₁ n called _ ih =>
    cases i with
    | zero =>
      cases hu
      exact ⟨v, m, m₁, rfl, .nil, called⟩
    | succ i =>
      obtain ⟨w, k, k', image, earlier, returned⟩ := ih hu
      exact ⟨w, k, k', image, .cons called earlier, returned⟩

/-- All calls are granted the steps that any of them takes. -/
theorem run (h : Images f us vs m n) : ∃ least, ∀ fuel, least ≤ fuel →
    (us.mapM fun u => applyFunction fuel f [u]).Ends m (.ok vs) n := by
  induction h with
  | nil => exact ⟨0, fun _ _ => rfl⟩
  | @cons u v us vs m m₁ n called _ ih =>
    obtain ⟨most, first⟩ := called
    obtain ⟨least, rest⟩ := ih
    refine ⟨max most least, fun fuel enough => ?_⟩
    have first := (applyFunction_below (Nat.le_trans (Nat.le_max_left _ _) enough) f [u]).ends first
    have rest := rest fuel (Nat.le_trans (Nat.le_max_right _ _) enough)
    rw [List.mapM_cons]
    exact first.bind (rest.bind rfl)

end Images

theorem Maps.run (h : Maps f us m o n) :
    ∃ fuel, (us.mapM fun u => applyFunction fuel f [u]).Ends m o n := by
  cases o with
  | ok vs =>
    obtain ⟨least, run⟩ := Images.run h
    exact ⟨least, run least (Nat.le_refl least)⟩
  | error err =>
    obtain ⟨before, u, after, vs, k, rfl, images, most, failed⟩ := h
    obtain ⟨least, run⟩ := images.run
    refine ⟨max least most, ?_⟩
    have failed := (applyFunction_below (Nat.le_max_right least most) f [u]).ends failed
    have run := run (max least most) (Nat.le_max_left least most)
    rw [List.mapM_append, List.mapM_cons]
    exact run.bind failed.bind_error.bind_error

theorem Maps.of_run {fuel : Nat}
    (run : (us.mapM fun u => applyFunction fuel f [u]).Ends m o n) : Maps f us m o n := by
  induction us generalizing m o with
  | nil =>
    obtain ⟨rfl, rfl⟩ := ends_pure_iff.mp run
    exact .nil
  | cons u us ih =>
    rw [List.mapM_cons] at run
    rcases run.of_bind with ⟨err, rfl, failed⟩ | ⟨v, m₁, called, run⟩
    · exact ⟨[], u, us, [], m, rfl, .nil, fuel, failed⟩
    have called : Returns f [u] m (.ok v) m₁ := ⟨fuel, called⟩
    rcases run.of_bind with ⟨err, rfl, failed⟩ | ⟨vs, m₂, others, run⟩
    · obtain ⟨before, u', after, vs, k, rfl, images, returned⟩ := ih failed
      exact ⟨u :: before, u', after, v :: vs, k, rfl, .cons called images, returned⟩
    · obtain ⟨rfl, rfl⟩ := ends_pure_iff.mp run
      exact .cons called (ih others)

end

section

variable {f a b : Value} {xs ys : List Value}

theorem itemsArg_eq {a : Value} {xs : Array Value} (items : a.items? = some xs) (who : Text) :
    a.itemsArg who = .ok xs := by
  cases a with
  | list | vec => exact congrArg Except.ok (Option.some.inj items)
  | _ => cases items

theorem run_map (function : f.isFunction) (items : a.items? = some ⟨xs⟩) (apply : Applier) :
    CallOp.map.run apply [f, a] =
      xs.mapM (fun u => apply f [u]) >>= fun vs => pure (.list ⟨vs⟩) := by
  have ran : CallOp.map.run apply [f, a] =
      ofExcept (f.functionArg CallOp.map.name) >>= fun f =>
        ofExcept (a.itemsArg CallOp.map.name) >>= fun items =>
          items.toList.mapM (fun u => apply f [u]) >>= fun vs => pure (.list vs.toArray) := rfl
  rw [ran, Value.functionArg, if_pos function, itemsArg_eq items]
  rfl

theorem run_concat (ha : a.items? = some ⟨xs⟩) (hb : b.items? = some ⟨ys⟩) :
    DataOp.concat.run [a, b] = .ok (.list ⟨xs ++ ys⟩) := by
  show Sequence.concat DataOp.concat.name [a, b] = _
  rw [Sequence.concat, List.mapM_cons, List.mapM_cons, itemsArg_eq ha, itemsArg_eq hb]
  show Except.ok (Value.list (Array.mk xs ++ Array.mk ys)) = _
  rw [List.append_toArray]

theorem returns_map_iff (function : f.isFunction) (items : a.items? = some ⟨xs⟩) (id : FunId)
    {m n : Machine} {o : Except Error Value} :
    Returns (.native id (.call .map)) [f, a] m o n ↔
      ∃ r, Maps f xs m r n ∧ o = r.map fun vs => .list ⟨vs⟩ := by
  constructor
  · rintro ⟨_ | fuel, run⟩
    · cases o <;> cases run
    · have run : (CallOp.map.run (applyFunction fuel) [f, a]).Ends m o n := run
      rw [run_map function items] at run
      rcases run.of_bind with ⟨err, rfl, failed⟩ | ⟨vs, k, mapped, run⟩
      · exact ⟨.error err, .of_run failed, rfl⟩
      · obtain ⟨rfl, rfl⟩ := ends_pure_iff.mp run
        exact ⟨.ok vs, .of_run mapped, rfl⟩
  · rintro ⟨r, mapped, rfl⟩
    obtain ⟨fuel, run⟩ := mapped.run
    refine ⟨fuel + 1, ?_⟩
    show (CallOp.map.run (applyFunction fuel) [f, a]).Ends m _ n
    rw [run_map function items]
    cases r with
    | ok vs => exact run.bind rfl
    | error err => exact run.bind_error

/-- Mapping over joined sequences is mapping over the one and then over the other. -/
theorem run_map_append (function : f.isFunction) (xs ys : List Value) (apply : Applier) :
    CallOp.map.run apply [f, .list ⟨xs ++ ys⟩] =
      xs.mapM (fun u => apply f [u]) >>= fun vs =>
        ys.mapM (fun u => apply f [u]) >>= fun ws => pure (.list ⟨vs ++ ws⟩) := by
  rw [run_map function rfl, List.mapM_append]
  simp only [bind_assoc, pure_bind]

/-- The natives themselves, whatever evaluates and applies, on all machines. -/
theorem run_map_concat (function : f.isFunction) (ha : a.items? = some ⟨xs⟩)
    (hb : b.items? = some ⟨ys⟩) (evaluate : Evaluator) (apply : Applier) :
    ((Native.data .concat).run evaluate apply [a, b] >>= fun c =>
        (Native.call .map).run evaluate apply [f, c]) =
      ((Native.call .map).run evaluate apply [f, a] >>= fun u =>
        (Native.call .map).run evaluate apply [f, b] >>= fun v =>
          (Native.data .concat).run evaluate apply [u, v]) := by
  have joined (vs ws : List Value) :
      ofExcept (DataOp.concat.run [.list ⟨vs⟩, .list ⟨ws⟩]) = pure (.list ⟨vs ++ ws⟩) := by
    rw [run_concat rfl rfl]
    rfl
  calc
    _ = CallOp.map.run apply [f, .list ⟨xs ++ ys⟩] := by
      rw [Native.run, run_concat ha hb]
      rfl
    _ = xs.mapM (fun u => apply f [u]) >>= fun vs =>
          ys.mapM (fun u => apply f [u]) >>= fun ws => pure (.list ⟨vs ++ ws⟩) :=
      run_map_append function xs ys apply
    _ = _ := by
      simp only [Native.run, run_map function ha, run_map function hb, bind_assoc, pure_bind,
        joined]

end

def mapOfConcat (g x y : Text) : Value :=
  .list ⟨[.sym CallOp.map.name, .sym g, callOf DataOp.concat.name [x, y]]⟩

def concatOfMaps (g x y : Text) : Value :=
  .list ⟨[.sym DataOp.concat.name, callOf CallOp.map.name [g, x], callOf CallOp.map.name [g, y]]⟩

/-- The names of the two expressions mean the natives, the function and the sequences, and those
used after the function was mapped over the first sequence still do then. -/
structure MappingMeant (m : Machine) (s : Scope) (i j : FunId) (g x y : Text) (f a b : Value) :
    Prop where
  joined : Meant m s DataOp.concat.name [x, y] (.native j (.data .concat)) [a, b]
  first : Meant m s CallOp.map.name [g, x] (.native i (.call .map)) [f, a]
  second : ∀ v k, Returns (.native i (.call .map)) [f, a] m (.ok v) k →
    Meant k s CallOp.map.name [g, y] (.native i (.call .map)) [f, b]

section

variable {m : Machine} {s : Scope} {i j : FunId} {g x y : Text} {f a b : Value}
variable {xs ys : List Value}

theorem exec_mapOfConcat (silent : m.sink = none) (ha : a.items? = some ⟨xs⟩)
    (hb : b.items? = some ⟨ys⟩) (meant : MappingMeant m s i j g x y f a b) (fuel : Nat) :
    (eval (fuel + 3) (mapOfConcat g x y) s).exec m =
      (applyFunction (fuel + 3) (.native i (.call .map)) [f, .list ⟨xs ++ ys⟩]).exec m := by
  have callee : (eval (fuel + 2) (.sym g) s).exec m = (.ok f, m) := by
    cases meant.first.arguments with
    | cons found _ => exact exec_name silent found (fuel + 1)
  have joined : (eval (fuel + 2) (callOf DataOp.concat.name [x, y]) s).exec m =
      (.ok (.list ⟨xs ++ ys⟩), m) := by
    rw [exec_callOf_native silent meant.joined]
    show (ofExcept (DataOp.concat.run [a, b])).exec m = _
    rw [run_concat ha hb]
    rfl
  rw [mapOfConcat, exec_native_call silent meant.first.plain meant.first.callee _ (fuel + 1),
    List.mapM_cons, List.mapM_cons, bind_assoc, exec_bind_ok callee, bind_assoc, bind_assoc,
    exec_bind_ok joined]
  rfl

theorem exec_mapOf (silent : m.sink = none) (function : f.isFunction)
    (ha : a.items? = some ⟨xs⟩)
    (meant : Meant m s CallOp.map.name [g, x] (.native i (.call .map)) [f, a]) (fuel : Nat) :
    (eval (fuel + 2) (callOf CallOp.map.name [g, x]) s).exec m =
      (xs.mapM (fun u => applyFunction (fuel + 1) f [u]) >>= fun vs =>
        pure (.list ⟨vs⟩)).exec m := by
  rw [exec_callOf_native silent meant, ← run_map function ha]
  rfl

/-- One step more is granted, as the function is called one level further down. -/
theorem exec_concatOfMaps (silent : m.sink = none) (function : f.isFunction)
    (ha : a.items? = some ⟨xs⟩) (hb : b.items? = some ⟨ys⟩)
    (meant : MappingMeant m s i j g x y f a b) (fuel : Nat) :
    (eval (fuel + 4) (concatOfMaps g x y) s).exec m =
      (applyFunction (fuel + 3) (.native i (.call .map)) [f, .list ⟨xs ++ ys⟩]).exec m := by
  have whole : applyFunction (fuel + 3) (.native i (.call .map)) [f, .list ⟨xs ++ ys⟩] =
      xs.mapM (fun u => applyFunction (fuel + 2) f [u]) >>= fun vs =>
        ys.mapM (fun u => applyFunction (fuel + 2) f [u]) >>= fun ws =>
          pure (.list ⟨vs ++ ws⟩) := run_map_append function xs ys (applyFunction (fuel + 2))
  have first := exec_mapOf silent function ha meant.first (fuel + 1)
  rw [whole, concatOfMaps,
    exec_native_call silent meant.joined.plain meant.joined.callee _ (fuel + 2), List.mapM_cons,
    bind_assoc, exec_bind_congr first, bind_assoc]
  rcases one : (xs.mapM fun u => applyFunction (fuel + 2) f [u]).exec m with ⟨_ | vs, k⟩
  · rw [exec_bind_error one, exec_bind_error one]
  have mapped : Returns (.native i (.call .map)) [f, a] m (.ok (.list ⟨vs⟩)) k :=
    (returns_map_iff function ha i).mpr ⟨.ok vs, .of_run one, rfl⟩
  obtain ⟨_, advance⟩ := mapped.advance
  have second := exec_mapOf (advance.silent silent) function hb (meant.second _ _ mapped) (fuel + 1)
  rw [exec_bind_ok one, exec_bind_ok one, pure_bind, List.mapM_cons, List.mapM_nil, bind_assoc,
    bind_assoc, exec_bind_congr second, bind_assoc]
  rcases other : (ys.mapM fun u => applyFunction (fuel + 2) f [u]).exec k with ⟨_ | ws, k'⟩
  · rw [exec_bind_error other, exec_bind_error other]
  · rw [exec_bind_ok other, exec_bind_ok other]
    simp only [pure_bind]
    show (ofExcept (DataOp.concat.run [.list ⟨vs⟩, .list ⟨ws⟩])).exec k' = _
    rw [run_concat rfl rfl]
    rfl

/-- Both expressions come to what mapping over the one sequence and then over the other comes to. -/
theorem yields_maps_iff (silent : m.sink = none) (function : f.isFunction)
    (ha : a.items? = some ⟨xs⟩) (hb : b.items? = some ⟨ys⟩)
    (meant : MappingMeant m s i j g x y f a b) {e : Value}
    (he : e = mapOfConcat g x y ∨ e = concatOfMaps g x y) {o : Except Error Value} {n : Machine} :
    Yields e s m o n ↔ ∃ r, Maps f (xs ++ ys) m r n ∧ o = r.map fun vs => .list ⟨vs⟩ := by
  rw [← returns_map_iff function (a := .list ⟨xs ++ ys⟩) rfl i]
  rcases he with rfl | rfl
  · exact yields_iff_returns (exec_mapOfConcat silent ha hb meant)
  · exact yields_iff_returns (exec_concatOfMaps silent function ha hb meant)

end

/-- Mapping over two sequences that are joined, and joining what mapping over each of them yields,
are the same computation of the natives, and as expressions they come to the same end: one image
for each item in order, or the first error, on the same machine and with the same output. The
names have to keep their meaning, and nothing absent may turn up in a trace. -/
theorem map_distributes_over_concat {f a b : Value} {xs ys : List Value}
    (function : f.isFunction) (ha : a.items? = some ⟨xs⟩) (hb : b.items? = some ⟨ys⟩) :
    (∀ (evaluate : Evaluator) (apply : Applier),
      ((Native.data .concat).run evaluate apply [a, b] >>= fun c =>
          (Native.call .map).run evaluate apply [f, c]) =
        ((Native.call .map).run evaluate apply [f, a] >>= fun u =>
          (Native.call .map).run evaluate apply [f, b] >>= fun v =>
            (Native.data .concat).run evaluate apply [u, v])) ∧
    (∀ (m : Machine) (s : Scope) (i j : FunId) (g x y : Text),
      (m.sink = none ∨ ∀ z, Accesses m [.scope s] z → z ≠ .value .null) →
      MappingMeant m.untraced s i j g x y f a b → ∀ e,
        e = mapOfConcat g x y ∨ e = concatOfMaps g x y → ∀ o n,
          ((∃ n', Yields e s m o n' ∧ n'.untraced = n) ↔
            ∃ r, Maps f (xs ++ ys) m.untraced r n ∧ o = r.map fun vs => .list ⟨vs⟩)) ∧
    ∀ m vs n, Maps f (xs ++ ys) m (.ok vs) n → vs.length = xs.length + ys.length ∧
      ∀ i u, (xs ++ ys)[i]? = some u → ∃ v k k', vs[i]? = some v ∧
        Maps f ((xs ++ ys).take i) m (.ok (vs.take i)) k ∧ Returns f [u] k (.ok v) k' := by
  refine ⟨run_map_concat function ha hb, fun m s i j g x y present meant e he o n => ?_,
    fun m vs n mapped => ?_⟩
  · rw [← yields_maps_iff rfl function ha hb meant he]
    refine yields_untraced_iff_of_names (fun p r => ?_) present
    rcases he with rfl | rfl
    · simp [mapOfConcat, callOf, Value.Within.list_iff, Value.Within.sym]
    · simp [concatOfMaps, callOf, Value.Within.list_iff, Value.Within.sym]
  · refine ⟨?_, fun i u hu => Images.returns mapped hu⟩
    rw [Images.length_eq mapped, List.length_append]

def Machine.holding (cells : List Value) : Machine :=
  ⟨#[⟨false, ∅⟩], ⟨cells⟩, 3, .empty, none, []⟩

def Value.aroundMapping : List (Text × Value) :=
  [(ascii "x", .list ⟨[.int 1, .int 2]⟩), (ascii "y", .vec ⟨[.int 3]⟩),
    (CallOp.map.name, .native ⟨0⟩ (.call .map)), (DataOp.concat.name, .native ⟨1⟩ (.data .concat)),
    (CellOp.create.name, .native ⟨2⟩ (.cell .create))]

def Scope.ofMapping : Scope := .frame ⟨0⟩ (.ofPairs Value.aroundMapping) none

theorem lookup_ofMapping (cells : List Value) (name : Text) :
    (Machine.holding cells).lookup name .ofMapping =
      (Assoc.ofPairs Value.aroundMapping).find? name := by
  rw [← Table.entries_ofPairs, ← Table.find?_eq]
  rfl

/-- Either way a cell is made for each item, in order. -/
theorem cells_are_made_in_order :
    let made : Except Error Value := .ok (.list ⟨[.cell ⟨0⟩, .cell ⟨1⟩, .cell ⟨2⟩]⟩)
    let n := Machine.holding [.int 1, .int 2, .int 3]
    (∃ n', Yields (mapOfConcat CellOp.create.name (ascii "x") (ascii "y")) .ofMapping
        (.holding []) made n' ∧ n'.untraced = n) ∧
      ∃ n', Yields (concatOfMaps CellOp.create.name (ascii "x") (ascii "y")) .ofMapping
        (.holding []) made n' ∧ n'.untraced = n := by
  intro made n
  let f := Value.native ⟨2⟩ (.cell .create)
  have creates (v : Value) (cells : List Value) :
      Returns f [v] (.holding cells) (.ok (.cell ⟨cells.length⟩)) (.holding (cells ++ [v])) := by
    have made : ((Machine.holding cells).newCell v).2 = .holding (cells ++ [v]) := by
      simp [Machine.newCell, Machine.holding]
    rw [← made]
    exact ⟨1, rfl⟩
  have meant : MappingMeant (.holding []) .ofMapping ⟨0⟩ ⟨1⟩ CellOp.create.name (ascii "x")
      (ascii "y") f (.list ⟨[.int 1, .int 2]⟩) (.vec ⟨[.int 3]⟩) := by
    refine ⟨⟨by decide, ?_, .cons ?_ (.cons ?_ .nil)⟩,
      ⟨by decide, ?_, .cons ?_ (.cons ?_ .nil)⟩, fun v k mapped => ?_⟩
    iterate 6 rw [lookup_ofMapping]; rfl
    have first : Maps f [.int 1, .int 2] (.holding []) (.ok [.cell ⟨0⟩, .cell ⟨1⟩])
        (.holding [.int 1, .int 2]) := .cons (creates _ _) (.cons (creates _ _) .nil)
    obtain ⟨-, rfl⟩ := mapped.unique ((returns_map_iff rfl rfl ⟨0⟩).mpr ⟨_, first, rfl⟩)
    refine ⟨by decide, ?_, .cons ?_ (.cons ?_ .nil)⟩
    all_goals rw [lookup_ofMapping]; rfl
  have images : Maps f [.int 1, .int 2, .int 3] (.holding [])
      (.ok [.cell ⟨0⟩, .cell ⟨1⟩, .cell ⟨2⟩]) n :=
    .cons (creates _ _) (.cons (creates _ _) (.cons (creates _ _) .nil))
  have both := (map_distributes_over_concat (f := f) (a := .list ⟨[.int 1, .int 2]⟩)
    (b := .vec ⟨[.int 3]⟩) rfl rfl rfl).2.1 (.holding []) .ofMapping _ _ _ _ _ (.inl rfl) meant
  exact ⟨(both _ (.inl rfl) made n).mpr ⟨_, images, rfl⟩,
    (both _ (.inr rfl) made n).mpr ⟨_, images, rfl⟩⟩

end MiniLisp
