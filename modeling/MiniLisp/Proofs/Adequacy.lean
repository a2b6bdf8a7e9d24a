import MiniLisp.Proofs.Completeness
import MiniLisp.Proofs.Sessions

/-! A step of the loop is the beginning of a derivation that ends with whatever is derived for what
the step leaves to do. So every run that ends has a derivation. The absent value is left out: as
what a form leaves to do it is refused otherwise than as a part. -/
namespace MiniLisp

open EvalM

structure Machine.Quiet (p : Policy) (r : Region) (m : Machine) : Prop where
  closed : m.Closed p r
  silent : m.sink = none

abbrev SafeAlone {α : Type} (p : Policy) (r : Region) (P : Region → α → Prop) (x : EvalM α) :
    Prop := Safe p (fun _ => True) (fun _ m₁ m₂ => m₁ = m₂) r P x

namespace EvalM.Ends

variable {α β : Type} {p : Policy} {r : Region} {P : Region → α → Prop} {m m₁ m' : Machine}

theorem quiet {x : EvalM α} {a : α} (h : x.Ends m (.ok a) m₁) (quiet : m.Quiet p r)
    (safe : SafeAlone p r P x) : ∃ r₁, r ≤ r₁ ∧ m₁.Quiet p r₁ ∧ P r₁ a := by
  obtain ⟨r₁, advance, closed, ha⟩ :=
    Safe.run h quiet.closed ⟨fun _ => trivial, fun _ => trivial⟩ safe
  exact ⟨r₁, advance.le, ⟨closed, advance.silent quiet.silent⟩, ha⟩

theorem split {x : EvalM α} {f : α → EvalM β} {o : Except Error β} (h : (x >>= f).Ends m o m')
    (quiet : m.Quiet p r) (safe : SafeAlone p r P x) :
    (∃ err, o = .error err ∧ x.Ends m (.error err) m') ∨
      ∃ a m₁ r₁, x.Ends m (.ok a) m₁ ∧ (r ≤ r₁ ∧ m₁.Quiet p r₁ ∧ P r₁ a) ∧
        (f a).Ends m₁ o m' := by
  rcases h.of_bind with stopped | ⟨a, m₁, hx, hf⟩
  · exact .inl stopped
  · obtain ⟨r₁, later⟩ := hx.quiet quiet safe
    exact .inr ⟨a, m₁, r₁, hx, later, hf⟩

end EvalM.Ends

structure DerivedEvaluator (p : Policy) (evaluate : Evaluator) : Prop where
  safe : SafeEvaluator p (fun _ => True) (fun _ m₁ m₂ => m₁ = m₂) evaluate
  derives : ∀ {r e s m o m'}, e.Within p r → r.scope s → m.Quiet p r →
    (evaluate e s).Ends m o m' → Evaluates e s m o m'

structure DerivedApplier (p : Policy) (apply : Applier) : Prop where
  safe : SafeApplier p (fun _ => True) (fun _ m₁ m₂ => m₁ = m₂) apply
  derives : ∀ {r f args m o m'}, f.Within p r → AllWithin p r args → m.Quiet p r →
    (apply f args).Ends m o m' → Applies f args m o m'

section

variable {p : Policy} {evaluate : Evaluator} {apply : Applier} {r : Region} {s : Scope}
variable {m m' : Machine}

/-- What is derivable for each of several parts is derivable for all of them in order. -/
theorem mapM_derived {α : Type} {f : α → EvalM Value}
    {D : α → Machine → Except Error Value → Machine → Prop}
    {E : List α → Machine → Except Error (List Value) → Machine → Prop}
    (nil : ∀ m, E [] m (.ok []) m)
    (cons : ∀ {a xs m m₁ m' v o}, D a m (.ok v) m₁ → E xs m₁ o m' →
      E (a :: xs) m (o.map fun vs => v :: vs) m')
    (error : ∀ {a xs m m' err}, D a m (.error err) m' → E (a :: xs) m (.error err) m')
    {xs : List α} {o : Except Error (List Value)} (quiet : m.Quiet p r)
    (safe : ∀ a ∈ xs, ∀ r', r ≤ r' → SafeAlone p r' (fun r v => v.Within p r) (f a))
    (one : ∀ a ∈ xs, ∀ {r' m o m'}, r ≤ r' → m.Quiet p r' → (f a).Ends m o m' → D a m o m')
    (run : (xs.mapM f).Ends m o m') : E xs m o m' := by
  induction xs generalizing r m o m' with
  | nil =>
    rw [List.mapM_nil] at run
    obtain ⟨rfl, rfl⟩ := ends_pure_iff.mp run
    exact nil m'
  | cons a xs ih =>
    rw [List.mapM_cons] at run
    rcases run.split quiet (safe a List.mem_cons_self r (le_refl r)) with
      ⟨err, rfl, first⟩ | ⟨v, m₁, r₁, first, ⟨le, quiet₁, _⟩, run⟩
    · exact error (one a List.mem_cons_self (le_refl r) quiet first)
    · have head := one a List.mem_cons_self (le_refl r) quiet first
      have others {o : Except Error (List Value)} {m' : Machine}
          (rest : (xs.mapM f).Ends m₁ o m') : E xs m₁ o m' := by
        refine ih quiet₁ ?_ ?_ rest
        · intro b hb r' le'
          exact safe b (List.mem_cons_of_mem a hb) r' (le.trans le')
        · intro b hb r' m o m' le'
          exact one b (List.mem_cons_of_mem a hb) (le.trans le')
      rcases run.of_bind with ⟨err, rfl, rest⟩ | ⟨vs, m₂, rest, run⟩
      · exact cons head (others rest)
      · obtain ⟨rfl, rfl⟩ := ends_pure_iff.mp run
        exact cons head (others rest)

theorem DerivedEvaluator.all (he : DerivedEvaluator p evaluate) {es : List Value}
    {o : Except Error (List Value)} (h : AllWithin p r es) (hs : r.scope s) (quiet : m.Quiet p r)
    (run : (es.mapM fun e => evaluate e s).Ends m o m') : EvaluatesAll es s m o m' := by
  refine mapM_derived (D := fun e m o m' => Evaluates e s m o m')
    (E := fun es m o m' => EvaluatesAll es s m o m') (fun _ => .nil) .cons .error quiet ?_ ?_ run
  · intro e hmem r' le
    exact he.safe r' e s ((h e hmem).mono le) (le.1 s hs) trivial
  · intro e hmem r' m o m' le quiet' run'
    exact he.derives ((h e hmem).mono le) (le.1 s hs) quiet' run'

theorem DerivedApplier.each (ha : DerivedApplier p apply) {f : Value} {us : List Value}
    {o : Except Error (List Value)} (hf : f.Within p r) (h : AllWithin p r us)
    (quiet : m.Quiet p r) (run : (us.mapM fun u => apply f [u]).Ends m o m') :
    AppliesEach f us m o m' := by
  have alone {u : Value} (hmem : u ∈ us) {r' : Region} (le : r ≤ r') : AllWithin p r' [u] := by
    intro v hv
    exact List.mem_singleton.mp hv ▸ (h u hmem).mono le
  refine mapM_derived (D := fun u m o m' => Applies f [u] m o m')
    (E := fun us m o m' => AppliesEach f us m o m') (fun _ => .nil) .cons .error quiet ?_ ?_ run
  · intro u hmem r' le
    exact ha.safe r' f [u] (hf.mono le) (alone hmem le)
  · intro u hmem r' m o m' le quiet' run'
    exact ha.derives (hf.mono le) (alone hmem le) quiet' run'

theorem Ends.of_ofExcept {α : Type} {x o : Except Error α} (h : (ofExcept x).Ends m o m') :
    x = o ∧ m = m' := (ends_ofExcept x m).unique h

theorem apply_derived (ha : DerivedApplier p apply) {f a : Value} {rest : List Value}
    {o : Except Error Value} (h : AllWithin p r (f :: a :: rest)) (quiet : m.Quiet p r)
    (run : (CallOp.apply.run apply (f :: a :: rest)).Ends m o m') :
    Performs (.call .apply) (f :: a :: rest) m o m' := by
  obtain ⟨hf, others⟩ := List.forall_mem_cons.mp h
  rcases run.split quiet (Safe.functionArg CallOp.apply.name hf) with
    ⟨err, rfl, stopped⟩ | ⟨f', m₁, r₁, found, ⟨le, quiet₁, hf'⟩, run⟩
  · exact .direct fun _ _ => stopped.bind_error
  rcases run.split quiet₁
    (Safe.spread CallOp.apply.name (AllWithin.mono others le) (by simp)) with
    ⟨err, rfl, stopped⟩ | ⟨args, m₂, r₂, spread, ⟨le₂, quiet₂, hargs⟩, run⟩
  · exact .direct fun _ _ => found.bind stopped.bind_error
  obtain ⟨isFunction, rfl⟩ := Ends.of_ofExcept found
  obtain ⟨isSpread, rfl⟩ := Ends.of_ofExcept spread
  exact .apply isFunction isSpread (ha.derives (hf'.mono le₂) hargs quiet₂ run)

theorem map_derived (ha : DerivedApplier p apply) {f a : Value} {o : Except Error Value}
    (h : AllWithin p r [f, a]) (quiet : m.Quiet p r)
    (run : (CallOp.map.run apply [f, a]).Ends m o m') :
    Performs (.call .map) [f, a] m o m' := by
  obtain ⟨hf, others⟩ := List.forall_mem_cons.mp h
  rcases run.split quiet (Safe.functionArg CallOp.map.name hf) with
    ⟨err, rfl, stopped⟩ | ⟨f', m₁, r₁, found, ⟨le, quiet₁, hf'⟩, run⟩
  · exact .direct fun _ _ => stopped.bind_error
  have ha' := (others a List.mem_cons_self).mono le
  rcases run.split quiet₁ (Safe.itemsArg CallOp.map.name ha') with
    ⟨err, rfl, stopped⟩ | ⟨items, m₂, r₂, sequence, ⟨le₂, quiet₂, hitems⟩, run⟩
  · exact .direct fun _ _ => found.bind stopped.bind_error
  obtain ⟨isFunction, rfl⟩ := Ends.of_ofExcept found
  obtain ⟨isSequence, rfl⟩ := Ends.of_ofExcept sequence
  have each {o : Except Error (List Value)} {m'' : Machine}
      (results : (items.toList.mapM fun u => apply f' [u]).Ends m o m'') :
      AppliesEach f' items.toList m o m'' :=
    ha.each (hf'.mono le₂) hitems quiet₂ results
  rcases run.of_bind with ⟨err, rfl, results⟩ | ⟨vs, m₃, results, run⟩
  · exact .map isFunction isSequence (each results)
  · obtain ⟨rfl, rfl⟩ := ends_pure_iff.mp run
    exact .map isFunction isSequence (each results)

theorem swap_derived (ha : DerivedApplier p apply) {a f : Value} {extra : List Value}
    {o : Except Error Value} (h : AllWithin p r (a :: f :: extra)) (quiet : m.Quiet p r)
    (run : (CallOp.swap.run apply (a :: f :: extra)).Ends m o m') :
    Performs (.call .swap) (a :: f :: extra) m o m' := by
  obtain ⟨hcell, others⟩ := List.forall_mem_cons.mp h
  obtain ⟨hf, hextra⟩ := List.forall_mem_cons.mp others
  rcases run.split quiet (Safe.cellArg CallOp.swap.name hcell) with
    ⟨err, rfl, stopped⟩ | ⟨c, m₁, r₁, cell, ⟨le, quiet₁, hc⟩, run⟩
  · exact .direct fun _ _ => stopped.bind_error
  rcases run.split quiet₁ (Safe.functionArg CallOp.swap.name (hf.mono le)) with
    ⟨err, rfl, stopped⟩ | ⟨f', m₂, r₂, found, ⟨le₂, quiet₂, hf'⟩, run⟩
  · exact .direct fun _ _ => cell.bind stopped.bind_error
  obtain ⟨isCell, rfl⟩ := Ends.of_ofExcept cell
  obtain ⟨isFunction, rfl⟩ := Ends.of_ofExcept found
  have hargs : AllWithin p r₂ (m.cellContent c :: extra) :=
    List.forall_mem_cons.mpr
      ⟨quiet₂.closed.content (le₂.2 c hc), AllWithin.mono hextra (le.trans le₂)⟩
  have run : (apply f' (m.cellContent c :: extra) >>= fun new =>
      modify (·.setCell c new) >>= fun _ => pure new).Ends m o m' := run
  rcases run.of_bind with ⟨err, rfl, result⟩ | ⟨new, m₃, result, run⟩
  · exact .swapError isCell isFunction (ha.derives hf' hargs quiet₂ result)
  · have stored : (modify (·.setCell c new) >>= fun _ => pure new : EvalM Value).Ends m₃
      (.ok new) (m₃.setCell c new) := rfl
    obtain ⟨rfl, rfl⟩ := run.unique stored
    exact .swap isCell isFunction (ha.derives hf' hargs quiet₂ result)

theorem callOp_derived (ha : DerivedApplier p apply) (op : CallOp) {args : List Value}
    {o : Except Error Value} (h : AllWithin p r args) (quiet : m.Quiet p r)
    (run : (op.run apply args).Ends m o m') : Performs (.call op) args m o m' := by
  cases op with
  | apply =>
    rcases args with _ | ⟨f, _ | ⟨a, rest⟩⟩
    · exact .direct fun _ _ => run
    · exact .direct fun _ _ => run
    · exact apply_derived ha h quiet run
  | map =>
    rcases args with _ | ⟨f, _ | ⟨a, _ | ⟨b, rest⟩⟩⟩
    · exact .direct fun _ _ => run
    · exact .direct fun _ _ => run
    · exact map_derived ha h quiet run
    · exact .direct fun _ _ => run
  | swap =>
    rcases args with _ | ⟨a, _ | ⟨f, extra⟩⟩
    · exact .direct fun _ _ => run
    · exact .direct fun _ _ => run
    · exact swap_derived ha h quiet run

theorem native_derived (he : DerivedEvaluator p evaluate) (ha : DerivedApplier p apply)
    {op : Native} (hop : ∀ s, op = .evalIn s → p.evals s) {args : List Value}
    {o : Except Error Value} (h : AllWithin p r args) (quiet : m.Quiet p r)
    (run : (op.run evaluate apply args).Ends m o m') : Performs op args m o m' := by
  cases op with
  | data | cell | text | throw | slurp => exact .direct fun _ _ => run
  | call op => exact callOp_derived ha op h quiet run
  | evalIn scope =>
    rcases args with _ | ⟨e, _ | ⟨_, _⟩⟩
    · exact .direct fun _ _ => run
    · have inside := quiet.closed.evals (hop scope rfl)
      exact .evalIn (he.derives (h e List.mem_cons_self) inside quiet run)
    · exact .direct fun _ _ => run
  | host name op =>
    cases op with
    | list | collect => exact .direct fun _ _ => run
    | call =>
      cases args with
      | nil => exact .direct fun _ _ => run
      | cons f args =>
        obtain ⟨hf, hargs⟩ := List.forall_mem_cons.mp h
        exact .host (ha.derives hf hargs quiet run)

/-- A step leads on to what is to be derived: whatever is derived for what it leaves to do is the
end of a derivation of the whole. -/
def LeadsOn (D : Except Error Value → Machine → Prop) : Except Error Step → Machine → Prop
  | .error err, m => D (.error err) m
  | .ok (.done v), m => D (.ok v) m
  | .ok (.tail e s), m => ∀ o m', Evaluates e s m o m' → D o m'

theorem LeadsOn.mono {D D' : Except Error Value → Machine → Prop} {o : Except Error Step}
    (h : LeadsOn D o m) (hD : ∀ o m, D o m → D' o m) : LeadsOn D' o m := by
  rcases o with err | v | ⟨e, s⟩
  · exact hD _ _ h
  · exact hD _ _ h
  · intro o m' hrest
    exact hD o m' (h o m' hrest)

theorem Evaluates.of_nil {o : Except Error Value} (h : Evaluates .nil s m o m') :
    o = .ok .nil ∧ m' = m := by
  cases h with
  | constant => exact ⟨rfl, rfl⟩

theorem define_leadsOn (he : DerivedEvaluator p evaluate) {name : Text} {e : Value}
    {o : Except Error Step} (h : e.Within p r) (hs : r.scope s) (quiet : m.Quiet p r)
    (run : (Eval.define evaluate [.sym name, e] s).Ends m o m') :
    LeadsOn (Evaluates (SpecialForm.define.expr [.sym name, e]) s m) o m' := by
  have run := (Eval.define_silent quiet.silent name e).symm.trans run
  rcases Ends.of_bind run with ⟨err, rfl, first⟩ | ⟨v, m₁, first, run⟩
  · exact .defineError (he.derives h hs quiet first)
  · have defined : (EvalM.define s name v >>= fun _ => pure (Step.done v)).Ends m₁
      (.ok (.done v)) (m₁.define s name v) := rfl
    obtain ⟨rfl, rfl⟩ := run.unique defined
    exact .define (he.derives h hs quiet first)

theorem bindings_derived (he : DerivedEvaluator p evaluate) :
    (items : List Value) → {r : Region} → {m : Machine} → {o : Except Error Unit} →
    AllWithin p r items → r.scope s → m.Quiet p r → items.length % 2 = 0 →
    ((bindingPairs items).forM (Eval.bindOne evaluate s)).Ends m o m' → Binds items s m o m'
  | [], _, _, _, _, _, _, _, run => by
    obtain ⟨rfl, rfl⟩ := ends_pure_iff.mp run
    exact .nil
  | [_], _, _, _, _, _, _, even, _ => by cases even
  | v :: e :: rest, r, m, o, h, hs, quiet, even, run => by
    obtain ⟨_, others⟩ := List.forall_mem_cons.mp h
    obtain ⟨hv, hrest⟩ := List.forall_mem_cons.mp others
    have run : (Eval.bindOne evaluate s (v, e) >>= fun _ =>
        (bindingPairs rest).forM (Eval.bindOne evaluate s)).Ends m o m' := run
    by_cases named : v.is .symbol
    · obtain ⟨name, rfl⟩ := SpecialForm.eq_sym named
      rw [Eval.bindOne, bind_assoc] at run
      rcases run.split quiet (he.safe r e s hv hs trivial) with
        ⟨err, rfl, first⟩ | ⟨v, m₁, r₁, first, ⟨le, quiet₁, hv₁⟩, run⟩
      · exact .error (he.derives hv hs quiet first)
      · have defined : (EvalM.define s name v).Ends m₁ (.ok ⟨⟩) (m₁.define s name v) := rfl
        obtain ⟨r₂, le₂, quiet₂, _⟩ := defined.quiet quiet₁
          (Safe.define (equality_simulation p) (P := fun _ _ => True) trivial (le.1 s hs) trivial
            hv₁)
        refine .cons (he.derives hv hs quiet first) ?_
        have even : rest.length % 2 = 0 := by
          simp only [List.length_cons] at even
          omega
        exact bindings_derived he rest (AllWithin.mono hrest (le.trans le₂))
          ((le.trans le₂).1 s hs) quiet₂ even ((exec_bind_ok defined _).symm.trans run)
    · rw [Eval.bindOne_noName (Bool.not_eq_true _ ▸ named)] at run
      obtain ⟨rfl, rfl⟩ := run.unique ends_fail.bind_error
      exact .noName (Bool.not_eq_true _ ▸ named)

theorem letIn_leadsOn (he : DerivedEvaluator p evaluate) {bindings body : Value}
    {items : Array Value} {o : Except Error Step} (h : AllWithin p r items.toList)
    (hs : r.scope s) (quiet : m.Quiet p r) (hitems : bindings.items? = some items)
    (even : items.size % 2 = 0)
    (run : (Eval.letIn evaluate [bindings, body] s).Ends m o m') :
    LeadsOn (Evaluates (SpecialForm.letIn.expr [bindings, body]) s m) o m' := by
  have run := (Eval.letIn_silent quiet.silent body hitems even).symm.trans run
  have made : (EvalM.newFrame (some s) .empty).Ends m (.ok (m.newFrame (some s) .empty).1)
      (m.newFrame (some s) .empty).2 := exec_newFrame (some s) .empty m
  obtain ⟨r₁, le, quiet₁, hinner, _⟩ := made.quiet quiet
    (Safe.newFrame (equality_simulation p) (fun t ht => Option.some.inj ht ▸ hs)
      fun e he => by simp at he)
  have bound {o : Except Error Unit} {m' : Machine} (hall :
      ((bindingPairs items.toList).forM
        (Eval.bindOne evaluate (m.newFrame (some s) .empty).1)).Ends
          (m.newFrame (some s) .empty).2 o m') :
      Binds items.toList (m.newFrame (some s) .empty).1 (m.newFrame (some s) .empty).2 o m' :=
    bindings_derived he items.toList (AllWithin.mono h le) hinner quiet₁
      (Array.length_toList ▸ even) hall
  rcases Ends.of_bind run with ⟨err, rfl, hall⟩ | ⟨_, m₁, hall, run⟩
  · exact .letError hitems even (bound hall)
  · obtain ⟨rfl, rfl⟩ := ends_pure_iff.mp run
    intro o m'' hbody
    exact .letIn hitems even (bound hall) hbody

theorem sequence_leadsOn (he : DerivedEvaluator p evaluate) {parts : List Value}
    {o : Except Error Step} (h : AllWithin p r parts) (hs : r.scope s) (quiet : m.Quiet p r)
    (run : (Eval.sequence evaluate parts s).Ends m o m') :
    LeadsOn (Evaluates (SpecialForm.sequence.expr parts) s m) o m' := by
  rcases List.eq_nil_or_concat parts with rfl | ⟨es, last, rfl⟩
  · obtain ⟨rfl, rfl⟩ := ends_pure_iff.mp run
    intro o m'' rest
    obtain ⟨rfl, rfl⟩ := rest.of_nil
    exact .doNothing
  · rw [List.concat_eq_append] at h run ⊢
    rw [Eval.sequence_concat] at run
    have hes : AllWithin p r es := by
      intro e hmem
      exact h e (List.mem_append_left _ hmem)
    rcases run.of_bind with ⟨err, rfl, first⟩ | ⟨vs, m₁, first, run⟩
    · exact .sequenceError (he.all hes hs quiet first)
    · obtain ⟨rfl, rfl⟩ := ends_pure_iff.mp run
      intro o m'' rest
      exact .sequence (he.all hes hs quiet first) rest

theorem branch_leadsOn (he : DerivedEvaluator p evaluate) {test yes : Value} {no : Option Value}
    {o : Except Error Step} (h : test.Within p r) (hs : r.scope s) (quiet : m.Quiet p r)
    (run : (Eval.branch evaluate (test :: yes :: no.toList) s).Ends m o m') :
    LeadsOn (Evaluates (SpecialForm.branch.expr (test :: yes :: no.toList)) s m) o m' := by
  rw [Eval.branch_eq] at run
  rcases run.of_bind with ⟨err, rfl, first⟩ | ⟨v, m₁, first, run⟩
  · exact .ifError (he.derives h hs quiet first)
  obtain ⟨rfl, rfl⟩ := ends_pure_iff.mp run
  have tested := he.derives h hs quiet first
  intro o m'' rest
  by_cases truthy : v.isTruthy
  · rw [if_pos truthy] at rest
    exact .ifTrue tested truthy rest
  · rw [if_neg truthy] at rest
    cases no with
    | some no => exact .ifFalse tested truthy rest
    | none =>
      obtain ⟨rfl, rfl⟩ := rest.of_nil
      exact .ifNothing tested truthy

theorem specialForm_leadsOn (he : DerivedEvaluator p evaluate) (form : SpecialForm)
    {parts : List Value} {o : Except Error Step} (h : AllWithin p r parts) (hs : r.scope s)
    (quiet : m.Quiet p r) (run : (Eval.specialForm evaluate form parts s).Ends m o m') :
    LeadsOn (Evaluates (form.expr parts) s m) o m' := by
  cases hfault : form.fault? parts with
  | some fault =>
    rw [Eval.specialForm_fault hfault] at run
    obtain ⟨rfl, rfl⟩ := ends_fail_iff.mp run
    exact .malformed hfault
  | none =>
    cases form with
    | define =>
      obtain ⟨name, e, rfl⟩ := SpecialForm.define_shape hfault
      exact define_leadsOn he (h e (by simp)) hs quiet run
    | letIn =>
      obtain ⟨bindings, body, items, rfl, hitems, even⟩ := SpecialForm.letIn_shape hfault
      have within := (h bindings List.mem_cons_self).of_items? hitems
      exact letIn_leadsOn he (fun v hv => within v (Array.mem_toList_iff.mp hv)) hs quiet hitems
        even run
    | sequence => exact sequence_leadsOn he h hs quiet run
    | branch =>
      obtain ⟨test, yes, no, rfl⟩ := SpecialForm.branch_shape hfault
      exact branch_leadsOn he (h test List.mem_cons_self) hs quiet run
    | function =>
      obtain ⟨params, body, names, rfl, hparams⟩ := SpecialForm.function_shape hfault
      have run : (Eval.function [params, body] s).Ends m o m' := run
      obtain ⟨rfl, rfl⟩ := run.unique (Eval.function_ends body hparams)
      exact .function hparams

theorem data_derived (he : DerivedEvaluator p evaluate) (present : ¬p.absent) {e : Value}
    {o : Except Error Value} (noList : e.is .list = false) (h : e.Within p r) (hs : r.scope s)
    (quiet : m.Quiet p r) (run : (Eval.data evaluate e s).Ends m o m') : Evaluates e s m o m' := by
  cases e with
  | null =>
    cases h with
    | null absent => exact absurd absent present
  | sym name =>
    cases found : m.lookup name s with
    | some v =>
      obtain ⟨rfl, rfl⟩ := run.unique (ends_lookup_found found)
      exact .found found
    | none =>
      obtain ⟨rfl, rfl⟩ := run.unique (ends_lookup_unbound found)
      exact .unbound found
  | list xs => cases noList
  | vec xs =>
    have hall : AllWithin p r xs.toList := by
      intro v hv
      exact h.of_items? rfl v (Array.mem_toList_iff.mp hv)
    rcases run.of_bind with ⟨err, rfl, parts⟩ | ⟨vs, m₁, parts, run⟩
    · exact .vec (he.all hall hs quiet parts)
    · obtain ⟨rfl, rfl⟩ := ends_pure_iff.mp run
      exact .vec (he.all hall hs quiet parts)
  | map t =>
    cases h with
    | map hentries =>
      have hall : AllWithin p r t.vals.toList := by
        intro v hv
        rw [Table.toList_vals] at hv
        obtain ⟨entry, hentry, rfl⟩ := List.mem_map.mp hv
        exact hentries entry hentry
      have run : ((t.vals.toList.mapM (fun v => evaluate v s) >>= fun vs =>
          pure (⟨t.trim.order, vs.toArray⟩ : Table Key Value)) >>= fun t =>
            pure (Value.map t)).Ends m o m' := run
      rw [bind_assoc] at run
      rcases run.of_bind with ⟨err, rfl, parts⟩ | ⟨vs, m₁, parts, run⟩
      · exact .map (he.all hall hs quiet parts)
      · obtain ⟨rfl, rfl⟩ := ends_pure_iff.mp run
        exact .map (he.all hall hs quiet parts)
  | _ =>
    obtain ⟨rfl, rfl⟩ := ends_pure_iff.mp run
    exact .constant rfl

theorem notFunction_derived (present : ¬p.absent) {f : Value} (args : List Value) {α : Type}
    {o : Except Error α} (hf : f.Within p r) (noFunction : f.isFunction = false)
    (quiet : m.Quiet p r) (run : (Eval.notApplicable f >>= fun err => fail err).Ends m o m') :
    ∃ err, o = .error err ∧ m' = m ∧ Applies f args m (.error err) m := by
  obtain ⟨t, printed⟩ := (quiet.closed.printed true hf).text present
  cases kind : f.kind? with
  | none =>
    cases hf with
    | null absent => exact absurd absent present
    | _ => cases kind
  | some k =>
    obtain ⟨rfl, rfl⟩ := run.unique ((Eval.notApplicable_ends kind printed).bind ends_fail)
    exact ⟨_, rfl, rfl, .noFunction noFunction kind printed⟩

theorem call_leadsOn (he : DerivedEvaluator p evaluate) (ha : DerivedApplier p apply)
    (present : ¬p.absent) {f : Value} {args : List Value} {o : Except Error Step}
    (hf : f.Within p r) (h : AllWithin p r args) (quiet : m.Quiet p r)
    (run : (Eval.call evaluate apply f args s).Ends m o m') :
    LeadsOn (Applies f args m) o m' := by
  by_cases function : f.isFunction
  · cases hf with
    | @native id op hop =>
      have run := (Eval.call_native quiet.silent id op args).symm.trans run
      have safe := op.run_safe (equality_simulation p) he.safe ha.safe hop h
      rcases Ends.split run quiet safe with
        ⟨err, rfl, ran⟩ | ⟨v, m₁, r₁, ran, ⟨_, quiet₁, _⟩, run⟩
      · exact .native (native_derived he ha hop h quiet ran)
      · have returned := Eval.traceReturn_ends (s := s) quiet₁.silent op v
        obtain ⟨rfl, rfl⟩ := run.unique (returned.bind (ends_pure_iff.mpr ⟨rfl, rfl⟩))
        exact .native (native_derived he ha hop h quiet ran)
    | @closure id params body scope hbody hscope =>
      have run := (Eval.call_closure quiet.silent id params body scope args).symm.trans run
      by_cases fits : params.names.length = args.length
      · have framed := Eval.callFrame_ends (m := m) scope fits
        obtain ⟨rfl, rfl⟩ := Ends.unique run (framed.bind (ends_pure_iff.mpr ⟨rfl, rfl⟩))
        intro o m'' rest
        exact .closure fits rest
      · rw [Eval.callFrame_arity scope fits] at run
        obtain ⟨rfl, rfl⟩ := Ends.unique run ends_fail.bind_error
        exact .arity fits
    | _ => cases function
  · rw [Bool.not_eq_true] at function
    rw [Eval.call_noFunction function] at run
    obtain ⟨err, rfl, rfl, refused⟩ := notFunction_derived present args hf function quiet run
    exact refused

/-- One step of the loop is the beginning of a derivation. -/
theorem step_leadsOn (he : DerivedEvaluator p evaluate) (ha : DerivedApplier p apply)
    (present : ¬p.absent) {e : Value} {o : Except Error Step} (h : e.Within p r)
    (hs : r.scope s) (quiet : m.Quiet p r) (run : (Eval.step evaluate apply e s).Ends m o m') :
    LeadsOn (Evaluates e s m) o m' := by
  by_cases list : e.is .list
  · obtain ⟨es, rfl⟩ : ∃ es, e = .list ⟨es⟩ := by
      cases e with
      | list xs => exact ⟨xs.toList, rfl⟩
      | _ => cases list
    cases es with
    | nil =>
      obtain ⟨rfl, rfl⟩ := run.unique (Eval.step_empty quiet.silent)
      exact .empty
    | cons head parts =>
      have hall : AllWithin p r (head :: parts) := by
        intro v hv
        exact h.of_items? rfl v (List.mem_toArray.mpr hv)
      obtain ⟨hhead, hparts⟩ := List.forall_mem_cons.mp hall
      cases special : SpecialForm.ofHead? head with
      | some form =>
        rw [SpecialForm.eq_expr_of_head special] at run ⊢
        have run := (Eval.step_form quiet.silent form parts).symm.trans run
        exact specialForm_leadsOn he form hparts hs quiet run
      | none =>
        have run := (Eval.step_call quiet.silent parts special).symm.trans run
        rcases Ends.split run quiet (he.safe r head s hhead hs trivial) with
          ⟨err, rfl, first⟩ | ⟨f, m₁, r₁, first, ⟨le, quiet₁, hf⟩, run⟩
        · exact .headError special (he.derives hhead hs quiet first)
        have called := he.derives hhead hs quiet first
        have hparts₁ := AllWithin.mono hparts le
        rcases run.split quiet₁ (Safe.mapM fun v hv r' le' =>
          he.safe r' v s ((hparts₁ v hv).mono le') (le'.1 s (le.1 s hs)) trivial) with
          ⟨err, rfl, others⟩ | ⟨args, m₂, r₂, others, ⟨le₂, quiet₂, hargs⟩, run⟩
        · exact .partError special called (he.all hparts₁ (le.1 s hs) quiet₁ others)
        · have given := he.all hparts₁ (le.1 s hs) quiet₁ others
          exact (call_leadsOn he ha present (hf.mono le₂) hargs quiet₂ run).mono
            fun o m hcall => .call special called given hcall
  · rw [Bool.not_eq_true] at list
    have run := (Eval.step_data quiet.silent list).symm.trans run
    rcases Ends.of_bind run with ⟨err, rfl, ran⟩ | ⟨v, m₁, ran, run⟩
    · exact data_derived he present list h hs quiet ran
    · obtain ⟨rfl, rfl⟩ := ends_pure_iff.mp run
      exact data_derived he present list h hs quiet ran

end

section

variable {p : Policy} {fuel : Nat}

/-- Granted one step more, the loop takes one more turn. -/
theorem eval_succ_derived (present : ¬p.absent) (he : DerivedEvaluator p (eval fuel))
    (ha : DerivedApplier p (applyFunction fuel)) : DerivedEvaluator p (eval (fuel + 1)) := by
  refine ⟨eval_safe (equality_simulation p) (fuel + 1), ?_⟩
  intro r e s m o m' h hs quiet run
  rw [Eval.eval_of_ne_null (h.ne_null present), Eval.loop_succ] at run
  have safe := Eval.step_safe (W := fun _ => True) (equality_simulation p) he.safe ha.safe h hs
    trivial
  rcases run.split quiet safe with
    ⟨err, rfl, ran⟩ | ⟨next, m₁, r₁, ran, ⟨_, quiet₁, hnext⟩, run⟩
  · exact step_leadsOn he ha present h hs quiet ran
  have leads := step_leadsOn he ha present h hs quiet ran
  cases next with
  | done v =>
    obtain ⟨rfl, rfl⟩ := ends_pure_iff.mp run
    exact leads
  | tail e' s' =>
    -- what is left to do is not absent, so the loop treats it as evaluation would
    obtain ⟨he', hs', _⟩ := hnext
    rw [Eval.finish, ← Eval.eval_of_ne_null (he'.ne_null present)] at run
    exact leads o m' (he.derives he' hs' quiet₁ run)

theorem apply_succ_derived (present : ¬p.absent) (he : DerivedEvaluator p (eval fuel))
    (ha : DerivedApplier p (applyFunction fuel)) :
    DerivedApplier p (applyFunction (fuel + 1)) := by
  refine ⟨applyFunction_safe (equality_simulation p) (fuel + 1), ?_⟩
  intro r f args m o m' hf hargs quiet run
  by_cases function : f.isFunction
  · cases hf with
    | @native id op hop => exact .native (native_derived he ha hop hargs quiet run)
    | @closure id params body scope hbody hscope =>
      have run : (Eval.callFrame params scope args >>= fun inner =>
          eval fuel body inner).Ends m o m' := run
      by_cases fits : params.names.length = args.length
      · have framed := Eval.callFrame_ends (m := m) scope fits
        obtain ⟨r₁, le, quiet₁, hinner, _⟩ := framed.quiet quiet
          (Eval.callFrame_safe (equality_simulation p) params hargs hscope)
        have run := (exec_bind_ok framed _).symm.trans run
        exact .closure fits (he.derives (hbody.mono le) hinner quiet₁ run)
      · rw [Eval.callFrame_arity scope fits] at run
        obtain ⟨rfl, rfl⟩ := run.unique ends_fail.bind_error
        exact .arity fits
    | _ => cases function
  · rw [Bool.not_eq_true] at function
    rw [Eval.apply_noFunction function] at run
    obtain ⟨err, rfl, rfl, refused⟩ := notFunction_derived present args hf function quiet run
    exact refused

/-- By induction on the steps granted. -/
theorem eval_apply_derived (present : ¬p.absent) (fuel : Nat) :
    DerivedEvaluator p (eval fuel) ∧ DerivedApplier p (applyFunction fuel) := by
  induction fuel with
  | zero =>
    constructor
    · refine ⟨eval_safe (equality_simulation p) 0, ?_⟩
      intro r e s m o m' h _ _ run
      rw [Eval.eval_of_ne_null (h.ne_null present)] at run
      cases o <;> cases run
    · refine ⟨applyFunction_safe (equality_simulation p) 0, ?_⟩
      intro r f args m o m' _ _ _ run
      cases o <;> cases run
  | succ fuel ih =>
    obtain ⟨he, ha⟩ := ih
    exact ⟨eval_succ_derived present he ha, apply_succ_derived present he ha⟩

end

/-- Without a place to send the trace to, the same happens but for the trace. -/
theorem eval_untraced {p : Policy} {r : Region} {e : Value} {s : Scope} {m : Machine}
    (present : ¬p.absent) (he : e.Within p r) (hs : r.scope s) (closed : m.Closed p r)
    (fuel : Nat) : (eval fuel e s).exec m.untraced =
      (((eval fuel e s).exec m).1, ((eval fuel e s).exec m).2.untraced) := by
  have grants (m : Machine) : m.Grants p fun _ => True := ⟨fun _ => trivial, fun _ => trivial⟩
  obtain ⟨_, _, _, agree, same, _⟩ := eval_safe (W := fun _ => True)
    (untraced_simulation present) fuel r e s he hs trivial m m.untraced closed (grants m) rfl
  obtain ⟨_, advance, _⟩ := eval_safe (W := fun _ => True) (equality_simulation p) fuel r e s he
    hs trivial m.untraced m.untraced closed.untraced (grants m.untraced) rfl
  rw [same, agree, Machine.untraced_of_silent (advance.silent rfl)]

/-- Where no absent value is reached, an expression evaluates to an outcome and leaves a machine
behind if and only if there is a derivation of that, the trace left out of account. -/
theorem runs_are_derivations {e : Value} {s : Scope} {m : Machine}
    (present : ∀ x, Accesses m [.value e, .scope s] x → x ≠ .value .null)
    (o : Except Error Value) (n : Machine) :
    (∃ fuel m', (eval fuel e s).Ends m o m' ∧ m'.untraced = n) ↔
      Evaluates e s m.untraced o n := by
  let roots : List Item := [.value e, .scope s]
  let p : Policy := ⟨False, fun t => Accesses m roots (.scope t), True⟩
  let r : Region := .ofItems (Accesses m roots)
  obtain ⟨closed, within⟩ := m.closed_accesses roots (p := p) (fun h => present _ h rfl)
    (fun id t h => h.edge (.evaluated id t)) trivial fun _ h => h
  have he : e.Within p r := within _ List.mem_cons_self
  have hs : r.scope s := within (.scope s) (List.mem_cons_of_mem _ List.mem_cons_self)
  have alike := eval_untraced (p := p) id he hs closed
  constructor
  · rintro ⟨fuel, m', run, rfl⟩
    refine (eval_apply_derived (p := p) id fuel).1.derives he hs ⟨closed.untraced, rfl⟩ ?_
    rw [Ends, alike, run]
  · intro derivation
    obtain ⟨fuel, run⟩ := (derivation.settles rfl).ends.exists
    have run := (alike fuel).symm.trans run
    rw [Prod.mk.injEq] at run
    exact ⟨fuel, _, Prod.ext run.1 rfl, run.2⟩

/-- The program `((fn* (f) (f f true)) (fn* (f more) (if more (f f false) more)))`, which goes
around in tail position. -/
def goAround : Value :=
  let f := Value.sym (ascii "f")
  let more := Value.sym (ascii "more")
  let body := SpecialForm.branch.expr [more, .list #[f, f, .bool false], more]
  .list #[SpecialForm.function.expr [.list #[f], .list #[f, f, .bool true]],
    SpecialForm.function.expr [.list #[f, more], body]]

def Machine.traced : Machine := ⟨#[⟨true, ∅⟩], #[], 2, .empty, some (.stream .empty), []⟩

theorem tail_calls_have_a_derivation :
    let s := Scope.frame ⟨0⟩ .empty none
    (∀ x, Accesses .traced [.value goAround, .scope s] x → x ≠ .value .null) ∧
      ∃ v n, v.isTruthy = false ∧ Evaluates goAround s Machine.traced.untraced (.ok v) n := by
  intro s
  let p : Policy := ⟨False, fun _ => False, True⟩
  let r : Region := ⟨fun t => t = s, fun _ => False⟩
  have closed : Machine.traced.Closed p r := by
    constructor
    · rintro t u rfl ht
      cases ht
    · rintro t name v rfl hv
      have none : Machine.traced.local? s name = none := rfl
      rw [none] at hv
      cases hv
    · intro c hc
      exact hc.elim
    · intro t ht
      exact ht.elim
  have within : ∀ x ∈ [Item.value goAround, .scope s], x.Within p r := by
    have call : goAround.Within p r := by
      simp [goAround, SpecialForm.expr, Value.Within.list_iff, Value.Within.sym,
        Value.Within.bool]
    simp [Item.Within, call, r]
  have present : ∀ x, Accesses .traced [.value goAround, .scope s] x → x ≠ .value .null := by
    rintro x hx rfl
    cases closed.accesses within hx with
    | null absent => exact absent
  have ends (run : Except Halt Value × Machine)
      (h : run.1.toOption.map Value.isTruthy = some false) :
      ∃ v, v.isTruthy = false ∧ run = (.ok v, run.2) := by
    rcases run with ⟨_ | v, m'⟩
    · cases h
    · exact ⟨v, Option.some.inj h, rfl⟩
  obtain ⟨v, falsy, run⟩ := ends ((eval 20 goAround s).exec .traced) (by decide +kernel)
  exact ⟨present, v, _, falsy, (runs_are_derivations present _ _).mp ⟨20, _, run, rfl⟩⟩

end MiniLisp
