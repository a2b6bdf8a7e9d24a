import MiniLisp.Proofs.Primitives

/-! Printing reads the contents of cells, so values of a closed region print alike on machines that
agree on it. It can fail only where an absent value may occur. -/
namespace MiniLisp

abbrev Printed (p : Policy) : Except Error Text → Prop :=
  Meets (fun e => p.absent ∧ e = .absent .printed) fun _ => True

namespace Printed

variable {p : Policy}

theorem text {o : Except Error Text} (h : Printed p o) (present : ¬p.absent) : ∃ t, o = .ok t := by
  cases o with
  | ok t => exact ⟨t, rfl⟩
  | error e => exact absurd h.1 present

theorem unraised {e : Error} (h : Printed p (.error e)) (r : Region) : e.Within p r := by
  obtain ⟨absent, rfl⟩ := h
  exact absent

end Printed

namespace Printer

section Alike

variable {p : Policy} {r : Region} {cell cell₁ cell₂ : CellPrinter}

mutual

theorem printed_value (readable : Bool) (hc : ∀ c, r.cell c → ∀ out, Printed p (cell out c)) :
    (v : Value) → v.Within p r → (out : Text) → Printed p (appendValue readable cell out v)
  | .null, h, out => by
    cases h with
    | null absent => exact ⟨absent, rfl⟩
  | .nil, _, _ => trivial
  | .bool _, _, _ => trivial
  | .int _, _, _ => trivial
  | .str _, _, _ => trivial
  | .sym _, _, _ => trivial
  | .kw _, _, _ => trivial
  | .list ⟨xs⟩, h, out => by
    cases h with
    | list hs =>
      rw [appendValue]
      exact (printed_items readable hc (ascii " ") xs (fun v hv => hs v (List.mem_toArray.mpr hv))
        _).bind fun _ _ => trivial
  | .vec ⟨xs⟩, h, out => by
    cases h with
    | vec hs =>
      rw [appendValue]
      exact (printed_items readable hc (ascii " ") xs (fun v hv => hs v (List.mem_toArray.mpr hv))
        _).bind fun _ _ => trivial
  | .map ⟨order, ⟨vs⟩⟩, h, out => by
    cases h with
    | map hs =>
      rw [appendValue]
      exact (printed_entries readable hc order.toList vs hs .empty _).bind fun _ _ => trivial
  | .cell c, h, out => by
    cases h with
    | cell hr => exact hc c hr out
  | .native _ _, _, _ => trivial
  | .closure _ _ _ _, _, _ => trivial

theorem printed_items (readable : Bool) (hc : ∀ c, r.cell c → ∀ out, Printed p (cell out c))
    (separator : Text) : (vs : List Value) → AllWithin p r vs → (out : Text) →
    Printed p (appendItems readable cell separator out vs)
  | [], _, _ => trivial
  | [v], h, out => printed_value readable hc v (h v List.mem_cons_self) out
  | v :: w :: vs, h, out => by
    rw [appendItems]
    · exact (printed_value readable hc v (h v List.mem_cons_self) out).bind fun t _ =>
        printed_items readable hc separator (w :: vs)
          (fun u hu => h u (List.mem_cons_of_mem v hu)) (t ++ separator)
    · simp

theorem printed_entries (readable : Bool) (hc : ∀ c, r.cell c → ∀ out, Printed p (cell out c)) :
    (ks : List Key) → (vs : List Value) → (∀ e ∈ ks.zip vs, e.2.Within p r) → (lead out : Text) →
    Printed p (appendEntries readable cell lead out ks vs)
  | [], vs, _, _, _ => by cases vs <;> exact trivial
  | _ :: _, [], _, _, _ => trivial
  | k :: ks, v :: vs, h, lead, out => by
    rw [appendEntries]
    exact (printed_value readable hc v (h (k, v) List.mem_cons_self) _).bind fun t _ =>
      printed_entries readable hc ks vs (fun e he => h e (List.mem_cons_of_mem _ he)) _ t

end

mutual

theorem appendValue_congr (readable : Bool)
    (same : ∀ c, r.cell c → ∀ out, cell₁ out c = cell₂ out c) :
    (v : Value) → v.Within p r → (out : Text) →
    appendValue readable cell₁ out v = appendValue readable cell₂ out v
  | .null, _, _ => rfl
  | .nil, _, _ => rfl
  | .bool _, _, _ => rfl
  | .int _, _, _ => rfl
  | .str _, _, _ => rfl
  | .sym _, _, _ => rfl
  | .kw _, _, _ => rfl
  | .list ⟨xs⟩, h, out => by
    cases h with
    | list hs =>
      rw [appendValue, appendValue, appendItems_congr readable same (ascii " ") xs
        fun v hv => hs v (List.mem_toArray.mpr hv)]
  | .vec ⟨xs⟩, h, out => by
    cases h with
    | vec hs =>
      rw [appendValue, appendValue, appendItems_congr readable same (ascii " ") xs
        fun v hv => hs v (List.mem_toArray.mpr hv)]
  | .map ⟨order, ⟨vs⟩⟩, h, out => by
    cases h with
    | map hs =>
      rw [appendValue, appendValue, appendEntries_congr readable same order.toList vs hs]
  | .cell c, h, out => by
    cases h with
    | cell hr => exact same c hr out
  | .native _ _, _, _ => rfl
  | .closure _ _ _ _, _, _ => rfl

theorem appendItems_congr (readable : Bool)
    (same : ∀ c, r.cell c → ∀ out, cell₁ out c = cell₂ out c) (separator : Text) :
    (vs : List Value) → AllWithin p r vs → (out : Text) →
    appendItems readable cell₁ separator out vs = appendItems readable cell₂ separator out vs
  | [], _, _ => rfl
  | [v], h, out => appendValue_congr readable same v (h v List.mem_cons_self) out
  | v :: w :: vs, h, out => by
    have others := appendItems_congr readable same separator (w :: vs)
      fun u hu => h u (List.mem_cons_of_mem v hu)
    rw [appendItems, appendItems, appendValue_congr readable same v (h v List.mem_cons_self)]
    · simp only [others]
    · simp
    · simp

theorem appendEntries_congr (readable : Bool)
    (same : ∀ c, r.cell c → ∀ out, cell₁ out c = cell₂ out c) :
    (ks : List Key) → (vs : List Value) → (∀ e ∈ ks.zip vs, e.2.Within p r) → (lead out : Text) →
    appendEntries readable cell₁ lead out ks vs = appendEntries readable cell₂ lead out ks vs
  | [], vs, _, _, _ => by cases vs <;> rfl
  | _ :: _, [], _, _, _ => rfl
  | k :: ks, v :: vs, h, lead, out => by
    have others := appendEntries_congr readable same ks vs
      fun e he => h e (List.mem_cons_of_mem _ he)
    rw [appendEntries, appendEntries,
      appendValue_congr readable same v (h (k, v) List.mem_cons_self)]
    simp only [others]

end

end Alike

variable {p : Policy} {r : Region} {cells cells₁ cells₂ : Array Value}

theorem printed_cell (readable : Bool) (within : ∀ c, r.cell c → (content cells c).Within p r)
    (depth : Nat) (entered : List CellId) (c : CellId) (hc : r.cell c) (out : Text) :
    Printed p (appendCell cells readable depth entered out c) := by
  induction depth generalizing entered c out with
  | zero => exact trivial
  | succ depth ih =>
    rw [appendCell]
    split
    · exact trivial
    · exact (printed_value readable (fun d hd out => ih (c :: entered) d hd out) _ (within c hc)
        _).bind fun _ _ => trivial

theorem appendCell_congr (readable : Bool)
    (within : ∀ c, r.cell c → (content cells₁ c).Within p r)
    (same : ∀ c, r.cell c → content cells₁ c = content cells₂ c)
    (depth : Nat) (entered : List CellId) (c : CellId) (hc : r.cell c) (out : Text) :
    appendCell cells₁ readable depth entered out c =
      appendCell cells₂ readable depth entered out c := by
  induction depth generalizing entered c out with
  | zero => rfl
  | succ depth ih =>
    rw [appendCell, appendCell, ← same c hc,
      appendValue_congr readable (fun d hd out => ih (c :: entered) d hd out) _ (within c hc)]

end Printer

namespace Machine.Closed

variable {p : Policy} {r : Region} {m : Machine}

theorem printed (h : m.Closed p r) (readable : Bool) {v : Value} (hv : v.Within p r) :
    Printed p (m.print readable v) :=
  Printer.printed_value readable
    (Printer.printed_cell readable (fun _ hc => h.content hc) _ []) v hv _

theorem printedAll (h : m.Closed p r) (readable : Bool) (separator : Text) {vs : List Value}
    (hs : AllWithin p r vs) : Printed p (printAll m.cells readable separator vs) :=
  Printer.printed_items readable
    (Printer.printed_cell readable (fun _ hc => h.content hc) _ []) separator vs hs _

end Machine.Closed

namespace Simulation

variable {p : Policy} {A : Agreement} {r : Region} {m₁ m₂ : Machine}

theorem print (sim : Simulation p A) (closed : m₁.Closed p r) (agree : A r m₁ m₂)
    (readable : Bool) {v : Value} (hv : v.Within p r) :
    m₁.print readable v = m₂.print readable v := by
  rw [Machine.print, Machine.print, printValue, printValue, sim.cells agree]
  exact Printer.appendValue_congr readable (Printer.appendCell_congr readable
    (fun _ hc => closed.content hc) (fun _ hc => sim.content agree hc) _ []) v hv _

theorem printAll (sim : Simulation p A) (closed : m₁.Closed p r) (agree : A r m₁ m₂)
    (readable : Bool) (separator : Text) {vs : List Value} (hs : AllWithin p r vs) :
    printAll m₁.cells readable separator vs = printAll m₂.cells readable separator vs := by
  rw [MiniLisp.printAll, MiniLisp.printAll, sim.cells agree]
  exact Printer.appendItems_congr readable (Printer.appendCell_congr readable
    (fun _ hc => closed.content hc) (fun _ hc => sim.content agree hc) _ []) separator vs hs _

end Simulation

/-- A text that is made without changing the machine, and the same on machines that agree. -/
def Told (p : Policy) (A : Agreement) (r : Region) (x : EvalM Text) : Prop :=
  ∀ m₁ m₂, m₁.Closed p r → A r m₁ m₂ →
    ∃ o, Printed p o ∧ x.exec m₁ = (EvalM.ofExcept o).exec m₁ ∧
      x.exec m₂ = (EvalM.ofExcept o).exec m₂

namespace Told

variable {p : Policy} {A : Agreement} {r : Region}

theorem ofExcept {o : Except Error Text} (h : Printed p o) : Told p A r (EvalM.ofExcept o) :=
  fun _ _ _ _ => ⟨o, h, rfl, rfl⟩

theorem pure (t : Text) : Told p A r (pure t) := Told.ofExcept (o := .ok t) trivial

theorem bind {x : EvalM Text} {f : Text → EvalM Text} (hx : Told p A r x)
    (hf : ∀ t, Told p A r (f t)) : Told p A r (x >>= f) := by
  intro m₁ m₂ closed agree
  obtain ⟨o, printed, run₁, run₂⟩ := hx m₁ m₂ closed agree
  cases o with
  | error e =>
    exact ⟨.error e, printed, EvalM.exec_bind_error run₁ f, EvalM.exec_bind_error run₂ f⟩
  | ok t =>
    rw [EvalM.exec_bind_ok run₁, EvalM.exec_bind_ok run₂]
    exact hf t m₁ m₂ closed agree

theorem read {f : Machine → EvalM Text}
    (same : ∀ m₁ m₂, m₁.Closed p r → A r m₁ m₂ → f m₁ = f m₂)
    (h : ∀ m, m.Closed p r → Told p A r (f m)) : Told p A r (get >>= f) := by
  intro m₁ m₂ closed agree
  have run (m : Machine) : (get >>= f).exec m = (f m).exec m :=
    EvalM.exec_bind_ok (EvalM.exec_get m) f
  rw [run, run, ← same m₁ m₂ closed agree]
  exact h m₁ closed m₁ m₂ closed agree

theorem readable (sim : Simulation p A) {v : Value} (hv : v.Within p r) :
    Told p A r (EvalM.readable v) :=
  Told.read (fun _ _ closed agree => congrArg EvalM.ofExcept (sim.print closed agree true hv))
    fun _ closed => Told.ofExcept (closed.printed true hv)

end Told

namespace Safe

variable {p : Policy} {W : FrameId → Prop} {A : Agreement} {r : Region}
variable {P : Region → Text → Prop}

theorem of_told {x : EvalM Text} (h : Told p A r x) (hP : ∀ t, P r t) : Safe p W A r P x := by
  intro m₁ m₂ closed _ agree
  obtain ⟨o, printed, run₁, run₂⟩ := h m₁ m₂ closed agree
  rw [run₁, run₂]
  refine ⟨r, ?_⟩
  cases o with
  | ok t => exact ⟨Advance.refl W r m₁, closed, agree, rfl, hP t⟩
  | error e => exact ⟨Advance.refl W r m₁, closed, agree, rfl, printed.unraised r⟩

end Safe

namespace EvalM

theorem exec_trace_off {s : Scope} {m : Machine} (h : m.isTraced s = false) (message : EvalM Text) :
    (trace s message).exec m = (.ok ⟨⟩, m) := by
  rw [trace, exec_bind_ok (exec_get m), h]
  rfl

theorem exec_trace_ok {s : Scope} {m : Machine} {message : EvalM Text} {t : Text}
    (h : m.isTraced s = true) (ht : message.exec m = (.ok t, m)) :
    (trace s message).exec m = (.ok ⟨⟩, m.log t) := by
  rw [trace, exec_bind_ok (exec_get m), h, if_pos rfl, exec_bind_ok ht]
  rfl

theorem exec_trace_error {s : Scope} {m : Machine} {message : EvalM Text} {e : Error}
    (h : m.isTraced s = true) (he : message.exec m = (.error (.error e), m)) :
    (trace s message).exec m = (.error (.error e), m) := by
  rw [trace, exec_bind_ok (exec_get m), h, if_pos rfl, exec_bind_error he]

end EvalM

theorem Machine.advance_log (W : FrameId → Prop) (r : Region) (m : Machine) (t : Text) :
    Advance W r r m (m.log t) := by
  refine ⟨le_refl r, .inl, .inl, Nat.le_refl _, Nat.le_refl _, fun _ _ => rfl, fun _ _ => rfl,
    id, ?_⟩
  intro silent
  rw [Machine.log, silent]
  rfl

theorem Machine.Closed.log {p : Policy} {r : Region} {m : Machine} (h : m.Closed p r) (t : Text) :
    (m.log t).Closed p r := ⟨h.parent, h.binding, h.content, h.evals⟩

namespace Safe

variable {p : Policy} {W : FrameId → Prop} {A : Agreement} {r : Region}
variable {P : Region → PUnit → Prop}

theorem trace (sim : Simulation p A) {s : Scope} {message : EvalM Text} (hs : r.scope s)
    (hm : Told p A r message) (hP : P r ⟨⟩) : Safe p W A r P (EvalM.trace s message) := by
  intro m₁ m₂ closed _ agree
  refine ⟨r, ?_⟩
  obtain ⟨o, printed, run₁, run₂⟩ := hm m₁ m₂ closed agree
  rcases sim.tracing with ⟨alike, both⟩ | ⟨present, alone⟩
  · -- both machines trace, or neither does
    have traced := alike agree hs
    cases h : m₁.isTraced s with
    | false =>
      rw [EvalM.exec_trace_off h, EvalM.exec_trace_off (traced ▸ h)]
      exact ⟨Advance.refl W r m₁, closed, agree, rfl, hP⟩
    | true =>
      cases o with
      | ok t =>
        rw [EvalM.exec_trace_ok h run₁, EvalM.exec_trace_ok (traced ▸ h) run₂]
        exact ⟨m₁.advance_log W r t, closed.log t, both agree, rfl, hP⟩
      | error e =>
        rw [EvalM.exec_trace_error h run₁, EvalM.exec_trace_error (traced ▸ h) run₂]
        exact ⟨Advance.refl W r m₁, closed, agree, rfl, printed.unraised r⟩
  · -- without absent values there is a message, and each machine may log it or not
    obtain ⟨t, rfl⟩ := printed.text present
    cases h₁ : m₁.isTraced s with
    | false =>
      rw [EvalM.exec_trace_off h₁]
      cases h₂ : m₂.isTraced s with
      | false =>
        rw [EvalM.exec_trace_off h₂]
        exact ⟨Advance.refl W r m₁, closed, agree, rfl, hP⟩
      | true =>
        rw [EvalM.exec_trace_ok h₂ run₂]
        exact ⟨Advance.refl W r m₁, closed, (alone agree).2, rfl, hP⟩
    | true =>
      rw [EvalM.exec_trace_ok h₁ run₁]
      cases h₂ : m₂.isTraced s with
      | false =>
        rw [EvalM.exec_trace_off h₂]
        exact ⟨m₁.advance_log W r t, closed.log t, (alone agree).1, rfl, hP⟩
      | true =>
        rw [EvalM.exec_trace_ok h₂ run₂]
        exact ⟨m₁.advance_log W r t, closed.log t, (alone (alone agree).1).2, rfl, hP⟩

end Safe

end MiniLisp
