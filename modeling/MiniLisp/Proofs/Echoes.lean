import MiniLisp.Proofs.Requests
import MiniLisp.Repl

/-! The loop evaluates forms in order and echoes each with its value. What one form writes does not
depend on what was written before it. -/
namespace MiniLisp

/-- The second machine is the first one, but for what was written when their outputs were `o₁` and
`o₂`. -/
def Machine.SameSince (o₁ o₂ : Text) (m₁ m₂ : Machine) : Prop :=
  ∃ w, m₁.output = o₁ ++ w ∧ m₂ = { m₁ with output := o₂ ++ w }

theorem output_simulation (p : Policy) (o₁ o₂ : Text) :
    Simulation p fun _ m₁ m₂ => m₁.SameSince o₁ o₂ m₂ where
  frames := by rintro _ _ _ ⟨w, _, rfl⟩; rfl
  cells := by rintro _ _ _ ⟨w, _, rfl⟩; rfl
  functions := by rintro _ _ _ ⟨w, _, rfl⟩; rfl
  files := by rintro _ _ _ ⟨w, _, rfl⟩; rfl
  binding := by rintro _ _ _ _ _ ⟨w, _, rfl⟩ _; rfl
  content := by rintro _ _ _ _ ⟨w, _, rfl⟩ _; rfl
  tracing := by
    refine .inl ⟨?_, ?_⟩
    · rintro _ _ _ _ ⟨w, _, rfl⟩ _
      rfl
    · rintro _ _ _ _ ⟨w, h, rfl⟩
      exact ⟨w, h, rfl⟩
  newFrame := by rintro _ _ _ _ _ _ ⟨w, h, rfl⟩ _ _; exact ⟨w, h, rfl⟩
  newCell := by rintro _ _ _ _ _ ⟨w, h, rfl⟩ _; exact ⟨w, h, rfl⟩
  newFunction := by rintro _ _ _ ⟨w, h, rfl⟩; exact ⟨w, h, rfl⟩
  define := by rintro _ _ _ _ _ _ _ ⟨w, h, rfl⟩ _ _; exact ⟨w, h, rfl⟩
  setCell := by rintro _ _ _ _ _ _ ⟨w, h, rfl⟩ _ _; exact ⟨w, h, rfl⟩
  write := by
    rintro _ m₁ _ t ⟨w, h, rfl⟩
    refine ⟨w ++ t, ?_, ?_⟩
    · rw [Machine.write, h, ByteArray.append_assoc]
    · rw [Machine.write, Machine.write, ByteArray.append_assoc]

theorem Text.append_left_cancel {a b c : Text} (h : a ++ b = a ++ c) : b = c := by
  have same := congrArg Text.bytes h
  rw [Text.bytes_append, Text.bytes_append] at same
  exact Text.bytes_inj (List.append_cancel_left same)

section

variable {session : Session} {r : Region} {m n m' : Machine} {fuel : Nat}

/-- What evaluation comes to in a tidy session, and what it writes wherever it writes. -/
theorem Session.Tidy.eval (tidy : session.Tidy r m) {e : Value} {o : Except Halt Value}
    (he : e.Within session.plain r) (h : (eval fuel e session.global).exec m = (o, n)) :
    ∃ r', session.Tidy r' n ∧ (m.sink = none → n.sink = none) ∧
      Meets (Halt.Within session.plain r') (fun v => v.Within session.plain r') o ∧
      ∃ w, n.output = m.output ++ w ∧ ∀ out,
        (MiniLisp.eval fuel e session.global).exec { m with output := out } =
          (o, { n with output := out ++ w }) := by
  have alike (out : Text) : ∃ r', Advance anywhere r r' m n ∧ n.Closed session.plain r' ∧
      Meets (Halt.Within session.plain r') (fun v => v.Within session.plain r') o ∧
      ∃ w, n.output = m.output ++ w ∧
        (MiniLisp.eval fuel e session.global).exec { m with output := out } =
          (o, { n with output := out ++ w }) := by
    have safe := eval_safe (W := anywhere) (output_simulation session.plain m.output out) fuel r e
      session.global he tidy.global trivial
    have start : m.SameSince m.output out { m with output := out } :=
      ⟨.empty, by rw [ByteArray.append_empty], by rw [ByteArray.append_empty]⟩
    rcases other : (MiniLisp.eval fuel e session.global).exec { m with output := out }
      with ⟨o', n'⟩
    obtain ⟨rfl, r', advance, closed, ⟨w, written, rfl⟩, answer⟩ :=
      Twins.run safe h other tidy.closed (m.grants_anywhere _) start
    exact ⟨r', advance, closed, answer, w, written, rfl⟩
  obtain ⟨r', advance, closed, answer, w, written, _⟩ := alike m.output
  refine ⟨r', ⟨closed, advance.le.1 _ tidy.core, advance.le.1 _ tidy.global⟩, advance.silent,
    answer, w, written, fun out => ?_⟩
  obtain ⟨_, _, _, _, w', written', run⟩ := alike out
  rw [run, Text.append_left_cancel (written.symm.trans written')]

def Text.join (ts : List Text) : Text := ts.foldr (· ++ ·) .empty

/-- The forms evaluate in order to these values. The text of each form is what it writes, and then
a line with its value as it is at that moment. -/
inductive Echoes (fuel : Nat) (scope : Scope) :
    Machine → List Value → List Value → List Text → Machine → Prop where
  | nothing (m : Machine) : Echoes fuel scope m [] [] [] m
  | form {m n m' : Machine} {e v : Value} {w t : Text} {es vs : List Value} {texts : List Text} :
      (eval fuel e scope).exec m = (.ok v, n) → n.output = m.output ++ w →
      n.print true v = .ok t → Echoes fuel scope n es vs texts m' →
      Echoes fuel scope m (e :: es) (v :: vs) ((w ++ t.push Byte.newline) :: texts) m'

theorem Echoes.split {scope : Scope} {es es' vs : List Value} {texts : List Text}
    (h : Echoes fuel scope m (es ++ es') vs texts m') :
    ∃ us us' ts ts' n, vs = us ++ us' ∧ texts = ts ++ ts' ∧ Echoes fuel scope m es us ts n ∧
      Echoes fuel scope n es' us' ts' m' := by
  induction es generalizing m vs texts with
  | nil => exact ⟨[], vs, [], texts, m, rfl, rfl, .nothing m, h⟩
  | cons e es ih =>
    cases h with
    | form run written printed rest =>
      obtain ⟨us, us', ts, ts', n, rfl, rfl, first, last⟩ := ih rest
      exact ⟨_ :: us, us', _ :: ts, ts', n, rfl, rfl, .form run written printed first, last⟩

abbrev Session.Literal (session : Session) (forms : List Value) : Prop :=
  ∀ r, AllWithin session.plain r forms

theorem Session.literal_of_readAll (session : Session) {t : Text} {forms : List Value}
    (h : readAll t = .ok forms) : session.Literal forms := by
  intro r
  have read := readAll_within (p := session.plain) (r := r) t
  rwa [h] at read

/-- Values of a tidy session can be written, so forms that evaluate have echoes. -/
theorem Session.Tidy.echoes (tidy : session.Tidy r m) {forms vs : List Value}
    (literal : session.Literal forms)
    (h : (forms.mapM fun e => MiniLisp.eval fuel e session.global).exec m = (.ok vs, m')) :
    ∃ texts, Echoes fuel session.global m forms vs texts m' := by
  induction forms generalizing r m vs with
  | nil =>
    cases h
    exact ⟨[], .nothing _⟩
  | cons e es ih =>
    rw [List.mapM_cons] at h
    rcases run : (MiniLisp.eval fuel e session.global).exec m with ⟨_ | v, n⟩
    · rw [EvalM.exec_bind_error run] at h
      cases h
    · rw [EvalM.exec_bind_ok run] at h
      rcases rest : (es.mapM fun e => MiniLisp.eval fuel e session.global).exec n with ⟨_ | us, n'⟩
      · rw [EvalM.exec_bind_error rest] at h
        cases h
      · rw [EvalM.exec_bind_ok rest] at h
        cases h
        obtain ⟨r', tidy', -, value, w, written, -⟩ :=
          tidy.eval (literal r e List.mem_cons_self) run
        obtain ⟨t, printed⟩ := (tidy'.closed.printed true value).text id
        obtain ⟨texts, echoes⟩ :=
          ih tidy' (fun r v hv => literal r v (List.mem_cons_of_mem e hv)) rest
        exact ⟨_, .form run written printed echoes⟩

/-- The loop writes the echoes, and leaves the machine as evaluation does. -/
theorem Echoes.runForms {forms vs : List Value} {texts : List Text}
    (h : Echoes fuel session.global m forms vs texts m') (tidy : session.Tidy r m)
    (literal : session.Literal forms) :
    (∃ r', session.Tidy r' m') ∧ (m.sink = none → m'.sink = none) ∧ ∀ out,
      (Repl.runForms fuel forms session.global).exec { m with output := out } =
        (.ok ⟨⟩, { m' with output := out ++ Text.join texts }) := by
  induction h generalizing r with
  | nothing m =>
    refine ⟨⟨r, tidy⟩, id, fun out => ?_⟩
    show (Except.ok PUnit.unit, _) = _
    rw [Text.join, List.foldr_nil, ByteArray.append_empty]
  | @form m n m' e v w t es vs texts run written printed _ ih =>
    obtain ⟨r', tidy', silent, -, w', written', alike⟩ :=
      tidy.eval (literal r e List.mem_cons_self) run
    obtain rfl := Text.append_left_cancel (written.symm.trans written')
    obtain ⟨last, silent', rest⟩ :=
      ih tidy' (fun r v hv => literal r v (List.mem_cons_of_mem e hv))
    refine ⟨last, fun h => silent' (silent h), fun out => ?_⟩
    have readable : (EvalM.readable v).exec { n with output := out ++ w } =
        (.ok t, { n with output := out ++ w }) := by
      have same : Machine.print { n with output := out ++ w } true v = .ok t := printed
      rw [EvalM.readable, EvalM.exec_bind_ok (EvalM.exec_get _), same]
      rfl
    have echo : (do
        let v ← MiniLisp.eval fuel e session.global
        let text ← EvalM.readable v
        modify (·.write (text.push Byte.newline)) : EvalM PUnit).exec { m with output := out } =
        (.ok ⟨⟩, { n with output := out ++ (w ++ t.push Byte.newline) }) := by
      rw [EvalM.exec_bind_ok (alike out), EvalM.exec_bind_ok readable, ← ByteArray.append_assoc]
      rfl
    show (_ >>= fun _ => Repl.runForms fuel es session.global : EvalM PUnit).exec _ = _
    rw [EvalM.exec_bind_ok echo, rest, ByteArray.append_assoc]
    rfl

end

end MiniLisp
