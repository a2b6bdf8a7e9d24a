import MiniLisp.Proofs.Bounds
import MiniLisp.Proofs.Loading
import MiniLisp.Proofs.RenamedEvaluation
import MiniLisp.Proofs.Scripts

/-! Loading a file evaluates its forms in the global frame, as evaluating its text does. The loader
makes a frame of its own first, so all frames that the forms make come one later. -/
namespace MiniLisp

open EvalM Eval Pasting

theorem eval_silent (fuel : Nat) (e : Value) (s : Scope) {m : Machine} (silent : m.sink = none) :
    ((eval fuel e s).exec m).2.sink = none := by
  have safe := eval_safe (W := anywhere) (equality_simulation .lax) fuel .everything e s
    e.within_everything trivial trivial
  obtain ⟨_, advance, _⟩ := safe m m m.closed_everything (m.grants_anywhere _) rfl
  exact advance.silent silent

/-- A run that comes to its end whatever is traced comes there without a trace. -/
theorem EvalM.Concludes.exec_eval {fuel : Nat} {e : Value} {s : Scope} {m m' : Machine} {v : Value}
    (h : (eval fuel e s).Concludes m (.ok v) m') (silent : m.sink = none)
    (silent' : m'.sink = none) : (eval fuel e s).exec m = (.ok v, m') := by
  obtain ⟨n, run, same⟩ := h m rfl
  have left := eval_silent fuel e s silent
  rw [run] at left
  rw [Machine.untraced_of_silent left, Machine.untraced_of_silent silent'] at same
  rw [← same]
  exact run

section

variable {m : Machine} {s : Scope} {fuel : Nat}

/-- A call with one argument, where neither function nor argument has an effect. -/
theorem exec_call (silent : m.sink = none) {head a f v : Value}
    (called : SpecialForm.ofHead? head = none) (hf : (eval fuel head s).exec m = (.ok f, m))
    (ha : (eval fuel a s).exec m = (.ok v, m)) :
    (eval (fuel + 1) (.list #[head, a]) s).exec m =
      (call (eval fuel) (applyFunction fuel) f [v] s >>= finish fuel).exec m := by
  have args : ([a].mapM fun e => eval fuel e s).exec m = (.ok [v], m) := by
    rw [List.mapM_cons, exec_bind_ok ha]
    rfl
  have step : (step (eval fuel) (applyFunction fuel) (.list #[head, a]) s).exec m =
      (eval fuel head s >>= fun f => [a].mapM (fun v => eval fuel v s) >>= fun args =>
        call (eval fuel) (applyFunction fuel) f args s).exec m := step_call silent [a] called
  rw [exec_bind_ok hf, exec_bind_ok args] at step
  rw [eval_of_ne_null (by simp), loop_succ]
  exact exec_bind_congr step _

theorem exec_closure (silent : m.sink = none) (id : FunId) {params : Params} {body : Value}
    (captured : Option Scope) {args : List Value} (fits : params.names.length = args.length)
    (present : body ≠ .null) :
    (call (eval fuel) (applyFunction fuel) (.closure id params body captured) args s >>=
        finish fuel).exec m =
      (eval fuel body (m.newFrame captured (params.bind args)).1).exec
        (m.newFrame captured (params.bind args)).2 := by
  have framed := callFrame_ends (m := m) captured fits
  have entered : (call (eval fuel) (applyFunction fuel) (.closure id params body captured) args
        s).exec m =
      (callFrame params captured args >>= fun inner => pure (.tail body inner)).exec m :=
    call_closure silent id params body captured args
  rw [exec_bind_ok framed, exec_pure] at entered
  rw [exec_bind_ok entered, finish, eval_of_ne_null present]

theorem exec_evalIn (silent : m.sink = none) (id : FunId) (e : Value) (t : Scope) :
    (call (eval fuel) (applyFunction fuel) (.native id (.evalIn t)) [e] s >>= finish fuel).exec m =
      (eval fuel e t).exec m := by
  have called : (call (eval fuel) (applyFunction fuel) (.native id (.evalIn t)) [e] s).exec m =
      (eval fuel e t >>= fun v => traceReturn (.evalIn t) v s >>= fun _ =>
        pure (.done v)).exec m := call_native silent id (.evalIn t) [e]
  rw [exec_bind_congr called]
  have left := eval_silent fuel e t silent
  rcases run : (eval fuel e t).exec m with ⟨h | v, n⟩
  · rw [bind_assoc, exec_bind_error run]
  · rw [run] at left
    have returned := traceReturn_ends (s := s) (m := n) left (.evalIn t) v
    rw [bind_assoc, exec_bind_ok run, bind_assoc, exec_bind_ok returned]
    rfl

theorem exec_nil (silent : m.sink = none) : (loop (fuel + 1) .nil s).exec m = (.ok .nil, m) := by
  have step : (step (eval fuel) (applyFunction fuel) .nil s).exec m =
      (data (eval fuel) .nil s >>= fun v => pure (.done v)).exec m := step_data silent rfl
  rw [loop_succ, exec_bind_congr step]
  rfl

/-- The forms in front, for their effects, and then nothing more. -/
theorem exec_do (silent : m.sink = none) (forms : List Value) :
    (eval (fuel + 1) (SpecialForm.sequence.expr (forms ++ [.nil])) s).exec m =
      (forms.mapM (fun e => eval fuel e s) >>= fun _ => loop fuel .nil s).exec m := by
  have step : (step (eval fuel) (applyFunction fuel)
        (SpecialForm.sequence.expr (forms ++ [.nil])) s).exec m =
      (forms.mapM (fun e => eval fuel e s) >>= fun _ => pure (.tail .nil s)).exec m := by
    rw [step_form silent, specialForm, sequence_concat]
  rw [eval_of_ne_null (by simp [SpecialForm.expr]), loop_succ, exec_bind_congr step, bind_assoc]
  rfl

end

def Loader.sequence (forms : List Value) : Value := SpecialForm.sequence.expr (forms ++ [.nil])

section

variable {session : Session} {m : Machine} {s global : Scope} {path t : Text} {forms : List Value}
  {fuel : Nat}

theorem readFirst_paste (read : readAll t = .ok forms) :
    readFirst (paste t) = .ok (some (Loader.sequence forms)) := by
  have pasted := forms_lastLine (readAll_iff.mp read)
  have form := form_paste_iff.mpr ⟨_, rfl, pasted⟩
  rw [← bytes_paste] at form
  exact readFirst_eq_some_iff.mpr ⟨_, [], .refl _, form⟩

theorem Loader.inert_sequence (read : readAll t = .ok forms) : (sequence forms).Inert := by
  have within := readFirst_within (p := ⟨False, fun _ => True, True⟩)
    (r := ⟨fun _ => True, fun _ => False⟩) (paste t)
  rw [readFirst_paste read] at within
  exact within _ rfl

theorem Loader.form_concludes (names : Meanings m s global)
    (argument : m.lookup parameter s = some (.str path)) (found : m.file? path = some t)
    (read : readAll t = .ok forms) :
    (eval (fuel + 4) form s).Concludes m (.ok (sequence forms)) m := by
  obtain ⟨_, reader⟩ := names.read
  have run : (ofExcept (DataOp.run .readString [.str (paste t)])).Concludes m
      (.ok (sequence forms)) m := by
    have answer : DataOp.run .readString [.str (paste t)] = .ok (sequence forms) := by
      show Naming.readString DataOp.readString.name (.str (paste t)) = _
      simp only [Naming.readString, Value.textArg, bind, Except.bind, readFirst_paste read]
      rfl
    rw [answer]
    exact .ofExcept _ m
  exact concludes_call rfl inert_parts.2.2.1 (concludes_symbol reader)
    (.mapM_one (pasted_concludes names argument found))
    (concludes_native (inert_texts [paste t]) (inert_sequence read) run)

/-- The loader evaluates the forms of the file in the global frame, after it made a frame. -/
theorem exec_load (silent : m.sink = none) (intact : session.Intact m s)
    (found : m.file? path = some t) (read : readAll t = .ok forms) (fuel : Nat) :
    (eval (fuel + 6) (Program.scriptForm path) s).exec m =
      (forms.mapM (fun e => eval (fuel + 3) e session.global) >>= fun _ =>
        loop (fuel + 3) .nil session.global).exec (session.loading m path).2 := by
  obtain ⟨_, load⟩ := intact.load
  have names : Loader.Meanings (session.loading m path).2 (session.loading m path).1
    session.global := meanings_loading intact.names
  obtain ⟨_, evaluator⟩ := names.eval
  have argument := (lookup_loading session m path Loader.parameter).trans (if_pos rfl)
  have inside : (session.loading m path).2.sink = none := silent
  have read : (eval (fuel + 4) Loader.form (session.loading m path).1).Concludes
      (session.loading m path).2 (.ok (Loader.sequence forms)) (session.loading m path).2 :=
    Loader.form_concludes names argument found read
  have form := read.exec_eval inside inside
  rw [Program.scriptForm, exec_call silent rfl ((concludes_symbol load).exec_eval silent silent)
    ((concludes_text path).exec_eval silent silent),
    exec_closure silent _ _ rfl Loader.inert_parts.2.2.2.ne_null]
  show (eval (fuel + 5) Loader.body (session.loading m path).1).exec (session.loading m path).2 = _
  rw [Loader.body, exec_call inside rfl ((concludes_symbol evaluator).exec_eval inside inside) form,
    exec_evalIn inside, Loader.sequence, exec_do inside]

end

section

variable {session : Session} {m : Machine} {path t : Text} {forms : List Value} {r : Region}
  {fuel : Nat}

/-- The forms of a text one by one, and the same forms with frames renamed and their values
dropped. -/
theorem forms_track {ρ : FrameId → FrameId} {s : Scope} (same : s.rename ρ = s)
    (literal : ∀ e ∈ forms, e.rename ρ = e) (v : Value) :
    Tracks ρ (fun _ => Value.nil) (forms.foldlM (fun _ e => eval fuel e s) v)
      (forms.mapM (fun e => eval fuel e s) >>= fun _ => pure .nil) := by
  induction forms generalizing v with
  | nil => exact Tracks.pure ρ (fun _ => Value.nil) v
  | cons e forms ih =>
    obtain ⟨first, others⟩ := List.forall_mem_cons.mp literal
    have form := eval_tracks ρ fuel e s
    rw [first, same] at form
    simp only [List.foldlM_cons, List.mapM_cons, bind_assoc, pure_bind]
    exact form.bind fun u => ih others u

/-- The same happens without a trace, whatever is run in the session. -/
theorem Session.Tidy.exec_untraced {α : Type} {P : Region → α → Prop} {x : EvalM α}
    (tidy : session.Tidy r m)
    (safe : Safe session.plain anywhere (fun _ m₁ m₂ => m₁.untraced = m₂.untraced) r P x) :
    x.exec m.untraced = ((x.exec m).1, (x.exec m).2.untraced) := by
  obtain ⟨_, advance, _, agree, same, _⟩ := safe m.untraced m tidy.closed.untraced
    (m.untraced.grants_anywhere _) rfl
  rw [Machine.untraced_of_silent (advance.silent rfl)] at agree
  rw [← same, ← agree]

theorem Session.Intact.congr {n : Machine} {s : Scope} (intact : session.Intact m s)
    (same : n.untraced = m.untraced) : session.Intact n s := by
  have means (name : Text) (s : Scope) : n.lookup name s = m.lookup name s := by
    rw [← n.lookup_untraced, same, m.lookup_untraced]
  obtain ⟨load, names⟩ := intact
  constructor
  · rwa [means]
  · constructor <;> rw [means]
    · exact names.eval
    · exact names.read
    · exact names.join
    · exact names.slurp

/-- Without a trace, loading the file goes through the run of its text with the frames renamed. -/
theorem load_renames_evaluation (silent : m.sink = none) (bounded : m.Bounded r)
    (fixed : session.global.rename (skip m.frames.size) = session.global)
    (intact : session.Intact m session.global) (found : m.file? path = some t)
    (read : readAll t = .ok forms) (fuel : Nat) :
    let source := (evalSource (fuel + 3) t (some session.global)).exec m
    let load := (eval (fuel + 6) (Program.scriptForm path) session.global).exec m
    load.1 = carry (Halt.rename (skip m.frames.size)) (fun _ => .nil) source.1 ∧
      source.2.Renamed (skip m.frames.size) load.2 := by
  intro source load
  let ρ := skip m.frames.size
  have related : m.Renamed ρ (session.loading m path).2 := bounded.renamed_newFrame silent _ _
  have tracked : Tracks ρ (fun _ => Value.nil)
      (forms.foldlM (fun _ e => eval (fuel + 3) e session.global) Value.nil)
      (forms.mapM (fun e => eval (fuel + 3) e session.global) >>= fun _ => pure .nil) :=
    forms_track fixed (readAll_rename ρ read) .nil
  obtain ⟨answer, after⟩ := tracked m _ related
  have text : (forms.foldlM (fun _ e => eval (fuel + 3) e session.global) Value.nil).exec m =
      source := by
    simp only [source, evalSource, read]
    rfl
  -- the loader's form ends in a nil of its own, which is one turn more than the forms take
  have file : (forms.mapM (fun e => eval (fuel + 3) e session.global) >>= fun _ =>
      pure Value.nil).exec (session.loading m path).2 = load := by
    simp only [load, exec_load silent intact found read]
    have left := after.silent.2
    rcases run : (forms.mapM fun e => eval (fuel + 3) e session.global).exec
      (session.loading m path).2 with ⟨h | vs, n⟩
    · rw [exec_bind_error run, exec_bind_error run]
    · rw [exec_bind_ok run] at left
      rw [exec_bind_ok run, exec_bind_ok run]
      exact (exec_nil left).symm
  rw [text, file] at answer after
  exact ⟨answer, after⟩

/-- In a session that was used in whatever way, a file that is read as a whole is loaded as its text
is evaluated: with the same output, the same cells and the same bindings of all frames, and to nil
or the same error, up to a renaming of the frames made meanwhile. -/
theorem loading_agrees_with_evaluation (reached : session.Reached m)
    (intact : session.Intact m session.global) (found : m.file? path = some t)
    (read : readAll t = .ok forms) (fuel : Nat) :
    let source := (evalSource (fuel + 3) t (some session.global)).exec m
    let load := (eval (fuel + 6) (Program.scriptForm path) session.global).exec m
    ∃ ρ : FrameId → FrameId, Function.Injective ρ ∧ (∀ f, f.index < m.frames.size → ρ f = f) ∧
      session.global.rename ρ = session.global ∧
      load.1 = carry (Halt.rename ρ) (fun _ => .nil) source.1 ∧
      load.2.output = source.2.output ∧
      load.2.cells = source.2.cells.map (Value.rename ρ) ∧
      ∀ s name, load.2.local? (s.rename ρ) name =
        (source.2.local? s name).map (Value.rename ρ) := by
  intro source load
  obtain ⟨r, tidy, bounded⟩ := reached.bounded
  -- neither run depends on the trace, so both may go without
  have sourced : (evalSource (fuel + 3) t (some session.global)).exec m.untraced =
      (source.1, source.2.untraced) :=
    tidy.exec_untraced (evalSource_safe (untraced_simulation id) _ t tidy.global trivial)
  have form : (Program.scriptForm path).Within session.plain r := by
    simp [Program.scriptForm, Value.Within.list_iff, Value.Within.sym, Value.Within.str]
  have loaded : (eval (fuel + 6) (Program.scriptForm path) session.global).exec m.untraced =
      (load.1, load.2.untraced) :=
    tidy.exec_untraced (eval_safe (untraced_simulation id) _ r _ _ form tidy.global trivial)
  have fixed : session.global.rename (skip m.frames.size) = session.global :=
    bounded.scopes _ tidy.global _ (Nat.le_refl _)
  have start : m.untraced.Bounded r := ⟨bounded.scopes, bounded.bindings, bounded.contents⟩
  obtain ⟨answer, after⟩ :=
    load_renames_evaluation rfl start fixed (intact.congr rfl) found read fuel
  rw [sourced, loaded] at answer after
  exact ⟨skip m.frames.size, skip_injective _, fun f old => skip_of_lt old, fixed, answer,
    after.output, after.cells, fun s name => after.local? s name⟩

/-- A file that ends in a comment without a line end, loaded in a session just made. -/
theorem comment_may_end_a_file :
    let path := ascii "end.lisp"
    let t := ascii "(def! f (fn* (x) x)) (prn 1) ; no line ends here"
    ∃ (session : Session) (m : Machine), session.Reached m ∧ session.Intact m session.global ∧
      m.file? path = some t ∧ (readAll t).isOk ∧
      ((eval 10 (Program.scriptForm path) session.global).exec m).1 = .ok .nil ∧
      ((eval 10 (Program.scriptForm path) session.global).exec m).2.output = ascii "1\n" := by
  intro path t
  obtain ⟨session, m₁, intact, _, files, made⟩ := makeSession_concludes 0 .plain rfl
    (.blank none [(path, t)])
  obtain ⟨m, run, same⟩ := made _ rfl
  have facts : (match (makeSession 2 .plain).exec (.blank none [(path, t)]) with
      | (.ok session, m) =>
        let source := (evalSource 7 t (some session.global)).exec m
        source.1.isOk && decide (source.2.output = ascii "1\n")
      | (.error _, _) => false) = true := by decide +kernel
  have readable : (readAll t).isOk = true := by decide +kernel
  have made : (makeSession 2 .plain).exec (.blank none [(path, t)]) = (.ok session, m) := run
  have reached : session.Reached m := .made made
  have there : (Machine.blank none [(path, t)]).file? path = some t := by decide +kernel
  have found : m.file? path = some t := by
    have kept : m.files = m₁.files := (congrArg Machine.files same :)
    rw [Machine.file?, kept, files]
    exact there
  rw [made] at facts
  cases read : readAll t with
  | error e =>
    rw [read] at readable
    cases readable
  | ok forms =>
    obtain ⟨ρ, -, -, -, answer, output, -⟩ := loading_agrees_with_evaluation reached
      (intact.congr same) found read 4
    dsimp only at facts
    rw [Bool.and_eq_true, decide_eq_true_iff] at facts
    refine ⟨session, m, reached, intact.congr same, found, rfl, ?_, output.trans facts.2⟩
    rw [answer]
    rcases value : ((evalSource 7 t (some session.global)).exec m).1 with h | v
    · rw [value] at facts
      cases facts.1
    · rfl

end

end MiniLisp
