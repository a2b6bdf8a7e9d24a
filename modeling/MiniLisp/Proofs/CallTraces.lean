import MiniLisp.Proofs.NarratedEvaluation
import MiniLisp.Proofs.Scripts

/-! Whether or not the making of a session is traced, its frames are once they are made, and so are
all frames made later. So every request tells its native calls. -/
namespace MiniLisp

open EvalM (Leaves)

section

variable {evals : Scope → Prop} {r : Region}

theorem eval_narrates (fuel : Nat) : NarratingEvaluator evals (eval fuel) (Underway.eval fuel) :=
  Eval.guarded_narrates (Eval.loop_apply_narrates fuel).1

theorem evalSource_narrates (fuel : Nat) (t : Text) {s : Scope} (hs : r.scope s) :
    NarratesValue evals r (evalSource fuel t (some s)) (Underway.source fuel t s) := by
  have read := readAll_within (p := .strict evals) (r := r) t
  unfold evalSource Underway.source
  cases forms : readAll t with
  | error e => exact .fail trivial
  | ok forms =>
    rw [forms] at read
    exact .foldlM .nil fun e he r' le => eval_narrates fuel r' e s ((read e he).mono le) (le.1 s hs)

theorem FormText.value_leaves (t : FormText) : Leaves Machine.tracing t.value := by
  unfold value
  split
  · exact .pure _
  · exact .fail _

theorem Register.checkName_leaves (what : Registered) (s : Scope) (name : Text) :
    Leaves Machine.tracing (checkName what s name) := by
  unfold checkName
  split
  · exact .fail _
  · refine .read fun m => ?_
    split
    · exact .fail _
    · exact .pure _

theorem Register.builtin_leaves (s : Scope) (name : Text) (op : Option Native) :
    Leaves Machine.tracing (builtin s name op) := by
  refine (checkName_leaves .builtin s name).bind fun _ => ?_
  cases op with
  | none => exact .fail _
  | some op => exact (Leaves.newFunction op).bind fun f => .define s name f

theorem Register.value_leaves (s : Scope) (name : Text) (v : Value) :
    Leaves Machine.tracing (value s name v) := by
  refine (checkName_leaves .value s name).bind fun _ => ?_
  split
  · exact .fail _
  · exact .define s name _

theorem register_leaves (e : Extension) (s : Scope) :
    Leaves Machine.tracing (register e (some s)) := by
  cases e with
  | builtin name op => exact Register.builtin_leaves s name _
  | value name form =>
    refine Leaves.bind ?_ fun v => Register.value_leaves s name v
    cases form with
    | none => exact .pure _
    | some t => exact t.value_leaves

theorem Response.showing_narrates {v : Value} (h : v.Within (.strict evals) r) :
    Narrates evals r (fun r response => response.Within (.strict evals) r) (showing v)
      Underway.idle := by
  refine .of_leaves ?_ fun sim => showing_safe sim h
  exact (Leaves.readable v).bind fun _ => (Leaves.ofExcept _).bind fun _ => .pure _

variable {session : Session}

theorem Request.run_narrates (fuel : Nat) (q : Request) (hs : r.scope session.global) :
    Narrates (fun s => s = session.global) r
      (fun r response => response.Within session.plain r) (q.run fuel session)
      (q.underway fuel session) := by
  have names (s : Scope) : Narrates (fun s => s = session.global) r
      (fun r response => response.Within session.plain r)
      (do pure (Response.names ((← get).names s))) Underway.idle :=
    Underway.andThen_idle get ▸ Narrates.read (fun _ _ => rfl) fun _ _ => .pure trivial
  cases q with
  | source t =>
    exact (evalSource_narrates fuel t hs).bind fun _ _ _ hv => Response.showing_narrates hv
  | data t =>
    refine (Narrates.of_leaves t.value_leaves fun _ => t.value_safe).bind fun r₁ e le₁ he => ?_
    exact (Eval.data_narrates (eval_narrates fuel) he (le₁.1 _ hs)).bind
      fun _ _ _ hv => Response.showing_narrates hv
  | apply f args =>
    refine (evalSource_narrates fuel f hs).bind fun r₁ f le₁ hf => ?_
    refine (Narrates.mapM fun t _ r' le => ?_).bind fun r₂ vs le₂ hvs => ?_
    · exact evalSource_narrates fuel t ((le₁.trans le).1 _ hs)
    · exact ((Eval.loop_apply_narrates fuel).2 r₂ f vs (hf.mono le₂) hvs).bind
        fun _ _ _ hv => Response.showing_narrates hv
  | extend e =>
    refine .of_leaves ((register_leaves e session.global).bind fun _ => .pure _) fun sim => ?_
    exact (register_safe sim e hs trivial).bind fun _ _ _ _ => Safe.pure trivial
  | lookup name =>
    refine Narrates.bind_idle (P := fun r v => v.Within session.plain r) ?_
      fun _ _ _ hv => Response.showing_narrates hv
    exact .of_leaves (Leaves.lookup _ name) fun sim => Eval.lookup_safe sim name hs
  | collect => exact .pure trivial
  | coreNames => exact names session.core
  | globalNames => exact names session.global

end

section

variable {fuel : Nat} {m n : Machine}

theorem EvalM.Leaves.flags {α : Type} {x : EvalM α} (h : Leaves Machine.tracing x) :
    Leaves Machine.flags x := h.weaken Prod.snd

/-- The definition of a function makes no frame. -/
theorem definition_leaves {t name : Text} {params : List Text} {body : Value}
    (read : readAll t = .ok [functionDefinition name params body]) (s : Scope) :
    Leaves Machine.flags (evalSource fuel t (some s)) := by
  have told (v : Value) : Leaves Machine.flags (EvalM.trace s do
      let text ← EvalM.readable v
      pure (ascii "eval: " ++ text)) :=
    .trace ((Leaves.readable v).bind fun _ => .pure _) fun _ _ => rfl
  have function (fuel : Nat) : Leaves Machine.flags
      (eval fuel (SpecialForm.function.expr [.list ⟨params.map .sym⟩, body]) s) := by
    cases fuel with
    | zero => exact .outOfFuel
    | succ fuel =>
      have form : SpecialForm.ofHead? (.sym SpecialForm.function.name) = some .function := rfl
      show Leaves Machine.flags (Eval.loop (fuel + 1) _ s)
      simp only [Eval.loop, Eval.step, SpecialForm.expr, form, Eval.specialForm, Eval.function,
        Value.items?, bind_assoc, pure_bind]
      exact (told _).bind fun _ => (Leaves.ofExcept _).bind fun _ =>
        (Leaves.newClosure _ _ _).flags.bind fun _ => .pure _
  have define : Leaves Machine.flags (eval fuel (functionDefinition name params body) s) := by
    cases fuel with
    | zero => exact .outOfFuel
    | succ fuel =>
      have form : SpecialForm.ofHead? (.sym SpecialForm.define.name) = some .define := rfl
      show Leaves Machine.flags (Eval.loop (fuel + 1) _ s)
      simp only [Eval.loop, Eval.step, functionDefinition, SpecialForm.expr, form, Eval.specialForm,
        Eval.define, bind_assoc, pure_bind]
      exact (told _).bind fun _ => (Leaves.trace (.pure _) fun _ _ => rfl).bind fun _ =>
        (function fuel).bind fun v => (Leaves.define s name v).flags.bind fun _ => .pure _
  rw [evalSource, read]
  exact define.bind fun _ => .pure _

theorem installCore_leaves (s : Scope) : Leaves Machine.tracing (installCore (some s)) :=
  .forM fun op _ => (Leaves.newFunction op).bind fun f => .define s op.name f

/-- A computation that starts with such flags and succeeds comes to a value and flags of a kind. -/
def Flagged {α : Type} (before : Array Bool) (x : EvalM α) (Q : α → Array Bool → Prop) : Prop :=
  ∀ m n a, m.flags = before → x.exec m = (.ok a, n) → Q a n.flags

namespace Flagged

variable {α β : Type} {flags : Array Bool} {Q : α → Array Bool → Prop} {R : β → Array Bool → Prop}

theorem pure {a : α} (h : Q a flags) : Flagged flags (pure a) Q := by
  rintro m n b before run
  cases run
  exact before.symm ▸ h

theorem bind {x : EvalM α} {f : α → EvalM β} (hx : Flagged flags x Q)
    (hf : ∀ a flags', Q a flags' → Flagged flags' (f a) R) : Flagged flags (x >>= f) R := by
  intro m n b before run
  rcases first : x.exec m with ⟨_ | a, m'⟩
  · rw [EvalM.exec_bind_error first] at run
    cases run
  · rw [EvalM.exec_bind_ok first] at run
    exact hf a m'.flags (hx m m' a before first) m' n b rfl run

theorem of_leaves {x : EvalM α} (h : Leaves Machine.flags x) :
    Flagged flags x fun _ after => after = flags := by
  intro m n a before run
  have same := h m
  rw [run] at same
  exact same.trans before

theorem setTraced (s : Scope) (traced : Bool) :
    Flagged flags (modify (·.setTraced s traced)) fun _ after =>
      after = flags.setIfInBounds s.id.index traced := by
  rintro m n a rfl run
  cases run
  exact m.flags_setTraced s traced

theorem newFrame (parent : Option Scope) (given : Table Text Value) :
    Flagged flags (EvalM.newFrame parent given) fun s after => s.id.index = flags.size ∧
      after = flags.push ((parent.bind fun s => flags[s.id.index]?).getD false) := by
  rintro m n a rfl run
  cases run
  exact ⟨(Array.size_map ..).symm, m.flags_newFrame parent given⟩

end Flagged

theorem makeCore_flagged (fuel : Nat) (traceBoot : Bool) :
    Flagged #[] (makeCore fuel traceBoot) fun core flags =>
      core.id.index = 0 ∧ flags = #[true] := by
  refine (Flagged.newFrame none .empty).bind ?_
  rintro core _ ⟨index, rfl⟩
  refine (Flagged.of_leaves (installCore_leaves core).flags).bind ?_
  rintro _ _ rfl
  refine (Flagged.setTraced core traceBoot).bind ?_
  rintro _ _ rfl
  refine (Flagged.of_leaves ((definition_leaves readAll_notDefinition core).map _)).bind ?_
  rintro _ _ rfl
  refine (Flagged.setTraced core true).bind ?_
  rintro _ _ rfl
  refine Flagged.pure ⟨index, ?_⟩
  rw [index]
  rfl

theorem makeSession_flagged (fuel : Nat) (config : Config) :
    Flagged #[] (makeSession fuel config) fun _ flags => flags = #[true, true] := by
  refine (makeCore_flagged fuel config.traceBoot).bind ?_
  rintro core _ ⟨index, rfl⟩
  refine (Flagged.newFrame (some core) .empty).bind ?_
  rintro global _ ⟨next, rfl⟩
  rw [Option.bind_some, index]
  refine (Flagged.setTraced global config.traceBoot).bind ?_
  rintro _ _ rfl
  refine (Flagged.of_leaves (Register.builtin_leaves global _ _).flags).bind ?_
  rintro _ _ rfl
  refine (Flagged.of_leaves ((definition_leaves readAll_loadFileDefinition global).map _)).bind ?_
  rintro _ _ rfl
  refine (Flagged.of_leaves (Register.value_leaves global _ _).flags).bind ?_
  rintro _ _ rfl
  refine (Flagged.of_leaves (Leaves.forM fun e _ => (register_leaves e global).flags)).bind ?_
  rintro _ _ rfl
  refine (Flagged.setTraced global true).bind ?_
  rintro _ _ rfl
  refine Flagged.pure ?_
  rw [next]
  rfl

end

namespace Session

variable {session : Session} {r : Region} {m : Machine} {fuel : Nat}

/-- What the session needs in order to tell its native calls. -/
theorem Tidy.watched (tidy : session.Tidy r m) (spans : m.Spans r) (traced : m.TracesAll) :
    m.untraced.Watched (fun s => s = session.global) r :=
  ⟨tidy.closed.untraced, spans.of_sizes rfl rfl, traced, rfl⟩

theorem Reached.tracesAll (h : session.Reached m) : m.TracesAll := by
  induction h with
  | @made fuel config sink files m made =>
    have blank : (Machine.blank sink files).flags = #[] := Array.map_empty
    rw [Machine.TracesAll, makeSession_flagged fuel config _ m session blank made]
    simp
  | @asked fuel q m n o reached run traced =>
    obtain ⟨r, tidy, spans⟩ := reached.spans
    obtain ⟨messages, r', -, tells, watched, -⟩ :=
      q.run_narrates fuel tidy.global _ (tidy.watched spans traced)
    cases sink : m.sink with
    | none =>
      rw [Machine.untraced_of_silent sink, run] at watched
      exact watched.traced
    | some place =>
      have told := tells place
      rw [← sink] at told
      have same : (q.run fuel session).exec m = _ := told
      rw [run] at same
      have left := congrArg Prod.snd same
      dsimp only at left
      subst left
      exact watched.traced
  | handled output sink files _ traced => exact traced

/-- A request tells the same to any trace. -/
theorem Reached.recounts (h : session.Reached m) (fuel : Nat) (q : Request) :
    ∃ messages, (q.run fuel session).Tells m.untraced messages ∧
      Recounts messages (q.underway fuel session m.untraced) (fun _ => True)
        ((q.run fuel session).exec m.untraced).1 := by
  obtain ⟨r, tidy, spans⟩ := h.spans
  obtain ⟨messages, r', -, tells, -, recounts⟩ :=
    q.run_narrates fuel tidy.global _ (tidy.watched spans h.tracesAll)
  exact ⟨messages, tells, recounts.weaken fun _ _ => trivial⟩

end Session

/-- Whatever is asked of a session, the messages do not depend on where the trace goes, and without
a trace the same happens. What the messages say of native functions is well-bracketed where the
request comes to a value. Where it does not, the calls that are left open are those of the natives
that the loop is executing, and further returns would close them. -/
theorem native_calls_are_bracketed {session : Session} {m n : Machine} {fuel : Nat} {q : Request}
    {o : Except Halt Response} (reached : session.Reached m)
    (run : (q.run fuel session).exec m.untraced = (o, n)) :
    ∃ messages,
      (∀ sink, (q.run fuel session).exec { m with sink := some sink } =
        (o, { n with sink := some (sink.record messages) })) ∧
      (∀ response, o = .ok response → Bracketed (nativeMarks messages)) ∧
      ∀ stop, o = .error stop →
        LeftOpen (nativeMarks messages) ((q.underway fuel session m.untraced).map Native.name) ∧
          ∃ rest, Bracketed (nativeMarks messages ++ rest) := by
  obtain ⟨messages, tells, recounts⟩ := reached.recounts fuel q
  rw [EvalM.Tells, run] at tells
  rw [run] at recounts
  refine ⟨messages, tells, ?_, ?_⟩
  · rintro response rfl
    exact recounts.1
  · rintro stop rfl
    exact ⟨recounts, LeftOpen.completes recounts⟩

/-- While a native applies another one that throws, only the first is executed by the loop. The
call of the other is not even told, and the call for which the argument was meant is not made. -/
theorem applied_throw_leaves_apply_open :
    ∃ (session : Session) (m n : Machine) (messages : List Text) (stop : Halt),
      session.Reached m ∧
      (∀ sink, ((Request.source (ascii "(str (apply throw (list 1)))")).run 20 session).exec
          { m with sink := some sink } =
        (.error stop, { n with sink := some (sink.record messages) })) ∧
      LeftOpen (nativeMarks messages) [ascii "apply"] := by
  let q : Request := .source (ascii "(str (apply throw (list 1)))")
  let start := (makeSession 20 .plain).exec (.blank none [])
  have stops : start.1.toOption.any (fun session =>
      ((q.run 20 session).exec start.2.untraced).1.isOk = false ∧
      (q.underway 20 session start.2.untraced).map Native.name = [ascii "apply"]) = true := by
    decide +kernel
  rcases made : start with ⟨h | session, m⟩
  · rw [made] at stops
    cases stops
  · rw [made, Except.toOption, Option.any_some, decide_eq_true_eq] at stops
    have reached : session.Reached m := .made made
    rcases run : (q.run 20 session).exec m.untraced with ⟨stop | response, n⟩
    · obtain ⟨messages, told, -, left⟩ := native_calls_are_bracketed reached run
      have opened := (left stop rfl).1
      rw [stops.2] at opened
      exact ⟨session, m, n, messages, stop, reached, told, opened⟩
    · rw [run] at stops
      cases stops.1

end MiniLisp
