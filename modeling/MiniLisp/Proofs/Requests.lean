import MiniLisp.Proofs.Sessions

/-! A host makes a session and then asks one thing after another of it. No absent value ever gets
into a session that is used in this way, so nothing that is traced can fail. -/
namespace MiniLisp

inductive Request where
  | source (t : Text)
  /-- Evaluates the first form of a text as data. -/
  | data (t : FormText)
  | apply (f : Text) (args : List Text)
  | extend (e : Extension)
  | lookup (name : Text)
  | collect
  | coreNames
  | globalNames

inductive Response where
  | value (v : Value) (kind : Kind) (written : Text)
  | names (ns : List Text)
  | done

def Response.showing (v : Value) : EvalM Response := do
  let written ← EvalM.readable v
  let kind ← EvalM.ofExcept v.kind
  pure (.value v kind written)

def Request.run (fuel : Nat) (session : Session) : Request → EvalM Response
  | .source t => do
    let v ← evalSource fuel t (some session.global)
    Response.showing v
  | .data t => do
    let form ← t.value
    let v ← evalData fuel form session.global
    Response.showing v
  | .apply f args => do
    let f ← evalSource fuel f (some session.global)
    let args ← args.mapM fun t => evalSource fuel t (some session.global)
    let v ← applyFunction fuel f args
    Response.showing v
  | .extend e => do
    register e (some session.global)
    pure .done
  | .lookup name => do
    let v ← EvalM.lookup session.global name
    Response.showing v
  | .collect => pure .done
  | .coreNames => do pure (.names ((← get).names session.core))
  | .globalNames => do pure (.names ((← get).names session.global))

structure Answer where
  result : Except Halt Response
  output : Text

def Session.grant (fuel : Nat) (session : Session) (q : Request) (m : Machine) :
    Answer × Machine :=
  let (result, m') := (q.run fuel session).exec m
  (⟨result, m'.output⟩, { m' with output := .empty, sink := m'.sink.map Sink.clear })

def Session.serve (fuel : Nat) (session : Session) : List Request → Machine → List Answer × Machine
  | [], m => ([], m)
  | q :: qs, m =>
    let (outcome, m') := session.grant fuel q m
    let (outcomes, last) := session.serve fuel qs m'
    (outcome :: outcomes, last)

def Machine.blank (sink : Option Sink) (files : Assoc Text Text) : Machine :=
  { Machine.empty with sink := sink, files := files }

def Session.served (fuel : Nat) (qs : List Request) :
    Except Halt Session × Machine → Except Halt (List Answer) × Machine
  | (.error h, m) => (.error h, m)
  | (.ok session, m) => (.ok (session.serve fuel qs m).1, (session.serve fuel qs m).2)

def Session.history (fuel : Nat) (config : Config) (sink : Option Sink) (files : Assoc Text Text)
    (qs : List Request) : Except Halt (List Answer) × Machine :=
  Session.served fuel qs ((makeSession fuel config).exec (Machine.blank sink files))

/-- An agreement that evaluation keeps wherever there are no absent values, whatever is traced. -/
structure TraceBlind (A : Agreement) : Prop where
  simulation : ∀ {p}, ¬p.absent → Simulation p A
  setTraced : ∀ {r m₁ m₂} s b₁ b₂, A r m₁ m₂ → A r (m₁.setTraced s b₁) (m₂.setTraced s b₂)
  names : ∀ {r m₁ m₂}, A r m₁ m₂ → ∀ s, m₁.names s = m₂.names s

section

variable {p : Policy} {A : Agreement} {r : Region} {s : Scope}

abbrev anywhere : FrameId → Prop := fun _ => True

theorem Machine.grants_anywhere (p : Policy) (m : Machine) : m.Grants p anywhere :=
  ⟨fun _ => trivial, fun _ => trivial⟩

theorem setTraced_twins (blind : TraceBlind A) (s : Scope) (b₁ b₂ : Bool) :
    Twins p anywhere A r (fun _ _ => True) (modify (·.setTraced s b₁))
      (modify (·.setTraced s b₂)) := by
  intro m₁ m₂ closed _ agree
  exact ⟨r, Advance.setTraced m₁ trivial b₁, closed.setTraced s b₁,
    blind.setTraced s b₁ b₂ agree, rfl, trivial⟩

end

abbrev Policy.strict (evals : Scope → Prop) : Policy := ⟨False, evals, False⟩

def Policy.bare : Policy := .strict fun _ => False

def Session.plain (session : Session) : Policy := .strict fun s => s = session.global

def makeFrames (fuel : Nat) (traceBoot : Bool) : EvalM Session := do
  let core ← makeCore fuel traceBoot
  let global ← EvalM.newFrame (some core) .empty
  pure ⟨core, global⟩

def Session.prepare (fuel : Nat) (config : Config) (session : Session) : EvalM Session := do
  modify (·.setTraced session.global config.traceBoot)
  let evaluator := Native.evalIn session.global
  Register.builtin session.global evaluator.name (some evaluator)
  discard (evalSource fuel loadFileDefinition (some session.global))
  Register.value session.global (ascii "*ARGV*") (.list (config.arguments.map Value.str).toArray)
  config.extensions.forM fun e => register e (some session.global)
  modify (·.setTraced session.global true)
  pure session

theorem makeSession_eq (fuel : Nat) (config : Config) :
    makeSession fuel config = makeFrames fuel config.traceBoot >>= Session.prepare fuel config := by
  simp only [makeFrames, bind_assoc, pure_bind]
  rfl

/-- What holds of a session in the region that its programs work in. -/
structure Session.Tidy (session : Session) (r : Region) (m : Machine) : Prop where
  closed : m.Closed session.plain r
  core : r.scope session.core
  global : r.scope session.global

section

variable {A : Agreement} {r : Region} {fuel : Nat}

theorem makeCore_twins (blind : TraceBlind A) (b₁ b₂ : Bool) :
    Twins .bare anywhere A r (fun r core => r.scope core)
      (makeCore fuel b₁) (makeCore fuel b₂) := by
  have sim := blind.simulation (p := .bare) id
  refine Twins.bind (Safe.newFrame sim (fun _ h => by cases h) fun e he => by simp at he) ?_
  rintro r₁ core - ⟨hcore, -⟩
  refine Twins.bind (installCore_safe sim hcore trivial) ?_
  intro r₂ _ le₂ _
  refine (setTraced_twins blind core b₁ b₂).bind ?_
  intro r₃ _ le₃ _
  have hcore₃ := (le₂.trans le₃).1 core hcore
  refine Twins.bind ((evalSource_safe sim fuel notDefinition hcore₃ trivial).map
    (Q := fun _ _ => True) fun _ _ _ _ => trivial) ?_
  intro r₄ _ le₄ _
  refine (setTraced_twins blind core true true).bind ?_
  intro r₅ _ le₅ _
  exact Safe.pure (P := fun r core => r.scope core) ((le₄.trans le₅).1 core hcore₃)

theorem makeFrames_twins (blind : TraceBlind A) (b₁ b₂ : Bool) :
    Twins .bare anywhere A r (fun r (session : Session) =>
        r.scope session.core ∧ r.scope session.global)
      (makeFrames fuel b₁) (makeFrames fuel b₂) := by
  have sim := blind.simulation (p := .bare) id
  refine Twins.bind (makeCore_twins blind b₁ b₂) ?_
  intro r₁ core _ hcore
  refine Safe.bind (Safe.newFrame sim (fun t ht => Option.some.inj ht ▸ hcore)
    fun e he => by simp at he) ?_
  rintro r₂ global le₂ ⟨hglobal, -⟩
  exact Safe.pure ⟨le₂.1 core hcore, hglobal⟩

theorem prepare_twins (blind : TraceBlind A) {session : Session} (b₁ b₂ : Bool)
    (arguments : List Text) (extensions : List Extension) (hglobal : r.scope session.global) :
    Twins session.plain anywhere A r (fun r made => made = session ∧ r.scope session.global)
      (session.prepare fuel ⟨arguments, b₁, extensions⟩)
      (session.prepare fuel ⟨arguments, b₂, extensions⟩) := by
  have sim := blind.simulation (p := session.plain) id
  refine (setTraced_twins blind session.global b₁ b₂).bind ?_
  intro r₁ _ le₁ _
  have hs₁ := le₁.1 session.global hglobal
  refine Twins.bind (Register.builtin_safe sim _ (fun t ht => ?_) hs₁ trivial)
    fun r₂ _ le₂ _ => ?_
  · cases ht
    rfl
  have hs₂ := le₂.1 session.global hs₁
  refine Twins.bind ((evalSource_safe sim fuel loadFileDefinition hs₂ trivial).map
    (Q := fun _ _ => True) fun _ _ _ _ => trivial) ?_
  intro r₃ _ le₃ _
  have hs₃ := le₃.1 session.global hs₂
  refine Twins.bind (Register.value_safe sim _ (fun _ => .list fun v hv => ?_) hs₃ trivial)
    fun r₄ _ le₄ _ => ?_
  · obtain ⟨t, _, rfl⟩ := List.mem_map.mp (List.mem_toArray.mp hv)
    exact .str t
  have hs₄ := le₄.1 session.global hs₃
  refine Twins.bind (Safe.forM fun e _ r' le => ?_) fun r₅ _ le₅ _ => ?_
  · exact register_safe sim e (le.1 session.global hs₄) trivial
  refine (setTraced_twins blind session.global true true).bind ?_
  intro r₆ _ le₆ _
  exact Safe.pure (P := fun r made => made = session ∧ r.scope session.global)
    ⟨rfl, (le₅.trans le₆).1 session.global hs₄⟩

/-- Whether the making of a session is traced makes no difference to it, and nothing absent gets
into what it comes to. -/
theorem makeSession_answers (blind : TraceBlind A) (arguments : List Text) (b₁ b₂ : Bool)
    (extensions : List Extension) {m₁ m₂ n₁ n₂ : Machine} {o₁ o₂ : Except Halt Session}
    (closed : m₁.Closed .bare r) (agree : A r m₁ m₂)
    (h₁ : (makeSession fuel ⟨arguments, b₁, extensions⟩).exec m₁ = (o₁, n₁))
    (h₂ : (makeSession fuel ⟨arguments, b₂, extensions⟩).exec m₂ = (o₂, n₂)) :
    o₁ = o₂ ∧ ∃ r', Advance anywhere r r' m₁ n₁ ∧ A r' n₁ n₂ ∧
      (∀ session, o₁ = .ok session → session.Tidy r' n₁) ∧
      ∀ h, o₁ = .error h → ∃ evals, n₁.Closed (.strict evals) r' ∧ h.Within (.strict evals) r' := by
  rcases frames₁ : (makeFrames fuel b₁).exec m₁ with ⟨o, k₁⟩
  rcases frames₂ : (makeFrames fuel b₂).exec m₂ with ⟨o', k₂⟩
  obtain ⟨rfl, r₁, first, closed₁, agree₁, answer⟩ := (makeFrames_twins blind b₁ b₂).run frames₁
    frames₂ closed (m₁.grants_anywhere _) agree
  rw [makeSession_eq] at h₁ h₂
  dsimp only at h₁ h₂
  cases o with
  | error h =>
    rw [EvalM.exec_bind_error frames₁] at h₁
    rw [EvalM.exec_bind_error frames₂] at h₂
    cases h₁
    cases h₂
    refine ⟨rfl, r₁, first, agree₁, fun _ made => (nomatch made), ?_⟩
    rintro h' ⟨⟩
    exact ⟨_, closed₁, answer⟩
  | ok session =>
    rw [EvalM.exec_bind_ok frames₁] at h₁
    rw [EvalM.exec_bind_ok frames₂] at h₂
    obtain ⟨hcore, hglobal⟩ := answer
    -- from here on natives may evaluate in the new frame
    have closed₂ := closed₁.weaken (q := session.plain) id (fun _ h => h.elim) id
      fun t ht => ht ▸ hglobal
    obtain ⟨rfl, r₂, advance, closed₃, agree₃, answer⟩ :=
      (prepare_twins blind b₁ b₂ arguments extensions hglobal).run h₁ h₂ closed₂
        (k₁.grants_anywhere _) agree₁
    refine ⟨rfl, r₂, first.trans advance, agree₃, ?_, ?_⟩
    · rintro made rfl
      obtain ⟨rfl, hglobal₂⟩ := answer
      exact ⟨closed₃, advance.le.1 _ hcore, hglobal₂⟩
    · rintro h rfl
      exact ⟨_, closed₃, answer⟩

theorem makeSession_twins (blind : TraceBlind A) (arguments : List Text) (b₁ b₂ : Bool)
    (extensions : List Extension) {m₁ m₂ n₁ n₂ : Machine} {o₁ o₂ : Except Halt Session}
    (closed : m₁.Closed .bare r) (agree : A r m₁ m₂)
    (h₁ : (makeSession fuel ⟨arguments, b₁, extensions⟩).exec m₁ = (o₁, n₁))
    (h₂ : (makeSession fuel ⟨arguments, b₂, extensions⟩).exec m₂ = (o₂, n₂)) :
    o₁ = o₂ ∧ ∃ r', Advance anywhere r r' m₁ n₁ ∧ A r' n₁ n₂ ∧
      ∀ session, o₁ = .ok session → session.Tidy r' n₁ := by
  obtain ⟨same, r', advance, agree', tidy, -⟩ :=
    makeSession_answers blind arguments b₁ b₂ extensions closed agree h₁ h₂
  exact ⟨same, r', advance, agree', tidy⟩

def Response.Within (p : Policy) (r : Region) : Response → Prop
  | .value v _ _ => v.Within p r
  | _ => True

theorem Response.showing_safe {p : Policy} (sim : Simulation p A) {v : Value} (h : v.Within p r) :
    Safe p anywhere A r (fun r response => response.Within p r) (showing v) := by
  refine (Safe.readable sim h).bind ?_
  intro r₁ written le₁ _
  refine (Safe.ofExcept (P := fun _ _ => True) ?_).bind
    fun _ _ le₂ _ => Safe.pure (h.mono (le₁.trans le₂))
  unfold Value.kind
  split
  · exact trivial
  · rename_i hk
    exact h.kind hk

variable {session : Session}

theorem Request.run_safe (blind : TraceBlind A) (q : Request) (hs : r.scope session.global) :
    Safe session.plain anywhere A r (fun r response => response.Within session.plain r)
      (q.run fuel session) := by
  have sim := blind.simulation (p := session.plain) id
  have show_value {r' : Region} {v : Value} (h : v.Within session.plain r') :=
    Response.showing_safe sim h
  cases q with
  | source t =>
    exact (evalSource_safe sim fuel t hs trivial).bind fun _ _ _ hv => show_value hv
  | data t =>
    refine t.value_safe.bind ?_
    intro r₁ e le₁ he
    exact (evalData_safe sim fuel r₁ e _ he (le₁.1 _ hs) trivial).bind
      fun _ _ _ hv => show_value hv
  | apply f args =>
    refine (evalSource_safe sim fuel f hs trivial).bind ?_
    intro r₁ f le₁ hf
    refine (Safe.mapM fun t _ r' le => ?_).bind fun r₂ vs le₂ hvs => ?_
    · exact evalSource_safe sim fuel t ((le₁.trans le).1 _ hs) trivial
    · exact (applyFunction_safe sim fuel r₂ f vs (hf.mono le₂) hvs).bind
        fun _ _ _ hv => show_value hv
  | extend e => exact (register_safe sim e hs trivial).bind fun _ _ _ _ => Safe.pure trivial
  | lookup name =>
    exact (Eval.lookup_safe sim name hs).bind fun _ _ _ hv => show_value hv
  | collect => exact Safe.pure trivial
  | coreNames =>
    exact Safe.read (fun m₁ m₂ _ agree => by rw [blind.names agree])
      fun _ _ => Safe.pure trivial
  | globalNames =>
    exact Safe.read (fun m₁ m₂ _ agree => by rw [blind.names agree])
      fun _ _ => Safe.pure trivial

/-- Machines that agree come to the same with a request, and agree afterwards. What is handed out
lies in the region that they are left with. -/
theorem Session.Tidy.answers (blind : TraceBlind A) {m₁ m₂ n₁ n₂ : Machine}
    {o₁ o₂ : Except Halt Response} (tidy : session.Tidy r m₁) (agree : A r m₁ m₂) {q : Request}
    (h₁ : (q.run fuel session).exec m₁ = (o₁, n₁))
    (h₂ : (q.run fuel session).exec m₂ = (o₂, n₂)) :
    o₁ = o₂ ∧ ∃ r', A r' n₁ n₂ ∧ session.Tidy r' n₁ ∧
      Meets (Halt.Within session.plain r') (Response.Within session.plain r') o₁ := by
  obtain ⟨same, r', advance, closed', agree', answer⟩ := Twins.run
    (Request.run_safe blind q tidy.global) h₁ h₂ tidy.closed (m₁.grants_anywhere _) agree
  have tidy' : session.Tidy r' n₁ :=
    ⟨closed', advance.le.1 _ tidy.core, advance.le.1 _ tidy.global⟩
  exact ⟨same, r', agree', tidy', answer⟩

theorem Session.Tidy.request (blind : TraceBlind A) {m₁ m₂ n₁ n₂ : Machine}
    {o₁ o₂ : Except Halt Response} (tidy : session.Tidy r m₁) (agree : A r m₁ m₂) {q : Request}
    (h₁ : (q.run fuel session).exec m₁ = (o₁, n₁))
    (h₂ : (q.run fuel session).exec m₂ = (o₂, n₂)) :
    o₁ = o₂ ∧ ∃ r', A r' n₁ n₂ ∧ session.Tidy r' n₁ := by
  obtain ⟨same, r', agree', tidy', -⟩ := tidy.answers blind agree h₁ h₂
  exact ⟨same, r', agree', tidy'⟩

/-- What a host may change by itself is of no account. -/
theorem Session.Tidy.host {m : Machine} (tidy : session.Tidy r m) (output : Text)
    (sink : Option Sink) (files : Assoc Text Text) :
    session.Tidy r { m with output := output, sink := sink, files := files } :=
  ⟨⟨tidy.closed.parent, tidy.closed.binding, tidy.closed.content, tidy.closed.evals⟩,
    tidy.core, tidy.global⟩

end

end MiniLisp
