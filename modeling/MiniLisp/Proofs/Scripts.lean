import MiniLisp.Proofs.Loading

/-! A script is loaded into a session that was just made. The making of a session comes to its end
whatever the arguments, and leaves the loader and what it uses in place. -/
namespace MiniLisp

open EvalM Eval Pasting

def Machine.addFunction (m : Machine) (s : Scope) (name : Text) (make : FunId → Value) : Machine :=
  m.newFunction.2.define s name (make m.newFunction.1)

def Machine.install (s : Scope) (m : Machine) (op : Native) : Machine :=
  m.addFunction s op.name (.native · op)

namespace Machine

variable {m : Machine} {s : Scope}

theorem size_addFunction (m : Machine) (s : Scope) (name : Text) (make : FunId → Value) :
    (m.addFunction s name make).frames.size = m.frames.size := Array.size_modify

theorem local?_addFunction (m : Machine) (s : Scope) (name : Text) (make : FunId → Value)
    (t : Scope) (n : Text) : (m.addFunction s name make).local? t n =
      if t.id = s.id ∧ name = n ∧ s.id.index < m.frames.size then some (make m.newFunction.1)
      else m.local? t n :=
  m.newFunction.2.local?_define s name _ t n

/-- Installing natives fills a frame and does nothing else. -/
theorem installAll_kept (s : Scope) (ops : List Native) (m : Machine) :
    (ops.foldl (install s) m).frames.size = m.frames.size ∧
      (ops.foldl (install s) m).output = m.output ∧
      (ops.foldl (install s) m).files = m.files := by
  induction ops generalizing m with
  | nil => exact ⟨rfl, rfl, rfl⟩
  | cons op ops ih =>
    obtain ⟨frames, output, files⟩ := ih (m.install s op)
    exact ⟨frames.trans (m.size_addFunction _ _ _), output, files⟩

theorem local?_installAll_other {ops : List Native} {name : Text}
    (other : ∀ op ∈ ops, op.name ≠ name) (s t : Scope) (m : Machine) :
    (ops.foldl (install s) m).local? t name = m.local? t name := by
  induction ops generalizing m with
  | nil => rfl
  | cons op ops ih =>
    rw [List.foldl_cons, ih fun op h => other op (List.mem_cons_of_mem _ h), install,
      local?_addFunction, if_neg fun h => other op List.mem_cons_self h.2.1]

/-- Natives with different names are bound side by side. -/
theorem local?_installAll {ops : List Native} (distinct : (ops.map Native.name).Nodup)
    (present : s.id.index < m.frames.size) {op : Native} (h : op ∈ ops) :
    ∃ id, (ops.foldl (install s) m).local? s op.name = some (.native id op) := by
  induction ops generalizing m with
  | nil => cases h
  | cons first ops ih =>
    rw [List.map_cons, List.nodup_cons] at distinct
    rw [List.foldl_cons]
    rcases List.mem_cons.mp h with rfl | later
    · have other : ∀ op' ∈ ops, op'.name ≠ op.name :=
        fun op' h same => distinct.1 (same ▸ List.mem_map_of_mem h)
      rw [local?_installAll_other other, install, local?_addFunction, if_pos ⟨rfl, rfl, present⟩]
      exact ⟨_, rfl⟩
    · exact ih distinct.2 (Nat.lt_of_lt_of_eq present (m.size_addFunction s _ _).symm) later

end Machine

open Machine

theorem coreNatives_distinct : (coreNatives.map Native.name).Nodup := by decide

section

variable {m : Machine} {s : Scope} {fuel : Nat}

theorem installCore_concludes (s : Scope) (m : Machine) :
    (installCore (some s)).Concludes m (.ok ⟨⟩) (coreNatives.foldl (install s) m) := by
  show (coreNatives.forM fun op => EvalM.newFunction op >>= EvalM.define s op.name).Concludes m _ _
  generalize coreNatives = ops
  induction ops generalizing m with
  | nil => exact .pure _ m
  | cons op ops ih =>
    exact ((Concludes.newFunction op m).bind (.define s op.name _ _)).bind (ih _)

theorem setTraced_concludes (m : Machine) (s : Scope) (traced : Bool) :
    (modify (·.setTraced s traced) : EvalM PUnit).Concludes m (.ok ⟨⟩) (m.setTraced s traced) :=
  .modify (fun _ _ same => congrArg (·.setTraced s traced) same) m

def functionDefinition (name : Text) (params : List Text) (body : Value) : Value :=
  SpecialForm.define.expr
    [.sym name, SpecialForm.function.expr [.list ⟨params.map .sym⟩, body]]

theorem inert_function {params : List Text} {body : Value} (h : body.Inert) :
    (SpecialForm.function.expr [.list ⟨params.map .sym⟩, body]).Inert := by
  refine Value.Inert.list fun v hv => ?_
  simp only [List.mem_cons, List.not_mem_nil, or_false] at hv
  rcases hv with rfl | rfl | rfl
  · exact .sym _
  · refine Value.Inert.list fun v hv => ?_
    obtain ⟨name, -, rfl⟩ := List.mem_map.mp hv
    exact .sym name
  · exact h

theorem definition_concludes {t name : Text} {params : List Text} {body : Value}
    (read : readAll t = .ok [functionDefinition name params body]) (h : body.Inert) :
    (discard (evalSource (fuel + 2) t (some s))).Concludes m (.ok ⟨⟩)
      (m.addFunction s name (.closure · (.ofNames params) body (some s))) := by
  have inert : (functionDefinition name params body).Inert := by
    refine Value.Inert.list fun v hv => ?_
    simp only [List.mem_cons, List.not_mem_nil, or_false] at hv
    rcases hv with rfl | rfl | rfl
    · exact .sym _
    · exact .sym name
    · exact inert_function h
  exact (evalSource_concludes read
    (concludes_define inert (concludes_function (inert_function h)))).discard

/-- The natives are bound in a core frame, and the output and the files are those of the start. -/
structure CoreMade (start : Machine) (core : Scope) (m : Machine) : Prop where
  present : core.id.index < m.frames.size
  natives : ∀ op ∈ coreNatives, ∃ id, m.local? core op.name = some (.native id op)
  output : m.output = start.output
  files : m.files = start.files

namespace CoreMade

variable {start : Machine} {core : Scope}

theorem installed (present : core.id.index < m.frames.size) :
    CoreMade m core (coreNatives.foldl (install core) m) := by
  obtain ⟨frames, output, files⟩ := installAll_kept core coreNatives m
  exact ⟨Nat.lt_of_lt_of_eq present frames.symm,
    fun _ => local?_installAll coreNatives_distinct present, output, files⟩

theorem setTraced (h : CoreMade start core m) (t : Scope) (traced : Bool) :
    CoreMade start core (m.setTraced t traced) where
  present := Nat.lt_of_lt_of_eq h.present (m.size_setTraced t traced).symm
  natives op hop := (m.local?_setTraced t traced core op.name).symm ▸ h.natives op hop
  output := h.output
  files := h.files

theorem newFrame (h : CoreMade start core m) (parent : Option Scope) (given : Table Text Value) :
    CoreMade start core (m.newFrame parent given).2 where
  present := by
    have pushed : (m.newFrame parent given).2.frames.size = m.frames.size + 1 := Array.size_push _
    have := h.present
    omega
  natives op hop := (m.local?_newFrame parent given core op.name).symm ▸ h.natives op hop
  output := h.output
  files := h.files

/-- Definitions keep the natives in another frame, and under another name in any frame. -/
theorem define (h : CoreMade start core m) {t : Scope} {name : Text}
    (other : t.id = core.id → ∀ op ∈ coreNatives, op.name ≠ name) (v : Value) :
    CoreMade start core (m.define t name v) where
  present := Nat.lt_of_lt_of_eq h.present (m.size_define t name v).symm
  natives op hop := by
    rw [local?_define, if_neg fun same => other same.1.symm op hop same.2.1.symm]
    exact h.natives op hop
  output := h.output
  files := h.files

theorem addFunction (h : CoreMade start core m) {t : Scope} {name : Text}
    (other : t.id = core.id → ∀ op ∈ coreNatives, op.name ≠ name) (make : FunId → Value) :
    CoreMade start core (m.addFunction t name make) :=
  define (m := m.newFunction.2) ⟨h.present, h.natives, h.output, h.files⟩ other _

end CoreMade

def notBody : Value :=
  .list #[.sym (ascii "if"), .sym (ascii "a"), .bool false, .bool true]

theorem inert_notBody : notBody.Inert := by
  simp [Value.Inert, notBody, Value.Within.list_iff, Value.Within.sym, Value.Within.bool]

theorem readAll_notDefinition :
    readAll notDefinition = .ok [functionDefinition (ascii "not") [ascii "a"] notBody] := rfl

theorem makeCore_concludes (fuel : Nat) (traceBoot : Bool) (start : Machine) :
    ∃ core m, CoreMade start core m ∧
      (makeCore (fuel + 2) traceBoot).Concludes start (.ok core) m := by
  have present : (start.newFrame none .empty).1.id.index <
      (start.newFrame none .empty).2.frames.size := start.index_newFrame_lt (Nat.le_refl _)
  have made := (CoreMade.installed present).setTraced (start.newFrame none .empty).1 traceBoot
  have other : ∀ op ∈ coreNatives, op.name ≠ ascii "not" := by decide
  obtain ⟨present, natives, output, files⟩ := (made.addFunction (fun _ => other)
    (.closure · (.ofNames [ascii "a"]) notBody (some (start.newFrame none .empty).1))).setTraced
      (start.newFrame none .empty).1 true
  exact ⟨_, _, ⟨present, natives, output, files⟩,
    (Concludes.newFrame none .empty start).bind ((installCore_concludes _ _).bind
      ((setTraced_concludes _ _ traceBoot).bind
        ((definition_concludes readAll_notDefinition inert_notBody).bind
          ((setTraced_concludes _ _ true).bind (.pure _ _)))))⟩

theorem readAll_loadFileDefinition : readAll loadFileDefinition =
    .ok [functionDefinition (ascii "load-file") [Loader.parameter] Loader.body] := rfl

theorem checkName_concludes {what : Registered} {name : Text} (nonempty : name.isEmpty = false)
    (free : m.local? s name = none) : (Register.checkName what s name).Concludes m (.ok ⟨⟩) m := by
  rw [Register.checkName, nonempty, if_neg Bool.false_ne_true]
  refine Concludes.read fun n same => ?_
  have free : n.local? s name = none := (congrArg (Machine.local? · s name) same).trans free
  rw [free]
  exact .pure PUnit.unit m

theorem builtin_concludes {name : Text} (op : Native) (nonempty : name.isEmpty = false)
    (free : m.local? s name = none) : (Register.builtin s name (some op)).Concludes m (.ok ⟨⟩)
      (m.addFunction s name (.native · op)) :=
  (checkName_concludes nonempty free).bind
    ((Concludes.newFunction op m).bind (.define s name _ _))

theorem value_concludes {name : Text} (vs : Array Value) (nonempty : name.isEmpty = false)
    (free : m.local? s name = none) :
    (Register.value s name (.list vs)).Concludes m (.ok ⟨⟩) (m.define s name (.list vs)) :=
  (checkName_concludes nonempty free).bind (.define s name _ m)

def Machine.fill (m : Machine) (global : Scope) : Machine :=
  (m.addFunction global (ascii "eval") (.native · (.evalIn global))).addFunction global
    (ascii "load-file") (.closure · (.ofNames [Loader.parameter]) Loader.body (some global))

theorem local?_fill (m : Machine) {global : Scope} (present : global.id.index < m.frames.size)
    (name : Text) : (m.fill global).local? global name =
      if ascii "load-file" = name then
        some (.closure ⟨m.functions + 1⟩ (.ofNames [Loader.parameter]) Loader.body (some global))
      else if ascii "eval" = name then some (.native ⟨m.functions⟩ (.evalIn global))
      else m.local? global name := by
  rw [Machine.fill, local?_addFunction, local?_addFunction, size_addFunction]
  simp only [true_and, present, and_true]
  rfl

/-- A global frame inside a core frame, where no name is bound yet. -/
structure GlobalFresh (core global : Scope) (m : Machine) : Prop where
  present : global.id.index < m.frames.size
  apart : global.id ≠ core.id
  inside : global.parent = some core
  free : ∀ name, m.local? global name = none

theorem globalFresh_newFrame {start : Machine} {core : Scope} (made : CoreMade start core m)
    (traced : Bool) : GlobalFresh core (m.newFrame (some core) .empty).1
      ((m.newFrame (some core) .empty).2.setTraced (m.newFrame (some core) .empty).1 traced) where
  present := by
    rw [size_setTraced]
    exact m.index_newFrame_lt (Nat.le_refl _)
  apart same := Nat.lt_irrefl m.frames.size (by
    have older := made.present
    rwa [← same] at older)
  inside := rfl
  free name := by
    rw [local?_setTraced, local?_newFrame, local?_new]
    rfl

theorem CoreMade.fill {start : Machine} {core global : Scope} (made : CoreMade start core m)
    (fresh : GlobalFresh core global m) (v : Value) (traced : Bool) : CoreMade start core
      (((m.fill global).define global (ascii "*ARGV*") v).setTraced global traced) :=
  (((made.addFunction (absurd · fresh.apart) _).addFunction (absurd · fresh.apart) _).define
    (absurd · fresh.apart) v).setTraced global traced

/-- A frame filled over a core frame is as the loader needs it. -/
theorem intact_fill {start : Machine} {core global : Scope} (made : CoreMade start core m)
    (fresh : GlobalFresh core global m) (v : Value) (traced : Bool) :
    Session.Intact ⟨core, global⟩
      (((m.fill global).define global (ascii "*ARGV*") v).setTraced global traced) global := by
  have binds {name : Text} (other : ascii "*ARGV*" ≠ name) :
      (((m.fill global).define global (ascii "*ARGV*") v).setTraced global traced).local? global
        name = if ascii "load-file" = name then
          some (.closure ⟨m.functions + 1⟩ (.ofNames [Loader.parameter]) Loader.body (some global))
        else if ascii "eval" = name then some (.native ⟨m.functions⟩ (.evalIn global))
        else none := by
    rw [local?_setTraced, local?_define, if_neg fun h => other h.2.1, local?_fill m fresh.present,
      fresh.free]
  have around (op : Native) (hop : op ∈ coreNatives) (other : ascii "*ARGV*" ≠ op.name ∧
      ascii "load-file" ≠ op.name ∧ ascii "eval" ≠ op.name) :
      ∃ id, (((m.fill global).define global (ascii "*ARGV*") v).setTraced global traced).lookup
        op.name global = some (.native id op) := by
    obtain ⟨id, bound⟩ := (made.fill fresh v traced).natives op hop
    refine ⟨id, ?_⟩
    rw [lookup_eq, binds other.1, if_neg other.2.1, if_neg other.2.2, fresh.inside,
      Option.none_or, Option.bind_some, lookup_eq, bound, Option.some_or]
  constructor
  · refine ⟨⟨m.functions + 1⟩, ?_⟩
    rw [lookup_eq, binds (by decide), if_pos rfl, Option.some_or]
  · constructor
    · refine ⟨⟨m.functions⟩, ?_⟩
      rw [lookup_eq, binds (by decide), if_neg (by decide), if_pos rfl, Option.some_or]
    · exact around (.data .readString) (by simp [coreNatives]) (by decide)
    · exact around (.text .str) (by simp [coreNatives]) (by decide)
    · exact around .slurp (by simp [coreNatives]) (by decide)

/-- A session just made is as the loader needs it. -/
theorem makeSession_concludes (fuel : Nat) (config : Config) (plain : config.extensions = [])
    (start : Machine) : ∃ session m, session.Intact m session.global ∧ m.output = start.output ∧
      m.files = start.files ∧ (makeSession (fuel + 2) config).Concludes start (.ok session) m := by
  obtain ⟨core, m₁, made, first⟩ := makeCore_concludes fuel config.traceBoot start
  have fresh := globalFresh_newFrame made config.traceBoot
  have made := (made.newFrame (some core) .empty).setTraced (m₁.newFrame (some core) .empty).1
    config.traceBoot
  have filled := made.fill fresh (.list (config.arguments.map Value.str).toArray) true
  have unbound := local?_fill _ fresh.present (ascii "*ARGV*")
  rw [if_neg (by decide), if_neg (by decide), fresh.free] at unbound
  have extended (m : Machine) (global : Scope) :
      (config.extensions.forM fun e => register e (some global)).Concludes m (.ok ⟨⟩) m := by
    rw [plain]
    exact .pure _ m
  exact ⟨_, _, intact_fill made fresh _ true, filled.output, filled.files,
    first.bind ((Concludes.newFrame (some core) .empty m₁).bind
      ((setTraced_concludes _ _ config.traceBoot).bind
        ((builtin_concludes (.evalIn _) rfl (fresh.free (ascii "eval"))).bind
          ((definition_concludes readAll_loadFileDefinition Loader.inert_parts.2.2.2).bind
            ((value_concludes _ rfl unbound).bind
              ((extended _ _).bind ((setTraced_concludes _ _ true).bind (.pure _ _))))))))⟩

end

/-- The frame of the call is the only thing that is new. -/
theorem Session.kept_loading {session : Session} {m n : Machine} {path : Text}
    (same : n.untraced = (session.loading m path).2.untraced) : m.Kept n where
  frames f old := by
    have frames : n.frame? f = (session.loading m path).2.frame? f :=
      (congrArg (Machine.frame? · f) same :)
    rw [frames]
    exact m.frame?_newFrame _ _ old
  cells := (congrArg Machine.cells same :)
  output := (congrArg Machine.output same :)

theorem start_refused {path t : Text} (rest : List Text) {m : Machine}
    (found : m.file? path = some t) {e : ReadError} (refused : readFirst (paste t) = .error e)
    (fuel : Nat) : ∃ m', m'.output = m.output ∧
      (Program.start (fuel + 6) (path :: rest)).Concludes m (.error (.read e)) m' := by
  obtain ⟨session, m₁, intact, output, files, made⟩ := makeSession_concludes (fuel + 4)
    { Config.plain with arguments := rest } rfl m
  have found₁ : m₁.file? path = some t := by
    rw [Machine.file?, files]
    exact found
  have loaded := load_refused intact found₁ refused fuel
  have discarded : (discard (eval (fuel + 6) (Program.scriptForm path) session.global)).Concludes
      m₁ (.error (.read e)) (session.loading m₁ path).2 := by
    rw [discard_eq]
    exact loaded.bind_error
  exact ⟨(session.loading m₁ path).2, output, made.bind discarded.bind_error⟩

theorem Machine.drain_output (m : Machine) : m.drain.1 = m.output := by
  unfold drain
  split <;> rfl

theorem run_refused {i : Invocation} {path t : Text} {rest : List Text}
    (script : i.words = path :: rest)
    (found : (Program.machine i.trace i.files).file? path = some t) {e : ReadError}
    (refused : readFirst (paste t) = .error e) (fuel : Nat) :
    ∃ trace, Program.run (fuel + 6) i =
      ⟨⟨.empty, trace ++ (Halt.error (.read e)).report⟩, 1⟩ := by
  obtain ⟨m', output, concludes⟩ := start_refused rest found refused fuel
  obtain ⟨n, ends, same⟩ := concludes _ rfl
  have written : n.output = .empty :=
    (congrArg Machine.output same :).trans output
  have run : (Program.start (fuel + 6) i.words).run.run (Program.machine i.trace i.files) =
      (.error (.error (.read e)), n) := script ▸ ends
  refine ⟨n.drain.2.1, ?_⟩
  rw [Program.run, run]
  show (⟨⟨n.drain.1, n.drain.2.1 ++ _⟩, 1⟩ : Outcome) = _
  rw [n.drain_output, written]

/-- A file that cannot be read is refused as a whole unless its text ends the form it is pasted into
or takes in what is pasted after it. The refusal leaves everything as it was, and a program that was
to run the file ends with it. -/
theorem unreadable_files_are_refused {t : Text} (unreadable : ∀ forms, readAll t ≠ .ok forms) :
    ((∃ form, readFirst (paste t) = .ok form) ↔ Escapes t.bytes) ∧
    (¬Escapes t.bytes → ∃ e : ReadError,
      (∀ (session : Session) (m : Machine) (s : Scope) (path : Text), session.Intact m s →
        m.file? path = some t → ∀ fuel, 6 ≤ fuel →
        ∃ n, (eval fuel (Program.scriptForm path) s).Ends m (.error (.read e)) n ∧ m.Kept n) ∧
      ∀ (i : Invocation) (path : Text) (rest : List Text), i.words = path :: rest →
        (Program.machine i.trace i.files).file? path = some t → ∀ fuel, 6 ≤ fuel →
        ∃ trace, Program.run fuel i =
          ⟨⟨.empty, trace ++ (Halt.error (.read e)).report⟩, 1⟩) := by
  have reads : (∃ form, readFirst (paste t) = .ok form) ↔ Escapes t.bytes := by
    rw [readFirst_paste_iff, or_iff_right]
    exact fun ⟨forms, read⟩ => unreadable forms read
  refine ⟨reads, fun held => ?_⟩
  cases refused : readFirst (paste t) with
  | ok form => exact absurd (reads.mp ⟨form, refused⟩) held
  | error e =>
    refine ⟨e, fun session m s path intact found fuel enough => ?_, fun i path rest script found
      fuel enough => ?_⟩
    · obtain ⟨more, rfl⟩ := Nat.exists_eq_add_of_le' enough
      obtain ⟨n, ends, same⟩ := load_refused intact found refused more m rfl
      exact ⟨n, ends, session.kept_loading same⟩
    · obtain ⟨more, rfl⟩ := Nat.exists_eq_add_of_le' enough
      exact run_refused script found refused more

/-- A script whose last list is not closed, run by a program that traces, and loaded into a session
just made. -/
theorem unclosed_script_is_refused :
    let path := ascii "unclosed.lisp"
    let t := ascii "(prn 1) ("
    (∀ forms, readAll t ≠ .ok forms) ∧ ¬Escapes t.bytes ∧ ∃ e,
      (∃ (session : Session) (m n : Machine), session.Intact m session.global ∧
        m.file? path = some t ∧
        (eval 6 (Program.scriptForm path) session.global).Ends m (.error (.read e)) n ∧ m.Kept n) ∧
      ∃ trace, Program.run 6 ⟨[path], .empty, some (ascii "1"), [(path, t)]⟩ =
        ⟨⟨.empty, trace ++ (Halt.error (.read e)).report⟩, 1⟩ := by
  intro path t
  have refused : (readAll t).isOk = false ∧ (readFirst (paste t)).isOk = false := by
    decide +kernel
  have unreadable : ∀ forms, readAll t ≠ .ok forms := by
    intro forms read
    rw [read] at refused
    cases refused.1
  obtain ⟨reads, held⟩ := unreadable_files_are_refused unreadable
  have kept : ¬Escapes t.bytes := by
    rw [← reads]
    rintro ⟨form, read⟩
    rw [read] at refused
    cases refused.2
  obtain ⟨e, loads, runs⟩ := held kept
  have there : (Program.machine none [(path, t)]).file? path = some t := by decide +kernel
  obtain ⟨session, m, intact, _, files, _⟩ := makeSession_concludes 0 .plain rfl
    (Program.machine none [(path, t)])
  have found : m.file? path = some t := by rw [Machine.file?, files]; exact there
  obtain ⟨n, ends, kept'⟩ := loads session m session.global path intact found 6 (Nat.le_refl 6)
  refine ⟨unreadable, kept, e, ⟨session, m, n, intact, found, ends, kept'⟩, ?_⟩
  exact runs _ path [] (by decide +kernel) there 6 (Nat.le_refl 6)

/-- The text `(prn 1) )` cannot be read, and yet as a script it prints and ends as if all were
well: what it is pasted into is closed too early. -/
theorem stray_closer_ends_a_script :
    let path := ascii "bad.lisp"
    let t := ascii "(prn 1) )"
    (readAll t).isOk = false ∧
    Program.run 100 ⟨[path], .empty, none, [(path, t)]⟩ = ⟨⟨ascii "1\n", .empty⟩, 0⟩ := by
  decide +kernel

end MiniLisp
