import MiniLisp.Proofs.Requests

/-! Two machines that differ in nothing but where their traces go and which of their frames are
traced cannot be told apart by a program. -/
namespace MiniLisp

def Frame.muted (frame : Frame) : Frame := { frame with traced := false }

def Machine.muted (m : Machine) : Machine :=
  { m with frames := m.frames.map Frame.muted, sink := none }

namespace Machine

variable (m : Machine)

theorem frame?_muted (f : FrameId) : m.muted.frame? f = (m.frame? f).map Frame.muted :=
  Array.getElem?_map

theorem defined?_muted (f : FrameId) (name : Text) :
    m.muted.defined? f name = m.defined? f name := by
  rw [defined?, frame?_muted, defined?]
  cases m.frame? f <;> rfl

theorem local?_muted (s : Scope) (name : Text) : m.muted.local? s name = m.local? s name := by
  rw [local?, local?, defined?_muted]

theorem names_muted (s : Scope) : m.muted.names s = m.names s := by
  rw [names, names, frame?_muted]
  cases m.frame? s.id <;> rfl

theorem size_muted : m.muted.frames.size = m.frames.size := Array.size_map

theorem muted_newFrame (parent : Option Scope) (given : Table Text Value) :
    (m.newFrame parent given).2.muted =
      { m.muted with frames := m.muted.frames.push ⟨false, ∅⟩ } := by
  simp only [newFrame, muted, Array.map_push, Frame.muted]

/-- A change of one frame that commutes with muting it. -/
theorem map_muted_modify {f g : Frame → Frame} (h : ∀ frame, (f frame).muted = g frame.muted)
    (frames : Array Frame) (i : Nat) :
    (frames.modify i f).map Frame.muted = (frames.map Frame.muted).modify i g := by
  apply Array.ext_getElem?
  intro j
  rw [Array.getElem?_map, Array.getElem?_modify, Array.getElem?_modify, Array.getElem?_map]
  split
  · cases frames[j]? with
    | none => rfl
    | some frame => exact congrArg some (h frame)
  · rfl

theorem muted_define (s : Scope) (name : Text) (v : Value) :
    (m.define s name v).muted = m.muted.define s name v := by
  let insert (frame : Frame) : Frame := { frame with defined := frame.defined.insert name v }
  have frames := map_muted_modify (f := insert) (g := insert) (fun _ => rfl) m.frames s.id.index
  exact congrArg (fun frames => { m.muted with frames := frames }) frames

theorem muted_setTraced (s : Scope) (b : Bool) : (m.setTraced s b).muted = m.muted := by
  have frames := map_muted_modify (f := fun frame => { frame with traced := b }) (g := id)
    (fun _ => rfl) m.frames s.id.index
  have kept : (m.frames.map Frame.muted).modify s.id.index id = m.frames.map Frame.muted := by
    apply Array.ext_getElem?
    intro j
    rw [Array.getElem?_modify]
    split
    · exact Option.map_id_apply
    · rfl
  exact congrArg (fun frames => { m.muted with frames := frames }) (frames.trans kept)

variable {m} {m₁ m₂ : Machine}

theorem local?_of_muted (h : m₁.muted = m₂.muted) (s : Scope) (name : Text) :
    m₁.local? s name = m₂.local? s name := by
  rw [← local?_muted, h, local?_muted]

theorem cells_of_muted (h : m₁.muted = m₂.muted) : m₁.cells = m₂.cells :=
  congrArg (fun m => m.cells) h

end Machine

theorem muted_simulation {p : Policy} (present : ¬p.absent) :
    Simulation p fun _ m₁ m₂ => m₁.muted = m₂.muted where
  frames {_ m₁ m₂} h := by rw [← m₁.size_muted, h, m₂.size_muted]
  cells h := congrArg (fun m => m.cells.size) h
  functions h := congrArg (fun m => m.functions) h
  files h := congrArg (fun m => m.files) h
  binding h _ := Machine.local?_of_muted h _ _
  content {_ _ _ c} h _ := congrArg (fun m => m.cellContent c) h
  tracing := .inr ⟨present, fun h => ⟨h, h⟩⟩
  newFrame _ h _ _ := by rw [Machine.muted_newFrame, Machine.muted_newFrame, h]
  newCell {_ _ _ v} _ h _ := congrArg (fun m => (m.newCell v).2) h
  newFunction h := congrArg (fun m => m.newFunction.2) h
  define _ h _ _ := by rw [Machine.muted_define, Machine.muted_define, h]
  setCell {_ _ _ c v} _ h _ _ := congrArg (fun m => m.setCell c v) h
  write {_ _ _ t} h := congrArg (fun m => m.write t) h

theorem muted_blind : TraceBlind fun _ m₁ m₂ => m₁.muted = m₂.muted where
  simulation := muted_simulation
  setTraced s b₁ b₂ h := by rw [Machine.muted_setTraced, Machine.muted_setTraced, h]
  names h s := by rw [← Machine.names_muted, h, Machine.names_muted]

namespace Session

variable {session : Session} {r : Region} {m₁ m₂ : Machine}

/-- One request, on two machines that trace differently. -/
theorem grant_muted (fuel : Nat) (tidy : session.Tidy r m₁) (same : m₁.muted = m₂.muted)
    (q : Request) :
    (session.grant fuel q m₁).1 = (session.grant fuel q m₂).1 ∧
      (session.grant fuel q m₁).2.muted = (session.grant fuel q m₂).2.muted ∧
      ∃ r', session.Tidy r' (session.grant fuel q m₁).2 := by
  rcases h₁ : (q.run fuel session).exec m₁ with ⟨o₁, n₁⟩
  rcases h₂ : (q.run fuel session).exec m₂ with ⟨o₂, n₂⟩
  obtain ⟨rfl, r', agree, tidy'⟩ := tidy.request muted_blind same h₁ h₂
  have output : n₁.output = n₂.output := congrArg (fun m => m.output) agree
  have rest : ({ n₁ with output := .empty } : Machine).muted =
      ({ n₂ with output := .empty } : Machine).muted :=
    congrArg (fun m => { m with output := ByteArray.empty }) agree
  simp only [grant, h₁, h₂, output]
  exact ⟨trivial, rest, r', tidy'.host _ _ _⟩

/-- Request after request, each on what the one before left. -/
theorem serve_muted (fuel : Nat) (qs : List Request) (tidy : session.Tidy r m₁)
    (same : m₁.muted = m₂.muted) :
    (session.serve fuel qs m₁).1 = (session.serve fuel qs m₂).1 ∧
      (session.serve fuel qs m₁).2.muted = (session.serve fuel qs m₂).2.muted := by
  induction qs generalizing r m₁ m₂ with
  | nil => exact ⟨rfl, same⟩
  | cons q qs ih =>
    obtain ⟨outcome, left, r', tidy'⟩ := grant_muted fuel tidy same q
    obtain ⟨outcomes, last⟩ := ih tidy' left
    simp only [serve, outcome, outcomes, last]
    exact ⟨trivial, trivial⟩

/-- On a blank machine nothing is there that a region could miss. -/
theorem closed_blank (sink : Option Sink) (files : Assoc Text Text) :
    (Machine.blank sink files).Closed .bare ⟨fun _ => False, fun _ => False⟩ :=
  ⟨fun h => h.elim, fun h => h.elim, fun h => h.elim, fun h => h.elim⟩

/-- A session that is made is tidy, and leaves no trace if it has no place for one. -/
theorem tidy_of_made {fuel : Nat} {config : Config} {sink : Option Sink} {files : Assoc Text Text}
    {m : Machine} (made : (makeSession fuel config).exec (.blank sink files) = (.ok session, m)) :
    (∃ r, session.Tidy r m) ∧ (sink = none → m.sink = none) := by
  obtain ⟨-, r, advance, -, tidy⟩ := makeSession_twins muted_blind config.arguments config.traceBoot
    config.traceBoot config.extensions (closed_blank sink files) rfl made made
  exact ⟨⟨r, tidy session rfl⟩, advance.silent⟩

end Session

/-- Whatever becomes of the trace, and whether the making of the session is traced or not, every
request comes to the same value or error and writes the same, and all frames and cells end up
alike. -/
theorem tracing_is_invisible (fuel : Nat) (arguments : List Text) (extensions : List Extension)
    (files : Assoc Text Text) (qs : List Request) (sink₁ sink₂ : Option Sink)
    (boot₁ boot₂ : Bool) :
    let one := Session.history fuel ⟨arguments, boot₁, extensions⟩ sink₁ files qs
    let other := Session.history fuel ⟨arguments, boot₂, extensions⟩ sink₂ files qs
    one.1 = other.1 ∧ one.2.muted = other.2.muted ∧
      (∀ s name, one.2.local? s name = other.2.local? s name) ∧ one.2.cells = other.2.cells := by
  intro one other
  suffices h : one.1 = other.1 ∧ one.2.muted = other.2.muted from
    ⟨h.1, h.2, Machine.local?_of_muted h.2, Machine.cells_of_muted h.2⟩
  simp only [one, other, Session.history]
  have blank : (Machine.blank sink₁ files).muted = (Machine.blank sink₂ files).muted := rfl
  rcases h₁ : (makeSession fuel ⟨arguments, boot₁, extensions⟩).exec (.blank sink₁ files)
    with ⟨o, n₁⟩
  rcases h₂ : (makeSession fuel ⟨arguments, boot₂, extensions⟩).exec (.blank sink₂ files)
    with ⟨o', n₂⟩
  obtain ⟨rfl, r, -, same, tidy⟩ := makeSession_twins muted_blind arguments boot₁ boot₂ extensions
    (Session.closed_blank sink₁ files) blank h₁ h₂
  cases o with
  | error h => exact ⟨rfl, same⟩
  | ok session =>
    obtain ⟨outcomes, last⟩ := Session.serve_muted fuel qs (tidy session rfl) same
    exact ⟨congrArg Except.ok outcomes, last⟩

end MiniLisp
