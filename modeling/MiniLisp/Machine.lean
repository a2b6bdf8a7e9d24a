import MiniLisp.Error
import MiniLisp.Log
import MiniLisp.Path
import MiniLisp.Printer

/-! The state evaluation works on. A scope carries the bindings its frame was made with, and the
machine holds what is defined in the frame afterwards, which hides them. Places of frames and cells
are never used again: which of them are reclaimed no program can observe. -/
namespace MiniLisp

abbrev Bindings := Std.TreeMap Text Value

structure Frame where
  /-- Whether evaluation in this frame leaves a trace. -/
  traced : Bool
  /-- What was defined in the frame since it was made. -/
  defined : Bindings

structure Machine where
  frames : Array Frame
  cells : Array Value
  functions : Nat
  output : Text
  sink : Option Sink
  files : Assoc Text Text

/-- Why an evaluation stops without a value. That the steps granted to it ran out is no error
of the program and says nothing about what it does. -/
inductive Halt where
  | error (e : Error)
  | outOfFuel

abbrev EvalM := ExceptT Halt (StateM Machine)

namespace Machine

def empty : Machine := ⟨#[], #[], 0, .empty, none, []⟩

@[inline] def frame? (m : Machine) (f : FrameId) : Option Frame := m.frames[f.index]?

@[inline] def defined? (m : Machine) (f : FrameId) (name : Text) : Option Value :=
  (m.frame? f).bind fun frame => frame.defined[name]?

@[inline] def local? (m : Machine) (s : Scope) (name : Text) : Option Value :=
  match m.defined? s.id name with
  | some v => some v
  | none => s.given.find? name

def lookup (m : Machine) (name : Text) : Scope → Option Value
  | .frame id given none => m.local? (.frame id given none) name
  | .frame id given (some parent) =>
    match m.local? (.frame id given (some parent)) name with
    | some v => some v
    | none => m.lookup name parent

/-- A name means what the innermost frame binds it to, or else what it means around it. -/
theorem lookup_eq (m : Machine) (name : Text) (s : Scope) :
    m.lookup name s = (m.local? s name).or (s.parent.bind (m.lookup name)) := by
  obtain ⟨id, given, parent⟩ := s
  cases parent with
  | none => simp [lookup, Scope.parent]
  | some parent =>
    rw [lookup]
    split
    · rename_i v h
      simp [h]
    · rename_i h
      simp [h, Scope.parent]

def names (m : Machine) (s : Scope) : List Text :=
  let defined := ((m.frame? s.id).map Frame.defined).getD ∅
  (s.given.entries.foldl (fun b p => b.insert p.1 p.2) defined).keys

def define (m : Machine) (s : Scope) (name : Text) (v : Value) : Machine :=
  { m with frames := m.frames.modify s.id.index fun frame =>
      { frame with defined := frame.defined.insert name v } }

def setTraced (m : Machine) (s : Scope) (traced : Bool) : Machine :=
  { m with frames := m.frames.modify s.id.index fun frame => { frame with traced := traced } }

@[inline] def isTraced (m : Machine) (s : Scope) : Bool :=
  m.sink.isSome && ((m.frame? s.id).map Frame.traced).getD false

def newFrame (m : Machine) (parent : Option Scope) (given : Table Text Value) :
    Scope × Machine :=
  let traced := ((parent.bind fun s => m.frame? s.id).map Frame.traced).getD false
  (.frame ⟨m.frames.size⟩ given parent, { m with frames := m.frames.push ⟨traced, ∅⟩ })

def newCell (m : Machine) (v : Value) : CellId × Machine :=
  (⟨m.cells.size⟩, { m with cells := m.cells.push v })

def newFunction (m : Machine) : FunId × Machine :=
  (⟨m.functions⟩, { m with functions := m.functions + 1 })

def cellContent (m : Machine) (c : CellId) : Value := Printer.content m.cells c

def setCell (m : Machine) (c : CellId) (v : Value) : Machine :=
  { m with cells := m.cells.setIfInBounds c.index v }

def write (m : Machine) (t : Text) : Machine := { m with output := m.output ++ t }

def log (m : Machine) (message : Text) : Machine :=
  { m with sink := m.sink.map (Sink.write ⟨.debug, ascii "eval", message⟩) }

def file? (m : Machine) (path : Text) : Option Text := do m.files.find? (← Path.target? path)

def print (m : Machine) (readable : Bool) (v : Value) : Except Error Text :=
  printValue m.cells readable v

end Machine

namespace EvalM

def fail {α : Type} (e : Error) : EvalM α := throw (.error e)

def ofExcept {α : Type} : Except Error α → EvalM α
  | .ok a => pure a
  | .error e => fail e

def readable (v : Value) : EvalM Text := do ofExcept ((← get).print true v)

def newFrame (parent : Option Scope) (given : Table Text Value) : EvalM Scope :=
  modifyGet (·.newFrame parent given)

def newCell (v : Value) : EvalM Value := do
  pure (.cell (← modifyGet (·.newCell v)))

def newFunction (op : Native) : EvalM Value := do
  pure (.native (← modifyGet Machine.newFunction) op)

def newClosure (params : Params) (body : Value) (scope : Option Scope) : EvalM Value := do
  pure (.closure (← modifyGet Machine.newFunction) params body scope)

def define (s : Scope) (name : Text) (v : Value) : EvalM Unit := modify (·.define s name v)

def lookup (s : Scope) (name : Text) : EvalM Value := do
  match (← get).lookup name s with
  | some v => pure v
  | none => fail (.unbound name)

def defineIn (s : Option Scope) (name : Text) (v : Value) : EvalM Unit :=
  match s with
  | some s => define s name v
  | none => fail (.absent .defineScope)

def lookupIn (s : Option Scope) (name : Text) : EvalM Value :=
  match s with
  | some s => lookup s name
  | none => fail (.unbound name)

/-- Logs a message if the scope is traced. Otherwise the message is not even made. -/
@[inline] def trace (s : Scope) (message : EvalM Text) : EvalM Unit := do
  if (← get).isTraced s then
    let t ← message
    modify (·.log t)

end EvalM

end MiniLisp
