import MiniLisp.Reader.Token

/-! The reader is a pushdown automaton over bytes. One byte makes one step, so what has been read is
a fold over the text. Definite faults stop the automaton at the byte that makes them certain; that
more text is needed shows only where the text ends. -/
namespace MiniLisp

namespace Reader

/-- The kind of text the next byte belongs to. Collected bytes are kept latest first. -/
inductive Mode where
  | between
  | comment
  | token (start : Position) (bytes : List UInt8)
  | string (bytes : List UInt8)
  | escape (bytes : List UInt8)
  deriving DecidableEq, Repr

inductive Pending where
  /-- An open bracket, the position behind it and the forms inside so far, latest first. -/
  | bracket (b : Bracket) (start : Position) (items : List Value)
  | deref

structure State where
  position : Position
  mode : Mode
  stack : List Pending
  forms : List Value

def State.start : State := ⟨.start, .between, [], []⟩

def derefOf (v : Value) : Value := .list #[.sym (ascii "deref"), v]

/-- Hands a finished form to the innermost construct. A waiting dereferencing sign is finished
by it and hands the result on. -/
def deliver (v : Value) (forms : List Value) : List Pending → List Pending × List Value
  | [] => ([], v :: forms)
  | .bracket b start items :: stack => (.bracket b start (v :: items) :: stack, forms)
  | .deref :: stack => deliver (derefOf v) forms stack

def State.emit (s : State) (v : Value) : State :=
  let (stack, forms) := deliver v s.forms s.stack
  { s with mode := .between, stack := stack, forms := forms }

def mapKey (v : Value) : Except ReadFault Key :=
  match Key.ofValue? v with
  | some k => .ok k
  | none => .error .badMapKey

/-- The value of a finished bracket. That forms do not pair up is reported before a bad key. A
key that comes again takes the later value at its first place. -/
def enclosed (b : Bracket) (items : List Value) : Except ReadFault Value :=
  match b with
  | .round => .ok (.list items.toArray)
  | .square => .ok (.vec items.toArray)
  | .curly =>
    if items.length % 2 = 0 then
      (Value.pairUp mapKey items []).map fun pairs => .map (.ofPairs pairs)
    else .error .oddMap

def State.close (s : State) (b : Bracket) : Except ReadError State :=
  match s.stack with
  | .bracket b' start items :: stack =>
    if b' = b then
      match enclosed b items.reverse with
      | .ok v => .ok ({ s with stack := stack }.emit v)
      | .error fault => .error ⟨start, fault⟩
    else .error ⟨s.position, .unexpectedCloser b⟩
  | _ => .error ⟨s.position, .unexpectedCloser b⟩

def unescape? (b : UInt8) : Option UInt8 :=
  if b = 110 then some Byte.newline
  else if b = 116 then some Byte.tab
  else if b = 114 then some Byte.carriageReturn
  else if b = Byte.quote ∨ b = Byte.backslash then some b
  else none

def State.endToken (s : State) : Except ReadError State :=
  match s.mode with
  | .token start bytes =>
    match Token.value bytes.reverse with
    | .ok v => .ok (s.emit v)
    | .error fault => .error ⟨start, fault⟩
  | _ => .ok s

def State.open (s : State) (b : UInt8) : Except ReadError State :=
  let s' := { s with position := s.position.advance b }
  if Token.isBlank b then .ok s'
  else if b = Byte.semicolon then .ok { s' with mode := .comment }
  else if b = Byte.quote then .ok { s' with mode := .string [] }
  else if b = Byte.atSign then .ok { s' with stack := .deref :: s.stack }
  else match Bracket.opened? b with
    | some k => .ok { s' with stack := .bracket k s'.position [] :: s.stack }
    | none => match Bracket.closed? b with
      | some k => s'.close k
      | none => .ok { s' with mode := .token s.position [b] }

def State.consume (s : State) (b : UInt8) : Except ReadError State :=
  let s' := { s with position := s.position.advance b }
  match s.mode with
  | .between => s.open b
  | .comment => .ok { s' with mode := if b = Byte.newline then .between else .comment }
  | .token start bytes => .ok { s' with mode := .token start (b :: bytes) }
  | .string bytes =>
    if b = Byte.quote then .ok (s'.emit (.str (.ofBytes bytes.reverse)))
    else if b = Byte.backslash then .ok { s' with mode := .escape bytes }
    else .ok { s' with mode := .string (b :: bytes) }
  | .escape bytes =>
    match unescape? b with
    | some c => .ok { s' with mode := .string (c :: bytes) }
    | none => .error ⟨s'.position, .unknownEscape⟩

/-- A delimiter ends a token before it is taken itself. -/
def State.settle (s : State) (b : UInt8) : Except ReadError State :=
  if Token.isDelimiter b then s.endToken else .ok s

def State.step (s : State) (b : UInt8) : Except ReadError State := do
  let s ← s.settle b
  s.consume b

def State.finish (s : State) : Except ReadError (List Value) :=
  match s.mode with
  | .string _ => .error ⟨s.position, .unterminatedString⟩
  | .escape _ => .error ⟨s.position, .unterminatedEscape⟩
  | _ => do
    let s ← s.endToken
    match s.stack with
    | [] => .ok s.forms.reverse
    | .bracket b _ _ :: _ => .error ⟨s.position, .unterminated b⟩
    | .deref :: _ => .error ⟨s.position, .endOfInput⟩

/-- Runs until the first form is complete, and returns it with the text behind it. A token is
complete at the delimiter that follows, which is left in the rest. -/
def State.firstForm (s : State) :
    List UInt8 → Except ReadError (Option (Value × List UInt8))
  | [] => do
    let forms ← s.finish
    pure (forms.head?.map (·, []))
  | b :: rest => do
    let s ← s.settle b
    match s.forms with
    | v :: _ => pure (some (v, b :: rest))
    | [] => (← s.consume b).firstForm rest

end Reader

def Reader.State.readOn (s : State) (t : Text) : Except ReadError State := t.bytes.foldlM step s

def readAll (t : Text) : Except ReadError (List Value) := do
  let s ← Reader.State.start.readOn t
  s.finish

/-- The first form of a text, if it has one. What follows that form is not looked at. -/
def readFirst (t : Text) : Except ReadError (Option Value) := do
  let first ← Reader.State.start.firstForm t.bytes
  pure (first.map Prod.fst)

/-- A text that does not lack a form, though it may be refused. -/
structure FormText where
  text : Text
  formed : readFirst text ≠ .ok none
  deriving DecidableEq, Repr

def FormText.read (t : FormText) : Except ReadError Value :=
  match h : readFirst t.text with
  | .ok (some form) => .ok form
  | .ok none => absurd h t.formed
  | .error e => .error e

/-- Reading a text in two pieces is reading it at once. -/
theorem Reader.State.readOn_append (s : State) (t u : Text) :
    s.readOn (t ++ u) = s.readOn t >>= (·.readOn u) := by
  simp only [readOn, Text.bytes_append, List.foldlM_append]

end MiniLisp
