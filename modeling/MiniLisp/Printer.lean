import MiniLisp.Error

/-! Readable text quotes strings so that data reads back; human text shows their bytes as they are.
A cell met again inside its own content prints as an ellipsis; one met twice side by side is printed
in full both times. -/
namespace MiniLisp

namespace Printer

def escapeLetter? (b : UInt8) : Option UInt8 :=
  if b = Byte.backslash ∨ b = Byte.quote then some b
  else if b = Byte.newline then some 110
  else if b = Byte.tab then some 116
  else if b = Byte.carriageReturn then some 114
  else none

def escaped (b : UInt8) : List UInt8 :=
  match escapeLetter? b with
  | some c => [Byte.backslash, c]
  | none => [b]

def appendEscaped (out : Text) (b : UInt8) : Text :=
  match escapeLetter? b with
  | some c => (out.push Byte.backslash).push c
  | none => out.push b

def appendQuoted (out t : Text) : Text :=
  (t.fold appendEscaped (out.push Byte.quote)).push Byte.quote

theorem bytes_appendQuoted (out t : Text) :
    (appendQuoted out t).bytes =
      out.bytes ++ Byte.quote :: (t.bytes.flatMap escaped ++ [Byte.quote]) := by
  have each (bs : List UInt8) (out : Text) :
      (bs.foldl appendEscaped out).bytes = out.bytes ++ bs.flatMap escaped := by
    induction bs generalizing out with
    | nil => simp
    | cons b bs ih =>
      rw [List.foldl_cons, ih, List.flatMap_cons, ← List.append_assoc]
      congr 1
      rw [appendEscaped, escaped]
      split <;> simp
  rw [appendQuoted, Text.bytes_push, Text.fold_eq, each, Text.bytes_push]
  simp

def appendString (readable : Bool) (out t : Text) : Text :=
  if readable then appendQuoted out t else out ++ t

def appendKeyword (out name : Text) : Text := out.push Byte.colon ++ name

def appendKey (readable : Bool) (out : Text) : Key → Text
  | .string t => appendString readable out t
  | .keyword name => appendKeyword out name

abbrev CellPrinter := Text → CellId → Except Error Text

mutual

def appendValue (readable : Bool) (cell : CellPrinter) (out : Text) : Value → Except Error Text
  | .null => .error (.absent .printed)
  | .nil => .ok (out ++ ascii "nil")
  | .bool b => .ok (out ++ if b then ascii "true" else ascii "false")
  | .int n => .ok (out ++ Text.ofInt n.toInt)
  | .str t => .ok (appendString readable out t)
  | .sym name => .ok (out ++ name)
  | .kw name => .ok (appendKeyword out name)
  | .list ⟨xs⟩ => do
    let out ← appendItems readable cell (ascii " ") (out.push Bracket.round.opener) xs
    .ok (out.push Bracket.round.closer)
  | .vec ⟨xs⟩ => do
    let out ← appendItems readable cell (ascii " ") (out.push Bracket.square.opener) xs
    .ok (out.push Bracket.square.closer)
  | .map ⟨order, ⟨vs⟩⟩ => do
    let out ← appendEntries readable cell .empty (out.push Bracket.curly.opener) order.toList vs
    .ok (out.push Bracket.curly.closer)
  | .cell c => cell out c
  | .native _ op => .ok (out ++ ascii "#<function:" ++ op.name ++ ascii ">")
  | .closure _ _ _ _ => .ok (out ++ ascii "#<closure>")

def appendItems (readable : Bool) (cell : CellPrinter) (separator out : Text) :
    List Value → Except Error Text
  | [] => .ok out
  | [v] => appendValue readable cell out v
  | v :: vs => do
    let out ← appendValue readable cell out v
    appendItems readable cell separator (out ++ separator) vs

def appendEntries (readable : Bool) (cell : CellPrinter) (lead out : Text) :
    List Key → List Value → Except Error Text
  | k :: ks, v :: vs => do
    let out := (appendKey readable (out ++ lead) k).push Byte.space
    let out ← appendValue readable cell out v
    appendEntries readable cell (ascii " ") out ks vs
  | _, _ => .ok out

end

def content (cells : Array Value) (c : CellId) : Value := cells[c.index]?.getD .null

def ellipsis : Text := ascii "(atom ...)"

/-- A cell inside the contents of the `entered` ones. Every level enters one more of the
finitely many cells, so their number bounds the depth and the limit is never felt. -/
def appendCell (cells : Array Value) (readable : Bool) : Nat → List CellId → CellPrinter
  | 0, _, out, _ => .ok (out ++ ellipsis)
  | depth + 1, entered, out, c =>
    if c ∈ entered then .ok (out ++ ellipsis)
    else do
      let out ← appendValue readable (appendCell cells readable depth (c :: entered))
        (out ++ ascii "(atom ") (content cells c)
      .ok (out.push Bracket.round.closer)

end Printer

def printValue (cells : Array Value) (readable : Bool) (v : Value) : Except Error Text :=
  Printer.appendValue readable (Printer.appendCell cells readable (cells.size + 1) []) .empty v

def Printer.room (separator : Text) (vs : List Value) : Nat :=
  vs.foldl (fun n v => match v with
    | .str t => n + t.size + separator.size
    | _ => n + separator.size) 0

def printAll (cells : Array Value) (readable : Bool) (separator : Text) (vs : List Value) :
    Except Error Text :=
  Printer.appendItems readable (Printer.appendCell cells readable (cells.size + 1) []) separator
    (.emptyFor (Printer.room separator vs)) vs

end MiniLisp
