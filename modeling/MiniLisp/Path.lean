import MiniLisp.Text

/-! The files a program can read lie in the current directory. Steps into that directory itself and
repeated slashes lead nowhere new, so what counts is the name left without them. -/
namespace MiniLisp

namespace Path

def limit : Nat := 4096

/-- What is left of a path behind a slash when steps that stay in place are left out. -/
def behindSlash : List UInt8 → List UInt8
  | b :: c :: rest =>
    if b = Byte.slash then behindSlash (c :: rest)
    else if b = Byte.dot ∧ c = Byte.slash then behindSlash (c :: rest)
    else b :: c :: rest
  | [b] => if b = Byte.slash then [] else [b]
  | [] => []

/-- The part of a path that does not stay in place. A path that begins with a slash does not
begin in the current directory, and is left as it is. -/
def name : List UInt8 → List UInt8
  | b :: c :: rest => if b = Byte.dot ∧ c = Byte.slash then behindSlash rest else b :: c :: rest
  | path => path

def target? (path : Text) : Option Text :=
  let path := path.untilNul
  if path.size < limit then some (.ofBytes (name path.bytes)) else none

end Path

end MiniLisp
