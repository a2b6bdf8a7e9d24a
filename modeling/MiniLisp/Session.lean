import MiniLisp.Register

/-! A session has two frames of its own: the core frame with the natives of the language, and below
it the global frame, where programs define their names. -/
namespace MiniLisp

open EvalM (fail)

def coreNatives : List Native :=
  [.throw,
   .data .add, .data .sub, .data .mul, .data .div, .data .equal,
   .data .greater, .data .greaterEqual, .data .less, .data .lessEqual,
   .data .cons, .data .concat, .data .list, .data .isList, .data .isEmpty, .data .count,
   .data .nth, .data .first, .data .rest,
   .call .apply, .call .map,
   .data .isMap, .data .hashMap, .data .assoc, .data .dissoc, .data .get, .data .contains,
   .data .keys, .data .vals,
   .data .isSequential, .data .isVector, .data .vector, .data .vec,
   .data .symbol, .data .keyword,
   .data .isNil, .data .isSymbol, .data .isKeyword, .data .isTrue, .data .isFalse,
   .data .readString, .slurp,
   .text .prStr, .text .str, .text .prn, .text .println,
   .cell .create, .data .isCell, .cell .deref, .cell .reset, .call .swap]

/-- Binds the natives in a frame, over whatever it bound to their names before. -/
def installCore : Option Scope → EvalM Unit
  | none => fail (.absent .installScope)
  | some scope => coreNatives.forM fun op => do
    let f ← EvalM.newFunction op
    EvalM.define scope op.name f

def notDefinition : Text := ascii "(def! not (fn* (a) (if a false true)))"

def loadFileDefinition : Text :=
  ascii "(def! load-file (fn* (f) (eval (read-string (str \"(do \" (slurp f) \"\\nnil)\")))))"

structure Config where
  /-- The arguments programs find under `*ARGV*`. -/
  arguments : List Text
  traceBoot : Bool
  extensions : List Extension

def Config.plain : Config := ⟨[], false, []⟩

/-- A core frame, traced from the moment it is complete. -/
def makeCore (fuel : Nat) (traceBoot : Bool) : EvalM Scope := do
  let core ← EvalM.newFrame none .empty
  installCore (some core)
  modify (·.setTraced core traceBoot)
  discard (evalSource fuel notDefinition (some core))
  modify (·.setTraced core true)
  pure core

structure Session where
  core : Scope
  global : Scope

/-- The frames of a session. The first extension that is refused ends the attempt. -/
def makeSession (fuel : Nat) (config : Config) : EvalM Session := do
  let core ← makeCore fuel config.traceBoot
  let global ← EvalM.newFrame (some core) .empty
  modify (·.setTraced global config.traceBoot)
  let evaluator := Native.evalIn global
  Register.builtin global evaluator.name (some evaluator)
  discard (evalSource fuel loadFileDefinition (some global))
  Register.value global (ascii "*ARGV*") (.list (config.arguments.map Value.str).toArray)
  config.extensions.forM fun e => register e (some global)
  modify (·.setTraced global true)
  pure ⟨core, global⟩

end MiniLisp
