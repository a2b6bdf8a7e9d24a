import MiniLisp.Error

/-! Asking a value for a part it does not have is an error that names who asked. Natives also say
which kind they got instead, and an absent value has no kind to report. -/
namespace MiniLisp

namespace Value

def mismatch (who : Text) (wanted : Shape) (v : Value) : Error :=
  match v.kind? with
  | some k => .mismatch who wanted (some k)
  | none => .absent .value

def kind (v : Value) : Except Error Kind :=
  match v.kind? with
  | some k => .ok k
  | none => .error (.absent .value)

def integerArg (who : Text) : Value → Except Error Int64
  | int n => .ok n
  | v => .error (v.mismatch who (.kind .integer))

def textArg (who : Text) : Value → Except Error Text
  | str t => .ok t
  | v => .error (v.mismatch who (.kind .string))

def itemsArg (who : Text) : Value → Except Error (Array Value)
  | list xs => .ok xs
  | vec xs => .ok xs
  | v => .error (v.mismatch who .sequence)

def tableArg (who : Text) : Value → Except Error (Table Key Value)
  | map t => .ok t
  | v => .error (v.mismatch who (.kind .map))

def cellArg (who : Text) : Value → Except Error CellId
  | cell c => .ok c
  | v => .error (v.mismatch who (.kind .cell))

def functionArg (who : Text) (v : Value) : Except Error Value :=
  if v.isFunction then .ok v else .error (v.mismatch who .function)

def keyArg (who : Text) (v : Value) : Except Error Key :=
  match Key.ofValue? v with
  | some k => .ok k
  | none => .error (.badKey who)

def booleanValue : Value → Except Error Bool
  | bool b => .ok b
  | _ => .error (.mismatch (ascii "boolean_value") (.kind .boolean) none)

def integerValue : Value → Except Error Int64
  | int n => .ok n
  | _ => .error (.mismatch (ascii "integer_value") (.kind .integer) none)

def stringValue : Value → Except Error Text
  | str t => .ok t
  | _ => .error (.mismatch (ascii "string_value") (.kind .string) none)

def symbolName : Value → Except Error Text
  | sym t => .ok t
  | _ => .error (.mismatch (ascii "symbol_name") (.kind .symbol) none)

def keywordName : Value → Except Error Text
  | kw t => .ok t
  | _ => .error (.mismatch (ascii "keyword_name") (.kind .keyword) none)

def sequenceItems (v : Value) : Except Error (Array Value) :=
  match v.items? with
  | some xs => .ok xs
  | none => .error (.mismatch (ascii "sequence_items") .sequence none)

def mapEntries : Value → Except Error (Table Key Value)
  | map t => .ok t
  | _ => .error (.mismatch (ascii "map_entries") (.kind .map) none)

def nativeName : Value → Except Error Text
  | native _ op => .ok op.name
  | _ => .error (.mismatch (ascii "primitive_name") (.kind .native) none)

def nativeFunction : Value → Except Error Native
  | native _ op => .ok op
  | _ => .error (.mismatch (ascii "primitive_function") (.kind .native) none)

def closureParams : Value → Except Error (List Text)
  | closure _ params _ _ => .ok params.names
  | _ => .error (.mismatch (ascii "closure_params") (.kind .closure) none)

def closureBody : Value → Except Error Value
  | closure _ _ body _ => .ok body
  | _ => .error (.mismatch (ascii "closure_body") (.kind .closure) none)

def closureScope : Value → Except Error (Option Scope)
  | closure _ _ _ scope => .ok scope
  | _ => .error (.mismatch (ascii "closure_env") (.kind .closure) none)

def cellOf (who : Text) : Value → Except Error CellId
  | cell c => .ok c
  | _ => .error (.mismatch who (.kind .cell) none)

end Value

end MiniLisp
