import MiniLisp.Kind
import MiniLisp.Reader.Fault

/-! Every way in which reading, evaluating or preparing an environment can fail, by cause. The class
and the wording of an error are functions of its cause. -/
namespace MiniLisp

inductive ErrorClass where
  | parse | user | type | name | index | io | eval
  deriving DecidableEq, Repr

inductive Absence where
  | value | printed | expression | scope | defineScope | installScope | registrarScope
  deriving DecidableEq, Repr

inductive FormFault where
  | defineShape | defineName
  | letShape | letBindings | letPairs | letName
  | ifShape
  | fnShape | fnParams | fnParam
  deriving DecidableEq, Repr

inductive Registered where
  | builtin | value
  deriving DecidableEq, Repr

inductive RegisterFault where
  | emptyName (what : Registered)
  | taken (what : Registered) (name : Text)
  | emptyFunction
  | absentValue
  deriving DecidableEq, Repr

inductive Error where
  | read (e : ReadError)
  /-- Raised by a program with a value of its choice, which prints as the message. -/
  | thrown (payload : Value) (message : Text)
  | unbound (name : Text)
  | arity (who : Text) (expected got : Nat)
  | arityAtLeast (who : Text) (least got : Nat)
  /-- An argument of the wrong kind. Accessors of single values do not say what they got. -/
  | mismatch (who : Text) (wanted : Shape) (got : Option Kind)
  | badKey (who : Text)
  | oddPairs (who : Text)
  | notApplicable (kind : Kind) (written : Text)
  | overflow (who : Text)
  | divisionByZero
  | indexOutOfRange
  | noFunction
  | cannotOpen (path : Text)
  | absent (what : Absence)
  | form (fault : FormFault)
  | register (fault : RegisterFault)

def Absence.message : Absence → Text
  | value => ascii "null value"
  | printed => ascii "print_str: null value"
  | expression => ascii "eval: null expression"
  | scope => ascii "eval: null environment"
  | defineScope => ascii "define: null environment"
  | installScope => ascii "install_core_builtins: null environment"
  | registrarScope => ascii "registrar: null global environment"

namespace FormFault

def message : FormFault → Text
  | defineShape => ascii "def!: expected symbol and expression"
  | defineName => ascii "def!: first argument must be a symbol"
  | letShape => ascii "let*: expected binding list and body"
  | letBindings => ascii "let*: bindings must be a list or vector"
  | letPairs => ascii "let*: bindings need an even number of forms"
  | letName => ascii "let*: binding name must be a symbol"
  | ifShape => ascii "if: expected 2 or 3 arguments"
  | fnShape => ascii "fn*: expected parameter list and one body expression"
  | fnParams => ascii "fn*: parameter list must be a list or vector"
  | fnParam => ascii "fn*: parameters must be symbols"

/-- A form with the wrong number of parts is an evaluation error, a part of the wrong kind a
type error. -/
def errorClass : FormFault → ErrorClass
  | defineShape | letShape | letPairs | ifShape | fnShape => .eval
  | defineName | letBindings | letName | fnParams | fnParam => .type

end FormFault

def Registered.text : Registered → Text
  | builtin => ascii "registrar.register_builtin"
  | value => ascii "registrar.register_value"

def RegisterFault.message : RegisterFault → Text
  | emptyName what => what.text ++ ascii ": name must not be empty"
  | taken what name => what.text ++ ascii ": symbol already defined: " ++ name
  | emptyFunction => Registered.builtin.text ++ ascii ": function must not be empty"
  | absentValue => Registered.value.text ++ ascii ": bound value must not be null"

namespace Error

def errorClass : Error → ErrorClass
  | read _ => .parse
  | thrown _ _ => .user
  | unbound _ => .name
  | arity _ _ _ | arityAtLeast _ _ _ | mismatch _ _ _ | badKey _ | oddPairs _
  | notApplicable _ _ => .type
  | indexOutOfRange | noFunction => .index
  | cannotOpen _ => .io
  | form fault => fault.errorClass
  | overflow _ | divisionByZero | absent _ | register _ => .eval

def wording : Error → Text
  | read e => e.message
  | thrown _ message => message
  | unbound name => ascii "'" ++ name ++ ascii "' not found"
  | arity who expected got =>
    who ++ ascii ": expected " ++ Text.ofNat expected ++ ascii " arguments, got " ++ Text.ofNat got
  | arityAtLeast who least got =>
    who ++ ascii ": expected at least " ++ Text.ofNat least ++ ascii " arguments, got " ++
      Text.ofNat got
  | mismatch who wanted none => who ++ ascii ": expected " ++ wanted.name
  | mismatch who wanted (some got) =>
    who ++ ascii ": expected " ++ wanted.name ++ ascii ", got " ++ got.name
  | badKey who => who ++ ascii ": expected key as string or keyword"
  | oddPairs who => who ++ ascii ": expected an even number of key/value arguments"
  | notApplicable kind written => ascii "cannot apply " ++ kind.name ++ ascii ": " ++ written
  | overflow who => who ++ ascii ": integer overflow"
  | divisionByZero => ascii "/: division by zero"
  | indexOutOfRange => ascii "nth: index out of range"
  | noFunction => ascii "call: no function"
  | cannotOpen path => ascii "slurp: failed to open file: " ++ path
  | absent a => a.message
  | form fault => fault.message
  | register fault => fault.message

/-- Messages are zero-terminated: what follows a zero byte in the wording is lost. -/
def message (e : Error) : Text := Text.untilNul e.wording

def incomplete : Error → Bool
  | read e => e.incomplete
  | _ => false

end Error

end MiniLisp
