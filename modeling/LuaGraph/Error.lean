import LuaGraph.Kind
import LuaGraph.Options

/-!
# Errors

Every failure of the library is an `Error`. Its causes are values; `Error.message` is the one
place where they are put into words. The constructors named `stated` carry a cause that somebody
else has put into words already, such as a checker that a caller supplies.

`Error.message` is what is displayed of an `Error`, and `isRefusal` is `is_refusal`. The causes are
all that `syntax`, `runtime`, `invalid_key` and `custom` are called with.

Out of scope: failures of readers and writers, but for bytes that are no text and a slice that is
full.
-/

namespace LuaGraph

/-- A failure of reading or writing bytes. -/
inductive TransferFault
  /-- The bytes read are no text. -/
  | notText
  /-- The buffer written to is full. -/
  | bufferFull
  | stated (message : String)
deriving DecidableEq, Repr

/-- Why a text is not a chunk. `near` is the text of the offending token or character. -/
inductive GrammarFault
  | unexpected (near : String)
  | expected (what near : String)
  | noName (near : String)
  | noStatement (near : String)
  | noTarget
  | parameters (near : String)
  | unfinishedLong
  | unfinishedString
  | malformedNumber
  | malformedNumeral (numeral : String)
  | noHexDigit
  | noBrace
  | codePointTooLarge
  | decimalTooLarge
  | unknownEscape (c : Char)
  | invalidText
  | tooManyLevels
  | tooManyConstants (limit : Nat)
  | stated (message : String)
deriving DecidableEq, Repr

/-- Why a value is no key. -/
inductive KeyFault
  | nil
  | nan
  | stated (message : String)
deriving DecidableEq, Repr

/-- Where a number is needed. -/
inductive Role
  | forStart
  | forLimit
  | forStep
  | operand
deriving DecidableEq, Repr

/-- Why a chunk stops while it runs. -/
inductive RunFault
  | index (kind : Kind)
  | call (kind : Kind)
  | negate (kind : Kind)
  | notANumber (role : Role) (kind : Kind)
  | badKey (cause : KeyFault)
  | stepZero
  /-- A loop whose counter no longer moves goes on without failing. -/
  | endless
  | assignEnvironment
  | assignOther
  | stated (message : String)
deriving DecidableEq, Repr

/-- A failure of the library. -/
inductive Error
  | transfer (cause : TransferFault)
  /-- The text is no chunk, or exceeds a ceiling, at a line and column counted from one. -/
  | grammar (line column : Nat) (cause : GrammarFault)
  | run (cause : RunFault)
  | notATree
  | tooLarge (limit : Nat)
  | tooDeep (limit : Nat)
  | invalidKey (cause : KeyFault)
  /-- The text was rejected in the last form as well. -/
  | unrecoverable (form : Form) (reason : String)
  | custom (message : String)
deriving DecidableEq, Repr

namespace TransferFault

/-- The words for a fault. -/
def message : TransferFault → String
  | notText => "stream did not contain valid UTF-8"
  | bufferFull => "failed to write whole buffer"
  | stated m => m

end TransferFault

namespace GrammarFault

/-- The words for a fault. -/
def message : GrammarFault → String
  | unexpected near => "unexpected symbol near '" ++ near ++ "'"
  | expected what near => "'" ++ what ++ "' expected near '" ++ near ++ "'"
  | noName near => "<name> expected near '" ++ near ++ "'"
  | noStatement near => "syntax error near '" ++ near ++ "'"
  | noTarget => "syntax error near '='"
  | parameters near => "function parameters are not supported near '" ++ near ++ "'"
  | unfinishedLong => "unfinished long string/comment"
  | unfinishedString => "unfinished string"
  | malformedNumber => "malformed number"
  | malformedNumeral numeral => "malformed number near '" ++ numeral ++ "'"
  | noHexDigit => "hexadecimal digit expected"
  | noBrace => "missing '\x7b' in \\u\x7bxxxx\x7d"
  | codePointTooLarge => "UTF-8 value too large"
  | decimalTooLarge => "decimal escape too large"
  | unknownEscape c => "invalid escape sequence '\\" ++ String.singleton c ++ "'"
  | invalidText => "string literal is not valid UTF-8"
  | tooManyLevels => "chunk has too many syntax levels"
  | tooManyConstants limit => "too many constants (limit is " ++ toString limit ++ ")"
  | stated m => m

end GrammarFault

namespace KeyFault

/-- The words for a fault. -/
def message : KeyFault → String
  | nil => "nil"
  | nan => "NaN"
  | stated m => m

/-- The words for an error with this fault. -/
def sentence (c : KeyFault) : String := "invalid table key: " ++ c.message

end KeyFault

namespace Role

/-- The words for a role. -/
def name : Role → String
  | forStart => "'for' initial value"
  | forLimit => "'for' limit"
  | forStep => "'for' step"
  | operand => "arithmetic operand"

end Role

namespace RunFault

/-- The words for a fault. -/
def message : RunFault → String
  | index kind => "attempt to index a " ++ kind.name ++ " value"
  | call kind => "attempt to call a " ++ kind.name ++ " value"
  | negate kind => "attempt to perform arithmetic on a " ++ kind.name ++ " value"
  | notANumber role kind => role.name ++ " must be a number, got " ++ kind.name
  | badKey c => c.sentence
  | stepZero => "'for' step is zero"
  | endless => "'for' loop never ends"
  | assignEnvironment => "assigning to _ENV is not supported"
  | assignOther => "cannot assign to this expression"
  | stated m => m

end RunFault

namespace Error

/-- **The words for an error.** -/
def message : Error → String
  | transfer c => "IO error: " ++ c.message
  | grammar line column c =>
    "Syntax error at line " ++ toString line ++ ", column " ++ toString column ++ ": " ++ c.message
  | run c => "Runtime error: " ++ c.message
  | notATree => "value is not a tree: a table is reachable more than once"
  | tooLarge limit => "rendered text exceeds " ++ toString limit ++ " bytes"
  | tooDeep limit => "tables nested deeper than " ++ toString limit ++ " levels"
  | invalidKey c => c.sentence
  | unrecoverable form reason =>
    "persisted text is not loadable even with the " ++ form.name ++ " strategy: " ++ reason
  | custom m => "Error: " ++ m

/-- The error is a refusal of the writer: the value cannot be written as asked. -/
def isRefusal : Error → Bool
  | notATree => true
  | tooLarge _ => true
  | tooDeep _ => true
  | _ => false

end Error

end LuaGraph
