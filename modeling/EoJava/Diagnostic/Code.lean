/-!
# Diagnostic codes

Every problem that a compilation can report has a code, and each code belongs to the stage that
reports it. The build command has four codes of its own.
-/

namespace EoJava

/-- How serious a diagnostic is. -/
inductive Severity where
  | error
  | warning
  | note
deriving DecidableEq, Repr

namespace Severity

/-- The name of a severity at the head of a report. -/
def label : Severity → String
  | .error => "error"
  | .warning => "warning"
  | .note => "note"

/-- The number of a severity. -/
def number : Severity → Nat
  | .error => 0
  | .warning => 1
  | .note => 2

/-- Every severity. -/
def all : List Severity := [.error, .warning, .note]

end Severity

/-- The stages of a compilation, in order. -/
inductive Stage where
  | lex
  | parse
  | classify
  | expression
  | emit
deriving DecidableEq, Repr

namespace Stage

/-- The name of a stage. -/
def name : Stage → String
  | .lex => "lex"
  | .parse => "parse"
  | .classify => "classify"
  | .expression => "expression"
  | .emit => "emit"

/-- The name of the errors of a stage. -/
def errorName : Stage → String
  | .lex => "LexError"
  | .parse => "ParseError"
  | .classify => "ClassificationError"
  | .expression => "ExpressionError"
  | .emit => "EmitError"

end Stage

/-- The problems that a compilation can report. -/
inductive Code where
  | duplicateDeclaration
  | invalidInterface
  | duplicateInterface
  | duplicateMember
  | duplicateParameter
  | missingDefault
  | attributeInInterface
  | abstractAttribute
  | mixedMethods
  | abstractMethodInClass
  | undeliverable
  | singleSink
  | namelessCall
  | malformedNumber
  | unavailableSlot
  | mixedIndentation
  | unterminatedString
  | unmatchedUnindent
  | unknownCharacter
  | inconsistentIndentation
  | unknownEscape
  | syntaxError
  | nestingTooDeep
deriving DecidableEq, Repr

namespace Code

/-- Every code. -/
def all : List Code :=
  [.duplicateDeclaration, .invalidInterface, .duplicateInterface, .duplicateMember,
    .duplicateParameter, .missingDefault, .attributeInInterface, .abstractAttribute, .mixedMethods,
    .abstractMethodInClass, .undeliverable, .singleSink, .namelessCall, .malformedNumber,
    .unavailableSlot, .mixedIndentation, .unterminatedString, .unmatchedUnindent,
    .unknownCharacter, .inconsistentIndentation, .unknownEscape, .syntaxError, .nestingTooDeep]

/-- The code as it is shown. -/
def text : Code → String
  | .duplicateDeclaration => "EOCLASS001"
  | .invalidInterface => "EOCLASS002"
  | .duplicateInterface => "EOCLASS003"
  | .duplicateMember => "EOCLASS004"
  | .duplicateParameter => "EOCLASS005"
  | .missingDefault => "EOCLASS006"
  | .attributeInInterface => "EOCLASS007"
  | .abstractAttribute => "EOCLASS008"
  | .mixedMethods => "EOCLASS009"
  | .abstractMethodInClass => "EOCLASS010"
  | .undeliverable => "EOEMIT001"
  | .singleSink => "EOEMIT002"
  | .namelessCall => "EOEXPR001"
  | .malformedNumber => "EOEXPR002"
  | .unavailableSlot => "EOEXPR003"
  | .mixedIndentation => "EOLEX001"
  | .unterminatedString => "EOLEX002"
  | .unmatchedUnindent => "EOLEX003"
  | .unknownCharacter => "EOLEX004"
  | .inconsistentIndentation => "EOLEX005"
  | .unknownEscape => "EOLEX006"
  | .syntaxError => "EOPARSE001"
  | .nestingTooDeep => "EOPARSE002"

/-- The stage that reports a code. -/
def stage : Code → Stage
  | .mixedIndentation | .unterminatedString | .unmatchedUnindent | .unknownCharacter
  | .inconsistentIndentation | .unknownEscape => .lex
  | .syntaxError | .nestingTooDeep => .parse
  | .duplicateDeclaration | .invalidInterface | .duplicateInterface | .duplicateMember
  | .duplicateParameter | .missingDefault | .attributeInInterface | .abstractAttribute
  | .mixedMethods | .abstractMethodInClass => .classify
  | .namelessCall | .malformedNumber | .unavailableSlot => .expression
  | .undeliverable | .singleSink => .emit

/-- The code that is shown as a text. -/
def ofText? (shown : String) : Option Code :=
  all.find? fun code => code.text == shown

/-- Every code is listed. -/
theorem mem_all (code : Code) : code ∈ all := by
  cases code <;> decide

/-- No two codes are shown alike. -/
theorem ofText?_text (code : Code) : ofText? code.text = some code := by
  cases code <;> rfl

end Code

/-- The problems that the build command reports on its own. -/
inductive CommandCode where
  | fileNotFound
  | unreadableFile
  | unwritableOutput
  | failedCompilation
deriving DecidableEq, Repr

namespace CommandCode

/-- Every code of the build command. -/
def all : List CommandCode :=
  [.fileNotFound, .unreadableFile, .unwritableOutput, .failedCompilation]

/-- The code as it is shown. -/
def text : CommandCode → String
  | .fileNotFound => "EOCLI001"
  | .unreadableFile => "EOCLI002"
  | .unwritableOutput => "EOCLI003"
  | .failedCompilation => "EOCLI004"

/-- The code that is shown as a text. -/
def ofText? (shown : String) : Option CommandCode :=
  all.find? fun code => code.text == shown

/-- Every code is listed. -/
theorem mem_all (code : CommandCode) : code ∈ all := by
  cases code <;> decide

end CommandCode

end EoJava
