import EoJava.Diagnostic.Code
import EoJava.Diagnostic.Scalar
import EoJava.Text.Indent
import EoJava.Text.Units

/-!
# Problems

What can be wrong with a source, each problem with the facts its message tells. `Problem.code` says
which entry of the catalog describes it and `Problem.arguments` fills that entry's templates.
-/

namespace EoJava

/-- The list of slots that a missing default is reported in. -/
inductive SlotOwner where
  | constructor (declaration : String)
  | method (declaration name : String)
deriving DecidableEq, Repr

namespace SlotOwner

/-- The owner of a list of slots as messages name it. -/
def describe : SlotOwner → String
  | .constructor declaration => "the constructor of '" ++ declaration ++ "'"
  | .method declaration name => "'" ++ declaration ++ "." ++ name ++ "'"

end SlotOwner

/-- A problem with a source or with the delivery of its units. -/
inductive Problem where
  /-- Leading whitespace that starts in one style goes on in the other. -/
  | mixedIndentation (expected : Text.IndentStyle)
  /-- A line is indented in the style that the file does not use. -/
  | inconsistentIndentation (expected found : Text.IndentStyle)
  /-- A line is indented to none of the open widths, given outermost first. -/
  | unmatchedUnindent (width : Nat) (levels : List Nat)
  /-- A string does not close on its line. -/
  | unterminatedString
  /-- A backslash in a string stands before a character that no escape has. -/
  | unknownEscape (escaped : Char)
  /-- A character starts no lexeme. -/
  | unknownCharacter (found : Char)
  /-- The lexemes follow no rule of the grammar. -/
  | syntaxError (detail : String)
  /-- More parentheses are open than the grammar allows. -/
  | nestingTooDeep (limit : Nat)
  /-- A declaration has the name of an earlier one. -/
  | duplicateDeclaration (name : String) (firstLine : Int)
  /-- A declaration lists an interface whose name is no identifier. -/
  | invalidInterface (name interface : String)
  /-- A declaration lists an interface twice. -/
  | duplicateInterface (name interface : String)
  /-- A declaration has two members of one name. -/
  | duplicateMember (name member : String)
  /-- A method has two parameters of one name. -/
  | duplicateParameter (name method parameter : String)
  /-- A slot without a default follows one with a default. -/
  | missingDefault (slot defaulted : String) (owner : SlotOwner)
  /-- An interface has an attribute. -/
  | attributeInInterface (name member typeName : String)
  /-- A class has an attribute that is not stored. -/
  | abstractAttribute (name member typeName : String)
  /-- A declaration has a method without a body and one with a body. -/
  | mixedMethods (name abstract concrete : String)
  /-- A declaration has a method without a body and a stored attribute. -/
  | abstractMethodInClass (name abstract stored : String)
  /-- A call has no name. -/
  | namelessCall
  /-- A number is no numeral, or a whole number that no integer type holds. -/
  | malformedNumber (text : String)
  /-- A default refers to a slot that has no value where the default is computed. -/
  | unavailableSlot (name slot : String)
  /-- The output of a unit refused it. -/
  | undeliverable (name reason : String)
  /-- Several units are to go to one sink. -/
  | singleSink (count : Nat)
deriving DecidableEq, Repr

namespace Problem

/-- The code of a problem. -/
def code : Problem → Code
  | mixedIndentation .. => .mixedIndentation
  | inconsistentIndentation .. => .inconsistentIndentation
  | unmatchedUnindent .. => .unmatchedUnindent
  | unterminatedString => .unterminatedString
  | unknownEscape .. => .unknownEscape
  | unknownCharacter .. => .unknownCharacter
  | syntaxError .. => .syntaxError
  | nestingTooDeep .. => .nestingTooDeep
  | duplicateDeclaration .. => .duplicateDeclaration
  | invalidInterface .. => .invalidInterface
  | duplicateInterface .. => .duplicateInterface
  | duplicateMember .. => .duplicateMember
  | duplicateParameter .. => .duplicateParameter
  | missingDefault .. => .missingDefault
  | attributeInInterface .. => .attributeInInterface
  | abstractAttribute .. => .abstractAttribute
  | mixedMethods .. => .mixedMethods
  | abstractMethodInClass .. => .abstractMethodInClass
  | namelessCall => .namelessCall
  | malformedNumber .. => .malformedNumber
  | unavailableSlot .. => .unavailableSlot
  | undeliverable .. => .undeliverable
  | singleSink .. => .singleSink

/-- The arguments that a problem fills its templates with. A problem that tells no facts has no
arguments at all. -/
def arguments : Problem → Option Arguments
  | mixedIndentation expected => some [("expected", .text expected.name)]
  | inconsistentIndentation expected found =>
    some [("expected", .text expected.name), ("found", .text found.name)]
  | unmatchedUnindent width levels =>
    some [("validLevels", .text (", ".intercalate (levels.map toString))), ("width", .int width)]
  | unterminatedString => none
  | unknownEscape escaped =>
    some [("sequence", .text (String.ofList ['\\', Text.firstUnit escaped]))]
  | unknownCharacter found => some [("char", .text (String.singleton (Text.firstUnit found)))]
  | syntaxError detail => some [("detail", .text detail)]
  | nestingTooDeep limit => some [("limit", .int limit)]
  | duplicateDeclaration name firstLine => some [("line", .int firstLine), ("name", .text name)]
  | invalidInterface name interface | duplicateInterface name interface =>
    some [("interface", .text interface), ("name", .text name)]
  | duplicateMember name member => some [("member", .text member), ("name", .text name)]
  | duplicateParameter name method parameter =>
    some [("method", .text method), ("name", .text name), ("param", .text parameter)]
  | missingDefault slot defaulted owner =>
    some [("defaulted", .text defaulted), ("slot", .text slot), ("where", .text owner.describe)]
  | attributeInInterface name member typeName | abstractAttribute name member typeName =>
    some [("member", .text member), ("name", .text name), ("type", .text typeName)]
  | mixedMethods name abstract concrete =>
    some [("abstract", .text abstract), ("concrete", .text concrete), ("name", .text name)]
  | abstractMethodInClass name abstract stored =>
    some [("abstract", .text abstract), ("attribute", .text stored), ("name", .text name)]
  | namelessCall => none
  | malformedNumber text => some [("text", .text text)]
  | unavailableSlot name slot => some [("name", .text name), ("slot", .text slot)]
  | undeliverable name reason => some [("name", .text name), ("reason", .text reason)]
  | singleSink count => some [("count", .int count)]

end Problem

/-- Problems that no source can cause: an id without a value, or text written out of order. -/
inductive Breakdown where
  /-- No token has this id. -/
  | invalidToken (id : Int)
  /-- No string has this id. -/
  | invalidString (id : Int)
  /-- A block was closed that was not open. -/
  | unmatchedClose
  /-- The text ended with open blocks. -/
  | openBlocks (count : Nat)
  /-- A stage failed and reported nothing. -/
  | unreported
deriving DecidableEq, Repr

namespace Breakdown

/-- What is said about a breakdown. -/
def message : Breakdown → String
  | .invalidToken id => "Invalid TokenId: " ++ Whole.display id
  | .invalidString id => "Invalid StringId: " ++ Whole.display id
  | .unmatchedClose => "JavaWriter: close() without a matching open()"
  | .openBlocks count => "JavaWriter: " ++ toString count ++ " block(s) left open"
  | .unreported => "compilation stopped without reporting a diagnostic"

end Breakdown

end EoJava
