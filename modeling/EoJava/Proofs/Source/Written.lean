import EoJava.Syntax.Tree
import EoJava.Token.Kind

/-!
# Canonical sources

The canonical source of declarations, `Decl.written`. Each declaration, member and body has a row of
its own, indented by two spaces for each block around it. Items of a list stand apart by a comma and
a space, and a default by spaces around its mark. A string escapes what the five escapes are for.
-/

namespace EoJava

/-- A row of a source: the number of blocks around it, and what it holds. -/
structure Row where
  level : Nat
  content : List Char

/-- The characters of a row, with its indentation. -/
def Row.text (row : Row) : List Char :=
  List.replicate (2 * row.level) ' ' ++ row.content

/-- The characters of a row up to its line end. -/
def Row.line (row : Row) : List Char :=
  row.text ++ ['\n']

namespace Written

/-- A character as it stands between quotes. -/
def escape : Char → List Char
  | '"' => ['\\', '"']
  | '\\' => ['\\', '\\']
  | '\n' => ['\\', 'n']
  | '\r' => ['\\', 'r']
  | '\t' => ['\\', 't']
  | c => [c]

/-- A text between quotes. -/
def quote (text : List Char) : List Char :=
  '"' :: (text.flatMap escape ++ ['"'])

/-- Items with a comma and a space before each but the first. -/
def listed : List (List Char) → List Char
  | [] => []
  | first :: others => first ++ others.flatMap fun item => ',' :: ' ' :: item

end Written

open Written (quote listed)

/-- The source of a literal. -/
def Literal.written : Literal → List Char
  | .string value => quote value.toList
  | .number text => text.toList
  | .boolean true => Mark.trueWord.text.toList
  | .boolean false => Mark.falseWord.text.toList

namespace Expr

mutual

/-- The source of an expression. -/
def written : Expr → List Char
  | .literal _ value => value.written
  | .reference _ name _ => name.toList
  | .call _ name args => name.toList ++ '(' :: (listed (argumentsWritten args) ++ [')'])

/-- The source of each argument. -/
def argumentsWritten : List Expr → List (List Char)
  | [] => []
  | arg :: args => arg.written :: argumentsWritten args

end

end Expr

namespace Slot

/-- The source of the default of a slot, with the mark that announces it. -/
def defaultWritten (announced : Mark) (slot : Slot) : List Char :=
  match slot.default? with
  | none => []
  | some e => ' ' :: (announced.text.toList ++ ' ' :: e.written)

/-- The source of a slot as a parameter. -/
def written (slot : Slot) : List Char :=
  slot.typeName.toList ++ ' ' :: (slot.name.toList ++ slot.defaultWritten .equals)

end Slot

namespace Method

/-- The source of a method up to its last parenthesis. -/
def header (m : Method) : List Char :=
  m.returnType.toList ++ ' ' ::
    (m.name.toList ++ '(' :: (listed (m.parameters.map Slot.written) ++ [')']))

/-- The rows of a method. -/
def rows (m : Method) : List Row :=
  match m.body with
  | none => [⟨1, m.header⟩]
  | some e => [⟨1, m.header ++ [':']⟩, ⟨2, e.written⟩]

end Method

/-- The rows of a member. -/
def Member.rows : Member → List Row
  | .attribute true slot =>
      [⟨1, slot.typeName.toList ++ ' ' :: '@' :: (slot.name.toList ++ slot.defaultWritten .assign)⟩]
  | .attribute false slot => [⟨1, slot.typeName.toList ++ ' ' :: slot.name.toList⟩]
  | .method m => m.rows

namespace Decl

/-- The source of the clause that lists interfaces. Without interfaces there is no clause. -/
def interfacesWritten : List (Located String) → List Char
  | [] => []
  | refs => ' ' :: (Mark.asWord.text.toList ++ ' ' :: listed (refs.map (·.value.toList)))

/-- The source of the first row of a declaration. -/
def header (decl : Decl) : List Char :=
  Mark.objectWord.text.toList ++ ' ' ::
    (decl.name.toList ++ (interfacesWritten decl.interfaces ++ [':']))

/-- The rows of a declaration. -/
def rows (decl : Decl) : List Row :=
  ⟨0, decl.header⟩ :: decl.members.flatMap Member.rows

/-- The canonical source of declarations. -/
def written (decls : List Decl) : String :=
  .ofList ((decls.flatMap rows).flatMap Row.line)

end Decl

end EoJava
