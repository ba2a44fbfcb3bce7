import EoJava.Diagnostic.Code
import EoJava.Diagnostic.Template

/-!
# The diagnostic catalog

What each code says: its severity, its message, what it means, and what to do about it. Messages
and suggestions are templates that the arguments of a diagnostic fill; descriptions are shown as
they are written.
-/

namespace EoJava

/-- What the catalog holds for a code. -/
structure CatalogEntry where
  severity : Severity
  message : Template
  description : Template
  suggestion : Template
deriving DecidableEq, Repr

/-- The catalog of compilations. -/
def Code.entry : Code → CatalogEntry
  | .duplicateDeclaration => ⟨.error,
    ["duplicate declaration '", .hole "name", "'"],
    ["Each declaration becomes its own Java type, so names must be unique in a file."],
    ["Rename one of them; '", .hole "name", "' was first declared on line ", .hole "line", "."]⟩
  | .invalidInterface => ⟨.error,
    ["'", .hole "interface", "' is not a valid interface name in '", .hole "name", "'"],
    ["Names in the \"as\" clause become the implements list of the Java type."],
    ["Use a plain identifier: letters, digits and underscores."]⟩
  | .duplicateInterface => ⟨.error,
    ["interface '", .hole "interface", "' is listed twice in '", .hole "name", "'"],
    ["A type can implement an interface only once."],
    ["Remove the second '", .hole "interface", "'."]⟩
  | .duplicateMember => ⟨.error,
    ["duplicate member '", .hole "member", "' in '", .hole "name", "'"],
    ["Attributes and methods of one declaration share a single namespace."],
    ["Rename one of the members called '", .hole "member", "'."]⟩
  | .duplicateParameter => ⟨.error,
    ["duplicate parameter '", .hole "param", "' in '", .hole "name", ".", .hole "method", "'"],
    ["Parameter names of a method must be distinct."],
    ["Rename one of the parameters called '", .hole "param", "'."]⟩
  | .missingDefault => ⟨.error,
    ["'", .hole "slot", "' has no default but follows defaulted '", .hole "defaulted", "' in ",
      .hole "where"],
    ["Defaults are filled in from the right, so only the trailing slots of a parameter ",
      "list may carry one."],
    ["Give '", .hole "slot", "' a default, or move it before '", .hole "defaulted", "'."]⟩
  | .attributeInInterface => ⟨.error,
    ["attribute '", .hole "member", "' is not allowed in interface '", .hole "name", "'"],
    ["An interface only declares method signatures; it cannot hold attributes."],
    ["Declare it as a method `", .hole "type", " ", .hole "member",
      "()`, or mark it as stored with `@", .hole "member", "`."]⟩
  | .abstractAttribute => ⟨.error,
    ["abstract attribute '", .hole "member", "' in class '", .hole "name", "'"],
    ["Every member of a class needs a value: a stored attribute or a method body."],
    ["Mark it as stored with `", .hole "type", " @", .hole "member", "`."]⟩
  | .mixedMethods => ⟨.error,
    ["'", .hole "name", "' mixes abstract method '", .hole "abstract", "' with concrete method '",
      .hole "concrete", "'"],
    ["Methods of one declaration either all have bodies (a class) or none do (an interface)."],
    ["Give '", .hole "abstract", "' a body, or move it to an interface."]⟩
  | .abstractMethodInClass => ⟨.error,
    ["'", .hole "name", "' declares abstract method '", .hole "abstract",
      "' next to stored attribute '", .hole "attribute", "'"],
    ["A stored attribute makes this declaration a class, but a class cannot declare a ",
      "method without a body."],
    ["Give '", .hole "abstract", "' a body, or move it to an interface."]⟩
  | .undeliverable => ⟨.error,
    ["cannot write '", .hole "name", "': ", .hole "reason"],
    ["The compiled text couldn't be written to its output."],
    ["Check that the output location exists and is writable."]⟩
  | .singleSink => ⟨.error,
    ["a single sink cannot receive ", .hole "count", " declarations"],
    ["A single output sink holds exactly one Java type."],
    ["Compile into a directory, or pass a resolver that maps each name to its own sink."]⟩
  | .namelessCall => ⟨.error,
    ["call without a name"],
    ["Every call compiles to an object construction, which needs a type name."],
    ["This is a compiler bug: the parser should never produce an unnamed call."]⟩
  | .malformedNumber => ⟨.error,
    ["malformed number literal '", .hole "text", "'"],
    ["Numbers are written as digits with an optional sign and fraction, and whole numbers ",
      "must fit in a Java long."],
    ["Write the number as `42`, `-7` or `3.14`, within -9223372036854775808 and ",
      "9223372036854775807."]⟩
  | .unavailableSlot => ⟨.error,
    ["default value of '", .hole "slot", "' refers to '", .hole "name",
      "', which is not passed in there"],
    ["A default is computed where its slot is omitted, so it can only use the slots that ",
      "are still passed in."],
    ["Refer only to slots declared before '", .hole "slot", "' that have no default."]⟩
  | .mixedIndentation => ⟨.error,
    ["mixed tabs and spaces"],
    ["This line starts with both tabs and spaces. EO needs one or the other to tell which ",
      "block a line belongs to."],
    ["Indent this line with ", .hole "expected", " only."]⟩
  | .unterminatedString => ⟨.error,
    ["unterminated string literal"],
    ["A string literal has to close on the line it starts on."],
    ["Add the closing `\"` before the end of the line."]⟩
  | .unmatchedUnindent => ⟨.error,
    ["unindent to ", .hole "width", " doesn't match any enclosing block"],
    ["When you unindent, you need to go back to a column you've used before."],
    ["Unindent to one of: ", .hole "validLevels", "."]⟩
  | .unknownCharacter => ⟨.error,
    ["unrecognized character '", .hole "char", "'"],
    ["This character isn't part of EO's syntax."],
    ["Remove it, or put it inside a string literal."]⟩
  | .inconsistentIndentation => ⟨.error,
    ["expected ", .hole "expected", ", found ", .hole "found"],
    ["The first indented line of this file used ", .hole "expected",
      ", so every indented line has to use ", .hole "expected", "."],
    ["Use ", .hole "expected", " here to match the rest of your file."]⟩
  | .unknownEscape => ⟨.error,
    ["unknown escape sequence '", .hole "sequence", "'"],
    ["Only \\\" \\\\ \\n \\r and \\t are recognized inside a string literal."],
    ["Write \\\\ for a literal backslash."]⟩
  | .syntaxError => ⟨.error,
    ["syntax error: ", .hole "detail"],
    ["The compiler couldn't match this part of the file to any EO declaration."],
    ["A declaration looks like `object name as Contract:` followed by indented members."]⟩
  | .nestingTooDeep => ⟨.error,
    ["calls nested deeper than ", .hole "limit", " levels"],
    ["Each level of call nesting takes parser stack space, so nesting depth is capped."],
    ["Move an inner call into its own method and call that method by name."]⟩

/-- The severity of a code. -/
def Code.severity (code : Code) : Severity :=
  code.entry.severity

/-- Every problem that a compilation can report is an error. -/
theorem Code.severity_eq_error (code : Code) : code.severity = .error := by
  cases code <;> rfl

/-- The catalog of the build command. -/
def CommandCode.entry : CommandCode → CatalogEntry
  | .fileNotFound => ⟨.error,
    ["file not found: ", .hole "path"],
    ["The compiler couldn't find a file at this path."],
    ["Double-check the path and make sure the file exists."]⟩
  | .unreadableFile => ⟨.error,
    ["cannot read file: ", .hole "reason"],
    ["The file exists but the compiler can't open it."],
    ["Check that you have read permission for this file."]⟩
  | .unwritableOutput => ⟨.error,
    ["cannot write output: ", .hole "reason"],
    ["The compiler couldn't save the generated Java files."],
    ["Check that you have write permission for the output directory."]⟩
  | .failedCompilation => ⟨.error,
    ["compilation failed: ", .hole "reason"],
    ["Something unexpected went wrong during compilation."],
    ["Check your source file, or report this if it seems like a bug."]⟩

end EoJava
