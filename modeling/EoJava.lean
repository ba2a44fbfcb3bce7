import EoJava.Build.Workspace
import EoJava.Compilation.Pull
import EoJava.Compilation.Run
import EoJava.Main
import EoJava.Proofs.Grammar.Ebnf
import EoJava.Proofs.Grammar.Language
import EoJava.Proofs.Grammar.Descent
import EoJava.Proofs.Grammar.Soundness
import EoJava.Proofs.Grammar.Completeness
import EoJava.Proofs.Grammar.Legible
import EoJava.Proofs.Text.Numeral
import EoJava.Proofs.Text.Lines
import EoJava.Proofs.Grammar.Sheet
import EoJava.Proofs.Grammar.Follows
import EoJava.Proofs.Grammar.Spellings
import EoJava.Proofs.Grammar.Simulation
import EoJava.Proofs.Grammar.Printing
import EoJava.Proofs.Grammar.Columns
import EoJava.Proofs.Grammar.Parsing
import EoJava.Proofs.Token.Scanning
import EoJava.Proofs.Compilation.Tokens
import EoJava.Proofs.Compilation.Parse
import EoJava.Proofs.Source.Written
import EoJava.Proofs.Token.Content
import EoJava.Proofs.Token.Rows
import EoJava.Proofs.Source.Spelled
import EoJava.Proofs.Compilation.RoundTrip
import EoJava.Proofs.Java.Digits
import EoJava.Proofs.Java.IntegerLiteral
import EoJava.Proofs.Java.Emission
import EoJava.Proofs.Shape.Faults
import EoJava.Proofs.Compilation.Run
import EoJava.Proofs.Java.Lexical
import EoJava.Proofs.Java.Spelling
import EoJava.Proofs.Java.Tree
import EoJava.Proofs.Java.Outline
import EoJava.Proofs.Java.Unbound
import EoJava.Proofs.Java.Bindings
import EoJava.Proofs.Java.Rendering
import EoJava.Proofs.Java.Lines
import EoJava.Proofs.Java.Units
import EoJava.Proofs.Java.Scoping
import EoJava.Proofs.Shape.WellShaped
import EoJava.Proofs.Shape.Accepted
import EoJava.Proofs.Compilation.Classification
import EoJava.Proofs.Java.Strings
import EoJava.Proofs.Java.Readback
import EoJava.Proofs.Token.Strings
import EoJava.Proofs.Compilation.Units
import EoJava.Proofs.Compilation.Scoped
import EoJava.Proofs.Compilation.Strings
import EoJava.Proofs.Grammar.Viable
import EoJava.Proofs.Grammar.Furthest
import EoJava.Proofs.Grammar.Offending
import EoJava.Proofs.Compilation.Errors
import EoJava.Proofs.Token.Outcome
import EoJava.Proofs.Token.Tiling
import EoJava.Proofs.Compilation.Lossless
import EoJava.Proofs.Grammar.Nodes
import EoJava.Proofs.Token.Places
import EoJava.Proofs.Compilation.Nodes
import EoJava.Proofs.Token.Blocks
import EoJava.Proofs.Token.Offside
import EoJava.Proofs.Compilation.Layout
import EoJava.Proofs.Java.Texts
import EoJava.Proofs.Shape.Erased
import EoJava.Proofs.Token.Joining
import EoJava.Proofs.Compilation.Compiles
import EoJava.Proofs.Compilation.Concatenation
import EoJava.Proofs.Delivery.Recording
import EoJava.Proofs.Delivery.Program
import EoJava.Proofs.Grammar.Nesting
import EoJava.Proofs.Compilation.Nesting
import EoJava.Proofs.Compilation.Internal
import EoJava.Proofs.Disk.Paths
import EoJava.Proofs.Disk.Directories
import EoJava.Proofs.Disk.Files
import EoJava.Proofs.Delivery.Directory
import EoJava.Proofs.Build.Command
import EoJava.Proofs.Build.Refusals
import EoJava.Proofs.Diagnostic.Unbroken
import EoJava.Proofs.Diagnostic.Picture
import EoJava.Proofs.Grammar.Expected
import EoJava.Proofs.Token.Sites
import EoJava.Proofs.Token.Splits
import EoJava.Proofs.Compilation.Placed
import EoJava.Proofs.Compilation.Reported
import EoJava.Proofs.Compilation.Points
import EoJava.Proofs.Compilation.Preorder
import EoJava.Proofs.Java.Overloads
import EoJava.Proofs.Compilation.Overloads
import EoJava.Proofs.Token.Tiled
import EoJava.Proofs.Token.Moved
import EoJava.Proofs.Token.Breaks
import EoJava.Proofs.Compilation.Breaks
import EoJava.Proofs.Syntax.Mapped
import EoJava.Proofs.Java.Relocated
import EoJava.Proofs.Grammar.Relocated
import EoJava.Proofs.Compilation.Moved
import EoJava.Proofs.Compilation.Insertion
import EoJava.Proofs.Text.Utf8
import EoJava.Proofs.Text.LineEnds
import EoJava.Proofs.Compilation.Rescanned
import EoJava.Proofs.Compilation.LineEnds
import EoJava.Proofs.Compilation.Encoding
import EoJava.Proofs.Compilation.Interning
import EoJava.Proofs.Compilation.Pulls
import EoJava.Proofs.Token.Alike
import EoJava.Proofs.Token.Reindented
import EoJava.Proofs.Compilation.Reindented
import EoJava.Proofs.Token.Forward
import EoJava.Proofs.Compilation.Forward
import EoJava.Proofs.Diagnostic.Interpolation
import EoJava.Proofs.Compilation.Repeated
import EoJava.Proofs.Java.Printed
import EoJava.Proofs.Java.Laid
import EoJava.Proofs.Java.Formatted
import EoJava.Proofs.Compilation.Formatted
import EoJava.Proofs.Delivery.Stream
import EoJava.Proofs.Delivery.Outlet
import EoJava.Proofs.Grammar.Places
import EoJava.Proofs.Grammar.Offsets
import EoJava.Proofs.Compilation.Offsets
