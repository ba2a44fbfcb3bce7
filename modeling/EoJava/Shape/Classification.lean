import EoJava.Shape.Basic

/-!
# Classification

Declarations are checked in order, each also against the names of those before it. A declaration
that passes gets its kind. The first one that does not ends the classification, and it and all later
ones stay as they were.
-/

namespace EoJava.Shape

/-- The fault of a declaration whose name was taken by an earlier one. -/
def nameFault? (earlier : List Decl) (decl : Decl) : Option (Located Problem) := do
  let first ← earlier.find? (·.name == decl.name)
  some ⟨decl.position, .duplicateDeclaration decl.name first.position.line⟩

/-- Classifies declarations after `earlier` ones. -/
def classifyAfter (earlier : List Decl) : List Decl → List Decl × Option (Located Problem)
  | [] => ([], none)
  | decl :: decls =>
    match nameFault? earlier decl <|> decl.fault? with
    | some fault => (decl :: decls, some fault)
    | none =>
      let (rest, fault?) := classifyAfter (earlier ++ [decl]) decls
      ({ decl with kind := some decl.derivedKind } :: rest, fault?)

/-- Classifies the declarations of a source: those classified and the first fault, if any. -/
def classify (decls : List Decl) : List Decl × Option (Located Problem) :=
  classifyAfter [] decls

end EoJava.Shape
