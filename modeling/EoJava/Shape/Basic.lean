import EoJava.Diagnostic.Problem
import EoJava.Syntax.Tree
import EoJava.Token.Lexing

/-!
# The shape of a declaration

A declaration without stored attributes and without method bodies is an interface, any other is a
class. Its members must agree with that, its names must be distinct, and its defaults must stand at
the end of their lists. `Decl.fault?` finds the first rule that a declaration breaks.
-/

namespace EoJava

/-- A name in source text: a letter or underscore, then letters, digits and underscores, and no
keyword. -/
def isIdentifier (name : String) : Bool :=
  match name.toList with
  | [] => false
  | c :: cs =>
    Lexing.isNameStart c && cs.all Lexing.isNamePart && (Mark.ofWord? name).isNone

namespace Decl

/-- The kind that the members of a declaration give it. -/
def derivedKind (decl : Decl) : DeclKind :=
  if decl.stored.isEmpty && decl.methods.all (·.body.isNone) then .interfaceType else .classType

end Decl

namespace Shape

/-- The first interface that is no identifier or was listed before. -/
def interfaceFault? (name : String) (listed : List String) :
    List (Located String) → Option (Located Problem)
  | [] => none
  | ref :: refs =>
    if !isIdentifier ref.value then some ⟨ref.position, .invalidInterface name ref.value⟩
    else if ref.value ∈ listed then some ⟨ref.position, .duplicateInterface name ref.value⟩
    else interfaceFault? name (ref.value :: listed) refs

/-- The first parameter whose name was taken before. -/
def parameterFault? (name method : String) (taken : List String) :
    List Slot → Option (Located Problem)
  | [] => none
  | slot :: slots =>
    if slot.name ∈ taken then some ⟨slot.position, .duplicateParameter name method slot.name⟩
    else parameterFault? name method (slot.name :: taken) slots

/-- The first member whose name was taken before, or the first repeated parameter of the methods
before it. -/
def memberFault? (name : String) (taken : List String) : List Member → Option (Located Problem)
  | [] => none
  | member :: members =>
    if member.name ∈ taken then some ⟨member.position, .duplicateMember name member.name⟩
    else
      let parameters :=
        match member with
        | .method m => parameterFault? name m.name [] m.parameters
        | .attribute .. => none
      parameters <|> memberFault? name (member.name :: taken) members

/-- The first slot without a default after one with a default. -/
def defaultFault? (owner : SlotOwner) (defaulted? : Option String) :
    List Slot → Option (Located Problem)
  | [] => none
  | slot :: slots =>
    match slot.default?, defaulted? with
    | some _, none => defaultFault? owner (some slot.name) slots
    | some _, some defaulted => defaultFault? owner (some defaulted) slots
    | none, none => defaultFault? owner none slots
    | none, some defaulted => some ⟨slot.position, .missingDefault slot.name defaulted owner⟩

/-- The first attribute that is not stored. -/
def announcedFault? (decl : Decl) : Option (Located Problem) :=
  decl.members.findSome? fun
    | .attribute false slot =>
      some ⟨slot.position,
        match decl.derivedKind with
        | .interfaceType => .attributeInInterface decl.name slot.name slot.typeName
        | .classType => .abstractAttribute decl.name slot.name slot.typeName⟩
    | _ => none

/-- The first abstract method, if something else makes the declaration a class. -/
def abstractFault? (decl : Decl) : Option (Located Problem) := do
  let abstract ← decl.methods.find? (·.body.isNone)
  match decl.methods.find? (·.body.isSome) with
  | some concrete =>
    some ⟨abstract.position, .mixedMethods decl.name abstract.name concrete.name⟩
  | none => do
    let slot ← decl.stored.head?
    some ⟨abstract.position, .abstractMethodInClass decl.name abstract.name slot.name⟩

/-- The first slot of the constructor or of a method that lacks a default. -/
def defaultsFault? (decl : Decl) : Option (Located Problem) :=
  defaultFault? (.constructor decl.name) none decl.stored <|>
    decl.methods.findSome? fun m => defaultFault? (.method decl.name m.name) none m.parameters

end Shape

/-- The first rule that a declaration breaks on its own. -/
def Decl.fault? (decl : Decl) : Option (Located Problem) :=
  Shape.interfaceFault? decl.name [] decl.interfaces <|>
    Shape.memberFault? decl.name [] decl.members <|>
    Shape.defaultsFault? decl <|>
    Shape.announcedFault? decl <|>
    Shape.abstractFault? decl

end EoJava
