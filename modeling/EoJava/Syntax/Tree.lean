import EoJava.Text.Position

/-!
# Declaration trees

A source holds declarations. Each has members: attributes, which are stored or only announced, and
methods, which have a body or none. Every node knows the place of its first token. Two things are
filled in after reading: the kind of a declaration and the binding of a reference.
-/

namespace EoJava

/-- What a bare name turned out to mean: a stored attribute of the declaration around it, a
parameter, or a construction without arguments. -/
inductive Binding where
  | field
  | parameter
  | constructor
deriving DecidableEq, Repr

/-- A literal. Numbers are kept as they are written. -/
inductive Literal where
  | string (value : String)
  | number (text : String)
  | boolean (value : Bool)
deriving DecidableEq, Repr

/-- An expression: a literal, a bare name, or a name applied to arguments. -/
inductive Expr where
  | literal (position : Position) (value : Literal)
  | reference (position : Position) (name : String) (binding : Option Binding)
  | call (position : Position) (name : String) (args : List Expr)
deriving Repr

namespace Expr

/-- The place of the first token of an expression. -/
def position : Expr → Position
  | literal position _ | reference position .. | call position .. => position

end Expr

/-- A name of a type together with a name for its values: an attribute or a parameter, with an
optional default. -/
structure Slot where
  position : Position
  typeName : String
  name : String
  default? : Option Expr
deriving Repr

/-- A method. One without a body is abstract. -/
structure Method where
  position : Position
  returnType : String
  name : String
  parameters : List Slot
  body : Option Expr
deriving Repr

/-- A member of a declaration. -/
inductive Member where
  | attribute (stored : Bool) (slot : Slot)
  | method (method : Method)
deriving Repr

namespace Member

/-- The name of a member. -/
def name : Member → String
  | .attribute _ slot => slot.name
  | .method m => m.name

/-- The place of the first token of a member. -/
def position : Member → Position
  | .attribute _ slot => slot.position
  | .method m => m.position

end Member

/-- The two kinds of declaration. -/
inductive DeclKind where
  | interfaceType
  | classType
deriving DecidableEq, Repr

/-- A declaration. Its kind is filled in once its shape has been checked. -/
structure Decl where
  position : Position
  name : String
  interfaces : List (Located String)
  members : List Member
  kind : Option DeclKind
deriving Repr

namespace Decl

/-- The stored attributes, in order: the fields and the constructor's parameters. -/
def stored (decl : Decl) : List Slot :=
  decl.members.filterMap fun
    | .attribute true slot => some slot
    | _ => none

/-- The methods, in order. -/
def methods (decl : Decl) : List Method :=
  decl.members.filterMap fun
    | .method m => some m
    | _ => none

end Decl

end EoJava
