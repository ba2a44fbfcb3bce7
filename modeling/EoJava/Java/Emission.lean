import EoJava.Java.Expression
import EoJava.Java.Writer

/-!
# Java units

Each declaration becomes one unit. An interface has the signatures of its methods, and a `default`
method for each whose parameters have defaults. A class has its fields, its constructors and its
methods, each in source order. Where slots have defaults, a second, shorter signature takes the
slots before the first default and delegates to the full one.

The texts of all expressions come first, and with them the bindings of the references; then the
unit is written.
-/

namespace EoJava

/-- A compiled declaration. -/
structure JavaUnit where
  name : String
  kind : DeclKind
  text : String
deriving DecidableEq, Repr

namespace Java

/-- The slots before the first default. -/
def required (slots : List Slot) : List Slot :=
  slots.takeWhile (·.default?.isNone)

/-- The slots from the first default on. -/
def defaulted (slots : List Slot) : List Slot :=
  slots.dropWhile (·.default?.isNone)

/-- Some slot has a default. -/
def hasDefaults (slots : List Slot) : Bool :=
  slots.any (·.default?.isSome)

/-- What the default of a slot can use where a shorter signature delegates: the fields and the
required slots, but none of the others. -/
def delegationScope (fields : List String) (slots : List Slot) (slot : String) : Scope where
  fields
  parameters := (required slots).map (·.name)
  defaultOf := some ⟨slot, (defaulted slots).map (·.name)⟩

/-- The text of the default of a slot of `slots`. -/
def slotText (fields : List String) (slots : List Slot) (slot : Slot) :
    Annotated Slot (Option String) :=
  (Annotated.visitOption (expressionText (delegationScope fields slots slot.name))
    slot.default?).map ({ slot with default? := · }) id

/-- The arguments of a delegation: the required slots by name, then the defaults. -/
def delegationArguments (slots : List Slot) (defaults : List (Option String)) : List String :=
  (required slots).map (·.name) ++ defaults.filterMap id

/-- The texts of a method: its body, and the arguments of its delegation if it has one. -/
structure MethodTexts where
  body : Option String
  delegation : Option (List String)
deriving DecidableEq, Repr

/-- The arguments with which a method delegates to itself, if it has defaults. -/
def methodDelegation (fields : List String) (m : Method) :
    Annotated Method (Option (List String)) :=
  if hasDefaults m.parameters then
    (Annotated.visit (slotText fields m.parameters) m.parameters).map
      ({ m with parameters := · }) fun defaults => some (delegationArguments m.parameters defaults)
  else .done m none

/-- The texts of a method of a class. An abstract method has none. -/
def classMethodTexts (fields : List String) (m : Method) : Annotated Method MethodTexts :=
  match m.body with
  | none => .done m ⟨none, none⟩
  | some body =>
    let scope : Scope := { fields, parameters := m.parameters.map (·.name) }
    match expressionText scope body with
    | ⟨body, .error problem⟩ => ⟨{ m with body := some body }, .error problem⟩
    | ⟨body, .ok text⟩ =>
      (methodDelegation fields { m with body := some body }).map id (⟨some text, ·⟩)

/-- The texts of a method of an interface. -/
def interfaceMethodTexts (m : Method) : Annotated Method MethodTexts :=
  (methodDelegation [] m).map id (⟨none, ·⟩)

/-- Visits the methods among members. -/
def visitMethods {β : Type} (f : Method → Annotated Method β) (members : List Member) :
    Annotated (List Member) (List (Option β)) :=
  Annotated.visit
    (fun
      | .method m => (f m).map .method some
      | .attribute stored slot => .done (.attribute stored slot) none)
    members

/-- Visits the stored attributes among members. -/
def visitStored {β : Type} (f : Slot → Annotated Slot β) (members : List Member) :
    Annotated (List Member) (List (Option β)) :=
  Annotated.visit
    (fun
      | .attribute true slot => (f slot).map (.attribute true) some
      | member => .done member none)
    members

/-- The texts of a declaration: the arguments with which its shorter constructor delegates, if it
has one, and the texts of its methods. -/
structure DeclTexts where
  constructor : Option (List String)
  methods : List MethodTexts
deriving DecidableEq, Repr

/-- The texts of an interface. -/
def interfaceTexts (decl : Decl) : Annotated Decl DeclTexts :=
  (visitMethods interfaceMethodTexts decl.members).map ({ decl with members := · }) fun texts =>
    ⟨none, texts.filterMap id⟩

/-- The arguments with which the shorter constructor of a class delegates. Fields cannot be read
there. -/
def constructorTexts (decl : Decl) : Annotated Decl (Option (List String)) :=
  let slots := decl.stored
  if hasDefaults slots then
    (visitStored (slotText [] slots) decl.members).map ({ decl with members := · }) fun defaults =>
      some (delegationArguments slots (defaults.filterMap id))
  else .done decl none

/-- The texts of a class. -/
def classTexts (decl : Decl) : Annotated Decl DeclTexts :=
  match constructorTexts decl with
  | ⟨decl, .error problem⟩ => ⟨decl, .error problem⟩
  | ⟨decl, .ok constructor⟩ =>
    let fields := decl.stored.map (·.name)
    (visitMethods (classMethodTexts fields) decl.members).map ({ decl with members := · })
      fun texts => ⟨constructor, texts.filterMap id⟩

/-- The formal parameters of a signature. -/
def formals (slots : List Slot) : String :=
  ", ".intercalate (slots.map fun slot => "final " ++ slot.typeName ++ " " ++ slot.name)

/-- A name with its formal parameters. -/
def signature (name : String) (slots : List Slot) : String :=
  name ++ "(" ++ formals slots ++ ")"

/-- The clause that lists the interfaces of a declaration. -/
def interfaceClause (keyword : String) (decl : Decl) : String :=
  if decl.interfaces.isEmpty then ""
  else " " ++ keyword ++ " " ++ ", ".intercalate (decl.interfaces.map (·.value))

/-- The statement that calls a method with more arguments. -/
def delegate (name : String) (args : List String) : String :=
  "return this." ++ name ++ "(" ++ ", ".intercalate args ++ ");"

/-- Writes the shorter signature of a method, if it has one. -/
def writeDelegation (modifier : String) (m : Method) (texts : MethodTexts) (writer : Writer) :
    Except Breakdown Writer :=
  match texts.delegation with
  | none => .ok writer
  | some args =>
    writer.blank.block
      (modifier ++ " " ++ m.returnType ++ " " ++ signature m.name (required m.parameters))
      [delegate m.name args]

/-- Writes a method of a class. -/
def writeMethod (writer : Writer) (entry : Method × MethodTexts) : Except Breakdown Writer :=
  let (m, texts) := entry
  match texts.body with
  | none => .ok writer
  | some body => do
    let writer ← writer.blank.block
      ("public " ++ m.returnType ++ " " ++ signature m.name m.parameters)
      ["return " ++ body ++ ";"]
    writeDelegation "public" m texts writer

/-- Writes the constructors of a class. A class without fields has none. -/
def writeConstructors (decl : Decl) (texts : DeclTexts) (writer : Writer) :
    Except Breakdown Writer :=
  if decl.stored.isEmpty then .ok writer
  else do
    let writer ←
      match texts.constructor with
      | none => pure writer
      | some args =>
        writer.blank.block ("public " ++ signature decl.name (required decl.stored))
          ["this(" ++ ", ".intercalate args ++ ");"]
    writer.blank.block ("public " ++ signature decl.name decl.stored)
      (decl.stored.map fun slot => "this." ++ slot.name ++ " = " ++ slot.name ++ ";")

/-- The text of a class. -/
def classUnit (decl : Decl) (texts : DeclTexts) : Except Breakdown String := do
  let writer := ({} : Writer).openBlock
    ("public final class " ++ decl.name ++ interfaceClause "implements" decl)
  let writer := (decl.stored.map fun slot =>
    "private final " ++ slot.typeName ++ " " ++ slot.name ++ ";").foldl Writer.line writer
  let writer ← writeConstructors decl texts writer
  let writer ← (decl.methods.zip texts.methods).foldlM writeMethod writer
  let writer ← writer.closeBlock
  writer.text

/-- The text of an interface. -/
def interfaceUnit (decl : Decl) (texts : DeclTexts) : Except Breakdown String := do
  let writer := ({} : Writer).openBlock
    ("public interface " ++ decl.name ++ interfaceClause "extends" decl)
  let writer := (decl.methods.map fun m =>
    m.returnType ++ " " ++ signature m.name m.parameters ++ ";").foldl Writer.line writer
  let writer ← (decl.methods.zip texts.methods).foldlM
    (fun writer (m, texts) => writeDelegation "default" m texts writer) writer
  let writer ← writer.closeBlock
  writer.text

/-- The kind of unit a declaration becomes. Without a kind it becomes a class. -/
def unitKind (decl : Decl) : DeclKind :=
  decl.kind.getD .classType

/-- The texts that the unit of a declaration is made of. -/
def declTexts (decl : Decl) : Annotated Decl DeclTexts :=
  match unitKind decl with
  | .interfaceType => interfaceTexts decl
  | .classType => classTexts decl

/-- The unit of a declaration, made of its texts. -/
def unitOf (decl : Decl) (texts : DeclTexts) : Except Breakdown JavaUnit := do
  let kind := unitKind decl
  let text ←
    match kind with
    | .interfaceType => interfaceUnit decl texts
    | .classType => classUnit decl texts
  pure { name := decl.name, kind, text }

/-- The units of declarations in order, with the bindings of their references filled in. The first
problem leaves no unit. -/
def emit (decls : List Decl) : Except Breakdown (Annotated (List Decl) (List JavaUnit)) :=
  let visited := Annotated.visit
    (fun decl =>
      let texts := declTexts decl
      texts.map id (unitOf texts.node))
    decls
  match visited.result with
  | .error problem => .ok ⟨visited.node, .error problem⟩
  | .ok units => do
    let units ← units.mapM id
    pure ⟨visited.node, .ok units⟩

end Java

end EoJava
