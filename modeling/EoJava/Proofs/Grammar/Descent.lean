import EoJava.Proofs.Grammar.Terminal

/-!
# Recursive descent over terminals

The grammar once more, over terminals instead of printed text. A leaf is a token with its index, its
position and its terminal. A descent takes leaves off the front and in any case tells how far it
reached: the index of the last leaf that it refused. `Descent.program` reads a whole source.

Nothing is printed here, so what a descent accepts can be compared with the trees directly.
-/

namespace EoJava.Grammar

/-- A token among the tokens of a source. -/
structure Leaf where
  index : Nat
  position : Position
  terminal : Terminal
deriving DecidableEq, Repr

/-- What a descent did: the value and the leaves after it if it succeeded, and the index of the last
leaf that it refused. -/
structure Outcome (α : Type) where
  result : Option (α × List Leaf)
  reach : Nat

/-- A descent reads a value off the front of leaves. -/
def Descent (α : Type) : Type :=
  List Leaf → Outcome α

/-- The literal of a terminal, if it is one. -/
def Terminal.literal? : Terminal → Option Literal
  | .string value => some (.string value)
  | .number text => some (.number text)
  | .mark .trueWord => some (.boolean true)
  | .mark .falseWord => some (.boolean false)
  | _ => none

namespace Descent

variable {α β : Type}

/-- One descent after another. -/
def bind (first : Descent α) (next : α → Descent β) : Descent β := fun leaves =>
  match first leaves with
  | ⟨none, reach⟩ => ⟨none, reach⟩
  | ⟨some (value, rest), reach⟩ =>
      let second := next value rest
      ⟨second.result, max reach second.reach⟩

/-- Descents in sequence. -/
instance : Monad Descent where
  pure value := fun leaves => ⟨some (value, leaves), 0⟩
  bind := bind

/-- The first of two descents that succeeds. -/
def orElse (first second : Descent α) : Descent α := fun leaves =>
  match first leaves with
  | ⟨some found, reach⟩ => ⟨some found, reach⟩
  | ⟨none, reach⟩ =>
      let outcome := second leaves
      ⟨outcome.result, max reach outcome.reach⟩

/-- Ordered choice. -/
instance : OrElse (Descent α) where
  orElse first second := orElse first (second ())

/-- The value of the first leaf. -/
def leaf (read : Leaf → Option α) : Descent α
  | [] => ⟨none, 0⟩
  | found :: rest =>
      match read found with
      | some value => ⟨some (value, rest), 0⟩
      | none => ⟨none, found.index⟩

/-- A given terminal. -/
def exactly (t : Terminal) : Descent Unit :=
  leaf fun found => if found.terminal = t then some () else none

/-- A name with its position. -/
def name : Descent (Located String) :=
  leaf fun found =>
    match found.terminal with
    | .name text => some ⟨found.position, text⟩
    | _ => none

/-- The position of the first leaf. -/
def position : Descent Position := fun leaves =>
  ⟨leaves.head?.map fun found => (found.position, leaves), 0⟩

/-- A keyword. A longer name that starts with it is refused only where the keyword would end, so
the next leaf is reached. -/
def keyword (m : Mark) : Descent Unit := fun leaves =>
  match leaves with
  | ⟨index, _, .name text⟩ :: _ =>
      ⟨none, if m.text.toList.isPrefixOf text.toList then index + 1 else index⟩
  | _ => exactly (.mark m) leaves

/-- A colon at the end of a line. The mark for a default starts like a colon, so it is refused only
where the line should end. -/
def colonLine : Descent Unit := fun leaves =>
  match leaves with
  | ⟨index, _, .mark .assign⟩ :: _ => ⟨none, index + 1⟩
  | _ =>
      (do
        exactly (.mark .colon)
        exactly .newline : Descent Unit) leaves

/-- The end of the leaves. -/
def endOfInput : Descent Unit
  | [] => ⟨none, 0⟩
  | found :: rest =>
      if found.terminal = .endOfInput then ⟨some ((), found :: rest), 0⟩ else ⟨none, found.index⟩

/-- As many values in a row as a descent finds. -/
def repeated (p : Descent α) (leaves : List Leaf) : List α × List Leaf × Nat :=
  match p leaves with
  | ⟨none, reach⟩ => ([], leaves, reach)
  | ⟨some (value, rest), reach⟩ =>
      if rest.length < leaves.length then
        let (values, last, later) := repeated p rest
        (value :: values, last, max reach later)
      else ([], leaves, reach)
termination_by leaves.length

/-- Zero or more values in a row. -/
def many (p : Descent α) : Descent (List α) := fun leaves =>
  let (values, rest, reach) := repeated p leaves
  ⟨some (values, rest), reach⟩

/-- One or more values in a row. -/
def many1 (p : Descent α) : Descent (List α) := fun leaves =>
  match repeated p leaves with
  | ([], _, reach) => ⟨none, reach⟩
  | (values, rest, reach) => ⟨some (values, rest), reach⟩

/-- A value or nothing. -/
def optional (p : Descent α) : Descent (Option α) := fun leaves =>
  match p leaves with
  | ⟨none, reach⟩ => ⟨some (none, leaves), reach⟩
  | ⟨some (value, rest), reach⟩ => ⟨some (some value, rest), reach⟩

/-- A comma and an item. -/
def commaItem (item : Descent α) : Descent α := do
  exactly (.mark .comma)
  item

/-- One or more items with a comma between them. -/
def separated1 (item : Descent α) : Descent (List α) := do
  let first ← item
  let others ← many (commaItem item)
  pure (first :: others)

/-- Items with a comma between them, or none at all. -/
def separated (item : Descent α) : Descent (List α) :=
  separated1 item <|> pure []

/-! ## Results -/

@[simp]
theorem result_pure (value : α) (leaves : List Leaf) :
    ((pure value : Descent α) leaves).result = some (value, leaves) := rfl

@[simp]
theorem result_bind (first : Descent α) (next : α → Descent β) (leaves : List Leaf) :
    ((first >>= next) leaves).result =
      (first leaves).result.bind fun found => (next found.1 found.2).result := by
  show (bind first next leaves).result = _
  unfold bind
  rcases first leaves with ⟨_ | ⟨value, rest⟩, reach⟩ <;> rfl

@[simp]
theorem result_orElse (first second : Descent α) (leaves : List Leaf) :
    ((first <|> second) leaves).result =
      ((first leaves).result <|> (second leaves).result) := by
  show (orElse first second leaves).result = _
  unfold orElse
  rcases first leaves with ⟨_ | found, reach⟩ <;> rfl

@[simp]
theorem result_leaf_cons (read : Leaf → Option α) (found : Leaf) (rest : List Leaf) :
    (leaf read (found :: rest)).result = (read found).map (·, rest) := by
  unfold leaf
  cases h : read found <;> simp [h]

@[simp]
theorem result_leaf_nil (read : Leaf → Option α) : (leaf read []).result = none := rfl

theorem result_optional (p : Descent α) (leaves : List Leaf) :
    (optional p leaves).result =
      some (match (p leaves).result with
        | none => (none, leaves)
        | some (value, rest) => (some value, rest)) := by
  unfold optional
  rcases p leaves with ⟨_ | ⟨value, rest⟩, reach⟩ <;> rfl

@[simp]
theorem result_position_cons (found : Leaf) (rest : List Leaf) :
    (position (found :: rest)).result = some (found.position, found :: rest) := rfl

/-- Where a keyword is expected, a longer name is refused as any other leaf is. -/
theorem result_keyword (m : Mark) (leaves : List Leaf) :
    (keyword m leaves).result = (exactly (.mark m) leaves).result := by
  unfold keyword
  split
  · simp [exactly]
  · rfl

/-- Where the colon of a line end is expected, the mark for a default is refused as any other
leaf is. -/
theorem result_colonLine (leaves : List Leaf) :
    (colonLine leaves).result =
      (exactly (.mark .colon) leaves).result.bind fun found =>
        (exactly .newline found.2).result := by
  unfold colonLine
  split
  · simp [exactly]
  · simp

/-! ## The rules -/

/-- A literal of a given sort. -/
def literalOf (sort : Terminal → Bool) : Descent Expr :=
  leaf fun found =>
    if sort found.terminal then found.terminal.literal?.map (.literal found.position) else none

/-- A literal. -/
def literal : Descent Expr :=
  literalOf Terminal.isString <|> literalOf Terminal.isNumber <|> literalOf Terminal.isTruth

/-- A bare name. -/
def reference : Descent Expr := do
  let found ← name
  pure (.reference found.position found.value none)

/-- A name applied to arguments. -/
def call (argument : Descent Expr) : Descent Expr := do
  let found ← name
  exactly (.mark .leftParen)
  let args ← separated argument
  exactly (.mark .rightParen)
  pure (.call found.position found.value args)

/-- An expression in which calls nest less than `fuel` deep. -/
def expression : Nat → Descent Expr
  | 0 => fun _ => ⟨none, 0⟩
  | fuel + 1 => call (expression fuel) <|> literal <|> reference

/-- A type name and a name, with the position at which they start. -/
def typedName : Descent (Position × String × String) := do
  let typeName ← name
  let slotName ← name
  pure (typeName.position, typeName.value, slotName.value)

/-- The default of a slot, after the mark that announces it. -/
def default (announced : Mark) (value : Descent Expr) : Descent Expr := do
  exactly (.mark announced)
  value

/-- A parameter. -/
def parameter (value : Descent Expr) : Descent Slot := do
  let (position, typeName, slotName) ← typedName
  let default? ← optional (default .equals value)
  pure { position, typeName, name := slotName, default? }

/-- The body of a method on its own line. -/
def methodBody (value : Descent Expr) : Descent (Option Expr) := do
  colonLine
  exactly .indent
  let body ← value
  exactly .newline
  exactly .dedent
  pure (some body)

/-- The end of a method without a body. -/
def noBody : Descent (Option Expr) := do
  exactly .newline
  pure none

/-- What follows the parameters of a method. -/
def methodTail (value : Descent Expr) : Descent (Option Expr) :=
  methodBody value <|> noBody

/-- A method. -/
def method (value : Descent Expr) : Descent Member := do
  let (position, returnType, methodName) ← typedName
  exactly (.mark .leftParen)
  let parameters ← separated (parameter value)
  exactly (.mark .rightParen)
  let body ← methodTail value
  pure (.method { position, returnType, name := methodName, parameters, body })

/-- A stored attribute. -/
def stored (value : Descent Expr) : Descent Member := do
  let typeName ← name
  exactly (.mark .atSign)
  let slotName ← name
  let default? ← optional (default .assign value)
  exactly .newline
  pure (.attribute true
    { position := typeName.position, typeName := typeName.value, name := slotName.value, default? })

/-- An attribute that is only announced. -/
def announced : Descent Member := do
  let (position, typeName, slotName) ← typedName
  exactly .newline
  pure (.attribute false { position, typeName, name := slotName, default? := none })

/-- A member. -/
def member (value : Descent Expr) : Descent Member :=
  method value <|> (stored value <|> announced)

/-- The interfaces that a declaration lists. -/
def interfaces : Descent (List (Located String)) := do
  keyword .asWord
  separated1 name

/-- A declaration. -/
def declaration (value : Descent Expr) : Descent Decl := do
  let position ← position
  keyword .objectWord
  let found ← name
  let listed ← optional interfaces
  colonLine
  exactly .indent
  let members ← many1 (member value)
  exactly .dedent
  pure { position, name := found.value, interfaces := listed.getD [], members, kind := none }

/-- Declarations up to the end of the leaves. -/
def program (value : Descent Expr) : Descent (List Decl) := do
  let declarations ← many (declaration value)
  endOfInput
  pure declarations

end Descent

end EoJava.Grammar
