import EoJava.Grammar.Printed
import EoJava.Syntax.Tree

/-!
# The rules of the grammar

A declaration is a header and an indented block of members; a member is a method or an attribute;
an expression is a call, a literal or a name. The rules read printed tokens. What they build refers
back to the tokens through `Anchors`: a node stands where the token at its first character stands,
and a string literal has the text of its token.
-/

namespace EoJava.Grammar

/-- The way back from printed text: the token at an offset, and the text of a token's payload. -/
structure Anchors where
  token : Nat → Except Breakdown Token
  text : Token → Except Breakdown String

namespace Anchors

/-- The position of the token at an offset. -/
def position (anchors : Anchors) (offset : Nat) : Except Breakdown Position := do
  let token ← anchors.token offset
  pure token.position

end Anchors

open Matcher

variable (anchors : Anchors)

/-- A literal. -/
def literal : Matcher (Except Breakdown Expr) :=
  let text : Matcher (Except Breakdown Expr) := do
    let (start, _) ← string
    pure do
      let token ← anchors.token start
      let value ← anchors.text token
      pure (.literal token.position (.string value))
  let numeral : Matcher (Except Breakdown Expr) := do
    let (start, taken) ← number
    pure do
      let position ← anchors.position start
      pure (.literal position (.number (String.ofList taken)))
  let truth : Matcher (Except Breakdown Expr) := do
    let (start, taken) ← boolean
    pure do
      let position ← anchors.position start
      pure (.literal position (.boolean (taken == "true".toList)))
  rule (text <|> numeral <|> truth)

/-- A bare name. -/
def reference : Matcher (Except Breakdown Expr) := do
  let (start, taken) ← name
  pure do
    let position ← anchors.position start
    pure (.reference position (String.ofList taken) none)

/-- A name applied to arguments. -/
def call (argument : Matcher (Except Breakdown Expr)) : Matcher (Except Breakdown Expr) :=
  rule do
    let (start, taken) ← name
    spelling "("
    let args ← separated argument ","
    spelling ")"
    pure do
      let position ← anchors.position start
      let args ← args.mapM id
      pure (.call position (String.ofList taken) args)

/-- An expression in which calls nest less than `fuel` deep. -/
def expression : Nat → Matcher (Except Breakdown Expr)
  | 0 => never
  | fuel + 1 => rule (call anchors (expression fuel) <|> literal anchors <|> reference anchors)

/-- A type name and a name, with the offset at which they start. -/
def typedName : Matcher (Nat × String × String) := do
  let (start, typeName) ← name
  let (_, slotName) ← name
  pure (start, String.ofList typeName, String.ofList slotName)

/-- The default of a slot, after the spelling that announces it. -/
def default (announced : String) (value : Matcher (Except Breakdown Expr)) :
    Matcher (Except Breakdown Expr) :=
  rule do
    spelling announced
    value

/-- The slot of a type name, a name and a default. -/
def slot (start : Nat) (typeName slotName : String) (default? : Option (Except Breakdown Expr)) :
    Except Breakdown Slot := do
  let position ← anchors.position start
  let default? ← default?.mapM id
  pure { position, typeName, name := slotName, default? }

/-- A parameter. -/
def parameter (value : Matcher (Except Breakdown Expr)) : Matcher (Except Breakdown Slot) :=
  rule do
    let (start, typeName, slotName) ← typedName
    let default? ← optional (default "=" value)
    pure (slot anchors start typeName slotName default?)

/-- The body of a method on its own line, or the end of a method without one. -/
def methodTail (value : Matcher (Except Breakdown Expr)) :
    Matcher (Option (Except Breakdown Expr)) :=
  let body : Matcher (Option (Except Breakdown Expr)) :=
    rule do
      spelling ":"
      let _ ← newline
      let _ ← indent
      let body ← value
      let _ ← newline
      let _ ← dedent
      pure (some body)
  let abstract : Matcher (Option (Except Breakdown Expr)) :=
    rule do
      let _ ← newline
      pure none
  rule (body <|> abstract)

/-- A method. -/
def method (value : Matcher (Except Breakdown Expr)) : Matcher (Except Breakdown Member) :=
  rule do
    let (start, returnType, methodName) ← typedName
    spelling "("
    let parameters ← separated (parameter anchors value) ","
    spelling ")"
    let body ← methodTail value
    pure do
      let position ← anchors.position start
      let body ← body.mapM id
      let parameters ← parameters.mapM id
      pure (.method { position, returnType, name := methodName, parameters, body })

/-- An attribute, stored or only announced. -/
def memberAttribute (value : Matcher (Except Breakdown Expr)) : Matcher (Except Breakdown Member) :=
  let stored : Matcher (Except Breakdown Member) :=
    rule do
      let (start, typeName) ← name
      spelling "@"
      let (_, slotName) ← name
      let default? ← optional (default ":=" value)
      let _ ← newline
      pure ((slot anchors start (String.ofList typeName) (String.ofList slotName) default?).map
        (.attribute true))
  let announced : Matcher (Except Breakdown Member) :=
    rule do
      let (start, typeName, slotName) ← typedName
      let _ ← newline
      pure ((slot anchors start typeName slotName none).map (.attribute false))
  rule (stored <|> announced)

/-- A member. -/
def member (value : Matcher (Except Breakdown Expr)) : Matcher (Except Breakdown Member) :=
  rule (method anchors value <|> memberAttribute anchors value)

/-- The interfaces that a declaration lists. -/
def interfaces : Matcher (Except Breakdown (List (Located String))) :=
  rule do
    keyword .asWord
    let names ← separated1 name ","
    pure (names.mapM fun (start, taken) => do
      let position ← anchors.position start
      pure ⟨position, String.ofList taken⟩)

/-- A declaration. -/
def declaration (value : Matcher (Except Breakdown Expr)) : Matcher (Except Breakdown Decl) :=
  rule do
    let start ← offset
    keyword .objectWord
    let (_, taken) ← name
    let listed ← optional (interfaces anchors)
    spelling ":"
    let _ ← newline
    let _ ← indent
    let members ← many1 (member anchors value)
    let _ ← dedent
    pure do
      let position ← anchors.position start
      let interfaces ← listed.getD (pure [])
      let members ← members.mapM id
      pure { position, name := String.ofList taken, interfaces, members, kind := none }

/-- Declarations up to the end of the text. -/
def program (value : Matcher (Except Breakdown Expr)) : Matcher (Except Breakdown (List Decl)) :=
  rule do
    let declarations ← many (declaration anchors value)
    endOfText
    pure (declarations.mapM id)

end EoJava.Grammar
