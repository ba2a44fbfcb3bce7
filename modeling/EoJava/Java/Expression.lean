import EoJava.Java.Literal
import EoJava.Syntax.Annotated
import EoJava.Syntax.Tree

/-!
# Java expressions

Every call becomes the construction of an object. A bare name is a field, read through `this`, or a
parameter, or the construction of an object without arguments, and which of these it is becomes its
binding. A default may not use the slots that have no value where it is computed.
-/

namespace EoJava.Java

/-- The slot whose default is computed, and the slots that have no value there. -/
structure DefaultSite where
  slot : String
  unavailable : List String
deriving DecidableEq, Repr

/-- The names that an expression can use. -/
structure Scope where
  fields : List String := []
  parameters : List String := []
  defaultOf : Option DefaultSite := none
deriving DecidableEq, Repr

namespace Scope

/-- The slot whose default may not use a name, if the name is unavailable. -/
def refusedBy? (scope : Scope) (name : String) : Option String := do
  let site ← scope.defaultOf
  if name ∈ site.unavailable then some site.slot else none

/-- What a bare name means. -/
def resolve (scope : Scope) (name : String) : Binding :=
  if name ∈ scope.fields then .field
  else if name ∈ scope.parameters then .parameter
  else .constructor

end Scope

/-- The text of a construction. -/
def construction (name : String) (args : List String) : String :=
  "new " ++ name ++ "(" ++ ", ".intercalate args ++ ")"

/-- The text of a bare name with a binding. -/
def referenceText (name : String) : Binding → String
  | .field => "this." ++ name
  | .parameter => name
  | .constructor => construction name []

/-- The text of a literal. -/
def literalText? : Literal → Except Problem String
  | .string value => .ok (stringLiteral value)
  | .boolean true => .ok "true"
  | .boolean false => .ok "false"
  | .number text =>
    match numberLiteral? text with
    | some literal => .ok literal
    | none => .error (.malformedNumber text)

mutual

/-- The text of an expression, with the bindings of its references filled in. -/
def expressionText (scope : Scope) : Expr → Annotated Expr String
  | .literal position value =>
    match literalText? value with
    | .ok text => .done (.literal position value) text
    | .error problem => .stop (.literal position value) position problem
  | .reference position name binding =>
    match scope.refusedBy? name with
    | some slot => .stop (.reference position name binding) position (.unavailableSlot name slot)
    | none =>
      let binding := scope.resolve name
      .done (.reference position name (some binding)) (referenceText name binding)
  | .call position name args =>
    if name.isEmpty then .stop (.call position name args) position .namelessCall
    else (argumentTexts scope args).map (.call position name) (construction name)

/-- The texts of arguments in order. -/
def argumentTexts (scope : Scope) : List Expr → Annotated (List Expr) (List String)
  | [] => .done [] []
  | arg :: args =>
    match expressionText scope arg with
    | ⟨arg, .error problem⟩ => ⟨arg :: args, .error problem⟩
    | ⟨arg, .ok text⟩ => (argumentTexts scope args).map (arg :: ·) (text :: ·)

end

/-- The texts of arguments are those of a visit. -/
theorem argumentTexts_eq_visit (scope : Scope) (args : List Expr) :
    argumentTexts scope args = Annotated.visit (expressionText scope) args := by
  induction args with
  | nil => simp [argumentTexts, Annotated.visit]
  | cons arg args ih =>
    rw [argumentTexts, Annotated.visit, ih]
    rcases expressionText scope arg with ⟨_, _ | _⟩ <;> rfl

end EoJava.Java
