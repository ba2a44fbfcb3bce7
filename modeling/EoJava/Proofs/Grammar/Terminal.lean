import EoJava.Syntax.Tree
import EoJava.Token.Basic

/-!
# Terminals and the spelling of trees

A terminal is what the grammar sees of a token: its kind, with the text of a name, string or number.
`Decl.terminals` and its parts spell a tree as terminals, one clause for each production of the
grammar. Two trees that differ only in positions have the same `placeless` form.
-/

namespace EoJava

namespace Grammar

/-- A token as the grammar sees it: its kind and its text. -/
inductive Terminal where
  | indent
  | dedent
  | newline
  | mark (m : Mark)
  | name (text : String)
  | string (value : String)
  | number (text : String)
  | endOfInput
deriving DecidableEq, Repr

namespace Terminal

/-- The kind of a terminal. -/
def kind : Terminal → Kind
  | .indent => .indent
  | .dedent => .dedent
  | .newline => .newline
  | .mark m => .mark m
  | .name _ => .name
  | .string _ => .string
  | .number _ => .number
  | .endOfInput => .endOfInput

/-- The text that a terminal carries, if its kind has one. -/
def text? : Terminal → Option String
  | .name text | .string text | .number text => some text
  | _ => none

/-- The terminal is a name. -/
def isName : Terminal → Bool
  | .name _ => true
  | _ => false

/-- The terminal is a string. -/
def isString : Terminal → Bool
  | .string _ => true
  | _ => false

/-- The terminal is a number. -/
def isNumber : Terminal → Bool
  | .number _ => true
  | _ => false

/-- The terminal is a truth value. -/
def isTruth : Terminal → Bool
  | .mark .trueWord | .mark .falseWord => true
  | _ => false

end Terminal

/-- Items with a comma before each but the first. -/
def commaSeparated : List (List Terminal) → List Terminal
  | [] => []
  | first :: others => first ++ others.flatMap (.mark .comma :: ·)

end Grammar

open Grammar (Terminal commaSeparated)

/-- The terminal of a lexeme. -/
def Lexeme.terminal : Lexeme → Terminal
  | .indent _ => .indent
  | .dedent _ => .dedent
  | .newline => .newline
  | .mark m => .mark m
  | .name text => .name text
  | .string value => .string value
  | .number text => .number text
  | .endOfInput => .endOfInput

theorem Lexeme.kind_terminal (lexeme : Lexeme) : lexeme.terminal.kind = lexeme.kind := by
  cases lexeme <;> rfl

/-! ## Spelling -/

/-- The terminal of a literal. -/
def Literal.terminal : Literal → Terminal
  | .string value => .string value
  | .number text => .number text
  | .boolean true => .mark .trueWord
  | .boolean false => .mark .falseWord

namespace Expr

mutual

/-- The terminals of an expression. -/
def terminals : Expr → List Terminal
  | .literal _ value => [value.terminal]
  | .reference _ name _ => [.name name]
  | .call _ name args =>
      .name name :: .mark .leftParen ::
        (commaSeparated (argumentTerminals args) ++ [.mark .rightParen])

/-- The terminals of each argument. -/
def argumentTerminals : List Expr → List (List Terminal)
  | [] => []
  | arg :: args => arg.terminals :: argumentTerminals args

end

@[simp]
theorem argumentTerminals_eq_map (args : List Expr) :
    argumentTerminals args = args.map terminals := by
  induction args with
  | nil => rfl
  | cons arg args ih => simp [argumentTerminals, ih]

/-- Every expression has a terminal. -/
theorem terminals_ne_nil (e : Expr) : e.terminals ≠ [] := by
  cases e <;> simp [terminals]

end Expr

namespace Slot

/-- The terminals of the default of a slot, after the mark that announces it. -/
def defaultTerminals (announced : Mark) (slot : Slot) : List Terminal :=
  match slot.default? with
  | none => []
  | some e => .mark announced :: e.terminals

/-- The terminals of a default are those after its mark. -/
theorem defaultTerminals_eq (announced : Mark) (slot : Slot) :
    slot.defaultTerminals announced =
      (slot.default?.map (Terminal.mark announced :: ·.terminals)).getD [] := by
  cases h : slot.default? <;> simp [defaultTerminals, h]

/-- The terminals of a slot as a parameter. -/
def terminals (slot : Slot) : List Terminal :=
  .name slot.typeName :: .name slot.name :: slot.defaultTerminals .equals

end Slot

namespace Method

/-- The terminals after the parameters of a method: its body in a block, or just the line end. -/
def tailTerminals : Option Expr → List Terminal
  | none => [.newline]
  | some e => .mark .colon :: .newline :: .indent :: (e.terminals ++ [.newline, .dedent])

/-- The terminals of a method. -/
def terminals (m : Method) : List Terminal :=
  .name m.returnType :: .name m.name :: .mark .leftParen ::
    (commaSeparated (m.parameters.map Slot.terminals) ++ .mark .rightParen :: tailTerminals m.body)

end Method

/-- The terminals of a member. -/
def Member.terminals : Member → List Terminal
  | .attribute true slot =>
      .name slot.typeName :: .mark .atSign :: .name slot.name ::
        (slot.defaultTerminals .assign ++ [.newline])
  | .attribute false slot => [.name slot.typeName, .name slot.name, .newline]
  | .method m => m.terminals

/-- Every member has a terminal. -/
theorem Member.terminals_ne_nil (m : Member) : m.terminals ≠ [] := by
  rcases m with ⟨_ | _, _⟩ | _ <;> simp [terminals, Method.terminals]

namespace Decl

/-- The terminals of the clause that lists interfaces. Without interfaces there is no clause. -/
def interfaceTerminals : List (Located String) → List Terminal
  | [] => []
  | refs => .mark .asWord :: commaSeparated (refs.map fun ref => [.name ref.value])

/-- The terminals of a declaration. -/
def terminals (decl : Decl) : List Terminal :=
  .mark .objectWord :: .name decl.name ::
    (interfaceTerminals decl.interfaces ++ .mark .colon :: .newline :: .indent ::
      (decl.members.flatMap Member.terminals ++ [.dedent]))

/-- The terminals of a source with the given declarations. -/
def programTerminals (decls : List Decl) : List Terminal :=
  decls.flatMap terminals ++ [.endOfInput]

end Decl

/-! ## Positions -/

/-- The position of a tree that is not placed. -/
def Position.nowhere : Position := ⟨0, 0⟩

/-- A value without its position. -/
def Located.placeless {α : Type} (found : Located α) : Located α :=
  ⟨.nowhere, found.value⟩

namespace Expr

mutual

/-- An expression without its positions. -/
def placeless : Expr → Expr
  | .literal _ value => .literal .nowhere value
  | .reference _ name binding => .reference .nowhere name binding
  | .call _ name args => .call .nowhere name (placelessAll args)

/-- Arguments without their positions. -/
def placelessAll : List Expr → List Expr
  | [] => []
  | arg :: args => arg.placeless :: placelessAll args

end

@[simp]
theorem placelessAll_eq_map (args : List Expr) : placelessAll args = args.map placeless := by
  induction args with
  | nil => rfl
  | cons arg args ih => simp [placelessAll, ih]

end Expr

/-- A slot without its positions. -/
def Slot.placeless (slot : Slot) : Slot :=
  { slot with position := .nowhere, default? := slot.default?.map Expr.placeless }

/-- A method without its positions. -/
def Method.placeless (m : Method) : Method :=
  { m with
    position := .nowhere
    parameters := m.parameters.map Slot.placeless
    body := m.body.map Expr.placeless }

/-- A member without its positions. -/
def Member.placeless : Member → Member
  | .attribute stored slot => .attribute stored slot.placeless
  | .method m => .method m.placeless

/-- A declaration without its positions. -/
def Decl.placeless (decl : Decl) : Decl :=
  { decl with
    position := .nowhere
    interfaces := decl.interfaces.map Located.placeless
    members := decl.members.map Member.placeless }

/-! ## Trees as they are read -/

namespace Expr

mutual

/-- No reference of an expression is bound yet. -/
def Fresh : Expr → Prop
  | .literal .. => True
  | .reference _ _ binding => binding = none
  | .call _ _ args => AllFresh args

/-- No reference of any argument is bound yet. -/
def AllFresh : List Expr → Prop
  | [] => True
  | arg :: args => arg.Fresh ∧ AllFresh args

end

@[simp]
theorem allFresh_iff (args : List Expr) : AllFresh args ↔ ∀ arg ∈ args, arg.Fresh := by
  induction args with
  | nil => simp [AllFresh]
  | cons arg args ih => simp [AllFresh, ih]

end Expr

/-- The default of a slot is as it was read. -/
def Slot.Fresh (slot : Slot) : Prop :=
  ∀ e ∈ slot.default?, e.Fresh

/-- A method is as it was read. -/
def Method.Fresh (m : Method) : Prop :=
  (∀ slot ∈ m.parameters, slot.Fresh) ∧ ∀ e ∈ m.body, e.Fresh

/-- A member is as it was read. An attribute that is only announced has no default. -/
def Member.Fresh : Member → Prop
  | .attribute true slot => slot.Fresh
  | .attribute false slot => slot.default? = none
  | .method m => m.Fresh

/-- A declaration is as it was read: it has a member and no kind yet. -/
def Decl.Fresh (decl : Decl) : Prop :=
  decl.kind = none ∧ decl.members ≠ [] ∧ ∀ m ∈ decl.members, m.Fresh

/-! ## Parts of a declaration -/

/-- The expressions of a member that no parentheses stand around: the default of an attribute, and
the body of a method. -/
def Member.values : Member → List Expr
  | .attribute _ slot => slot.default?.toList
  | .method m => m.body.toList

/-- The slots of a member: the attribute itself, or the parameters of a method. -/
def Member.slots : Member → List Slot
  | .attribute _ slot => [slot]
  | .method m => m.parameters

/-- The defaults of the parameters of a member. -/
def Member.parameterDefaults : Member → List Expr
  | .attribute .. => []
  | .method m => m.parameters.filterMap (·.default?)

namespace Decl

/-- The methods of a declaration are those among its members. -/
theorem mem_methods {decl : Decl} {m : Method} : m ∈ decl.methods ↔ .method m ∈ decl.members := by
  simp only [methods, List.mem_filterMap]
  constructor
  · rintro ⟨_ | found, hfound, h⟩
    · cases h
    · exact Option.some.inj h ▸ hfound
  · exact fun h => ⟨_, h, rfl⟩

/-- The expressions of a declaration. -/
def expressions (decl : Decl) : List Expr :=
  decl.members.flatMap fun m => m.values ++ m.parameterDefaults

/-- The slots of a declaration. -/
def slots (decl : Decl) : List Slot :=
  decl.members.flatMap Member.slots

/-- The defaults of the parameters of a declaration. -/
def parameterDefaults (decl : Decl) : List Expr :=
  decl.members.flatMap Member.parameterDefaults

variable {decl : Decl}

/-- The expressions of a member are among those of its declaration. -/
theorem subset_expressions {member : Member} (h : member ∈ decl.members) :
    member.values ++ member.parameterDefaults ⊆ decl.expressions :=
  fun _ he => List.mem_flatMap.2 ⟨member, h, he⟩

/-- The slots of a member are among those of its declaration. -/
theorem subset_slots {member : Member} (h : member ∈ decl.members) : member.slots ⊆ decl.slots :=
  fun _ hslot => List.mem_flatMap.2 ⟨member, h, hslot⟩

theorem parameters_subset {m : Method} (hm : m ∈ decl.methods) : m.parameters ⊆ decl.slots :=
  fun _ hslot => subset_slots (mem_methods.1 hm) hslot

theorem stored_subset (decl : Decl) : decl.stored ⊆ decl.slots := by
  intro slot hslot
  obtain ⟨member, hmember, hstored⟩ := List.mem_filterMap.1 hslot
  split at hstored
  · cases hstored
    exact subset_slots hmember (List.mem_singleton_self _)
  · cases hstored

end Decl

end EoJava
