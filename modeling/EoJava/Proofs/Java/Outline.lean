import EoJava.Java.Emission
import EoJava.Proofs.Grammar.Terminal
import EoJava.Proofs.Java.Tree
import EoJava.Proofs.Syntax.Mapped

/-!
# Outlines of declarations

The tree of the unit that a declaration becomes, `outline`. The positions and the bindings of a
declaration do not count: its outline is that of its `erased` form (`outline_erased`).
-/

namespace EoJava

open Grammar (commaSeparated)

/-! ## Declarations without positions and bindings -/

namespace Expr

mutual

/-- An expression without its positions and bindings. -/
def erased : Expr → Expr
  | .literal _ value => .literal .nowhere value
  | .reference _ name _ => .reference .nowhere name none
  | .call _ name args => .call .nowhere name (erasedAll args)

/-- Arguments without their positions and bindings. -/
def erasedAll : List Expr → List Expr
  | [] => []
  | arg :: args => arg.erased :: erasedAll args

end

/-- Arguments are erased one by one. -/
@[simp]
theorem erasedAll_eq_map (args : List Expr) : erasedAll args = args.map erased := by
  induction args with
  | nil => rfl
  | cons arg args ih => simp [erasedAll, ih]

end Expr

/-- A slot without its positions and bindings. -/
def Slot.erased (slot : Slot) : Slot :=
  { slot with position := .nowhere, default? := slot.default?.map Expr.erased }

/-- Erasing a slot keeps its type. -/
@[simp]
theorem Slot.typeName_erased (slot : Slot) : slot.erased.typeName = slot.typeName := rfl

/-- Erasing a slot keeps its name. -/
@[simp]
theorem Slot.name_erased (slot : Slot) : slot.erased.name = slot.name := rfl

/-- The default of an erased slot is its erased default. -/
@[simp]
theorem Slot.default?_erased (slot : Slot) :
    slot.erased.default? = slot.default?.map Expr.erased := rfl

/-- A method without its positions and bindings. -/
def Method.erased (m : Method) : Method :=
  { m with
    position := .nowhere
    parameters := m.parameters.map Slot.erased
    body := m.body.map Expr.erased }

/-- Erasing a method keeps what it returns. -/
@[simp]
theorem Method.returnType_erased (m : Method) : m.erased.returnType = m.returnType := rfl

/-- Erasing a method keeps its name. -/
@[simp]
theorem Method.name_erased (m : Method) : m.erased.name = m.name := rfl

/-- The parameters of an erased method are its erased parameters. -/
@[simp]
theorem Method.parameters_erased (m : Method) :
    m.erased.parameters = m.parameters.map Slot.erased := rfl

/-- The body of an erased method is its erased body. -/
@[simp]
theorem Method.body_erased (m : Method) : m.erased.body = m.body.map Expr.erased := rfl

/-- A member without its positions and bindings. -/
def Member.erased : Member → Member
  | .attribute stored slot => .attribute stored slot.erased
  | .method m => .method m.erased

/-- A declaration without its positions and bindings. -/
def Decl.erased (decl : Decl) : Decl :=
  { decl with
    position := .nowhere
    interfaces := decl.interfaces.map Located.placeless
    members := decl.members.map Member.erased }

/-- Erasing a slot is one way to change its position and its default. -/
theorem Slot.erased_eq_mapNodes : erased = mapNodes (fun _ => .nowhere) Expr.erased :=
  rfl

/-- Erasing a member is one way to change its positions and its expressions. -/
theorem Member.erased_eq_mapNodes (member : Member) :
    member.erased = member.mapNodes (fun _ => .nowhere) Expr.erased := by
  rcases member with ⟨stored, slot⟩ | m <;> rfl

/-- Positions and bindings go where nodes are changed. -/
theorem Decl.erased_eq_mapNodes (decl : Decl) :
    decl.erased = decl.mapNodes (fun _ => .nowhere) Expr.erased := by
  have hmembers : decl.members.map Member.erased =
      decl.members.map (Member.mapNodes (fun _ => .nowhere) Expr.erased) :=
    List.map_congr_left fun member _ =>
      member.erased_eq_mapNodes
  rw [erased, hmembers]
  rfl

/-- Erasing a declaration keeps which attributes are stored. -/
theorem Decl.stored_erased (decl : Decl) : decl.erased.stored = decl.stored.map Slot.erased := by
  rw [decl.erased_eq_mapNodes]
  exact decl.stored_mapNodes

/-- The methods of an erased declaration are its erased methods. -/
theorem Decl.methods_erased (decl : Decl) :
    decl.erased.methods = decl.methods.map Method.erased := by
  rw [decl.erased_eq_mapNodes]
  exact decl.methods_mapNodes

/-! ### Positions -/

mutual

/-- Moving an expression is not seen once it is erased. -/
theorem Expr.erased_relocated (f : Position → Position) (e : Expr) :
    (e.relocated f).erased = e.erased := by
  cases e with
  | literal | reference => rfl
  | call position name args =>
      have hargs := Expr.erasedAll_relocatedAll f args
      rw [relocated, erased, erased, hargs]

/-- Moving arguments is not seen once they are erased. -/
theorem Expr.erasedAll_relocatedAll (f : Position → Position) (args : List Expr) :
    erasedAll (relocatedAll f args) = erasedAll args := by
  cases args with
  | nil => rfl
  | cons arg args =>
      rw [relocatedAll, erasedAll, erasedAll, Expr.erased_relocated f arg,
        Expr.erasedAll_relocatedAll f args]

end

/-- Declarations at other places are the same without positions and bindings. -/
theorem Decl.erased_relocated (f : Position → Position) (decl : Decl) :
    (decl.relocated f).erased = decl.erased := by
  have hexpr : Expr.erased ∘ Expr.relocated f = Expr.erased := funext (Expr.erased_relocated f)
  rw [relocated, erased_eq_mapNodes, mapNodes_mapNodes, hexpr, erased_eq_mapNodes]
  rfl

/-- Declarations that differ in positions only are the same without positions and bindings. -/
theorem Decl.erased_placeless (decl : Decl) : decl.placeless.erased = decl.erased := by
  rw [placeless_eq_relocated, erased_relocated]

/-! ### Terminals -/

mutual

/-- An erased expression is spelled as before: positions and bindings are not written. -/
@[simp]
theorem Expr.terminals_erased (e : Expr) : e.erased.terminals = e.terminals := by
  cases e with
  | literal | reference => rfl
  | call position name args =>
      have hargs := Expr.terminals_erasedAll args
      simpa [erased, terminals] using congrArg commaSeparated hargs

/-- Erased arguments are spelled as before. -/
theorem Expr.terminals_erasedAll (args : List Expr) :
    (args.map Expr.erased).map Expr.terminals = args.map Expr.terminals := by
  cases args with
  | nil => rfl
  | cons arg args =>
      rw [List.map_cons, List.map_cons, List.map_cons, Expr.terminals_erased arg,
        Expr.terminals_erasedAll args]

end

/-- An erased slot is spelled as before. -/
@[simp]
theorem Slot.terminals_erased (slot : Slot) : slot.erased.terminals = slot.terminals := by
  simp [terminals, defaultTerminals_eq, Function.comp_def]

/-- An erased method is spelled as before. -/
@[simp]
theorem Method.terminals_erased (m : Method) : m.erased.terminals = m.terminals := by
  have htail : tailTerminals (m.body.map Expr.erased) = tailTerminals m.body := by
    cases m.body <;> simp [tailTerminals]
  simp [terminals, htail, Function.comp_def]

/-- An erased member is spelled as before. -/
@[simp]
theorem Member.terminals_erased (member : Member) : member.erased.terminals = member.terminals := by
  rcases member with ⟨_ | _, slot⟩ | m
  · rfl
  · simp [erased, terminals, Slot.defaultTerminals_eq, Function.comp_def]
  · exact m.terminals_erased

/-- Interfaces without their positions are spelled as before. -/
theorem Decl.interfaceTerminals_placeless (refs : List (Located String)) :
    interfaceTerminals (refs.map Located.placeless) = interfaceTerminals refs := by
  cases refs <;> simp [interfaceTerminals, Located.placeless, Function.comp_def]

/-- Positions and bindings do not count for the spelling of a declaration. -/
theorem Decl.terminals_erased (decl : Decl) : decl.erased.terminals = decl.terminals := by
  simp [terminals, erased, interfaceTerminals_placeless, List.flatMap_map]

namespace Java

/-! ## Terms -/

/-- A number of a unit, whose sign is a mark of its own. -/
def numberTerm : List Char → Term
  | '-' :: digits => .number true (String.ofList digits)
  | digits => .number false (String.ofList digits)

/-- The term of a literal. -/
def literalTerm : Literal → Term
  | .string value => .string value
  | .boolean value => .boolean value
  | .number text => numberTerm ((numberLiteral? text).getD text).toList

/-- The term of a bare name with a binding. -/
def referenceTerm (name : String) : Binding → Term
  | .field => .field name
  | .parameter => .name name
  | .constructor => .construct name []

mutual

/-- The term of an expression. -/
def term (scope : Scope) : Expr → Term
  | .literal _ value => literalTerm value
  | .reference _ name _ => referenceTerm name (scope.resolve name)
  | .call _ name args => .construct name (terms scope args)

/-- The terms of arguments. -/
def terms (scope : Scope) : List Expr → List Term
  | [] => []
  | arg :: args => term scope arg :: terms scope args

end

/-- Arguments become terms one by one. -/
@[simp]
theorem terms_eq_map (scope : Scope) (args : List Expr) :
    terms scope args = args.map (term scope) := by
  induction args with
  | nil => rfl
  | cons arg args ih => simp [terms, ih]

/-! ## Members -/

/-- The formal parameter of a slot. -/
def formal (slot : Slot) : Formal :=
  ⟨slot.typeName, slot.name⟩

/-- The arguments of a delegation. -/
def delegationTerms (fields : List String) (slots : List Slot) : List Term :=
  (required slots).map (.name ·.name) ++
    slots.filterMap fun slot => slot.default?.map (term (delegationScope fields slots slot.name))

/-- The arguments of the delegation from a shorter signature, if there is one. -/
def delegation? (fields : List String) (slots : List Slot) : Option (List Term) :=
  if hasDefaults slots then some (delegationTerms fields slots) else none

/-- The shorter signature of a method, if it has one. -/
def shorterMethod (modifier : String) (fields : List String) (m : Method) : List TypeMember :=
  match delegation? fields m.parameters with
  | none => []
  | some args =>
    [.method modifier m.returnType m.name ((required m.parameters).map formal)
      [.forwarded m.name args]]

/-- What a body can use: the fields and the parameters of its method. -/
def bodyScope (fields : List String) (m : Method) : Scope where
  fields
  parameters := m.parameters.map (·.name)

/-- The members that a method of a class becomes. An abstract method becomes none. -/
def classMethod (fields : List String) (m : Method) : List TypeMember :=
  match m.body with
  | none => []
  | some body =>
    .method "public" m.returnType m.name (m.parameters.map formal)
      [.returned (term (bodyScope fields m) body)] :: shorterMethod "public" fields m

/-- The constructor that delegates, if there is one. -/
def shorterConstructor (name : String) (slots : List Slot) : List TypeMember :=
  match delegation? [] slots with
  | none => []
  | some args => [.constructor name ((required slots).map formal) [.chained args]]

/-- The constructors of a class. A class without fields has none. -/
def constructors (name : String) (slots : List Slot) : List TypeMember :=
  if slots.isEmpty then []
  else
    shorterConstructor name slots ++
      [.constructor name (slots.map formal) (slots.map fun slot => .assigned slot.name)]

/-- The members of the unit of a declaration. -/
def unitMembers (decl : Decl) : List TypeMember :=
  match unitKind decl with
  | .interfaceType =>
    decl.methods.map (fun m => .signature m.returnType m.name (m.parameters.map formal)) ++
      decl.methods.flatMap (shorterMethod "default" [])
  | .classType =>
    decl.stored.map (fun slot => .field slot.typeName slot.name) ++
      (constructors decl.name decl.stored ++
        decl.methods.flatMap (classMethod (decl.stored.map (·.name))))

/-- The unit of a declaration as a tree. -/
def outline (decl : Decl) : TypeTree where
  kind := unitKind decl
  name := decl.name
  interfaces := decl.interfaces.map (·.value)
  members := unitMembers decl

/-! ### Fields -/

/-- The field that a member declares, as the formal parameter of a constructor. -/
def TypeMember.field? : TypeMember → Option Formal
  | .field typeName name => some ⟨typeName, name⟩
  | _ => none

/-- A shorter method declares no field. -/
theorem fields_shorterMethod (modifier : String) (fields : List String) (m : Method) :
    (shorterMethod modifier fields m).filterMap TypeMember.field? = [] := by
  unfold shorterMethod
  cases delegation? fields m.parameters <;> rfl

/-- A method of a class declares no field. -/
theorem fields_classMethod (fields : List String) (m : Method) :
    (classMethod fields m).filterMap TypeMember.field? = [] := by
  unfold classMethod
  cases m.body with
  | none => rfl
  | some body => exact fields_shorterMethod "public" fields m

/-- Constructors declare no fields. -/
theorem fields_constructors (name : String) (slots : List Slot) :
    (constructors name slots).filterMap TypeMember.field? = [] := by
  unfold constructors shorterConstructor
  cases slots with
  | nil => rfl
  | cons slot slots => cases delegation? [] (slot :: slots) <;> rfl

/-- What is found in no method is found in none of them together. -/
theorem filterMap_flatMap_eq_nil {α : Type} {select : TypeMember → Option α}
    {members : Method → List TypeMember} {methods : List Method}
    (h : ∀ m ∈ methods, (members m).filterMap select = []) :
    (methods.flatMap members).filterMap select = [] := by
  induction methods with
  | nil => rfl
  | cons m methods ih =>
      obtain ⟨hm, hmethods⟩ := List.forall_mem_cons.1 h
      rw [List.flatMap_cons, List.filterMap_append, hm, ih hmethods, List.nil_append]

/-- The fields of a class are the stored attributes. -/
theorem fields_class {decl : Decl} (hkind : unitKind decl = .classType) :
    (outline decl).members.filterMap TypeMember.field? = decl.stored.map formal := by
  simp only [outline, unitMembers, hkind, List.filterMap_append, fields_constructors,
    filterMap_flatMap_eq_nil fun m _ => fields_classMethod _ m, List.append_nil, List.filterMap_map]
  rw [← List.filterMap_eq_map]
  rfl

/-- An interface has no field. -/
theorem fields_interface {decl : Decl} (hkind : unitKind decl = .interfaceType) :
    (outline decl).members.filterMap TypeMember.field? = [] := by
  simp only [outline, unitMembers, hkind, List.filterMap_append,
    filterMap_flatMap_eq_nil fun m _ => fields_shorterMethod _ _ m, List.append_nil,
    List.filterMap_map]
  exact List.filterMap_eq_nil_iff.2 fun _ _ => rfl

/-! ## Outlines without positions and bindings -/

mutual

/-- The term of an expression depends neither on its positions nor on its bindings. -/
@[simp]
theorem term_erased (scope : Scope) (e : Expr) : term scope e.erased = term scope e := by
  cases e with
  | literal | reference => rfl
  | call position name args =>
      have hargs := terms_erased scope args
      simpa [Expr.erased, term] using hargs

/-- The terms of arguments depend neither on their positions nor on their bindings. -/
theorem terms_erased (scope : Scope) (args : List Expr) :
    (args.map Expr.erased).map (term scope) = args.map (term scope) := by
  cases args with
  | nil => rfl
  | cons arg args =>
      rw [List.map_cons, List.map_cons, List.map_cons, term_erased scope arg,
        terms_erased scope args]

end

/-- A formal parameter has no position and no default. -/
@[simp]
theorem formal_erased (slot : Slot) : formal slot.erased = formal slot := rfl

section

variable {f : Position → Position} {g : Expr → Expr}

/-- Which slots are required does not depend on their positions and on what their defaults are. -/
theorem required_mapNodes (slots : List Slot) :
    required (slots.map (Slot.mapNodes f g)) = (required slots).map (Slot.mapNodes f g) := by
  rw [required, List.takeWhile_map]
  congr 2
  funext slot
  simp

/-- Which slots have defaults does not depend on their positions and on what the defaults are. -/
theorem defaulted_mapNodes (slots : List Slot) :
    defaulted (slots.map (Slot.mapNodes f g)) = (defaulted slots).map (Slot.mapNodes f g) := by
  rw [defaulted, List.dropWhile_map]
  congr 2
  funext slot
  simp

/-- Whether there are defaults does not depend on what they are. -/
theorem hasDefaults_mapNodes (slots : List Slot) :
    hasDefaults (slots.map (Slot.mapNodes f g)) = hasDefaults slots := by
  simp [hasDefaults, Function.comp_def]

/-- What a default can use does not depend on what the defaults are. -/
theorem delegationScope_mapNodes (fields : List String) (slots : List Slot) (slot : String) :
    delegationScope fields (slots.map (Slot.mapNodes f g)) slot =
      delegationScope fields slots slot := by
  simp [delegationScope, required_mapNodes, defaulted_mapNodes, Function.comp_def]

/-- Besides the texts of the defaults, only names are passed on. -/
theorem delegationArguments_mapNodes (slots : List Slot) (defaults : List (Option String)) :
    delegationArguments (slots.map (Slot.mapNodes f g)) defaults =
      delegationArguments slots defaults := by
  simp [delegationArguments, required_mapNodes, Function.comp_def]

end

/-- The required slots of erased slots are the erased required ones. -/
theorem required_erased (slots : List Slot) :
    required (slots.map Slot.erased) = (required slots).map Slot.erased := by
  rw [Slot.erased_eq_mapNodes, required_mapNodes]

/-- The slots with defaults of erased slots are the erased ones with defaults. -/
theorem defaulted_erased (slots : List Slot) :
    defaulted (slots.map Slot.erased) = (defaulted slots).map Slot.erased := by
  rw [Slot.erased_eq_mapNodes, defaulted_mapNodes]

/-- Erased slots have defaults if the slots had some. -/
theorem hasDefaults_erased (slots : List Slot) :
    hasDefaults (slots.map Slot.erased) = hasDefaults slots := by
  rw [Slot.erased_eq_mapNodes, hasDefaults_mapNodes]

/-- What a default can use is the same for erased slots. -/
theorem delegationScope_erased (fields : List String) (slots : List Slot) (slot : String) :
    delegationScope fields (slots.map Slot.erased) slot = delegationScope fields slots slot := by
  rw [Slot.erased_eq_mapNodes, delegationScope_mapNodes]

/-- Erased slots give the same arguments of a delegation. -/
theorem delegationTerms_erased (fields : List String) (slots : List Slot) :
    delegationTerms fields (slots.map Slot.erased) = delegationTerms fields slots := by
  simp [delegationTerms, required_erased, delegationScope_erased, Function.comp_def,
    List.filterMap_map]

/-- Erased slots give the same delegation, if they give one. -/
theorem delegation?_erased (fields : List String) (slots : List Slot) :
    delegation? fields (slots.map Slot.erased) = delegation? fields slots := by
  rw [delegation?, hasDefaults_erased, delegationTerms_erased, delegation?]

/-- An erased method has the same shorter signature. -/
theorem shorterMethod_erased (modifier : String) (fields : List String) (m : Method) :
    shorterMethod modifier fields m.erased = shorterMethod modifier fields m := by
  simp [shorterMethod, delegation?_erased, required_erased, Function.comp_def]

/-- An erased method becomes the same members of a class. -/
theorem classMethod_erased (fields : List String) (m : Method) :
    classMethod fields m.erased = classMethod fields m := by
  unfold classMethod
  cases hbody : m.body with
  | none => simp [hbody]
  | some body => simp [hbody, bodyScope, shorterMethod_erased, Function.comp_def]

/-- Erased slots give the same constructors. -/
theorem constructors_erased (name : String) (slots : List Slot) :
    constructors name (slots.map Slot.erased) = constructors name slots := by
  simp [constructors, shorterConstructor, delegation?_erased, required_erased, Function.comp_def]

/-- An erased declaration has a unit with the same members. -/
theorem unitMembers_erased (decl : Decl) : unitMembers decl.erased = unitMembers decl := by
  have hkind : unitKind decl.erased = unitKind decl := rfl
  have hname : decl.erased.name = decl.name := rfl
  have hfields : (decl.stored.map Slot.erased).map (·.name) = decl.stored.map (·.name) := by
    simp [Function.comp_def]
  unfold unitMembers
  rw [hkind, hname, Decl.stored_erased, Decl.methods_erased, hfields, constructors_erased]
  cases unitKind decl with
  | interfaceType =>
      simp [List.flatMap_map, shorterMethod_erased, Function.comp_def]
  | classType =>
      simp [List.flatMap_map, classMethod_erased, Function.comp_def]

/-- Positions and bindings do not count for an outline. -/
theorem outline_erased (decl : Decl) : outline decl.erased = outline decl := by
  have hinterfaces : decl.erased.interfaces.map (·.value) = decl.interfaces.map (·.value) := by
    simp [Decl.erased, Located.placeless, Function.comp_def]
  simp only [outline, unitMembers_erased, hinterfaces]
  rfl

/-- Declarations that differ in positions and bindings only have the same unit. -/
theorem outline_congr {decl other : Decl} (h : decl.erased = other.erased) :
    outline decl = outline other := by
  rw [← outline_erased decl, h, outline_erased]

end Java

end EoJava
