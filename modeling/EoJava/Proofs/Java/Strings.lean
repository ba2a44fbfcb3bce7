import EoJava.Proofs.Java.Units
import EoJava.Proofs.Shape.Accepted

/-!
# String literals of a declaration

The values of the string literals of a declaration, in the order in which its unit has them
(`Decl.strings`). They are those of its terminals (`strings_perm`), and those of the lexemes of its
outline (`stringsOf_outline`).
-/

namespace EoJava

open Grammar (Terminal commaSeparated)

/-- The value of a string. -/
def Grammar.Terminal.string? : Terminal → Option String
  | .string value => some value
  | _ => none

/-! ## Values -/

namespace Expr

mutual

/-- The values of the string literals of an expression. -/
def strings : Expr → List String
  | .literal _ (.string value) => [value]
  | .literal .. => []
  | .reference .. => []
  | .call _ _ args => allStrings args

/-- The values of the string literals of arguments. -/
def allStrings : List Expr → List String
  | [] => []
  | arg :: args => arg.strings ++ allStrings args

end

end Expr

/-- The values of the string literals of the default of a slot. -/
def Slot.strings (slot : Slot) : List String :=
  slot.default?.toList.flatMap Expr.strings

/-- The values of the string literals of a method: those of its body, then those of its defaults. -/
def Method.strings (m : Method) : List String :=
  m.body.toList.flatMap Expr.strings ++ m.parameters.flatMap Slot.strings

/-- The values of the string literals of a declaration: those of the defaults of its stored
attributes, then those of its methods. -/
def Decl.strings (decl : Decl) : List String :=
  decl.stored.flatMap Slot.strings ++ decl.methods.flatMap Method.strings

/-! ## Terminals -/

/-- The strings of a terminal list with commas are those of its items. -/
theorem filterMap_commaSeparated (items : List (List Terminal)) :
    (commaSeparated items).filterMap Terminal.string? =
      items.flatMap (·.filterMap Terminal.string?) := by
  have hothers (others : List (List Terminal)) :
      (others.flatMap (.mark .comma :: ·)).filterMap Terminal.string? =
        others.flatMap (·.filterMap Terminal.string?) := by
    induction others with
    | nil => rfl
    | cons item others ih => simp [List.filterMap_cons, Terminal.string?, ih]
  cases items with
  | nil => rfl
  | cons first others =>
      rw [commaSeparated, List.filterMap_append, hothers, List.flatMap_cons]

namespace Expr

mutual

/-- The strings of an expression are those of its terminals, in the same order. -/
theorem filterMap_terminals (e : Expr) : e.terminals.filterMap Terminal.string? = e.strings := by
  cases e with
  | literal position value =>
      cases value with
      | string | number => rfl
      | boolean value => cases value <;> rfl
  | reference => rfl
  | call position name args =>
      have hargs := filterMap_allTerminals args
      simp [terminals, strings, List.filterMap_cons, filterMap_commaSeparated, Terminal.string?,
        hargs, List.flatMap_map]

/-- The strings of arguments are those of their terminals, in the same order. -/
theorem filterMap_allTerminals (args : List Expr) :
    args.flatMap (·.terminals.filterMap Terminal.string?) = allStrings args := by
  cases args with
  | nil => rfl
  | cons arg args =>
      rw [List.flatMap_cons, filterMap_terminals arg, filterMap_allTerminals args, allStrings]

end

end Expr

/-- The strings of a default are those of its terminals, whatever announces it. -/
theorem Slot.filterMap_defaultTerminals (announced : Mark) (slot : Slot) :
    (slot.defaultTerminals announced).filterMap Terminal.string? = slot.strings := by
  rw [defaultTerminals, strings]
  cases slot.default? with
  | none => rfl
  | some e => simp [List.filterMap_cons, Terminal.string?, Expr.filterMap_terminals]

/-- The strings of a slot are those of its terminals. -/
theorem Slot.filterMap_terminals (slot : Slot) :
    slot.terminals.filterMap Terminal.string? = slot.strings := by
  simp [terminals, List.filterMap_cons, Terminal.string?, filterMap_defaultTerminals]

/-- A unit has the body of a method before its defaults. -/
theorem Method.strings_perm (m : Method) :
    (m.terminals.filterMap Terminal.string?).Perm m.strings := by
  have htail : (tailTerminals m.body).filterMap Terminal.string? =
      m.body.toList.flatMap Expr.strings := by
    cases m.body with
    | none => rfl
    | some e =>
        simp [tailTerminals, List.filterMap_cons, Terminal.string?, Expr.filterMap_terminals]
  have hparameters : (commaSeparated (m.parameters.map Slot.terminals)).filterMap Terminal.string? =
      m.parameters.flatMap Slot.strings := by
    simp [filterMap_commaSeparated, List.flatMap_map, Slot.filterMap_terminals]
  have hterminals : m.terminals.filterMap Terminal.string? =
      m.parameters.flatMap Slot.strings ++ m.body.toList.flatMap Expr.strings := by
    simp [terminals, List.filterMap_cons, Terminal.string?, hparameters, htail]
  rw [hterminals]
  exact List.perm_append_comm

/-- A unit has the stored attributes before the methods. -/
theorem Decl.strings_members_perm (members : List Member) :
    ((members.flatMap Member.terminals).filterMap Terminal.string?).Perm
      ((members.filterMap fun | .attribute true slot => some slot | _ => none).flatMap
          Slot.strings ++
        (members.filterMap fun | .method m => some m | _ => none).flatMap Method.strings) := by
  induction members with
  | nil => exact .nil
  | cons member members ih =>
      rw [List.flatMap_cons, List.filterMap_append]
      rcases member with ⟨_ | _, slot⟩ | m
      · exact ih
      · have hslot : (Member.attribute true slot).terminals.filterMap Terminal.string? =
            slot.strings := by
          simp [Member.terminals, List.filterMap_cons, Terminal.string?,
            Slot.filterMap_defaultTerminals]
        simpa [hslot] using ih.append_left slot.strings
      · have hfirst := m.strings_perm.append ih
        refine hfirst.trans ?_
        simpa using List.perm_append_comm_assoc _ _ _

/-- The strings of a declaration are those of its terminals. -/
theorem Decl.strings_perm (decl : Decl) :
    (decl.terminals.filterMap Terminal.string?).Perm decl.strings := by
  have hinterfaces : (interfaceTerminals decl.interfaces).filterMap Terminal.string? = [] := by
    unfold interfaceTerminals
    cases decl.interfaces with
    | nil => rfl
    | cons ref refs =>
        simp [List.filterMap_cons, filterMap_commaSeparated, Terminal.string?]
  have hterminals : decl.terminals.filterMap Terminal.string? =
      (decl.members.flatMap Member.terminals).filterMap Terminal.string? := by
    simp [terminals, List.filterMap_cons, Terminal.string?, hinterfaces]
  rw [hterminals]
  exact strings_members_perm decl.members

/-! ## Positions and bindings -/

/-- Erasing an expression keeps its strings. -/
theorem Expr.strings_erased (e : Expr) : e.erased.strings = e.strings := by
  rw [← filterMap_terminals, terminals_erased, filterMap_terminals]

/-- Erasing a slot keeps its strings. -/
theorem Slot.strings_erased (slot : Slot) : slot.erased.strings = slot.strings := by
  cases hdefault : slot.default? <;> simp [strings, hdefault, Expr.strings_erased]

/-- Erasing a method keeps its strings. -/
theorem Method.strings_erased (m : Method) : m.erased.strings = m.strings := by
  cases hbody : m.body <;>
    simp [strings, hbody, List.flatMap_map, Slot.strings_erased, Expr.strings_erased]

/-- Positions and bindings do not count for the strings of a declaration. -/
theorem Decl.strings_erased (decl : Decl) : decl.erased.strings = decl.strings := by
  simp [strings, stored_erased, methods_erased, List.flatMap_map, Slot.strings_erased,
    Method.strings_erased]

namespace Java

/-! ## Lexemes -/

/-- There is no string among no lexemes. -/
@[simp]
theorem stringsOf_nil : stringsOf [] = [] := rfl

/-- The strings of lexemes in turn come in turn. -/
@[simp]
theorem stringsOf_append (first next : List Lexeme) :
    stringsOf (first ++ next) = stringsOf first ++ stringsOf next :=
  List.filterMap_append ..

/-- A word is no string. -/
@[simp]
theorem stringsOf_word (text : String) (rest : List Lexeme) :
    stringsOf (.word text :: rest) = stringsOf rest := rfl

/-- A symbol is no string. -/
@[simp]
theorem stringsOf_symbol (c : Char) (rest : List Lexeme) :
    stringsOf (.symbol c :: rest) = stringsOf rest := rfl

/-- The strings of many groups of lexemes are those of each group. -/
theorem stringsOf_flatMap {α : Type} (f : α → List Lexeme) (xs : List α) :
    stringsOf (xs.flatMap f) = xs.flatMap fun x => stringsOf (f x) := by
  induction xs with
  | nil => rfl
  | cons x xs ih => simp [ih]

/-- The strings of a list are those of its items. -/
theorem stringsOf_listed (items : List (List Lexeme)) :
    stringsOf (listed items) = items.flatMap stringsOf := by
  cases items with
  | nil => rfl
  | cons first others => simp [listed, stringsOf_flatMap]

/-- Commas and parentheses around items add no strings. -/
@[simp]
theorem stringsOf_parenthesized (items : List (List Lexeme)) (rest : List Lexeme) :
    stringsOf (parenthesized items rest) = items.flatMap stringsOf ++ stringsOf rest := by
  simp [parenthesized, stringsOf_listed]

/-- Braces add no strings. -/
@[simp]
theorem stringsOf_braced (inner : List Lexeme) : stringsOf (braced inner) = stringsOf inner := by
  simp [braced]

/-- A number is no string. -/
theorem stringsOf_numberTerm (text : List Char) : stringsOf (numberTerm text).lexemes = [] := by
  unfold numberTerm
  split <;> rfl

mutual

/-- The strings of a term are those of its expression. -/
theorem stringsOf_term (scope : Scope) (e : Expr) :
    stringsOf (term scope e).lexemes = e.strings := by
  cases e with
  | literal position value =>
      cases value with
      | string | boolean => rfl
      | number text => exact stringsOf_numberTerm _
  | reference position name binding =>
      rw [term]
      cases scope.resolve name <;> rfl
  | call position name args =>
      have hargs := stringsOf_terms scope args
      simpa [term, Term.lexemes, Expr.strings, List.flatMap_map] using hargs

/-- The strings of the terms of arguments are those of the arguments. -/
theorem stringsOf_terms (scope : Scope) (args : List Expr) :
    (args.flatMap fun arg => stringsOf (term scope arg).lexemes) = Expr.allStrings args := by
  cases args with
  | nil => rfl
  | cons arg args =>
      rw [List.flatMap_cons, stringsOf_term scope arg, stringsOf_terms scope args, Expr.allStrings]

end

/-! ## Members -/

/-- Formal parameters have no strings. -/
@[simp]
theorem stringsOf_formals (slots : List Slot) :
    (slots.map (Formal.lexemes ∘ formal)).flatMap stringsOf = [] := by
  simp [List.flatMap_map, Formal.lexemes]

/-- Assignments of fields have no strings. -/
@[simp]
theorem stringsOf_assignments (slots : List Slot) :
    stringsOf ((slots.map fun slot => Statement.assigned slot.name).flatMap Statement.lexemes) =
      [] := by
  simp [List.flatMap_map, stringsOf_flatMap, Statement.lexemes]

/-- A delegation has the strings of the defaults. -/
theorem stringsOf_delegationTerms (fields : List String) (slots : List Slot) :
    ((delegationTerms fields slots).map Term.lexemes).flatMap stringsOf =
      slots.flatMap Slot.strings := by
  have hdefaults (t : Slot → Expr → Term)
      (ht : ∀ slot e, stringsOf (t slot e).lexemes = e.strings) :
      ((slots.filterMap fun slot => slot.default?.map (t slot)).map
        Term.lexemes).flatMap stringsOf = slots.flatMap Slot.strings := by
    induction slots with
    | nil => rfl
    | cons slot slots ih =>
        cases hdefault : slot.default? with
        | none => simpa [hdefault, Slot.strings] using ih
        | some e => simpa [hdefault, Slot.strings, ht] using ih
  have hrequired : (((required slots).map fun slot => Term.name slot.name).map
      Term.lexemes).flatMap stringsOf = [] := by
    simp [Term.lexemes]
  rw [delegationTerms, List.map_append, List.flatMap_append, hrequired, List.nil_append]
  exact hdefaults _ fun slot e => stringsOf_term _ e

/-- Without defaults there are no strings. -/
theorem strings_of_not_hasDefaults {slots : List Slot} (h : ¬hasDefaults slots) :
    slots.flatMap Slot.strings = [] := by
  refine List.flatMap_eq_nil_iff.2 fun slot hslot => ?_
  have hnone := List.any_eq_false.1 (Bool.not_eq_true _ ▸ h) slot hslot
  simp [Slot.strings, Option.not_isSome_iff_eq_none.1 hnone]

/-- The strings of a shorter method are those of the defaults. -/
theorem stringsOf_shorterMethod (modifier : String) (fields : List String) (m : Method) :
    stringsOf ((shorterMethod modifier fields m).flatMap TypeMember.lexemes) =
      m.parameters.flatMap Slot.strings := by
  unfold shorterMethod delegation?
  by_cases hdefaults : hasDefaults m.parameters
  · simp [hdefaults, TypeMember.lexemes, Statement.lexemes, stringsOf_delegationTerms]
  · simp [hdefaults, strings_of_not_hasDefaults hdefaults]

/-- The strings of a method of a class are those of the method, if it has a body. -/
theorem stringsOf_classMethod (fields : List String) {m : Method} (hbody : m.body.isSome) :
    stringsOf ((classMethod fields m).flatMap TypeMember.lexemes) = m.strings := by
  obtain ⟨body, hbody⟩ := Option.isSome_iff_exists.1 hbody
  simp [classMethod, hbody, Method.strings, TypeMember.lexemes, Statement.lexemes, stringsOf_term,
    stringsOf_shorterMethod]

/-- The strings of constructors are those of the defaults. -/
theorem stringsOf_constructors (name : String) (slots : List Slot) :
    stringsOf ((constructors name slots).flatMap TypeMember.lexemes) =
      slots.flatMap Slot.strings := by
  by_cases hempty : slots = []
  · rw [hempty]
    rfl
  · unfold constructors shorterConstructor delegation?
    by_cases hdefaults : hasDefaults slots
    · simp [hdefaults, hempty, TypeMember.lexemes, Statement.lexemes, stringsOf_delegationTerms]
    · simp [hdefaults, hempty, TypeMember.lexemes, strings_of_not_hasDefaults hdefaults]

/-! ## Units -/

/-- The words before the name of a unit have no strings. -/
@[simp]
theorem stringsOf_opening (kind : DeclKind) : stringsOf (TypeTree.opening kind) = [] := by
  cases kind <;> rfl

/-- The clause of interfaces has no strings. -/
@[simp]
theorem stringsOf_clause (kind : DeclKind) (interfaces : List String) :
    stringsOf (TypeTree.clause kind interfaces) = [] := by
  cases interfaces <;> simp [TypeTree.clause, stringsOf_listed, List.flatMap_map]

/-- The strings of the unit of an accepted declaration are those of the declaration. -/
theorem stringsOf_outline {decl : Decl} (haccepted : decl.Accepted) :
    stringsOf (outline decl).lexemes = decl.strings := by
  have hmembers : stringsOf (outline decl).lexemes =
      stringsOf ((unitMembers decl).flatMap TypeMember.lexemes) := by
    simp [TypeTree.lexemes, outline]
  rw [hmembers, Decl.strings]
  unfold unitMembers
  cases hkind : unitKind decl with
  | interfaceType =>
      obtain ⟨hstored, hbodies⟩ := haccepted.interface_cases hkind
      have hsignatures : stringsOf ((decl.methods.map fun m =>
          TypeMember.signature m.returnType m.name (m.parameters.map formal)).flatMap
            TypeMember.lexemes) = [] := by
        simp [List.flatMap_map, stringsOf_flatMap, TypeMember.lexemes, Formal.lexemes]
      have hmethods : stringsOf ((decl.methods.flatMap (shorterMethod "default" [])).flatMap
          TypeMember.lexemes) = decl.methods.flatMap Method.strings := by
        rw [List.flatMap_assoc, stringsOf_flatMap]
        refine List.flatMap_congr fun m hm => ?_
        rw [stringsOf_shorterMethod, Method.strings, hbodies m hm]
        rfl
      simp only [List.flatMap_append, stringsOf_append, hsignatures, hmethods, hstored]
      rfl
  | classType =>
      have hfields : stringsOf ((decl.stored.map fun slot =>
          TypeMember.field slot.typeName slot.name).flatMap TypeMember.lexemes) = [] := by
        simp [List.flatMap_map, stringsOf_flatMap, TypeMember.lexemes]
      have hmethods : stringsOf ((decl.methods.flatMap
          (classMethod (decl.stored.map (·.name)))).flatMap TypeMember.lexemes) =
            decl.methods.flatMap Method.strings := by
        rw [List.flatMap_assoc, stringsOf_flatMap]
        refine List.flatMap_congr fun m hm => ?_
        exact stringsOf_classMethod _ (haccepted.class_bodies hkind m hm)
      simp only [List.flatMap_append, stringsOf_append, hfields, stringsOf_constructors, hmethods]
      rfl

end Java

end EoJava
