import EoJava.Proofs.Java.Units
import EoJava.Proofs.Shape.Accepted

/-!
# Declarations read back from units

The tree of a unit is read back as what it tells of its declaration: its name, kind and interfaces,
its stored attributes and its methods. Expressions come back in the `normal` form that the scope
around them gives them, so two declarations whose units have one text agree
(`agrees_of_text_eq`).
-/

namespace EoJava

/-! ## Normal forms -/

namespace Expr

mutual

/-- An expression as it is meant in a scope. Positions and bindings do not count, and a bare name
that is neither a field nor a parameter is a call without arguments. -/
def normal (scope : Java.Scope) : Expr → Expr
  | .literal _ value => .literal .nowhere value
  | .reference _ name _ =>
    match scope.resolve name with
    | .constructor => .call .nowhere name []
    | _ => .reference .nowhere name none
  | .call _ name args => .call .nowhere name (normalAll scope args)

/-- Arguments as they are meant in a scope. -/
def normalAll (scope : Java.Scope) : List Expr → List Expr
  | [] => []
  | arg :: args => arg.normal scope :: normalAll scope args

end

end Expr

/-- The slots of a list, each with its default as it is meant where the shorter signature delegates.
-/
def Slot.normalAll (fields : List String) (slots : List Slot) : List Slot :=
  slots.map fun slot =>
    { slot with
      position := .nowhere
      default? := slot.default?.map (Expr.normal (Java.delegationScope fields slots slot.name)) }

/-- A method with its defaults and its body as they are meant in a class with `fields`. -/
def Method.normal (fields : List String) (m : Method) : Method :=
  { m with
    position := .nowhere
    parameters := Slot.normalAll fields m.parameters
    body := m.body.map (Expr.normal (Java.bodyScope fields m)) }

/-- Two declarations agree in all that counts for their units. -/
structure Decl.Agrees (decl other : Decl) : Prop where
  name : decl.name = other.name
  kind : decl.kind = other.kind
  interfaces : decl.interfaces.map (·.value) = other.interfaces.map (·.value)
  stored : Slot.normalAll [] decl.stored = Slot.normalAll [] other.stored
  methods : decl.methods.map (Method.normal (decl.stored.map (·.name))) =
    other.methods.map (Method.normal (other.stored.map (·.name)))

namespace Java

/-! ## Terms -/

namespace Term

/-- The text of a number in a source, without the suffix of a `long`. -/
def numeral (negative : Bool) (digits : String) : String :=
  String.ofList ((if negative then ['-'] else []) ++ digits.toList.filter (· != 'L'))

mutual

/-- The expression that a term is read back as. -/
def expr : Term → Expr
  | string value => .literal .nowhere (.string value)
  | number negative digits => .literal .nowhere (.number (numeral negative digits))
  | boolean value => .literal .nowhere (.boolean value)
  | name word => .reference .nowhere word none
  | field word => .reference .nowhere word none
  | construct word args => .call .nowhere word (exprs args)

/-- The expressions that terms are read back as. -/
def exprs : List Term → List Expr
  | [] => []
  | arg :: args => arg.expr :: exprs args

end

end Term

/-- A numeral has no suffix. -/
theorem filter_numeral {text : List Char} (h : Text.Numeral.isNumeral text) :
    text.filter (· != 'L') = text := by
  rw [List.filter_eq_self]
  obtain ⟨sign, whole, fraction, rfl, hsign, hwhole, hfraction⟩ := Text.Numeral.isNumeral_iff.1 h
  have hdigits : ∀ c : Char, c.isDigit → (c != 'L') = true := by
    intro c hc
    rw [bne_iff_ne]
    rintro rfl
    cases hc
  refine List.forall_mem_append.2 ⟨?_, List.forall_mem_append.2
    ⟨fun c hc => hdigits c (hwhole.2 c hc), ?_⟩⟩
  · rcases hsign with rfl | rfl <;> exact Text.forall_mem_of_all (by decide)
  · rcases hfraction with rfl | ⟨digits, rfl, -, hall⟩
    · exact List.forall_mem_nil _
    · exact List.forall_mem_cons.2 ⟨by decide, fun c hc => hdigits c (hall c hc)⟩

/-- The sign of a number is told apart and put back. -/
theorem expr_numberTerm (text : List Char) :
    (numberTerm text).expr =
      .literal .nowhere (.number (String.ofList (text.filter (· != 'L')))) := by
  unfold numberTerm
  split
  · simp [Term.expr, Term.numeral]
  · simp [Term.expr, Term.numeral]

/-- The literal of a number is its text, perhaps with a suffix. -/
theorem filter_numberLiteral (text : String) :
    ((numberLiteral? text).getD text).toList.filter (· != 'L') = text.toList.filter (· != 'L') := by
  unfold numberLiteral?
  dsimp only
  split_ifs <;> simp

theorem expr_literalTerm {value : Literal} (h : value.terminal.Spellable) :
    (literalTerm value).expr = .literal .nowhere value := by
  cases value with
  | string | boolean => rfl
  | number text =>
      have hnumeral : Text.Numeral.isNumeral text.toList := h
      rw [literalTerm, expr_numberTerm, filter_numberLiteral, filter_numeral hnumeral,
        String.ofList_toList]

theorem expr_referenceTerm (scope : Scope) (name : String) (position : Position)
    (binding : Option Binding) :
    (referenceTerm name (scope.resolve name)).expr =
      (Expr.reference position name binding).normal scope := by
  rw [Expr.normal]
  cases scope.resolve name <;> rfl

mutual

/-- The term of an expression is read back as the expression is meant. -/
theorem expr_term (scope : Scope) (e : Expr) (h : ∀ t ∈ e.terminals, t.Spellable) :
    (term scope e).expr = e.normal scope := by
  cases e with
  | literal position value =>
      exact expr_literalTerm (h value.terminal (by simp [Expr.terminals]))
  | reference position name binding => exact expr_referenceTerm scope name position binding
  | call position name args =>
      have hargs : ∀ arg ∈ args, ∀ t ∈ arg.terminals, t.Spellable := by
        intro arg harg t ht
        have hmem := Written.mem_commaSeparated (List.mem_map_of_mem harg) ht
        exact h t (by simp [Expr.terminals, hmem])
      rw [term, Term.expr, Expr.normal, exprs_terms scope args hargs]

theorem exprs_terms (scope : Scope) (args : List Expr)
    (h : ∀ arg ∈ args, ∀ t ∈ arg.terminals, t.Spellable) :
    Term.exprs (terms scope args) = Expr.normalAll scope args := by
  cases args with
  | nil => rfl
  | cons arg args =>
      obtain ⟨harg, hargs⟩ := List.forall_mem_cons.1 h
      rw [terms, Term.exprs, Expr.normalAll, expr_term scope arg harg, exprs_terms scope args hargs]

end

/-! ## Slots -/

/-- The slot of a formal parameter. -/
def Formal.slot (formal : Formal) (default? : Option Expr) : Slot :=
  ⟨.nowhere, formal.typeName, formal.name, default?⟩

/-- The slots of a full signature. A shorter one takes the first of them, and what it passes on
after these are the defaults of the others. -/
def slotsOf (formals : List Formal) : Option (List Formal × List Term) → List Slot
  | none => formals.map (·.slot none)
  | some (fewer, args) =>
    List.zipWith Formal.slot formals
      (fewer.map (fun _ => none) ++ (args.drop fewer.length).map (some ·.expr))

/-- The shorter signature of slots, and what it passes on. -/
def shorter? (fields : List String) (slots : List Slot) : Option (List Formal × List Term) :=
  (delegation? fields slots).map fun args => ((required slots).map formal, args)

/-- After a default no slot is required. -/
theorem required_of_isSome {slots : List Slot} (h : ∀ slot ∈ slots, slot.default?.isSome) :
    required slots = [] := by
  cases slots with
  | nil => rfl
  | cons slot slots =>
      refine List.takeWhile_cons_of_neg ?_
      rw [Option.isNone_iff_eq_none]
      exact Option.isSome_iff_ne_none.1 (h slot (List.mem_cons_self ..))

/-- If the defaults stand last, the required slots and the defaults line up with the formals. -/
theorem zipWith_slots {slots : List Slot} (t : Slot → Expr → Term)
    (hlast : ∀ slot ∈ defaulted slots, slot.default?.isSome) :
    List.zipWith Formal.slot (slots.map formal)
        ((required slots).map (fun _ => none) ++
          (slots.filterMap fun slot => slot.default?.map (t slot)).map (some ·.expr)) =
      slots.map fun slot => (formal slot).slot (slot.default?.map fun e => (t slot e).expr) := by
  induction slots with
  | nil => rfl
  | cons slot slots ih =>
      rcases hdefault : slot.default? with _ | e
      · have hrequired : required (slot :: slots) = slot :: required slots :=
          List.takeWhile_cons_of_pos (by rw [hdefault]; rfl)
        have hdefaulted : defaulted (slot :: slots) = defaulted slots :=
          List.dropWhile_cons_of_pos (by rw [hdefault]; rfl)
        have hslots := ih (hdefaulted ▸ hlast)
        rw [hrequired, List.filterMap_cons_none (by rw [hdefault]; rfl)]
        simpa [hdefault] using hslots
      · have hdefaulted : defaulted (slot :: slots) = slot :: slots :=
          List.dropWhile_cons_of_neg (by simp [hdefault])
        have hall : ∀ slot ∈ slots, slot.default?.isSome :=
          (List.forall_mem_cons.1 (hdefaulted ▸ hlast)).2
        have hslots := ih fun slot hslot => hall slot ((List.dropWhile_sublist _).mem hslot)
        have hnone : required (slot :: slots) = [] :=
          required_of_isSome (hdefaulted ▸ hlast)
        rw [required_of_isSome hall] at hslots
        rw [hnone, List.filterMap_cons_some (by rw [hdefault]; rfl)]
        simpa [hdefault] using hslots

/-- Slots are read back if their defaults stand last. -/
theorem slotsOf_shorter? (fields : List String) {slots : List Slot}
    (hlast : ∀ slot ∈ defaulted slots, slot.default?.isSome)
    (hspellable : ∀ slot ∈ slots, SpellableSlot slot) :
    slotsOf (slots.map formal) (shorter? fields slots) = Slot.normalAll fields slots := by
  unfold shorter? delegation?
  by_cases hdefaults : hasDefaults slots
  · have hargs : (delegationTerms fields slots).drop ((required slots).map formal).length =
        slots.filterMap fun slot =>
          slot.default?.map (term (delegationScope fields slots slot.name)) :=
      List.drop_left' (by simp)
    rw [if_pos hdefaults, Option.map_some, slotsOf, hargs, List.map_map]
    refine (zipWith_slots _ hlast).trans (List.map_congr_left fun slot hslot => ?_)
    have hexpr : slot.default?.map (fun e =>
        (term (delegationScope fields slots slot.name) e).expr) =
        slot.default?.map (Expr.normal (delegationScope fields slots slot.name)) :=
      Option.map_congr fun e he => expr_term _ e ((hspellable slot hslot).default e he)
    rw [hexpr]
    rfl
  · rw [if_neg hdefaults, Option.map_none, slotsOf, List.map_map]
    refine List.map_congr_left fun slot hslot => ?_
    have hnone : slot.default? = none := by
      have hany := List.any_eq_false.1 (Bool.not_eq_true _ ▸ hdefaults) slot hslot
      simpa using hany
    simp [hnone, Formal.slot, formal]

/-! ## Members -/

namespace TypeMember

/-- A shorter constructor, and what it passes on. -/
def chained? : TypeMember → Option (List Formal × List Term)
  | .constructor _ formals [.chained args] => some (formals, args)
  | _ => none

/-- A shorter signature of the method with a name, and what it passes on. -/
def forwarded? (name : String) : TypeMember → Option (List Formal × List Term)
  | .method _ _ word formals [.forwarded _ args] =>
    if word = name then some (formals, args) else none
  | _ => none

/-- The method that a member among others declares in full, with or without a body. -/
def method? (members : List TypeMember) : TypeMember → Option Method
  | .signature typeName name formals =>
    some ⟨.nowhere, typeName, name, slotsOf formals (members.findSome? (forwarded? name)), none⟩
  | .method _ typeName name formals [.returned value] =>
    some ⟨.nowhere, typeName, name, slotsOf formals (members.findSome? (forwarded? name)),
      some value.expr⟩
  | _ => none

end TypeMember

/-- The shorter signature of a method is found under its name. -/
theorem forwarded_shorterMethod (modifier : String) (fields : List String) (m : Method)
    (name : String) :
    (shorterMethod modifier fields m).filterMap (TypeMember.forwarded? name) =
      if m.name = name then (shorter? fields m.parameters).toList else [] := by
  unfold shorterMethod shorter?
  cases delegation? fields m.parameters with
  | none => simp
  | some args => by_cases hname : m.name = name <;> simp [TypeMember.forwarded?, hname]

theorem forwarded_classMethod (fields : List String) {m : Method} (hbody : m.body.isSome)
    (name : String) :
    (classMethod fields m).filterMap (TypeMember.forwarded? name) =
      if m.name = name then (shorter? fields m.parameters).toList else [] := by
  obtain ⟨body, hbody⟩ := Option.isSome_iff_exists.1 hbody
  simp only [classMethod, hbody]
  exact forwarded_shorterMethod "public" fields m name

/-- Among methods with distinct names, what is found of each is found under its name. -/
theorem filterMap_flatMap_of_name {α : Type} {select : String → TypeMember → Option α}
    {found : Method → List α} {members : Method → List TypeMember} {methods : List Method}
    (hnodup : (methods.map (·.name)).Nodup)
    (h : ∀ m ∈ methods, ∀ name, (members m).filterMap (select name) =
      if m.name = name then found m else []) :
    ∀ m ∈ methods, (methods.flatMap members).filterMap (select m.name) = found m := by
  induction methods with
  | nil => exact List.forall_mem_nil _
  | cons first methods ih =>
      obtain ⟨hfirst, hmethods⟩ := List.forall_mem_cons.1 h
      obtain ⟨hnew, hnodup⟩ := List.nodup_cons.1 hnodup
      refine List.forall_mem_cons.2 ⟨?_, fun m hm => ?_⟩
      · have hnone : ∀ m ∈ methods, (members m).filterMap (select first.name) = [] := by
          intro m hm
          rw [hmethods m hm, if_neg]
          exact fun hname => hnew (List.mem_map.2 ⟨m, hm, hname⟩)
        rw [List.flatMap_cons, List.filterMap_append, hfirst, if_pos rfl,
          filterMap_flatMap_eq_nil hnone, List.append_nil]
      · have hname : first.name ≠ m.name :=
          fun hname => hnew (List.mem_map.2 ⟨m, hm, hname.symm⟩)
        rw [List.flatMap_cons, List.filterMap_append, hfirst, if_neg hname, List.nil_append,
          ih hnodup hmethods m hm]

/-- The shorter constructor is found among the constructors. -/
theorem chained_constructors (name : String) (slots : List Slot) :
    (constructors name slots).filterMap TypeMember.chained? = (shorter? [] slots).toList := by
  unfold constructors shorterConstructor shorter?
  cases slots with
  | nil => rfl
  | cons slot slots =>
      rw [if_neg (by simp)]
      cases delegation? [] (slot :: slots) <;> cases slots <;> rfl

theorem forwarded_constructors (owner name : String) (slots : List Slot) :
    (constructors owner slots).filterMap (TypeMember.forwarded? name) = [] := by
  unfold constructors shorterConstructor
  cases slots with
  | nil => rfl
  | cons slot slots => cases delegation? [] (slot :: slots) <;> rfl

theorem method_constructors (owner : String) (slots : List Slot) (members : List TypeMember) :
    (constructors owner slots).filterMap (TypeMember.method? members) = [] := by
  unfold constructors shorterConstructor
  cases slots with
  | nil => rfl
  | cons slot slots => cases delegation? [] (slot :: slots) <;> rfl

theorem chained_classMethod (fields : List String) (m : Method) :
    (classMethod fields m).filterMap TypeMember.chained? = [] := by
  unfold classMethod shorterMethod
  cases m.body with
  | none => rfl
  | some body => cases delegation? fields m.parameters <;> rfl

theorem chained_shorterMethod (modifier : String) (fields : List String) (m : Method) :
    (shorterMethod modifier fields m).filterMap TypeMember.chained? = [] := by
  unfold shorterMethod
  cases delegation? fields m.parameters <;> rfl

/-- If each method is found as one thing, they are found together in order. -/
theorem filterMap_flatMap_eq_map {α : Type} {select : TypeMember → Option α}
    {members : Method → List TypeMember} {f : Method → α} {methods : List Method}
    (h : ∀ m ∈ methods, (members m).filterMap select = [f m]) :
    (methods.flatMap members).filterMap select = methods.map f := by
  induction methods with
  | nil => rfl
  | cons m methods ih =>
      obtain ⟨hm, hmethods⟩ := List.forall_mem_cons.1 h
      rw [List.flatMap_cons, List.filterMap_append, hm, ih hmethods, List.map_cons,
        List.singleton_append]

theorem method_shorterMethod (modifier : String) (fields : List String) (m : Method)
    (members : List TypeMember) :
    (shorterMethod modifier fields m).filterMap (TypeMember.method? members) = [] := by
  unfold shorterMethod
  cases delegation? fields m.parameters <;> rfl

/-- The parameters of a method are read back from its two signatures. -/
theorem slotsOf_parameters {fields : List String} {m : Method} {members : List TypeMember}
    (hlast : ∀ slot ∈ defaulted m.parameters, slot.default?.isSome)
    (hspellable : ∀ slot ∈ m.parameters, SpellableSlot slot)
    (hshorter : members.filterMap (TypeMember.forwarded? m.name) =
      (shorter? fields m.parameters).toList) :
    slotsOf (m.parameters.map formal) (members.findSome? (TypeMember.forwarded? m.name)) =
      Slot.normalAll fields m.parameters := by
  rw [← List.head?_filterMap, hshorter, Option.head?_toList]
  exact slotsOf_shorter? fields hlast hspellable

/-! ## Units -/

namespace TypeTree

/-- The stored attributes that a tree is read back as. -/
def stored (tree : TypeTree) : List Slot :=
  slotsOf (tree.members.filterMap TypeMember.field?) (tree.members.findSome? TypeMember.chained?)

/-- The methods that a tree is read back as. -/
def methods (tree : TypeTree) : List Method :=
  tree.members.filterMap (TypeMember.method? tree.members)

end TypeTree

section

variable {decl : Decl}

/-- The stored attributes of a class are read back from its fields and its constructors. -/
theorem stored_class (haccepted : decl.Accepted) (hspellable : SpellableDecl decl)
    (hkind : unitKind decl = .classType) :
    (outline decl).stored = Slot.normalAll [] decl.stored := by
  have hchained : (outline decl).members.filterMap TypeMember.chained? =
      (shorter? [] decl.stored).toList := by
    simp only [outline, unitMembers, hkind, List.filterMap_append, chained_constructors,
      filterMap_flatMap_eq_nil fun m _ => chained_classMethod _ m, List.append_nil,
      List.filterMap_map]
    simp [TypeMember.chained?, Function.comp_def]
  rw [TypeTree.stored, fields_class hkind, ← List.head?_filterMap, hchained, Option.head?_toList]
  exact slotsOf_shorter? [] haccepted.defaulted_stored hspellable.stored

theorem stored_interface (haccepted : decl.Accepted) (hkind : unitKind decl = .interfaceType) :
    (outline decl).stored = Slot.normalAll [] decl.stored := by
  have hchained : (outline decl).members.filterMap TypeMember.chained? = [] := by
    simp only [outline, unitMembers, hkind, List.filterMap_append,
      filterMap_flatMap_eq_nil fun m _ => chained_shorterMethod _ _ m, List.append_nil,
      List.filterMap_map]
    simp [TypeMember.chained?, Function.comp_def]
  rw [TypeTree.stored, fields_interface hkind, ← List.head?_filterMap, hchained,
    (haccepted.interface_cases hkind).1]
  rfl

/-- The methods of a class are read back from their signatures and bodies. -/
theorem methods_class (haccepted : decl.Accepted) (hspellable : SpellableDecl decl)
    (hkind : unitKind decl = .classType) :
    (outline decl).methods = decl.methods.map (Method.normal (decl.stored.map (·.name))) := by
  have hbodies := haccepted.class_bodies hkind
  have hforwarded : ∀ m ∈ decl.methods,
      (outline decl).members.filterMap (TypeMember.forwarded? m.name) =
        (shorter? (decl.stored.map (·.name)) m.parameters).toList := by
    intro m hm
    rw [← filterMap_flatMap_of_name haccepted.methods_nodup
      (fun m hm => forwarded_classMethod _ (hbodies m hm)) m hm]
    simp only [outline, unitMembers, hkind, List.filterMap_append, forwarded_constructors,
      List.filterMap_map]
    simp [TypeMember.forwarded?, Function.comp_def]
  have hmethod : ∀ m ∈ decl.methods, (classMethod (decl.stored.map (·.name)) m).filterMap
      (TypeMember.method? (outline decl).members) =
        [m.normal (decl.stored.map (·.name))] := by
    intro m hm
    obtain ⟨body, hbody⟩ := Option.isSome_iff_exists.1 (hbodies m hm)
    have hm' := hspellable.methods m hm
    have hexpr := expr_term (bodyScope (decl.stored.map (·.name)) m) body (hm'.body body hbody)
    have hslots := slotsOf_parameters (haccepted.defaulted_parameters m hm) hm'.parameters
      (hforwarded m hm)
    simp [classMethod, hbody, method_shorterMethod, TypeMember.method?, hslots, hexpr,
      Method.normal]
  have hrest (others : List TypeMember) :
      (outline decl).members.filterMap (TypeMember.method? others) =
        (decl.methods.flatMap (classMethod (decl.stored.map (·.name)))).filterMap
          (TypeMember.method? others) := by
    simp only [outline, unitMembers, hkind, List.filterMap_append, method_constructors,
      List.filterMap_map]
    simp [TypeMember.method?, Function.comp_def]
  rw [TypeTree.methods, hrest, filterMap_flatMap_eq_map hmethod]

/-- The methods of an interface are read back from their signatures. -/
theorem methods_interface (haccepted : decl.Accepted) (hspellable : SpellableDecl decl)
    (hkind : unitKind decl = .interfaceType) :
    (outline decl).methods = decl.methods.map (Method.normal (decl.stored.map (·.name))) := by
  obtain ⟨hstored, hbodies⟩ := haccepted.interface_cases hkind
  have hforwarded : ∀ m ∈ decl.methods,
      (outline decl).members.filterMap (TypeMember.forwarded? m.name) =
        (shorter? [] m.parameters).toList := by
    intro m hm
    rw [← filterMap_flatMap_of_name haccepted.methods_nodup
      (fun m _ => forwarded_shorterMethod "default" [] m) m hm]
    simp only [outline, unitMembers, hkind, List.filterMap_append, List.filterMap_map]
    simp [TypeMember.forwarded?, Function.comp_def]
  have hrest (others : List TypeMember) :
      (outline decl).members.filterMap (TypeMember.method? others) = decl.methods.map fun m =>
        ⟨.nowhere, m.returnType, m.name,
          slotsOf (m.parameters.map formal) (others.findSome? (TypeMember.forwarded? m.name)),
          none⟩ := by
    simp only [outline, unitMembers, hkind, List.filterMap_append, List.filterMap_map,
      filterMap_flatMap_eq_nil fun m _ => method_shorterMethod _ _ m others]
    simp [TypeMember.method?, Function.comp_def]
  rw [TypeTree.methods, hrest, hstored]
  refine List.map_congr_left fun m hm => ?_
  rw [slotsOf_parameters (haccepted.defaulted_parameters m hm) (hspellable.methods m hm).parameters
    (hforwarded m hm), Method.normal, hbodies m hm]
  rfl

/-- The outline of an accepted declaration is read back as what counts of it. -/
theorem readback (haccepted : decl.Accepted) (hspellable : SpellableDecl decl) :
    (outline decl).stored = Slot.normalAll [] decl.stored ∧
      (outline decl).methods = decl.methods.map (Method.normal (decl.stored.map (·.name))) := by
  cases hkind : unitKind decl with
  | interfaceType =>
      exact ⟨stored_interface haccepted hkind, methods_interface haccepted hspellable hkind⟩
  | classType =>
      exact ⟨stored_class haccepted hspellable hkind, methods_class haccepted hspellable hkind⟩

end

/-- A declaration is accepted together with others, and becomes a unit together with them. -/
inductive Becomes (decl : Decl) (unit : JavaUnit) : Prop where
  | intro {decls shaped bound : List Decl} {units : List JavaUnit}
      (hshaped : Shape.classify decls = (shaped, none))
      (hunits : emit shaped = .ok ⟨bound, .ok units⟩) (hmem : (decl, unit) ∈ shaped.zip units) :
      Becomes decl unit

theorem Becomes.accepted {decl : Decl} {unit : JavaUnit} (h : Becomes decl unit) :
    decl.Accepted := by
  obtain ⟨hshaped, -, hmem⟩ := h
  exact (Shape.classify_eq hshaped).2 decl (List.of_mem_zip hmem).1

theorem Becomes.emitted {decl : Decl} {unit : JavaUnit} (h : Becomes decl unit) :
    Emitted decl unit := by
  obtain ⟨-, hunits, hmem⟩ := h
  exact (List.forall₂_iff_zip.1 (emitted_of_emit hunits).1).2 hmem

/-- Units with one text belong to declarations that agree. -/
theorem Becomes.agrees {decl other : Decl} {unit otherUnit : JavaUnit} (h : Becomes decl unit)
    (hother : Becomes other otherUnit) (hdecl : ∀ t ∈ decl.terminals, t.Spellable)
    (hotherDecl : ∀ t ∈ other.terminals, t.Spellable) (htext : unit.text = otherUnit.text) :
    decl.Agrees other := by
  have hreads := h.emitted.reads hdecl
  rw [htext] at hreads
  have houtline : outline decl = outline other := hreads.unique (hother.emitted.reads hotherDecl)
  obtain ⟨hstored, hmethods⟩ := readback h.accepted (spellableDecl_of_terminals hdecl)
  obtain ⟨hstored', hmethods'⟩ := readback hother.accepted (spellableDecl_of_terminals hotherDecl)
  have hkind : unitKind decl = unitKind other := congrArg TypeTree.kind houtline
  refine ⟨congrArg TypeTree.name houtline, ?_, congrArg TypeTree.interfaces houtline, ?_, ?_⟩
  · rw [h.accepted.kind, hother.accepted.kind, ← h.accepted.unitKind_eq, hkind,
      hother.accepted.unitKind_eq]
  · rw [← hstored, houtline, hstored']
  · rw [← hmethods, houtline, hmethods']

/-- Expressions with one text in a scope have one meaning there. -/
theorem normal_eq_of_text_eq {scope : Scope} {e other : Expr} {text : String}
    (he : ∀ t ∈ e.terminals, t.Spellable) (hother : ∀ t ∈ other.terminals, t.Spellable)
    (htext : (expressionText scope e).result = .ok text)
    (hotherText : (expressionText scope other).result = .ok text) :
    e.normal scope = other.normal scope := by
  have hspells := ((expressionText_spells scope e he _ htext).append_separates
    separates_semicolon).lexemes?_eq
  have hotherSpells := ((expressionText_spells scope other hother _ hotherText).append_separates
    separates_semicolon).lexemes?_eq
  have hlexemes := Option.some.inj (hspells.symm.trans hotherSpells)
  have hterm := (Term.cancel _ ⟨_, _, rfl, by decide⟩ ⟨_, _, rfl, by decide⟩ hlexemes).1
  rw [← expr_term scope e he, hterm, expr_term scope other hother]

/-- The text of a unit tells everything of its declaration but how an expression without a binding
was written, and the text of an expression tells as much in the scope it is rendered in. -/
theorem text_determines :
    (∀ {decl other : Decl} {unit otherUnit : JavaUnit}, Becomes decl unit →
      Becomes other otherUnit → (∀ t ∈ decl.terminals, t.Spellable) →
      (∀ t ∈ other.terminals, t.Spellable) → unit.text = otherUnit.text → decl.Agrees other) ∧
    ∀ {scope : Scope} {e other : Expr} {text : String}, (∀ t ∈ e.terminals, t.Spellable) →
      (∀ t ∈ other.terminals, t.Spellable) → (expressionText scope e).result = .ok text →
      (expressionText scope other).result = .ok text → e.normal scope = other.normal scope :=
  ⟨fun h hother hdecl hotherDecl htext => h.agrees hother hdecl hotherDecl htext,
    fun he hother htext hotherText => normal_eq_of_text_eq he hother htext hotherText⟩

/-- A default that names an object and one that constructs it give one text, so they mean the same.
-/
theorem text_determines_construction :
    let decl (value : Expr) : Decl :=
      ⟨.nowhere, "A", [], [.attribute true ⟨.nowhere, "T", "x", some value⟩], some .classType⟩
    let reference : Expr := .reference .nowhere "f" none
    let call : Expr := .call .nowhere "f" []
    (decl reference).Agrees (decl call) ∧ reference.normal {} = call.normal {} := by
  intro decl reference call
  let unit : JavaUnit :=
    { name := "A"
      kind := .classType
      text := "public final class A \x7b\n    private final T x;\n\n    public A() \x7b\n" ++
        "        this(new f());\n    \x7d\n\n    public A(final T x) \x7b\n" ++
        "        this.x = x;\n    \x7d\n\x7d\n" }
  have hbecomes (value : Expr) (hshaped : Shape.classify [decl value] = ([decl value], none))
      (hunits : (emit [decl value]).toOption.bind (·.result.toOption) = some [unit]) :
      Becomes (decl value) unit := by
    rcases hemit : emit [decl value] with breakdown | ⟨bound, problem | units⟩ <;>
      rw [hemit] at hunits
    · cases hunits
    · cases hunits
    · cases hunits
      exact ⟨hshaped, hemit, List.mem_singleton_self _⟩
  have hreference : ∀ t ∈ (decl reference).terminals, t.Legible := by decide +kernel
  have hcall : ∀ t ∈ (decl call).terminals, t.Legible := by decide +kernel
  have htext : (expressionText {} reference).result = .ok "new f()" ∧
      (expressionText {} call).result = .ok "new f()" := ⟨rfl, rfl⟩
  refine ⟨text_determines.1 (hbecomes reference rfl (by decide +kernel))
    (hbecomes call rfl (by decide +kernel)) (fun t ht => (hreference t ht).spellable)
    (fun t ht => (hcall t ht).spellable) rfl, ?_⟩
  refine text_determines.2 ?_ ?_ htext.1 htext.2
  · exact fun t ht => Grammar.Terminal.Legible.spellable (by revert t; decide +kernel)
  · exact fun t ht => Grammar.Terminal.Legible.spellable (by revert t; decide +kernel)

end Java

end EoJava
