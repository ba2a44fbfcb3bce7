import EoJava.Proofs.Java.Units
import EoJava.Proofs.Shape.Accepted

/-!
# Names in units

A tree is scoped if every bare name in it is a formal parameter of the method or constructor around
it, and every field that is read through `this` is one of the class. The outline of every
declaration is scoped (`outline_scoped`). If the unit of an accepted declaration is emitted, all its
defaults are rendered (`Emitted.rendered`), and none uses a slot that the shorter signature leaves
out (`Emitted.available`).
-/

namespace EoJava

namespace Java

/-! ## Scoped trees -/

/-- The bare names of a term are among `formals`, and the fields that it reads among `fields`. -/
inductive Term.Scoped (fields formals : List String) : Term → Prop where
  | string (value : String) : Scoped fields formals (.string value)
  | number (negative : Bool) (digits : String) : Scoped fields formals (.number negative digits)
  | boolean (value : Bool) : Scoped fields formals (.boolean value)
  | name {name : String} (h : name ∈ formals) : Scoped fields formals (.name name)
  | field {name : String} (h : name ∈ fields) : Scoped fields formals (.field name)
  | construct (name : String) {args : List Term} (h : ∀ arg ∈ args, Scoped fields formals arg) :
      Scoped fields formals (.construct name args)

/-- A statement is scoped in a class with `fields` where the parameters are `formals`. No field can
be read before a constructor has called another. -/
inductive Statement.Scoped (fields formals : List String) : Statement → Prop where
  | returned {value : Term} (h : value.Scoped fields formals) :
      Scoped fields formals (.returned value)
  | forwarded (method : String) {args : List Term} (h : ∀ arg ∈ args, arg.Scoped fields formals) :
      Scoped fields formals (.forwarded method args)
  | chained {args : List Term} (h : ∀ arg ∈ args, arg.Scoped [] formals) :
      Scoped fields formals (.chained args)
  | assigned {name : String} (hfield : name ∈ fields) (hformal : name ∈ formals) :
      Scoped fields formals (.assigned name)

/-- The statements of a member are scoped with its own parameters. -/
inductive TypeMember.Scoped (fields : List String) : TypeMember → Prop where
  | field (typeName name : String) : Scoped fields (.field typeName name)
  | signature (typeName name : String) (formals : List Formal) :
      Scoped fields (.signature typeName name formals)
  | constructor (name : String) {formals : List Formal} {body : List Statement}
      (h : ∀ s ∈ body, s.Scoped fields (formals.map (·.name))) :
      Scoped fields (.constructor name formals body)
  | method (modifier typeName name : String) {formals : List Formal} {body : List Statement}
      (h : ∀ s ∈ body, s.Scoped fields (formals.map (·.name))) :
      Scoped fields (.method modifier typeName name formals body)

namespace TypeTree

/-- The names of the fields that are declared in a type. -/
def fields (tree : TypeTree) : List String :=
  (tree.members.filterMap TypeMember.field?).map (·.name)

/-- All members are scoped with the declared fields, and an interface declares none. -/
structure Scoped (tree : TypeTree) : Prop where
  members : ∀ m ∈ tree.members, m.Scoped tree.fields
  noField : tree.kind = .interfaceType → tree.fields = []

end TypeTree

/-! ## Outlines are scoped -/

/-- No name is used in a literal. -/
theorem literalTerm_scoped (fields formals : List String) (value : Literal) :
    (literalTerm value).Scoped fields formals := by
  cases value with
  | string value => exact .string value
  | boolean value => exact .boolean value
  | number text =>
      rw [literalTerm]
      unfold numberTerm
      split <;> exact .number _ _

/-- A name is bound to a field or a parameter only if there is one of that name. -/
theorem referenceTerm_scoped (scope : Scope) (name : String) :
    (referenceTerm name (scope.resolve name)).Scoped scope.fields scope.parameters := by
  unfold Scope.resolve
  by_cases hfield : name ∈ scope.fields
  · rw [if_pos hfield]
    exact .field hfield
  · rw [if_neg hfield]
    by_cases hparameter : name ∈ scope.parameters
    · rw [if_pos hparameter]
      exact .name hparameter
    · rw [if_neg hparameter]
      exact .construct name (List.forall_mem_nil _)

mutual

/-- The term of an expression uses the names of its scope. -/
theorem term_scoped (scope : Scope) (e : Expr) :
    (term scope e).Scoped scope.fields scope.parameters := by
  cases e with
  | literal position value => exact literalTerm_scoped _ _ value
  | reference position name binding => exact referenceTerm_scoped scope name
  | call position name args => exact .construct name (terms_scoped scope args)

/-- The terms of arguments are scoped with the fields and parameters around them. -/
theorem terms_scoped (scope : Scope) (args : List Expr) :
    ∀ t ∈ terms scope args, t.Scoped scope.fields scope.parameters := by
  cases args with
  | nil => exact List.forall_mem_nil _
  | cons arg args => exact List.forall_mem_cons.2 ⟨term_scoped scope arg, terms_scoped scope args⟩

end

/-- The arguments of a delegation use the slots that the shorter signature has. -/
theorem delegationTerms_scoped (fields : List String) (slots : List Slot) :
    ∀ t ∈ delegationTerms fields slots,
      t.Scoped fields (((required slots).map formal).map (·.name)) := by
  rw [List.map_map]
  refine List.forall_mem_append.2 ⟨fun t ht => ?_, fun t ht => ?_⟩
  · obtain ⟨slot, hslot, rfl⟩ := List.mem_map.1 ht
    exact .name (List.mem_map.2 ⟨slot, hslot, rfl⟩)
  · obtain ⟨slot, -, ht⟩ := List.mem_filterMap.1 ht
    obtain ⟨e, -, rfl⟩ := Option.map_eq_some_iff.1 ht
    exact term_scoped (delegationScope fields slots slot.name) e

/-- A shorter method uses its own parameters and the fields. -/
theorem shorterMethod_scoped (modifier : String) (fields : List String) (m : Method) :
    ∀ member ∈ shorterMethod modifier fields m, member.Scoped fields := by
  unfold shorterMethod delegation?
  by_cases hdefaults : hasDefaults m.parameters
  · simp only [hdefaults, ↓reduceIte, List.forall_mem_singleton]
    refine .method _ _ _ (List.forall_mem_singleton.2 (.forwarded _ ?_))
    exact delegationTerms_scoped fields m.parameters
  · simp [hdefaults]

/-- The members that a method becomes use their own parameters and the fields. -/
theorem classMethod_scoped (fields : List String) (m : Method) :
    ∀ member ∈ classMethod fields m, member.Scoped fields := by
  unfold classMethod
  cases m.body with
  | none => exact List.forall_mem_nil _
  | some body =>
      refine List.forall_mem_cons.2 ⟨?_, shorterMethod_scoped _ fields m⟩
      refine .method _ _ _ (List.forall_mem_singleton.2 (.returned ?_))
      have hbody := term_scoped (bodyScope fields m) body
      rwa [List.map_map]

/-- The constructors use their own parameters, and read no field before all are set. -/
theorem constructors_scoped (name : String) (slots : List Slot) :
    ∀ member ∈ constructors name slots, member.Scoped (slots.map (·.name)) := by
  unfold constructors
  by_cases hempty : slots.isEmpty
  · rw [if_pos hempty]
    exact List.forall_mem_nil _
  · rw [if_neg hempty]
    refine List.forall_mem_append.2 ⟨?_, List.forall_mem_singleton.2 (.constructor _ ?_)⟩
    · unfold shorterConstructor delegation?
      by_cases hdefaults : hasDefaults slots
      · simp only [hdefaults, ↓reduceIte, List.forall_mem_singleton]
        refine .constructor _ (List.forall_mem_singleton.2 (.chained ?_))
        exact delegationTerms_scoped [] slots
      · simp [hdefaults]
    · intro s hs
      obtain ⟨slot, hslot, rfl⟩ := List.mem_map.1 hs
      have hname : slot.name ∈ slots.map (·.name) := List.mem_map.2 ⟨slot, hslot, rfl⟩
      exact .assigned hname (by rwa [List.map_map])

/-- The outline of every declaration is scoped. -/
theorem outline_scoped (decl : Decl) : (outline decl).Scoped := by
  cases hkind : unitKind decl with
  | interfaceType =>
      have hfields : (outline decl).fields = [] := by
        rw [TypeTree.fields, fields_interface hkind, List.map_nil]
      refine ⟨?_, fun _ => hfields⟩
      rw [hfields]
      simp only [outline, unitMembers, hkind]
      refine List.forall_mem_append.2 ⟨fun member hmember => ?_, fun member hmember => ?_⟩
      · obtain ⟨m, -, rfl⟩ := List.mem_map.1 hmember
        exact .signature _ _ _
      · obtain ⟨m, -, hm⟩ := List.mem_flatMap.1 hmember
        exact shorterMethod_scoped _ [] m member hm
  | classType =>
      have hfields : (outline decl).fields = decl.stored.map (·.name) := by
        rw [TypeTree.fields, fields_class hkind, List.map_map]
        rfl
      refine ⟨?_, fun hinterface => absurd (hkind.symm.trans hinterface) (by decide)⟩
      rw [hfields]
      simp only [outline, unitMembers, hkind]
      refine List.forall_mem_append.2 ⟨fun member hmember => ?_,
        List.forall_mem_append.2 ⟨constructors_scoped _ _, fun member hmember => ?_⟩⟩
      · obtain ⟨slot, -, rfl⟩ := List.mem_map.1 hmember
        exact .field _ _
      · obtain ⟨m, -, hm⟩ := List.mem_flatMap.1 hmember
        exact classMethod_scoped _ m member hm

end Java

/-! ## Slots that are left out -/

namespace Expr

mutual

/-- The bare names that an expression refers to. -/
def references : Expr → List String
  | .literal .. => []
  | .reference _ name _ => [name]
  | .call _ _ args => allReferences args

/-- The bare names that arguments refer to. -/
def allReferences : List Expr → List String
  | [] => []
  | arg :: args => arg.references ++ allReferences args

end

mutual

/-- Erasing an expression keeps the names it refers to. -/
@[simp]
theorem references_erased (e : Expr) : e.erased.references = e.references := by
  cases e with
  | literal | reference => rfl
  | call position name args =>
      have hargs := allReferences_erased args
      simpa [erased, references] using hargs

/-- Erasing arguments keeps the names they refer to. -/
theorem allReferences_erased (args : List Expr) :
    allReferences (args.map erased) = allReferences args := by
  cases args with
  | nil => rfl
  | cons arg args =>
      rw [List.map_cons, allReferences, references_erased arg, allReferences_erased args,
        allReferences]

end

end Expr

namespace Java

/-- No default of a slot uses a slot that the shorter signature leaves out. -/
def Available (slots : List Slot) : Prop :=
  ∀ slot ∈ slots, ∀ e ∈ slot.default?, ∀ name ∈ e.references,
    name ∉ (defaulted slots).map (·.name)

/-- Positions and bindings do not count for what defaults use. -/
theorem available_erased {slots : List Slot} :
    Available (slots.map Slot.erased) ↔ Available slots := by
  simp [Available, defaulted_erased, Function.comp_def]

/-- Whether defaults use what is left out depends neither on positions nor on bindings. -/
theorem available_congr {slots others : List Slot}
    (h : slots.map Slot.erased = others.map Slot.erased) : Available slots ↔ Available others := by
  rw [← available_erased, h, available_erased]

mutual

/-- An expression that is rendered uses no name that is refused. -/
theorem expressionText_refuses (scope : Scope) (e : Expr) :
    (expressionText scope e).Gives fun _ =>
      ∀ name ∈ e.references, scope.refusedBy? name = none := by
  cases e with
  | literal position value =>
      rw [expressionText]
      cases literalText? value with
      | ok text =>
          refine Annotated.Gives.done ?_ _
          exact List.forall_mem_nil _
      | error problem => exact .stop _ _ _
  | reference position name binding =>
      rw [expressionText]
      cases hrefused : scope.refusedBy? name with
      | none =>
          refine Annotated.Gives.done ?_ _
          exact List.forall_mem_singleton.2 hrefused
      | some slot => exact .stop _ _ _
  | call position name args =>
      rw [expressionText]
      by_cases hempty : name.isEmpty
      · rw [if_pos hempty]
        exact .stop _ _ _
      · rw [if_neg hempty]
        exact (argumentTexts_refuses scope args).map _ fun _ hargs => hargs

/-- If arguments are rendered, none refers to a name that is refused. -/
theorem argumentTexts_refuses (scope : Scope) (args : List Expr) :
    (argumentTexts scope args).Gives fun _ =>
      ∀ name ∈ Expr.allReferences args, scope.refusedBy? name = none := by
  cases args with
  | nil =>
      refine Annotated.Gives.done ?_ _
      exact List.forall_mem_nil _
  | cons arg args =>
      have hgives := expressionText_refuses scope arg
      rw [argumentTexts]
      rcases htext : expressionText scope arg with ⟨found, problem | text⟩
      · rintro _ ⟨⟩
      · rw [htext] at hgives
        exact (argumentTexts_refuses scope args).map _ fun _ hargs =>
          List.forall_mem_append.2 ⟨hgives text rfl, hargs⟩

end

/-! ## Defaults -/

/-- The default of each slot has a text where a shorter signature delegates. -/
def Rendered (fields : List String) (slots : List Slot) : Prop :=
  ∀ slot ∈ slots, ∀ e ∈ slot.default?, ∃ text,
    (expressionText (delegationScope fields slots slot.name) e).result = .ok text

/-- If the defaults of slots are rendered, they use no slot that is left out. -/
theorem Rendered.available {fields : List String} {slots : List Slot} (h : Rendered fields slots) :
    Available slots := by
  intro slot hslot e he name hname hleft
  obtain ⟨text, htext⟩ := h slot hslot e he
  have hrefused := expressionText_refuses _ e text htext name hname
  simp [Scope.refusedBy?, delegationScope, hleft] at hrefused

/-- A default whose text is given can be rendered where the shorter signature delegates. -/
theorem slotText_rendered (fields : List String) (slots : List Slot) (slot : Slot) :
    (slotText fields slots slot).Gives fun _ => ∀ e ∈ slot.default?, ∃ text,
      (expressionText (delegationScope fields slots slot.name) e).result = .ok text := by
  have hself : ∀ e ∈ slot.default?, (expressionText (delegationScope fields slots slot.name) e).Gives
      fun text => (expressionText (delegationScope fields slots slot.name) e).result = .ok text :=
    fun e _ text htext => htext
  refine (Annotated.Gives.visitOption hself).map _ fun text? htext => ?_
  intro e he
  rw [Option.mem_def.1 he] at htext
  cases htext with
  | some htext => exact ⟨_, htext⟩

/-- Without defaults there is nothing to render. -/
theorem rendered_of_not_hasDefaults (fields : List String) {slots : List Slot}
    (h : ¬hasDefaults slots) : Rendered fields slots := by
  intro slot hslot e he
  exact absurd (List.any_eq_true.2 ⟨slot, hslot, by simp [Option.mem_def.1 he]⟩) h

/-- If the delegation of a method is given, its defaults can be rendered. -/
theorem methodDelegation_rendered (fields : List String) (m : Method) :
    (methodDelegation fields m).Gives fun _ => Rendered fields m.parameters := by
  unfold methodDelegation
  by_cases hdefaults : hasDefaults m.parameters
  · rw [if_pos hdefaults]
    exact (Annotated.Gives.visit fun slot _ => slotText_rendered fields m.parameters slot).map _
      fun _ htexts => forall_of_forall₂ htexts
  · rw [if_neg hdefaults]
    refine Annotated.Gives.done ?_ _
    exact rendered_of_not_hasDefaults fields hdefaults

/-- If the texts of a method with a body are given, its defaults can be rendered. -/
theorem classMethodTexts_rendered (fields : List String) (m : Method) :
    (classMethodTexts fields m).Gives fun _ => m.body.isSome → Rendered fields m.parameters := by
  rw [classMethodTexts]
  cases m.body with
  | none =>
      refine Annotated.Gives.done ?_ _
      intro hsome
      cases hsome
  | some body =>
      rcases htext : expressionText { fields, parameters := m.parameters.map (·.name) } body with
        ⟨found, problem | text⟩
      · simp only [htext]
        rintro _ ⟨⟩
      · simp only [htext]
        have hshorter := methodDelegation_rendered fields { m with body := some found }
        exact hshorter.map _ fun _ hslots _ => hslots

/-- If the texts of constructors are given, the defaults can be rendered. -/
theorem constructorTexts_rendered (decl : Decl) :
    (constructorTexts decl).Gives fun _ => Rendered [] decl.stored := by
  simp only [constructorTexts]
  by_cases hdefaults : hasDefaults decl.stored
  · rw [if_pos hdefaults]
    exact (visitStored_gives fun slot _ => slotText_rendered [] decl.stored slot).map _
      fun _ htexts => forall_of_forall₂ htexts
  · rw [if_neg hdefaults]
    refine Annotated.Gives.done ?_ _
    exact rendered_of_not_hasDefaults [] hdefaults

/-- If the texts of a class are given, the defaults of its fields and methods can be rendered. -/
theorem classTexts_rendered (decl : Decl) :
    (classTexts decl).Gives fun _ => Rendered [] decl.stored ∧
      ∀ m ∈ decl.methods, m.body.isSome →
        Rendered (decl.stored.map (·.name)) m.parameters := by
  have hgives := constructorTexts_rendered decl
  have hmethods := methods_constructorTexts decl
  have hfields := fields_constructorTexts decl
  rw [classTexts]
  rcases hfound : constructorTexts decl with ⟨found, problem | constructor⟩
  · rintro _ ⟨⟩
  · rw [hfound] at hgives hmethods hfields
    simp only at hmethods hfields
    rw [← hmethods, ← hfields]
    exact (visitMethods_gives fun m _ =>
      classMethodTexts_rendered (found.stored.map (·.name)) m).map _
        fun _ htexts => ⟨hgives constructor rfl, forall_of_forall₂ htexts⟩

/-- If the texts of a method of an interface are given, its defaults can be rendered. -/
theorem interfaceMethodTexts_rendered (m : Method) :
    (interfaceMethodTexts m).Gives fun _ => Rendered [] m.parameters :=
  (methodDelegation_rendered [] m).map _ fun _ hslots => hslots

/-- If the texts of an interface are given, the defaults of its methods can be rendered. -/
theorem interfaceTexts_rendered (decl : Decl) :
    (interfaceTexts decl).Gives fun _ => ∀ m ∈ decl.methods, Rendered [] m.parameters :=
  (visitMethods_gives fun m _ => interfaceMethodTexts_rendered m).map _
    fun _ htexts => forall_of_forall₂ htexts

/-- If the unit of an accepted declaration is emitted, all its defaults are rendered. -/
theorem Emitted.rendered {decl : Decl} {unit : JavaUnit} (h : Emitted decl unit)
    (haccepted : decl.Accepted) :
    Rendered [] decl.stored ∧
      ∀ m ∈ decl.methods, Rendered (decl.stored.map (·.name)) m.parameters := by
  obtain ⟨htexts, -⟩ := h
  unfold declTexts at htexts
  cases hkind : unitKind decl with
  | interfaceType =>
      rw [hkind] at htexts
      obtain ⟨hstored, -⟩ := haccepted.interface_cases hkind
      rw [hstored]
      exact ⟨fun _ hslot => absurd hslot List.not_mem_nil, interfaceTexts_rendered decl _ htexts⟩
  | classType =>
      rw [hkind] at htexts
      obtain ⟨hstored, hmethods⟩ := classTexts_rendered decl _ htexts
      exact ⟨hstored, fun m hm => hmethods m hm (haccepted.class_bodies hkind m hm)⟩

/-- The defaults of an accepted declaration with a unit use no slot that is left out. -/
theorem Emitted.available {decl : Decl} {unit : JavaUnit} (h : Emitted decl unit)
    (haccepted : decl.Accepted) :
    Available decl.stored ∧ ∀ m ∈ decl.methods, Available m.parameters := by
  obtain ⟨hstored, hmethods⟩ := h.rendered haccepted
  exact ⟨hstored.available, fun m hm => (hmethods m hm).available⟩

end Java

end EoJava
