import EoJava.Proofs.Java.Units

/-!
# Units without positions and bindings

Positions and bindings count neither for the texts that the unit of a declaration is made of
(`texts?_erased`) nor for the unit itself (`emitted_erased`). An emission makes a unit of each
declaration on its own (`emit_of_emitted`).
-/

namespace EoJava

namespace Annotated

variable {α β γ δ : Type}

/-- The result of a stage, if it succeeds. -/
def value? (annotated : Annotated α β) : Option β :=
  annotated.result.toOption

/-- A finished stage has its value. -/
@[simp]
theorem value?_done (node : α) (value : β) : (done node value).value? = some value := rfl

/-- A stopped stage has no value. -/
@[simp]
theorem value?_stop (node : α) (position : Position) (problem : Problem) :
    (stop node position problem : Annotated α β).value? = none := rfl

/-- What is made of a stage has the value made of its own. -/
@[simp]
theorem value?_map (annotated : Annotated α β) (rebuild : α → γ) (f : β → δ) :
    (annotated.map rebuild f).value? = annotated.value?.map f := by
  obtain ⟨node, problem | value⟩ := annotated <;> rfl

/-- A stage has a value exactly if it succeeds with it. -/
theorem value?_eq_some_iff {annotated : Annotated α β} {value : β} :
    annotated.value? = some value ↔ annotated.result = .ok value := by
  obtain ⟨node, problem | found⟩ := annotated <;> simp [value?, Except.toOption]

/-- A visit gives the results of all nodes, if each has one. -/
theorem value?_visit (f : α → Annotated α β) (nodes : List α) :
    (visit f nodes).value? = nodes.mapM fun node => (f node).value? := by
  induction nodes with
  | nil => rfl
  | cons node nodes ih =>
      rw [visit, List.mapM_cons, ← ih]
      rcases f node with ⟨found, problem | value⟩
      · rfl
      · rw [value?_map]
        cases (visit f nodes).value? <;> rfl

/-- Visits of nodes that differ in nothing that counts give the same. -/
theorem value?_visit_map {f g : α → Annotated α β} {change : α → α}
    (h : ∀ node, (f (change node)).value? = (g node).value?) (nodes : List α) :
    (visit f (nodes.map change)).value? = (visit g nodes).value? := by
  rw [value?_visit, value?_visit, List.mapM_map]
  exact congrArg nodes.mapM (funext h)

/-- Where there is no node there is nothing to fail at. -/
@[simp]
theorem value?_visitOption (f : α → Annotated α β) (node? : Option α) :
    (visitOption f node?).value? = node?.elim (some none) fun node => (f node).value?.map some := by
  cases node? with
  | none => rfl
  | some node => exact value?_map _ _ _

end Annotated

namespace Java

/-! ## Texts -/

mutual

/-- The text of an expression depends neither on positions nor on bindings. -/
@[simp]
theorem expressionText_erased (scope : Scope) (e : Expr) :
    (expressionText scope e.erased).value? = (expressionText scope e).value? := by
  cases e with
  | literal position value =>
      rw [Expr.erased, expressionText, expressionText]
      cases literalText? value <;> rfl
  | reference position name binding =>
      rw [Expr.erased, expressionText, expressionText]
      cases scope.refusedBy? name <;> rfl
  | call position name args =>
      have hargs := argumentTexts_erased scope args
      rw [Expr.erased, expressionText, expressionText, Expr.erasedAll_eq_map]
      by_cases hname : name.isEmpty
      · rw [if_pos hname, if_pos hname]
        rfl
      · rw [if_neg hname, if_neg hname, Annotated.value?_map, Annotated.value?_map, hargs]

/-- The texts of arguments depend neither on positions nor on bindings. -/
theorem argumentTexts_erased (scope : Scope) (args : List Expr) :
    (argumentTexts scope (args.map Expr.erased)).value? = (argumentTexts scope args).value? := by
  cases args with
  | nil => rfl
  | cons arg args =>
      have harg := expressionText_erased scope arg
      have hargs := argumentTexts_erased scope args
      rw [argumentTexts_eq_visit, Annotated.value?_visit] at hargs ⊢
      rw [argumentTexts_eq_visit, Annotated.value?_visit] at hargs ⊢
      rw [List.map_cons, List.mapM_cons, List.mapM_cons, harg, hargs]

end

/-- The text of a default depends neither on positions nor on bindings. -/
theorem slotText_erased (fields : List String) (slots : List Slot) (slot : Slot) :
    (slotText fields (slots.map Slot.erased) slot.erased).value? =
      (slotText fields slots slot).value? := by
  rw [slotText, slotText, delegationScope_erased, Annotated.value?_map, Annotated.value?_map]
  cases hdefault : slot.default? <;> simp [hdefault]

/-- The names that a delegation passes on are those of erased slots as well. -/
theorem delegationArguments_erased (slots : List Slot) (defaults : List (Option String)) :
    delegationArguments (slots.map Slot.erased) defaults = delegationArguments slots defaults := by
  rw [Slot.erased_eq_mapNodes, delegationArguments_mapNodes]

/-- The texts of a delegation depend neither on positions nor on bindings. -/
theorem methodDelegation_erased (fields : List String) (m : Method) :
    (methodDelegation fields m.erased).value? = (methodDelegation fields m).value? := by
  unfold methodDelegation
  simp only [Method.parameters_erased, hasDefaults_erased, delegationArguments_erased]
  by_cases hdefaults : hasDefaults m.parameters
  · rw [if_pos hdefaults, if_pos hdefaults, Annotated.value?_map, Annotated.value?_map]
    rw [Annotated.value?_visit, Annotated.value?_visit, List.mapM_map]
    simp only [Function.comp_def, slotText_erased]
  · rw [if_neg hdefaults, if_neg hdefaults]
    rfl

/-- The body of a method does not count for its delegation. -/
theorem methodDelegation_body (fields : List String) (m : Method) (body : Option Expr) :
    (methodDelegation fields { m with body }).value? = (methodDelegation fields m).value? := by
  unfold methodDelegation
  by_cases hdefaults : hasDefaults m.parameters
  · rw [if_pos hdefaults, if_pos hdefaults, Annotated.value?_map, Annotated.value?_map]
  · rw [if_neg hdefaults, if_neg hdefaults]
    rfl

/-- The texts of a method of a class are that of its body and those of its delegation. -/
theorem value?_classMethodTexts (fields : List String) (m : Method) :
    (classMethodTexts fields m).value? = m.body.elim (some ⟨none, none⟩) fun body =>
      (expressionText (bodyScope fields m) body).value?.bind fun text =>
        (methodDelegation fields m).value?.map (⟨some text, ·⟩) := by
  rw [classMethodTexts]
  cases m.body with
  | none => rfl
  | some body =>
      rw [Option.elim_some, bodyScope]
      rcases hbody : expressionText { fields, parameters := m.parameters.map (·.name) } body with
        ⟨found, problem | text⟩
      · simp only [hbody]
        rfl
      · simp only [hbody]
        rw [Annotated.value?_map, methodDelegation_body]
        rfl

/-- The texts of a method of a class depend neither on positions nor on bindings. -/
theorem classMethodTexts_erased (fields : List String) (m : Method) :
    (classMethodTexts fields m.erased).value? = (classMethodTexts fields m).value? := by
  have hscope : bodyScope fields m.erased = bodyScope fields m := by
    simp [bodyScope, Function.comp_def]
  rw [value?_classMethodTexts, value?_classMethodTexts, methodDelegation_erased, hscope]
  cases hbody : m.body <;> simp [hbody]

/-- The texts of a method of an interface depend neither on positions nor on bindings. -/
theorem interfaceMethodTexts_erased (m : Method) :
    (interfaceMethodTexts m.erased).value? = (interfaceMethodTexts m).value? := by
  rw [interfaceMethodTexts, interfaceMethodTexts, Annotated.value?_map, Annotated.value?_map,
    methodDelegation_erased]

/-- If the texts of each method are those of the erased one, so are the texts of all. -/
theorem visitMethods_erased {β : Type} {f g : Method → Annotated Method β}
    (h : ∀ m, (f m.erased).value? = (g m).value?) (members : List Member) :
    (visitMethods f (members.map Member.erased)).value? = (visitMethods g members).value? := by
  refine Annotated.value?_visit_map (fun member => ?_) members
  rcases member with ⟨stored, slot⟩ | m
  · rfl
  · simp only [Member.erased, Annotated.value?_map, h]

/-- If the texts of each stored attribute are those of the erased one, so are the texts of all. -/
theorem visitStored_erased {β : Type} {f g : Slot → Annotated Slot β}
    (h : ∀ slot, (f slot.erased).value? = (g slot).value?) (members : List Member) :
    (visitStored f (members.map Member.erased)).value? = (visitStored g members).value? := by
  refine Annotated.value?_visit_map (fun member => ?_) members
  rcases member with ⟨_ | _, slot⟩ | m
  · rfl
  · simp only [Member.erased, Annotated.value?_map, h]
  · rfl

/-- The texts of an interface depend neither on positions nor on bindings. -/
theorem interfaceTexts_erased (decl : Decl) :
    (interfaceTexts decl.erased).value? = (interfaceTexts decl).value? := by
  rw [interfaceTexts, interfaceTexts, Annotated.value?_map, Annotated.value?_map]
  exact congrArg _ (visitMethods_erased interfaceMethodTexts_erased decl.members)

/-- The texts of constructors depend neither on positions nor on bindings. -/
theorem constructorTexts_erased (decl : Decl) :
    (constructorTexts decl.erased).value? = (constructorTexts decl).value? := by
  simp only [constructorTexts, Decl.stored_erased, hasDefaults_erased, delegationArguments_erased]
  by_cases hdefaults : hasDefaults decl.stored
  · rw [if_pos hdefaults, if_pos hdefaults, Annotated.value?_map, Annotated.value?_map]
    exact congrArg _ (visitStored_erased (slotText_erased [] decl.stored) decl.members)
  · rw [if_neg hdefaults, if_neg hdefaults]
    rfl

/-- The texts of the methods of a class do not depend on what became of its constructors. -/
theorem value?_classTexts (decl : Decl) : (classTexts decl).value? =
    (constructorTexts decl).value?.bind fun constructor =>
      (visitMethods (classMethodTexts (decl.stored.map (·.name))) decl.members).value?.map
        fun texts => ⟨constructor, texts.filterMap id⟩ := by
  have herased := erased_constructorTexts decl
  have hfields := fields_constructorTexts decl
  rw [classTexts]
  rcases hconstructor : constructorTexts decl with ⟨found, problem | constructor⟩
  · rfl
  · rw [hconstructor] at herased hfields
    -- The members were bound where the constructor was rendered, so they are compared erased.
    have hmembers : found.members.map Member.erased = decl.members.map Member.erased :=
      congrArg Decl.members herased
    simp only [Annotated.value?_map]
    rw [hfields, ← visitMethods_erased (classMethodTexts_erased _), hmembers,
      visitMethods_erased (classMethodTexts_erased _)]
    rfl

/-- The texts of a class depend neither on positions nor on bindings. -/
theorem classTexts_erased (decl : Decl) :
    (classTexts decl.erased).value? = (classTexts decl).value? := by
  have hfields : decl.erased.stored.map (·.name) = decl.stored.map (·.name) := by
    simp [Decl.stored_erased, Function.comp_def]
  have hmethods := visitMethods_erased (classMethodTexts_erased (decl.stored.map (·.name)))
    decl.members
  rw [value?_classTexts, value?_classTexts, constructorTexts_erased, hfields, ← hmethods]
  rfl

/-- Positions and bindings do not count for the texts of a declaration. -/
theorem declTexts_erased (decl : Decl) :
    (declTexts decl.erased).value? = (declTexts decl).value? := by
  have hkind : unitKind decl.erased = unitKind decl := rfl
  unfold declTexts
  rw [hkind]
  cases unitKind decl with
  | interfaceType => exact interfaceTexts_erased decl
  | classType => exact classTexts_erased decl

/-! ## Units -/

/-- A signature is written with names and types only. -/
theorem signature_erased (name : String) (slots : List Slot) :
    signature name (slots.map Slot.erased) = signature name slots := by
  simp [signature, formals, Function.comp_def]

/-- The clause of interfaces is written with their names only. -/
theorem interfaceClause_erased (keyword : String) (decl : Decl) :
    interfaceClause keyword decl.erased = interfaceClause keyword decl := by
  simp [interfaceClause, Decl.erased, Located.placeless, Function.comp_def]

/-- A delegation is written alike for an erased method. -/
theorem writeDelegation_erased (modifier : String) (m : Method) (texts : MethodTexts)
    (writer : Writer) :
    writeDelegation modifier m.erased texts writer = writeDelegation modifier m texts writer := by
  simp [writeDelegation, required_erased, signature_erased]

/-- A method is written alike when it is erased. -/
theorem writeMethod_erased (writer : Writer) (entry : Method × MethodTexts) :
    writeMethod writer (entry.map Method.erased id) = writeMethod writer entry := by
  simp [writeMethod, signature_erased, writeDelegation_erased]

/-- Constructors are written alike for an erased declaration. -/
theorem writeConstructors_erased (decl : Decl) (texts : DeclTexts) (writer : Writer) :
    writeConstructors decl.erased texts writer = writeConstructors decl texts writer := by
  have hname : decl.erased.name = decl.name := rfl
  simp [writeConstructors, Decl.stored_erased, required_erased, signature_erased, hname,
    Function.comp_def]

/-- The unit of a class is written alike for an erased declaration. -/
theorem classUnit_erased (decl : Decl) (texts : DeclTexts) :
    classUnit decl.erased texts = classUnit decl texts := by
  have hname : decl.erased.name = decl.name := rfl
  simp [classUnit, hname, interfaceClause_erased, Decl.stored_erased, Decl.methods_erased,
    writeConstructors_erased, List.zip_map_left, List.foldlM_map, writeMethod_erased,
    Function.comp_def]

/-- The unit of an interface is written alike for an erased declaration. -/
theorem interfaceUnit_erased (decl : Decl) (texts : DeclTexts) :
    interfaceUnit decl.erased texts = interfaceUnit decl texts := by
  have hname : decl.erased.name = decl.name := rfl
  simp [interfaceUnit, hname, interfaceClause_erased, Decl.methods_erased, signature_erased,
    List.zip_map_left, List.foldlM_map, writeDelegation_erased, Function.comp_def]

/-- Given its texts, the unit of a declaration is that of the erased one. -/
theorem unitOf_erased (decl : Decl) (texts : DeclTexts) :
    unitOf decl.erased texts = unitOf decl texts := by
  have hkind : unitKind decl.erased = unitKind decl := rfl
  have hname : decl.erased.name = decl.name := rfl
  rw [unitOf, unitOf, hkind, hname, interfaceUnit_erased, classUnit_erased]

/-- A unit is that of a declaration exactly if it is written with the texts of this one. -/
theorem emitted_iff {decl : Decl} {unit : JavaUnit} : Emitted decl unit ↔
    ∃ texts, (declTexts decl).value? = some texts ∧ unitOf decl texts = .ok unit := by
  -- The unit is made of the declaration after its references are bound.
  have hnode : ∀ texts, unitOf (declTexts decl).node texts = unitOf decl texts := fun texts => by
    rw [← unitOf_erased, erased_declTexts, unitOf_erased]
  constructor
  · rintro ⟨htexts, hunit⟩
    exact ⟨_, Annotated.value?_eq_some_iff.2 htexts, hnode _ ▸ hunit⟩
  · rintro ⟨texts, htexts, hunit⟩
    exact ⟨Annotated.value?_eq_some_iff.1 htexts, (hnode texts).trans hunit⟩

/-- Positions and bindings do not count for the unit of a declaration. -/
theorem emitted_erased {decl : Decl} {unit : JavaUnit} :
    Emitted decl.erased unit ↔ Emitted decl unit := by
  rw [emitted_iff, emitted_iff, declTexts_erased]
  simp only [unitOf_erased]

/-- Declarations that are the same when erased have the same unit. -/
theorem Emitted.congr {decl other : Decl} {unit : JavaUnit} (h : Emitted decl unit)
    (heq : other.erased = decl.erased) : Emitted other unit :=
  emitted_erased.1 (heq ▸ emitted_erased.2 h)

/-- A unit has the name of its declaration. -/
theorem Emitted.name_eq {decl : Decl} {unit : JavaUnit} (h : Emitted decl unit) :
    unit.name = decl.name := by
  obtain ⟨texts, -, hunit⟩ := emitted_iff.1 h
  unfold unitOf at hunit
  cases hkind : unitKind decl <;>
  · simp only [hkind] at hunit
    obtain ⟨text, -, hpure⟩ := exists_of_bind_eq_ok hunit
    cases hpure
    rfl

/-! ## Emissions of several declarations -/

/-- The units of declarations have their names, in the same order. -/
theorem names_of_emitted {decls : List Decl} {units : List JavaUnit}
    (h : List.Forall₂ Emitted decls units) : units.map JavaUnit.name = decls.map Decl.name := by
  have hnames := h.imp fun decl unit (hunit : Emitted decl unit) => hunit.name_eq
  have hmap : List.Forall₂ Eq (units.map JavaUnit.name) (decls.map Decl.name) :=
    List.forall₂_map_left_iff.2 (List.forall₂_map_right_iff.2 hnames.flip)
  rwa [List.forall₂_eq_eq_eq] at hmap

/-- The emission of a declaration that has a unit gives this unit. -/
theorem value?_emission {decl : Decl} {unit : JavaUnit} (h : Emitted decl unit) :
    (emission decl).value? = some (.ok unit) := by
  obtain ⟨htexts, hunit⟩ := h
  rw [emission, Annotated.value?_map, Annotated.value?_eq_some_iff.2 htexts, Option.map_some, hunit]

/-- If every declaration becomes a unit, an emission gives these units. -/
theorem emit_of_emitted {decls : List Decl} {units : List JavaUnit}
    (h : List.Forall₂ Emitted decls units) : ∃ bound, emit decls = .ok ⟨bound, .ok units⟩ := by
  have hvisit : (Annotated.visit emission decls).value? = some (units.map .ok) := by
    rw [Annotated.value?_visit]
    induction h with
    | nil => rfl
    | cons hunit hunits ih =>
        rw [List.mapM_cons, value?_emission hunit, ih]
        rfl
  have hsteps : (units.map Except.ok).mapM id = (.ok units : Except Breakdown (List JavaUnit)) := by
    rw [List.mapM_map]
    exact List.mapM_pure.trans (congrArg pure units.map_id)
  have hresult : (Annotated.visit (fun decl => (declTexts decl).map id
      (unitOf (declTexts decl).node)) decls).result = .ok (units.map .ok) :=
    Annotated.value?_eq_some_iff.1 hvisit
  refine ⟨(Annotated.visit emission decls).node, ?_⟩
  simp only [emit, hresult, hsteps, ok_bind]
  rfl

end Java

end EoJava
