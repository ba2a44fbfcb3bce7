import EoJava.Proofs.Java.Texts

/-!
# Texts at other places

Declarations at other places become the same units, with the same bindings, or they stop at the same
problem, at the place that is now its own (`emit_relocated`). This holds of every part of them,
since the place of a node is read only where the node is refused.
-/

namespace EoJava

namespace Annotated

variable {α β γ δ : Type} {f : Position → Position} {move : α → α} {moveAll : γ → γ}

/-- A node that is moved, and the result of a stage with the place of its problem changed. -/
def relocated (f : Position → Position) (move : α → α) (annotated : Annotated α β) :
    Annotated α β :=
  ⟨move annotated.node, annotated.result.mapError (Located.relocate f)⟩

/-- A finished stage is finished at the other place, with the same value. -/
@[simp]
theorem relocated_done (node : α) (value : β) :
    (done node value).relocated f move = done (move node) value :=
  rfl

/-- A stopped stage stops at the other place. -/
@[simp]
theorem relocated_stop (node : α) (position : Position) (problem : Problem) :
    (stop node position problem : Annotated α β).relocated f move =
      stop (move node) (f position) problem :=
  rfl

/-- A larger node is moved with the node inside it. -/
theorem map_relocated {rebuild moved : α → γ}
    (h : ∀ node, moved (move node) = moveAll (rebuild node)) (g : β → δ)
    (annotated : Annotated α β) :
    (annotated.relocated f move).map moved g = (annotated.map rebuild g).relocated f moveAll := by
  obtain ⟨node, problem | value⟩ := annotated <;>
    simp [Annotated.map, relocated, Except.map, Except.mapError, h]

/-- Visits are moved together if each of them is. -/
theorem visit_relocated {visitor other : α → Annotated α β}
    (h : ∀ node, other (move node) = (visitor node).relocated f move) (nodes : List α) :
    visit other (nodes.map move) = (visit visitor nodes).relocated f (List.map move) := by
  induction nodes with
  | nil => rfl
  | cons node nodes ih =>
      rw [List.map_cons, visit, visit, h]
      rcases visitor node with ⟨found, problem | value⟩
      · rfl
      · rw [ih]
        exact map_relocated (fun _ => by rfl) (value :: ·) _

/-- A visit is moved with the node that there may be. -/
theorem visitOption_relocated {visitor other : α → Annotated α β}
    (h : ∀ node, other (move node) = (visitor node).relocated f move) (node? : Option α) :
    visitOption other (node?.map move) =
      (visitOption visitor node?).relocated f (Option.map move) := by
  cases node? with
  | none => rfl
  | some node =>
      rw [Option.map_some, visitOption, visitOption, h]
      exact map_relocated (fun _ => by rfl) some _

end Annotated

namespace Java

variable {f : Position → Position}

/-! ## Texts -/

mutual

/-- An expression is rendered alike at its other place. -/
theorem expressionText_relocated (scope : Scope) (e : Expr) :
    expressionText scope (e.relocated f) =
      (expressionText scope e).relocated f (Expr.relocated f) := by
  cases e with
  | literal position value =>
      rw [Expr.relocated, expressionText, expressionText]
      cases literalText? value <;> rfl
  | reference position name binding =>
      rw [Expr.relocated, expressionText, expressionText]
      cases scope.refusedBy? name <;> rfl
  | call position name args =>
      have hargs := argumentTexts_relocated scope args
      rw [Expr.relocated, expressionText, expressionText]
      by_cases hname : name.isEmpty
      · rw [if_pos hname, if_pos hname]
        rfl
      · rw [if_neg hname, if_neg hname, hargs]
        exact Annotated.map_relocated (fun _ => by rfl) (construction name) _

/-- Arguments are rendered alike at their other places. -/
theorem argumentTexts_relocated (scope : Scope) (args : List Expr) :
    argumentTexts scope (Expr.relocatedAll f args) =
      (argumentTexts scope args).relocated f (Expr.relocatedAll f) := by
  cases args with
  | nil => rfl
  | cons arg args =>
      rw [Expr.relocatedAll, argumentTexts, argumentTexts, expressionText_relocated scope arg]
      rcases expressionText scope arg with ⟨found, problem | text⟩
      · rfl
      · rw [argumentTexts_relocated scope args]
        exact Annotated.map_relocated (fun _ => by rfl) (text :: ·) _

end

/-- A default is rendered alike at its other place. -/
theorem slotText_relocated (fields : List String) (slots : List Slot) (slot : Slot) :
    slotText fields (slots.map (Slot.mapNodes f (Expr.relocated f)))
        (slot.mapNodes f (Expr.relocated f)) =
      (slotText fields slots slot).relocated f (Slot.mapNodes f (Expr.relocated f)) := by
  rw [slotText, slotText, delegationScope_mapNodes, Slot.default?_mapNodes, Slot.name_mapNodes,
    Annotated.visitOption_relocated (expressionText_relocated _)]
  exact Annotated.map_relocated (fun _ => by rfl) id _

/-- A delegation has the same arguments when its method is moved. -/
theorem methodDelegation_relocated (fields : List String) (m : Method) :
    methodDelegation fields (m.mapNodes f (Expr.relocated f)) =
      (methodDelegation fields m).relocated f (Method.mapNodes f (Expr.relocated f)) := by
  unfold methodDelegation
  rw [Method.parameters_mapNodes, hasDefaults_mapNodes]
  by_cases hdefaults : hasDefaults m.parameters
  · rw [if_pos hdefaults, if_pos hdefaults,
      Annotated.visit_relocated (slotText_relocated fields m.parameters)]
    simp only [delegationArguments_mapNodes]
    exact Annotated.map_relocated (fun _ => by rfl) _ _
  · rw [if_neg hdefaults, if_neg hdefaults]
    rfl

/-- A method of a class has the same texts at its other place. -/
theorem classMethodTexts_relocated (fields : List String) (m : Method) :
    classMethodTexts fields (m.mapNodes f (Expr.relocated f)) =
      (classMethodTexts fields m).relocated f (Method.mapNodes f (Expr.relocated f)) := by
  have hnames : (m.parameters.map (Slot.mapNodes f (Expr.relocated f))).map (·.name) =
      m.parameters.map (·.name) := by
    simp [Function.comp_def]
  rw [classMethodTexts, classMethodTexts, Method.body_mapNodes, Method.parameters_mapNodes, hnames]
  cases m.body with
  | none => rfl
  | some body =>
      simp only [Option.map_some, expressionText_relocated]
      rcases expressionText { fields, parameters := m.parameters.map (·.name) } body with
        ⟨found, problem | text⟩
      · rfl
      · have hdelegation := methodDelegation_relocated (f := f) fields { m with body := some found }
        show (methodDelegation fields
          (Method.mapNodes f _ { m with body := some found })).map id _ = _
        rw [hdelegation]
        exact Annotated.map_relocated (fun _ => by rfl) (MethodTexts.mk (some text)) _

/-- A method of an interface has the same texts at its other place. -/
theorem interfaceMethodTexts_relocated (m : Method) :
    interfaceMethodTexts (m.mapNodes f (Expr.relocated f)) =
      (interfaceMethodTexts m).relocated f (Method.mapNodes f (Expr.relocated f)) := by
  rw [interfaceMethodTexts, interfaceMethodTexts, methodDelegation_relocated]
  exact Annotated.map_relocated (fun _ => by rfl) _ _

/-- The methods of members are visited alike at their other places. -/
theorem visitMethods_relocated {β : Type} {visitor : Method → Annotated Method β}
    (h : ∀ m, visitor (m.mapNodes f (Expr.relocated f)) =
      (visitor m).relocated f (Method.mapNodes f (Expr.relocated f))) (members : List Member) :
    visitMethods visitor (members.map (Member.mapNodes f (Expr.relocated f))) =
      (visitMethods visitor members).relocated f
        (List.map (Member.mapNodes f (Expr.relocated f))) := by
  refine Annotated.visit_relocated (fun member => ?_) members
  rcases member with ⟨stored, slot⟩ | m
  · rfl
  · exact (congrArg (Annotated.map _ _) (h m)).trans (Annotated.map_relocated (fun _ => by rfl) _ _)

/-- The stored attributes of members are visited alike at their other places. -/
theorem visitStored_relocated {β : Type} {visitor other : Slot → Annotated Slot β}
    (h : ∀ slot, other (slot.mapNodes f (Expr.relocated f)) =
      (visitor slot).relocated f (Slot.mapNodes f (Expr.relocated f))) (members : List Member) :
    visitStored other (members.map (Member.mapNodes f (Expr.relocated f))) =
      (visitStored visitor members).relocated f
        (List.map (Member.mapNodes f (Expr.relocated f))) := by
  refine Annotated.visit_relocated (fun member => ?_) members
  rcases member with ⟨_ | _, slot⟩ | m
  · rfl
  · exact (congrArg (Annotated.map _ _) (h slot)).trans
      (Annotated.map_relocated (fun _ => by rfl) _ _)
  · rfl

/-- An interface has the same texts at its other place. -/
theorem interfaceTexts_relocated (decl : Decl) :
    interfaceTexts (decl.relocated f) =
      (interfaceTexts decl).relocated f (Decl.relocated f) := by
  rw [interfaceTexts, interfaceTexts, Decl.relocated, Decl.members_mapNodes,
    visitMethods_relocated interfaceMethodTexts_relocated]
  exact Annotated.map_relocated (fun _ => by rfl) _ _

/-- The constructors have the same arguments when their declaration is moved. -/
theorem constructorTexts_relocated (decl : Decl) :
    constructorTexts (decl.relocated f) =
      (constructorTexts decl).relocated f (Decl.relocated f) := by
  simp only [constructorTexts, Decl.relocated, Decl.stored_mapNodes, hasDefaults_mapNodes,
    delegationArguments_mapNodes, Decl.members_mapNodes]
  by_cases hdefaults : hasDefaults decl.stored
  · rw [if_pos hdefaults, if_pos hdefaults,
      visitStored_relocated (slotText_relocated [] decl.stored)]
    exact Annotated.map_relocated (fun _ => by rfl) _ _
  · rw [if_neg hdefaults, if_neg hdefaults]
    rfl

/-- A class has the same texts at its other place. -/
theorem classTexts_relocated (decl : Decl) :
    classTexts (decl.relocated f) = (classTexts decl).relocated f (Decl.relocated f) := by
  rw [classTexts, classTexts, constructorTexts_relocated]
  rcases constructorTexts decl with ⟨found, problem | constructor⟩
  · rfl
  · have hfields : (found.relocated f).stored.map (·.name) = found.stored.map (·.name) := by
      simp [Decl.relocated, Decl.stored_mapNodes, Function.comp_def]
    have hmethods := visitMethods_relocated (f := f)
      (classMethodTexts_relocated (found.stored.map (·.name))) found.members
    show (visitMethods (classMethodTexts ((found.relocated f).stored.map (·.name)))
      (found.members.map _)).map _ _ = _
    rw [hfields, hmethods]
    exact Annotated.map_relocated (fun _ => by rfl) _ _

/-- The texts of a declaration at another place. -/
theorem declTexts_relocated (decl : Decl) :
    declTexts (decl.relocated f) = (declTexts decl).relocated f (Decl.relocated f) := by
  have hkind : unitKind (decl.relocated f) = unitKind decl := rfl
  unfold declTexts
  rw [hkind]
  cases unitKind decl with
  | interfaceType => exact interfaceTexts_relocated decl
  | classType => exact classTexts_relocated decl

/-! ## Units -/

/-- The unit of a declaration is written without its places. -/
theorem unitOf_relocated (decl : Decl) (texts : DeclTexts) :
    unitOf (decl.relocated f) texts = unitOf decl texts := by
  rw [← unitOf_erased, Decl.erased_relocated, unitOf_erased]

/-- A declaration becomes the same unit at its other place, or stops at the same node of it. -/
theorem emission_relocated (decl : Decl) :
    emission (decl.relocated f) = (emission decl).relocated f (Decl.relocated f) := by
  have hunit : unitOf ((declTexts decl).node.relocated f) = unitOf (declTexts decl).node :=
    funext (unitOf_relocated _)
  rw [emission, emission, declTexts_relocated]
  show Annotated.map id (unitOf ((declTexts decl).node.relocated f)) _ = _
  rw [hunit]
  exact Annotated.map_relocated (fun _ => by rfl) _ _

/-- Declarations at other places become the same units, or they stop at the same problem, at its
other place. -/
theorem emit_relocated (decls : List Decl) :
    emit (decls.map (Decl.relocated f)) =
      (emit decls).map (Annotated.relocated f (List.map (Decl.relocated f))) := by
  have hvisit : Annotated.visit (fun decl => (declTexts decl).map id
      (unitOf (declTexts decl).node)) (decls.map (Decl.relocated f)) =
        (Annotated.visit emission decls).relocated f (List.map (Decl.relocated f)) :=
    Annotated.visit_relocated emission_relocated decls
  have hvisited : Annotated.visit (fun decl => (declTexts decl).map id
      (unitOf (declTexts decl).node)) decls = Annotated.visit emission decls := rfl
  simp only [emit, hvisit, hvisited]
  rcases Annotated.visit emission decls with ⟨bound, problem | steps⟩
  · rfl
  · simp only [Annotated.relocated, Except.mapError]
    cases steps.mapM id <;> rfl

end Java

end EoJava
