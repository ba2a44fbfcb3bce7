import EoJava.Proofs.Java.Bindings
import EoJava.Proofs.Java.Writing

/-!
# Emission

An emission gives one unit for each declaration, or it stops at an expression of one of them that
fails. It never breaks down, whatever the declarations are (`emit_cases`).
-/

namespace EoJava

namespace Annotated

variable {α β γ δ : Type}

/-- A stage that stops does so at one of given problems, and a value that it gives has a
property. -/
def Ends (Fault : Located Problem → Prop) (Good : β → Prop) (annotated : Annotated α β) : Prop :=
  match annotated.result with
  | .ok value => Good value
  | .error problem => Fault problem

namespace Ends

variable {Fault Wider : Located Problem → Prop} {Good : β → Prop} {Better : δ → Prop}

/-- A finished stage ends well if its value is good. -/
theorem done {value : β} (h : Good value) (node : α) :
    (Annotated.done node value).Ends Fault Good :=
  h

/-- A stopped stage ends well if its problem is one of those given. -/
theorem stop {position : Position} {problem : Problem} (h : Fault ⟨position, problem⟩) (node : α) :
    (Annotated.stop node position problem).Ends Fault Good :=
  h

/-- A stage that goes on with its value ends well if what it makes of good values is better. -/
theorem map {annotated : Annotated α β} (h : annotated.Ends Fault Good) (rebuild : α → γ)
    {f : β → δ} (hf : ∀ value, Good value → Better (f value)) :
    (annotated.map rebuild f).Ends Fault Better := by
  obtain ⟨node, problem | value⟩ := annotated
  · exact h
  · exact hf value h

/-- A stage that ends well has stopped at one of the given problems or has given a good value. -/
theorem cases {annotated : Annotated α β} (h : annotated.Ends Fault Good) :
    (∃ node problem, annotated = ⟨node, .error problem⟩ ∧ Fault problem) ∨
      ∃ node value, annotated = ⟨node, .ok value⟩ ∧ Good value := by
  obtain ⟨node, problem | value⟩ := annotated
  · exact .inl ⟨node, problem, rfl, h⟩
  · exact .inr ⟨node, value, rfl, h⟩

/-- A stage that ends well does so with more problems to stop at. -/
theorem imp {annotated : Annotated α β} (h : annotated.Ends Fault Good)
    (hwider : ∀ problem, Fault problem → Wider problem) : annotated.Ends Wider Good := by
  obtain ⟨node, problem | value⟩ := annotated
  · exact hwider problem h
  · exact h

/-- If every visit ends well, all values are good. -/
theorem visit {f : α → Annotated α β} {nodes : List α}
    (h : ∀ node ∈ nodes, (f node).Ends Fault Good) :
    (Annotated.visit f nodes).Ends Fault (∀ value ∈ ·, Good value) := by
  induction nodes with
  | nil => exact List.forall_mem_nil _
  | cons node nodes ih =>
      obtain ⟨hnode, hnodes⟩ := List.forall_mem_cons.1 h
      rw [Annotated.visit]
      obtain ⟨found, problem, heq, hfault⟩ | ⟨found, value, heq, hvalue⟩ := hnode.cases
      · rw [heq]
        exact hfault
      · rw [heq]
        refine (ih hnodes).map _ fun values hvalues => ?_
        exact List.forall_mem_cons.2 ⟨hvalue, hvalues⟩

end Ends

end Annotated

/-! ## Failures of expressions -/

/-- A problem at which the text of an expression can end: a number that has no literal, a name that
has no value where the default of a slot is computed, or a call without a name, in the expression or
in one of its arguments. -/
inductive Expr.Fails (slots : List Slot) : Expr → Located Problem → Prop where
  | number {position : Position} {text : String} (h : Java.numberLiteral? text = none) :
      Fails slots (.literal position (.number text)) ⟨position, .malformedNumber text⟩
  | unavailable (position : Position) (name : String) (binding : Option Binding) {slot : Slot}
      (hslot : slot ∈ slots) :
      Fails slots (.reference position name binding) ⟨position, .unavailableSlot name slot.name⟩
  | nameless (position : Position) (args : List Expr) :
      Fails slots (.call position "" args) ⟨position, .namelessCall⟩
  | argument {position : Position} {name : String} {args : List Expr} {arg : Expr}
      {problem : Located Problem} (harg : arg ∈ args) (h : Fails slots arg problem) :
      Fails slots (.call position name args) problem

namespace Expr.Fails

variable {slots wider : List Slot} {e : Expr} {problem : Located Problem}

/-- An expression fails with a problem of its own stage. -/
theorem stage (h : e.Fails slots problem) : problem.value.code.stage = .expression := by
  induction h with
  | number | unavailable | nameless => rfl
  | argument _ _ ih => exact ih

/-- A failure in one of some slots is one in any more of them. -/
theorem of_subset (h : e.Fails slots problem) (hslots : slots ⊆ wider) : e.Fails wider problem := by
  induction h with
  | number h => exact .number h
  | unavailable position name binding hslot =>
      exact .unavailable position name binding (hslots hslot)
  | nameless position args => exact .nameless position args
  | argument harg _ ih => exact .argument harg ih

end Expr.Fails

namespace Java

variable {α β γ δ : Type}

/-- A stage that gives texts stops at a failure of one of the expressions, if it stops. -/
def Renders (slots : List Slot) (exprs : List Expr) (annotated : Annotated α β) : Prop :=
  annotated.Ends (fun problem => ∃ e ∈ exprs, e.Fails slots problem) fun _ => True

namespace Renders

variable {slots wider : List Slot} {exprs more : List Expr}

/-- A finished stage stops nowhere. -/
theorem done (node : α) (value : β) : Renders slots exprs (Annotated.done node value) :=
  trivial

/-- A stage may stop at an expression where that one fails. -/
theorem stop {e : Expr} {position : Position} {problem : Problem} (he : e ∈ exprs)
    (h : e.Fails slots ⟨position, problem⟩) (node : α) :
    Renders slots exprs (Annotated.stop node position problem : Annotated α β) :=
  ⟨e, he, h⟩

/-- What is made of the texts makes no stage stop. -/
theorem map {annotated : Annotated α β} (h : Renders slots exprs annotated) (rebuild : α → γ)
    (f : β → δ) : Renders slots exprs (annotated.map rebuild f) :=
  Annotated.Ends.map h rebuild fun _ _ => trivial

/-- The slots and the expressions of a stage can be taken with others. -/
theorem of_subset {annotated : Annotated α β} (h : Renders slots exprs annotated)
    (hslots : slots ⊆ wider) (hsub : exprs ⊆ more) : Renders wider more annotated :=
  h.imp fun _ ⟨e, he, hfails⟩ => ⟨e, hsub he, hfails.of_subset hslots⟩

/-- If no visit stops but at one of the expressions, nor do all of them together. -/
theorem visit {f : α → Annotated α β} {nodes : List α}
    (h : ∀ node ∈ nodes, Renders slots exprs (f node)) :
    Renders slots exprs (Annotated.visit f nodes) := by
  have hvisit := Annotated.Ends.visit h
  obtain ⟨node, problem, heq, hfault⟩ | ⟨node, value, heq, -⟩ := hvisit.cases
  · rw [heq]
    exact hfault
  · rw [heq]
    trivial

end Renders

/-- A number outside the ranges of Java is all that a literal can be refused for. -/
theorem eq_malformedNumber {value : Literal} {problem : Problem}
    (h : literalText? value = .error problem) :
    ∃ text, value = .number text ∧ numberLiteral? text = none ∧
      problem = .malformedNumber text := by
  unfold literalText? at h
  split at h
  · cases h
  · cases h
  · cases h
  · next text =>
      split at h
      · cases h
      · next hnone =>
          cases h
          exact ⟨text, rfl, hnone, rfl⟩

/-- A scope is that of a body, or that of the default of one of the slots. -/
def Scope.Serves (scope : Scope) (slots : List Slot) : Prop :=
  ∀ site ∈ scope.defaultOf, ∃ slot ∈ slots, slot.name = site.slot

/-- A name is refused only on behalf of one of the slots that the scope serves. -/
theorem Scope.Serves.exists_of_refusedBy? {scope : Scope} {slots : List Slot}
    (h : scope.Serves slots) {name refused : String} (hrefused : scope.refusedBy? name = some refused) :
    ∃ slot ∈ slots, slot.name = refused := by
  obtain ⟨site, hsite, hrefused⟩ := Option.bind_eq_some_iff.1 hrefused
  split at hrefused
  · cases hrefused
    exact h site hsite
  · cases hrefused

mutual

/-- An expression that is not rendered fails. -/
theorem expressionText_renders {scope : Scope} {slots : List Slot} (hscope : scope.Serves slots)
    (e : Expr) : Renders slots [e] (expressionText scope e) := by
  cases e with
  | literal position value =>
      rw [expressionText]
      cases htext : literalText? value with
      | ok text => exact .done _ text
      | error problem =>
          obtain ⟨text, rfl, hnone, rfl⟩ := eq_malformedNumber htext
          exact .stop (List.mem_singleton_self _) (.number hnone) _
  | reference position name binding =>
      rw [expressionText]
      cases hrefused : scope.refusedBy? name with
      | none => exact .done _ _
      | some refused =>
          obtain ⟨slot, hslot, rfl⟩ := hscope.exists_of_refusedBy? hrefused
          exact .stop (List.mem_singleton_self _) (.unavailable position name binding hslot) _
  | call position name args =>
      rw [expressionText]
      by_cases hname : name.isEmpty
      · rw [if_pos hname]
        obtain rfl := String.isEmpty_iff.1 hname
        exact .stop (List.mem_singleton_self _) (.nameless position args) _
      · rw [if_neg hname]
        refine Renders.map ?_ _ _
        refine (argumentTexts_renders hscope args).imp ?_
        rintro problem ⟨arg, harg, hfails⟩
        exact ⟨_, List.mem_singleton_self _, .argument harg hfails⟩

/-- If arguments are not all rendered, one of them fails. -/
theorem argumentTexts_renders {scope : Scope} {slots : List Slot} (hscope : scope.Serves slots)
    (args : List Expr) : Renders slots args (argumentTexts scope args) := by
  cases args with
  | nil => exact .done _ _
  | cons arg args =>
      rw [argumentTexts]
      have harg : Renders slots (arg :: args) (expressionText scope arg) :=
        (expressionText_renders hscope arg).of_subset (List.Subset.refl _) (by simp)
      obtain ⟨found, problem, heq, hfault⟩ | ⟨found, text, heq, -⟩ := harg.cases
      · rw [heq]
        exact hfault
      · rw [heq]
        exact ((argumentTexts_renders hscope args).of_subset (List.Subset.refl _)
          (List.subset_cons_self ..)).map _ _

end

/-- The default of a slot is all that its rendering can stop at. -/
theorem slotText_renders (fields : List String) (slots : List Slot) (slot : Slot) :
    Renders [slot] slot.default?.toList (slotText fields slots slot) := by
  have hscope : (delegationScope fields slots slot.name).Serves [slot] := by
    rintro site ⟨⟩
    exact ⟨slot, List.mem_singleton_self slot, rfl⟩
  unfold slotText Annotated.visitOption
  cases slot.default? with
  | none => exact .done _ _
  | some e => exact ((expressionText_renders hscope e).map _ _).map _ _

/-- A shorter method stops at the default of one of the parameters, if it stops. -/
theorem methodDelegation_renders (fields : List String) (m : Method) :
    Renders m.parameters (Member.method m).parameterDefaults (methodDelegation fields m) := by
  unfold methodDelegation
  by_cases hdefaults : hasDefaults m.parameters
  · rw [if_pos hdefaults]
    refine (Renders.visit fun slot hslot => ?_).map _ _
    refine (slotText_renders fields m.parameters slot).of_subset (by simpa using hslot)
      fun e he => ?_
    exact List.mem_filterMap.2 ⟨slot, hslot, Option.mem_toList.1 he⟩
  · rw [if_neg hdefaults]
    exact .done _ _

/-- A method of a class stops in its body or at the default of one of its parameters. -/
theorem classMethodTexts_renders (fields : List String) (m : Method) :
    Renders m.parameters ((Member.method m).values ++ (Member.method m).parameterDefaults)
      (classMethodTexts fields m) := by
  rw [classMethodTexts]
  cases hbody : m.body with
  | none => exact .done _ _
  | some body =>
      have hrenders : Renders m.parameters
          ((Member.method m).values ++ (Member.method m).parameterDefaults)
          (expressionText { fields, parameters := m.parameters.map (·.name) } body) :=
        (expressionText_renders (fun _ h => by cases h) body).of_subset (List.Subset.refl _)
          (by simp [Member.values, hbody])
      obtain ⟨found, problem, heq, hfault⟩ | ⟨found, text, heq, -⟩ := hrenders.cases
      · simp only [heq]
        exact hfault
      · simp only [heq]
        refine Renders.map ?_ _ _
        exact (methodDelegation_renders fields { m with body := some found }).of_subset
          (List.Subset.refl _) (List.subset_append_right ..)

/-- A method of an interface stops at the default of one of its parameters. -/
theorem interfaceMethodTexts_renders (m : Method) :
    Renders m.parameters (Member.method m).parameterDefaults (interfaceMethodTexts m) :=
  (methodDelegation_renders [] m).map _ _

/-- Visiting the methods of members stops only where visiting one of them does. -/
theorem visitMethods_renders {slots : List Slot} {exprs : List Expr}
    {f : Method → Annotated Method β} {members : List Member}
    (h : ∀ m, .method m ∈ members → Renders slots exprs (f m)) :
    Renders slots exprs (visitMethods f members) := by
  refine .visit fun member hmember => ?_
  rcases member with ⟨stored, slot⟩ | m
  · exact .done _ _
  · exact (h m hmember).map _ _

/-- Visiting the stored attributes of members stops only where visiting one of them does. -/
theorem visitStored_renders {slots : List Slot} {exprs : List Expr} {f : Slot → Annotated Slot β}
    {members : List Member}
    (h : ∀ slot, .attribute true slot ∈ members → Renders slots exprs (f slot)) :
    Renders slots exprs (visitStored f members) := by
  refine .visit fun member hmember => ?_
  rcases member with ⟨_ | _, slot⟩ | m
  · exact .done _ _
  · exact (h slot hmember).map _ _
  · exact .done _ _

/-- Constructors stop only at an expression of their declaration. -/
theorem constructorTexts_renders (decl : Decl) :
    Renders decl.slots decl.expressions (constructorTexts decl) := by
  simp only [constructorTexts]
  by_cases hdefaults : hasDefaults decl.stored
  · rw [if_pos hdefaults]
    refine (visitStored_renders fun slot hslot => ?_).map _ _
    exact (slotText_renders [] decl.stored slot).of_subset (Decl.subset_slots hslot)
      (List.Subset.trans (List.subset_append_left ..) (Decl.subset_expressions hslot))
  · rw [if_neg hdefaults]
    exact .done _ _

/-- An interface stops only at an expression of its declaration. -/
theorem interfaceTexts_renders (decl : Decl) :
    Renders decl.slots decl.expressions (interfaceTexts decl) := by
  refine (visitMethods_renders fun m hm => ?_).map _ _
  exact (interfaceMethodTexts_renders m).of_subset (Decl.subset_slots hm)
    (List.Subset.trans (List.subset_append_right ..) (Decl.subset_expressions hm))

/-- A class stops only at an expression of its declaration. -/
theorem classTexts_renders (decl : Decl) :
    Renders decl.slots decl.expressions (classTexts decl) := by
  have hmethods := methods_constructorTexts decl
  rw [classTexts]
  obtain ⟨found, problem, heq, hfault⟩ | ⟨found, constructor, heq, -⟩ :=
    (constructorTexts_renders decl).cases
  · rw [heq]
    exact hfault
  · rw [heq] at hmethods ⊢
    -- The constructors leave the methods as they were.
    refine (visitMethods_renders fun m hm => ?_).map _ _
    rw [← Decl.mem_methods, hmethods, Decl.mem_methods] at hm
    exact (classMethodTexts_renders _ m).of_subset (Decl.subset_slots hm) (Decl.subset_expressions hm)

/-- A unit stops only at an expression of its declaration. -/
theorem declTexts_renders (decl : Decl) :
    Renders decl.slots decl.expressions (declTexts decl) := by
  unfold declTexts
  cases unitKind decl with
  | interfaceType => exact interfaceTexts_renders decl
  | classType => exact classTexts_renders decl

/-- An emission gives units, or it stops at a failure of an expression. It does not break down. -/
theorem emit_cases (decls : List Decl) :
    (∃ node units, emit decls = .ok ⟨node, .ok units⟩) ∨
      ∃ node problem, emit decls = .ok ⟨node, .error problem⟩ ∧
        ∃ decl ∈ decls, ∃ e ∈ decl.expressions, e.Fails decl.slots problem := by
  have hvisit : (Annotated.visit
      (fun decl => (declTexts decl).map id (unitOf (declTexts decl).node)) decls).Ends
      (fun problem => ∃ decl ∈ decls, ∃ e ∈ decl.expressions, e.Fails decl.slots problem)
      fun built => ∀ step ∈ built, ∃ unit, Builds step unit := by
    refine Annotated.Ends.visit fun decl hdecl => ?_
    have htexts := Annotated.Ends.imp (declTexts_renders decl) fun problem hfails =>
      (⟨decl, hdecl, hfails⟩ : ∃ decl ∈ decls, ∃ e ∈ decl.expressions, e.Fails decl.slots problem)
    refine htexts.map id fun texts _ => ?_
    obtain ⟨text, htext⟩ := exists_unitOf (declTexts decl).node texts
    exact ⟨_, htext⟩
  obtain ⟨node, problem, heq, hfails⟩ | ⟨node, built, heq, hbuilt⟩ := hvisit.cases
  · refine .inr ⟨node, problem, ?_, hfails⟩
    rw [emit, heq]
  · obtain ⟨units, hunits⟩ := exists_builds hbuilt
    refine .inl ⟨node, units, ?_⟩
    rw [Builds] at hunits
    simp only [emit, heq, hunits, ok_bind]
    rfl

end Java

end EoJava
