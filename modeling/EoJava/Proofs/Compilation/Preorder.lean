import EoJava.Proofs.Compilation.Internal

/-!
# Expressions in preorder

An expression is rendered node by node: each before its arguments, and those from the left. The
first node that offends stops it. The nodes before that one have their bindings then, and all other
nodes are as they were (`renderExpression_preorder`).
-/

namespace EoJava

/-! ## Decimals -/

namespace Text.Numeral

/-- Digits, perhaps with a minus sign before them and with a point and more digits after them. -/
def IsDecimal (text : List Char) : Prop :=
  ∃ sign whole fraction, text = sign ++ (whole ++ fraction) ∧ (sign = [] ∨ sign = ['-']) ∧
    IsDigits whole ∧ IsFraction fraction

end Text.Numeral

open Text.Numeral (IsDecimal)

/-- A number has no literal if it is no decimal, or if it is whole and no `long` holds it. -/
theorem Java.numberLiteral?_eq_none_iff {text : String} :
    numberLiteral? text = none ↔ ¬IsDecimal text.toList ∨ '.' ∉ text.toList ∧
      ¬(-2 ^ 63 ≤ Text.Numeral.intValue text.toList ∧
        Text.Numeral.intValue text.toList ≤ 2 ^ 63 - 1) := by
  rw [IsDecimal, ← Text.Numeral.isNumeral_iff]
  constructor
  · intro hnone
    by_cases hnumeral : Text.Numeral.isNumeral text.toList
    · exact .inr (whole_of_numberLiteral?_eq_none hnumeral hnone)
    · exact .inl hnumeral
  · rintro (hnumeral | ⟨hwhole, hbeyond⟩)
    · simp [numberLiteral?, hnumeral]
    · by_cases hnumeral : Text.Numeral.isNumeral text.toList
      · obtain ⟨_, -, hfits, -⟩ | ⟨hnone, -⟩ := numberLiteral?_cases hnumeral hwhole
        · rw [inRange_iff, longRange_eq] at hfits
          exact absurd hfits hbeyond
        · exact hnone
      · simp [numberLiteral?, hnumeral]

/-! ## Nodes -/

namespace Expr

/-- A node of an expression without the nodes below it. A call keeps the number of its
arguments. -/
inductive Node where
  | literal (position : Position) (value : Literal)
  | reference (position : Position) (name : String) (binding : Option Binding)
  | call (position : Position) (name : String) (arity : Nat)
deriving DecidableEq, Repr

namespace Node

/-- The place of a node. -/
def position : Node → Position
  | literal position _ | reference position .. | call position .. => position

/-- A node offends: a call without a name, a number that no literal is written for, or the name of
a slot that has no value where a default is computed. -/
inductive Offends (scope : Java.Scope) : Node → Problem → Prop where
  | nameless (position : Position) (arity : Nat) :
      Offends scope (.call position "" arity) .namelessCall
  | malformed (position : Position) {text : String} (h : ¬IsDecimal text.toList) :
      Offends scope (.literal position (.number text)) (.malformedNumber text)
  | beyond (position : Position) {text : String} (hwhole : '.' ∉ text.toList)
      (h : ¬(-2 ^ 63 ≤ Text.Numeral.intValue text.toList ∧
        Text.Numeral.intValue text.toList ≤ 2 ^ 63 - 1)) :
      Offends scope (.literal position (.number text)) (.malformedNumber text)
  | unavailable (position : Position) {name : String} (binding : Option Binding)
      {site : Java.DefaultSite} (hsite : scope.defaultOf = some site)
      (hname : name ∈ site.unavailable) :
      Offends scope (.reference position name binding) (.unavailableSlot name site.slot)

/-- A node does not offend. -/
def Sound (scope : Java.Scope) (node : Node) : Prop :=
  ∀ problem, ¬node.Offends scope problem

/-- A node with its binding, if it is a reference: a field before a parameter, and the construction
of an object if it is neither. -/
def bound (scope : Java.Scope) : Node → Node
  | .reference position name _ =>
    .reference position name
      (some (if name ∈ scope.fields then .field
        else if name ∈ scope.parameters then .parameter
        else .constructor))
  | node => node

variable {scope : Java.Scope} {node : Node} {problem : Problem}

/-- What is reported of a node that offends is a problem of expressions. -/
theorem Offends.stage (h : node.Offends scope problem) : problem.code.stage = .expression := by
  cases h <;> rfl

/-- A number offends if it is outside the ranges of Java, and in no other way. -/
theorem offends_number_iff {position : Position} {text : String} :
    (literal position (.number text)).Offends scope problem ↔
      problem = .malformedNumber text ∧ Java.numberLiteral? text = none := by
  rw [Java.numberLiteral?_eq_none_iff]
  constructor
  · intro h
    cases h with
    | malformed _ h => exact ⟨rfl, .inl h⟩
    | beyond _ hwhole h => exact ⟨rfl, .inr ⟨hwhole, h⟩⟩
  · rintro ⟨rfl, h | ⟨hwhole, h⟩⟩
    · exact .malformed position h
    · exact .beyond position hwhole h

/-- A reference offends if its name is refused in the scope, and in no other way. -/
theorem offends_reference_iff {position : Position} {name : String} {binding : Option Binding} :
    (reference position name binding).Offends scope problem ↔
      ∃ slot, scope.refusedBy? name = some slot ∧ problem = .unavailableSlot name slot := by
  constructor
  · intro h
    cases h with
    | unavailable _ _ hsite hname =>
        exact ⟨_, by simp [Java.Scope.refusedBy?, hsite, hname], rfl⟩
  · rintro ⟨slot, hrefused, rfl⟩
    obtain ⟨site, hsite, hslot⟩ := Option.bind_eq_some_iff.1 hrefused
    obtain ⟨hname, hsome⟩ := Option.ite_none_right_eq_some.1 hslot
    cases hsome
    exact .unavailable position binding hsite hname

/-- A call that has a name does not offend, whatever its arguments are. -/
theorem sound_call {position : Position} {name : String} (hname : name ≠ "") (arity : Nat) :
    (call position name arity).Sound scope := by
  rintro _ ⟨⟩
  exact hname rfl

end Node

mutual

/-- The nodes of an expression: each before those of its arguments, from the left. -/
def preorder : Expr → List Node
  | .literal position value => [.literal position value]
  | .reference position name binding => [.reference position name binding]
  | .call position name args => .call position name args.length :: preorderAll args

/-- The nodes of arguments. -/
def preorderAll : List Expr → List Node
  | [] => []
  | arg :: args => arg.preorder ++ preorderAll args

end

/-! ### Expressions with the same nodes -/

mutual

/-- An expression and what follows its nodes are determined by both together. -/
theorem preorder_append_injective {e other : Expr} {rest more : List Node}
    (h : e.preorder ++ rest = other.preorder ++ more) : e = other ∧ rest = more := by
  match e, other with
  | .literal .., .literal .. =>
      cases h
      exact ⟨rfl, rfl⟩
  | .reference .., .reference .. =>
      cases h
      exact ⟨rfl, rfl⟩
  | .call _ _ args, .call _ _ others =>
      rw [preorder, preorder, List.cons_append, List.cons_append] at h
      obtain ⟨hhead, hargs⟩ := List.cons.inj h
      obtain ⟨rfl, rfl, hlength⟩ := Node.call.inj hhead
      obtain ⟨rfl, rfl⟩ := preorderAll_append_injective hlength hargs
      exact ⟨rfl, rfl⟩

/-- Arguments can be told from their nodes if it is known how many they are. -/
theorem preorderAll_append_injective {args others : List Expr} {rest more : List Node}
    (hlength : args.length = others.length)
    (h : preorderAll args ++ rest = preorderAll others ++ more) : args = others ∧ rest = more := by
  match args, others with
  | [], [] => exact ⟨rfl, h⟩
  | arg :: args, other :: others =>
      simp only [preorderAll, List.append_assoc] at h
      obtain ⟨rfl, hrest⟩ := preorder_append_injective h
      obtain ⟨rfl, rfl⟩ := preorderAll_append_injective (Nat.succ.inj hlength) hrest
      exact ⟨rfl, rfl⟩

end

/-- There is one expression with given nodes at most. -/
theorem preorder_eq_iff {e other : Expr} : e.preorder = other.preorder ↔ e = other := by
  refine ⟨fun h => ?_, congrArg preorder⟩
  exact (preorder_append_injective (congrArg (· ++ []) h)).1

end Expr

/-! ## Rendering -/

namespace Java

open EoJava.Expr (Node preorder preorderAll)

/-- A rendering goes through nodes in order. It gives all of them their bindings, or it stops at
the first that offends and leaves that one and those after it as they were. -/
inductive Through {α : Type} (scope : Scope) :
    List Node → List Node → Except (Located Problem) α → Prop where
  | finished {nodes : List Node} (hsound : ∀ node ∈ nodes, node.Sound scope) (value : α) :
      Through scope nodes (nodes.map (·.bound scope)) (.ok value)
  | stopped {before : List Node} {bad : Node} {problem : Problem}
      (hsound : ∀ node ∈ before, node.Sound scope) (hbad : bad.Offends scope problem)
      (rest : List Node) :
      Through scope (before ++ bad :: rest) (before.map (·.bound scope) ++ bad :: rest)
        (.error ⟨bad.position, problem⟩)

namespace Through

variable {α β : Type} {scope : Scope} {nodes after more moreAfter : List Node}

/-- Nothing is done to the nodes after a problem. -/
theorem append_error {found : Located Problem}
    (h : Through scope nodes after (.error found : Except _ α)) (rest : List Node) :
    Through scope (nodes ++ rest) (after ++ rest) (.error found : Except _ β) := by
  cases h with
  | stopped hsound hbad tail =>
      simpa only [List.append_assoc, List.cons_append] using .stopped hsound hbad (tail ++ rest)

/-- What comes after nodes without a problem is gone through next. -/
theorem append {value : α} {result : Except (Located Problem) β}
    (h : Through scope nodes after (.ok value)) (hmore : Through scope more moreAfter result) :
    Through scope (nodes ++ more) (after ++ moreAfter) result := by
  obtain ⟨hsound, -⟩ := h
  cases hmore with
  | finished hmore =>
      rw [← List.map_append]
      exact .finished (List.forall_mem_append.2 ⟨hsound, hmore⟩) _
  | stopped hmore hbad rest =>
      rw [← List.append_assoc, ← List.append_assoc, ← List.map_append]
      exact .stopped (List.forall_mem_append.2 ⟨hsound, hmore⟩) hbad rest

/-- What is made of the result changes neither the nodes nor the place where they offend. -/
theorem map {result : Except (Located Problem) α} (h : Through scope nodes after result)
    (f : α → β) : Through scope nodes after (result.map f) := by
  cases h with
  | finished hsound value => exact .finished hsound (f value)
  | stopped hsound hbad rest => exact .stopped hsound hbad rest

/-- A sound node is passed, and is bound then. -/
theorem single {node : Node} (hsound : node.Sound scope) (value : α) :
    Through scope [node] [node.bound scope] (.ok value) :=
  .finished (List.forall_mem_singleton.2 hsound) value

/-- The first node that offends ends the way through the nodes. -/
theorem offending {bad : Node} {problem : Problem} (hbad : bad.Offends scope problem)
    (rest : List Node) :
    Through scope (bad :: rest) (bad :: rest) (.error ⟨bad.position, problem⟩ : Except _ α) :=
  .stopped (List.forall_mem_nil _) hbad rest

end Through

variable (scope : Scope)

/-- Rendering a literal passes it or stops at it. -/
theorem through_literal (position : Position) (value : Literal) :
    Through scope [.literal position value]
      (expressionText scope (.literal position value)).node.preorder
      (expressionText scope (.literal position value)).result := by
  rw [expressionText]
  cases value with
  | string value => exact .single (by rintro _ ⟨⟩) _
  | boolean value => cases value <;> exact .single (by rintro _ ⟨⟩) _
  | number text =>
      rw [literalText?]
      cases hliteral : numberLiteral? text with
      | none => exact .offending (Node.offends_number_iff.2 ⟨rfl, hliteral⟩) []
      | some literal =>
          refine .single (fun problem hoffends => ?_) _
          cases hliteral.symm.trans (Node.offends_number_iff.1 hoffends).2

/-- Rendering a reference binds it or stops at it. -/
theorem through_reference (position : Position) (name : String) (binding : Option Binding) :
    Through scope [.reference position name binding]
      (expressionText scope (.reference position name binding)).node.preorder
      (expressionText scope (.reference position name binding)).result := by
  rw [expressionText]
  cases hrefused : scope.refusedBy? name with
  | some slot => exact .offending (Node.offends_reference_iff.2 ⟨slot, hrefused, rfl⟩) []
  | none =>
      refine .single (fun problem hoffends => ?_) _
      obtain ⟨slot, hsome, -⟩ := Node.offends_reference_iff.1 hoffends
      cases hrefused.symm.trans hsome

mutual

/-- Rendering an expression goes through its nodes in preorder. -/
theorem through_expressionText (e : Expr) :
    Through scope e.preorder (expressionText scope e).node.preorder
      (expressionText scope e).result := by
  cases e with
  | literal position value => exact through_literal scope position value
  | reference position name binding => exact through_reference scope position name binding
  | call position name args =>
      rw [expressionText]
      by_cases hname : name.isEmpty
      · rw [if_pos hname]
        obtain rfl := String.isEmpty_iff.1 hname
        exact .offending (.nameless position args.length) (preorderAll args)
      · rw [if_neg hname]
        have hcall : (Node.call position name args.length).Sound scope :=
          Node.sound_call (fun heq => hname (String.isEmpty_iff.2 heq)) _
        obtain ⟨hlength, hargs⟩ := through_argumentTexts args
        simp only [Annotated.map, preorder, hlength]
        exact (Through.single hcall ()).append (hargs.map (construction name))

/-- Arguments keep their number, and they are gone through one after the other. -/
theorem through_argumentTexts (args : List Expr) :
    (argumentTexts scope args).node.length = args.length ∧
      Through scope (preorderAll args) (preorderAll (argumentTexts scope args).node)
        (argumentTexts scope args).result := by
  cases args with
  | nil => exact ⟨rfl, .finished (List.forall_mem_nil _) []⟩
  | cons arg args =>
      have harg := through_expressionText arg
      rw [argumentTexts]
      rcases htext : expressionText scope arg with ⟨found, problem | text⟩
      · rw [htext] at harg
        exact ⟨rfl, harg.append_error (preorderAll args)⟩
      · rw [htext] at harg
        obtain ⟨hlength, hargs⟩ := through_argumentTexts args
        exact ⟨congrArg Nat.succ hlength, harg.append (hargs.map _)⟩

end

end Java

namespace Compilation

/-- An expression is rendered exactly if none of its nodes offends. All its references have their
bindings then, and nothing is reported. Otherwise one problem is reported, at the first node that
offends in preorder; the references before it have their bindings, and everything else is as it
was. -/
theorem renderExpression_preorder (c : Compilation) (scope : Java.Scope) (e : Expr) :
    (∀ node ∈ e.preorder, node.Sound scope) ∧
        (∃ text after, c.renderExpression scope e = (some text, after, c) ∧
          ∀ tree : Expr, tree.preorder = e.preorder.map (·.bound scope) ↔ tree = after) ∨
      ∃ before bad rest problem after, e.preorder = before ++ bad :: rest ∧
        (∀ node ∈ before, node.Sound scope) ∧ bad.Offends scope problem ∧
        problem.code.stage = .expression ∧
        c.renderExpression scope e =
          (none, after, c.add (.ofProblem ⟨bad.position, problem⟩)) ∧
        ∀ tree : Expr,
          tree.preorder = before.map (·.bound scope) ++ bad :: rest ↔ tree = after := by
  have hthrough := Java.through_expressionText scope e
  generalize hnodes : e.preorder = nodes at hthrough
  rcases hrendered : Java.expressionText scope e with ⟨after, result⟩
  rw [hrendered] at hthrough
  generalize hafter : after.preorder = final at hthrough
  cases hthrough with
  | finished hsound text =>
      refine .inl ⟨hsound, text, after, ?_, fun tree => ?_⟩
      · rw [renderExpression, hrendered]
      · rw [← hafter, Expr.preorder_eq_iff]
  | stopped hsound hbad rest =>
      refine .inr ⟨_, _, rest, _, after, rfl, hsound, hbad, hbad.stage, ?_, fun tree => ?_⟩
      · rw [renderExpression, hrendered]
        rfl
      · rw [← hafter, Expr.preorder_eq_iff]

end Compilation

end EoJava
