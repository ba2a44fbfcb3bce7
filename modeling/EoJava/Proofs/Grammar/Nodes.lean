import EoJava.Proofs.Grammar.Soundness
import EoJava.Proofs.Token.Tiling
import Mathlib.Data.List.Forall2

/-!
# Where nodes start

`Decl.anchored` spells a declaration as its terminals do (`Decl.map_terminal_anchored`), and says
which of them a node of the tree starts with and where that node says it is. A descent that succeeds
has taken leaves with these terminals, and each node is where the leaf is that it starts with. For a
whole source this is `program_holds`.
-/

namespace EoJava

namespace Grammar

/-- A terminal of a tree, and the position of the node that starts with it, if one does. -/
structure Anchored where
  node? : Option Position
  terminal : Terminal
  content : node?.isSome → terminal.kind.isContent

namespace Anchored

/-- A terminal that a node starts with. -/
def head (position : Position) (t : Terminal) (h : t.kind.isContent) : Anchored :=
  ⟨some position, t, fun _ => h⟩

/-- A name that a node starts with. -/
def name (position : Position) (text : String) : Anchored :=
  head position (.name text) rfl

/-- A mark that a node starts with. -/
def mark (position : Position) (m : Mark) : Anchored :=
  head position (.mark m) rfl

/-- A terminal that no node starts with. -/
def inner (t : Terminal) : Anchored :=
  ⟨none, t, nofun⟩

/-- The terminal of a name that a node starts with is the name. -/
@[simp]
theorem terminal_name (position : Position) (text : String) :
    (name position text).terminal = .name text :=
  rfl

/-- The terminal of a mark that a node starts with is the mark. -/
@[simp]
theorem terminal_mark (position : Position) (m : Mark) : (mark position m).terminal = .mark m :=
  rfl

/-- The terminal that no node starts with is kept as it is. -/
@[simp]
theorem terminal_inner (t : Terminal) : (inner t).terminal = t :=
  rfl

/-- Items with a comma before each but the first. -/
def commas : List (List Anchored) → List Anchored
  | [] => []
  | first :: others => first ++ others.flatMap (inner (.mark .comma) :: ·)

/-- Items between commas are spelled as their terminals between commas. -/
theorem map_terminal_commas (items : List (List Anchored)) :
    (commas items).map terminal = commaSeparated (items.map (List.map terminal)) := by
  cases items with
  | nil => rfl
  | cons first others =>
      simp [commas, commaSeparated, List.map_flatMap, List.flatMap_map]

/-- What is in one of the items is among the items between commas. -/
theorem mem_commas {a : Anchored} {items : List (List Anchored)} {item : List Anchored}
    (hitem : item ∈ items) (ha : a ∈ item) : a ∈ commas items := by
  cases items with
  | nil => cases hitem
  | cons first others =>
      rw [commas, List.mem_append]
      rcases List.mem_cons.1 hitem with rfl | hitem
      · exact .inl ha
      · exact .inr (List.mem_flatMap.2 ⟨item, hitem, List.mem_cons_of_mem _ ha⟩)

/-- The node that starts with a terminal, as its position and the terminal. -/
def located? (a : Anchored) : Option (Located Terminal) :=
  a.node?.map (⟨·, a.terminal⟩)

end Anchored

end Grammar

/-- A literal has content. -/
theorem Literal.isContent_terminal (value : Literal) : value.terminal.kind.isContent := by
  rcases value with _ | _ | (_ | _) <;> rfl

open Grammar (Terminal Anchored Leaf commaSeparated)
open Grammar.Anchored (inner commas)

/-! ## Trees -/

namespace Expr

mutual

/-- The terminals of an expression, with the nodes that start there. -/
def anchored : Expr → List Anchored
  | .literal position value => [.head position value.terminal value.isContent_terminal]
  | .reference position name _ => [.name position name]
  | .call position name args =>
      .name position name :: inner (.mark .leftParen) ::
        (commas (anchoredAll args) ++ [inner (.mark .rightParen)])

/-- The terminals of each argument. -/
def anchoredAll : List Expr → List (List Anchored)
  | [] => []
  | arg :: args => arg.anchored :: anchoredAll args

end

/-- Arguments are spelled one by one. -/
@[simp]
theorem anchoredAll_eq_map (args : List Expr) : anchoredAll args = args.map anchored := by
  induction args with
  | nil => rfl
  | cons arg args ih => simp [anchoredAll, ih]

mutual

/-- Without the nodes, the terminals of an expression are those that spell it. -/
theorem map_terminal_anchored (e : Expr) : e.anchored.map (·.terminal) = e.terminals := by
  cases e with
  | literal | reference => rfl
  | call position name args =>
      have hargs := map_terminal_anchoredAll args
      rw [anchored, terminals]
      simp only [List.map_cons, List.map_append, List.map_nil, Anchored.map_terminal_commas, hargs,
        Anchored.terminal_name, Anchored.terminal_inner]

/-- Without the nodes, the terminals of arguments are those that spell them. -/
theorem map_terminal_anchoredAll (args : List Expr) :
    (anchoredAll args).map (List.map (·.terminal)) = argumentTerminals args := by
  cases args with
  | nil => rfl
  | cons arg args =>
      rw [anchoredAll, argumentTerminals, List.map_cons, map_terminal_anchored arg,
        map_terminal_anchoredAll args]

end

end Expr

namespace Slot

/-- The terminals of the default of a slot, after the mark that announces it. -/
def anchoredDefault (announced : Mark) (default? : Option Expr) : List Anchored :=
  (default?.map fun e => inner (.mark announced) :: e.anchored).getD []

/-- Without the nodes, the terminals of a default are those that spell it. -/
theorem map_terminal_anchoredDefault (announced : Mark) (slot : Slot) :
    (anchoredDefault announced slot.default?).map (·.terminal) =
      slot.defaultTerminals announced := by
  rw [slot.defaultTerminals_eq]
  cases h : slot.default? <;> simp [anchoredDefault, Expr.map_terminal_anchored]

/-- The terminals of a parameter, with the nodes that start there. -/
def anchored (slot : Slot) : List Anchored :=
  .name slot.position slot.typeName :: inner (.name slot.name) ::
    anchoredDefault .equals slot.default?

/-- Without the nodes, the terminals of a parameter are those that spell it. -/
theorem map_terminal_anchored (slot : Slot) : slot.anchored.map (·.terminal) = slot.terminals := by
  simp [anchored, terminals, map_terminal_anchoredDefault]

end Slot

namespace Method

/-- The terminals after the parameters of a method. -/
def anchoredTail : Option Expr → List Anchored
  | none => [inner .newline]
  | some e => inner (.mark .colon) :: inner .newline :: inner .indent ::
      (e.anchored ++ [inner .newline, inner .dedent])

/-- The terminals of a method, with the nodes that start there. -/
def anchored (m : Method) : List Anchored :=
  .name m.position m.returnType :: inner (.name m.name) :: inner (.mark .leftParen) ::
    (commas (m.parameters.map Slot.anchored) ++ inner (.mark .rightParen) :: anchoredTail m.body)

/-- Without the nodes, the terminals of a method are those that spell it. -/
theorem map_terminal_anchored (m : Method) : m.anchored.map (·.terminal) = m.terminals := by
  have htail : (anchoredTail m.body).map (·.terminal) = tailTerminals m.body := by
    cases m.body <;> simp [anchoredTail, tailTerminals, Expr.map_terminal_anchored]
  simp [anchored, terminals, Anchored.map_terminal_commas, htail, Function.comp_def,
    Slot.map_terminal_anchored]

end Method

/-- The terminals of a member, with the nodes that start there. -/
def Member.anchored : Member → List Anchored
  | .attribute true slot =>
      .name slot.position slot.typeName :: inner (.mark .atSign) :: inner (.name slot.name) ::
        (Slot.anchoredDefault .assign slot.default? ++ [inner .newline])
  | .attribute false slot =>
      [.name slot.position slot.typeName, inner (.name slot.name), inner .newline]
  | .method m => m.anchored

/-- Without the nodes, the terminals of a member are those that spell it. -/
theorem Member.map_terminal_anchored (m : Member) :
    m.anchored.map (·.terminal) = m.terminals := by
  rcases m with ⟨_ | _, slot⟩ | m
  · rfl
  · simp [anchored, terminals, Slot.map_terminal_anchoredDefault]
  · exact m.map_terminal_anchored

namespace Decl

/-- The terminals of the clause that lists interfaces, with the nodes that start there. -/
def anchoredInterfaces : List (Located String) → List Anchored
  | [] => []
  | refs =>
    inner (.mark .asWord) :: commas (refs.map fun ref => [Anchored.name ref.position ref.value])

/-- The terminals of a declaration, with the nodes that start there. -/
def anchored (decl : Decl) : List Anchored :=
  .mark decl.position .objectWord :: inner (.name decl.name) ::
    (anchoredInterfaces decl.interfaces ++ inner (.mark .colon) :: inner .newline ::
      inner .indent :: (decl.members.flatMap Member.anchored ++ [inner .dedent]))

/-- A declaration is spelled by its terminals. -/
theorem map_terminal_anchored (decl : Decl) : decl.anchored.map (·.terminal) = decl.terminals := by
  have hinterfaces : (anchoredInterfaces decl.interfaces).map (·.terminal) =
      interfaceTerminals decl.interfaces := by
    cases decl.interfaces with
    | nil => rfl
    | cons ref refs =>
        simp [anchoredInterfaces, interfaceTerminals, Anchored.map_terminal_commas,
          Function.comp_def]
  simp [anchored, terminals, hinterfaces, List.map_flatMap, Member.map_terminal_anchored]

/-- The expressions of a fresh member are spelled among its terminals. -/
theorem anchored_subset_member {m : Member} (hfresh : m.Fresh) {e : Expr}
    (he : e ∈ m.values ++ m.parameterDefaults) : e.anchored ⊆ m.anchored := by
  intro a ha
  rcases m with ⟨_ | _, slot⟩ | m
  · have hnone : slot.default? = none := hfresh
    simp [Member.values, Member.parameterDefaults, hnone] at he
  · have hdefault : slot.default? = some e := by
      simpa [Member.values, Member.parameterDefaults] using he
    simp [Member.anchored, Slot.anchoredDefault, hdefault, ha]
  · rw [Member.anchored, Method.anchored]
    simp only [Member.values, Member.parameterDefaults, List.mem_append, Option.mem_toList,
      List.mem_filterMap] at he
    rcases he with hbody | ⟨slot, hslot, hdefault⟩
    · have htail : a ∈ Method.anchoredTail m.body := by
        simp [Option.mem_def.1 hbody, Method.anchoredTail, ha]
      simp [htail]
    · have hparameter : a ∈ slot.anchored := by
        simp [Slot.anchored, Slot.anchoredDefault, hdefault, ha]
      have hlist := Anchored.mem_commas (List.mem_map_of_mem hslot) hparameter
      simp [hlist]

/-- A member is spelled among the terminals of its declaration. -/
theorem member_anchored_subset {decl : Decl} {m : Member} (hm : m ∈ decl.members) :
    m.anchored ⊆ decl.anchored := by
  intro a ha
  have hmember : a ∈ decl.members.flatMap Member.anchored := List.mem_flatMap.2 ⟨m, hm, ha⟩
  simp only [anchored, List.mem_cons, List.mem_append]
  tauto

/-- The expressions of a declaration with fresh members are spelled among its terminals. -/
theorem anchored_subset {decl : Decl} (hfresh : ∀ m ∈ decl.members, m.Fresh) {e : Expr}
    (he : e ∈ decl.expressions) : e.anchored ⊆ decl.anchored := by
  obtain ⟨m, hm, he⟩ := List.mem_flatMap.1 he
  exact List.Subset.trans (anchored_subset_member (hfresh m hm) he) (member_anchored_subset hm)

/-- The nodes of declarations, each with the terminal that it starts with: a node before those
inside it, and siblings in their order. -/
def nodes (decls : List Decl) : List (Located Terminal) :=
  (decls.flatMap anchored).filterMap Anchored.located?

end Decl

/-! ## Descents -/

namespace Grammar

/-- A leaf has a terminal of a tree, and it is where the node is that starts with it. -/
def Leaf.Bears (leaf : Leaf) (a : Anchored) : Prop :=
  leaf.terminal = a.terminal ∧ ∀ position ∈ a.node?, leaf.position = position

/-- Any leaf of a terminal will do where no node starts. -/
theorem Leaf.bears_inner {leaf : Leaf} {t : Terminal} (h : leaf.terminal = t) :
    leaf.Bears (inner t) :=
  ⟨h, nofun⟩

/-- A leaf is where the node is that starts with it. -/
theorem Leaf.bears_head {leaf : Leaf} {t : Terminal} (h : leaf.terminal = t)
    (hcontent : t.kind.isContent) : leaf.Bears (.head leaf.position t hcontent) :=
  ⟨h, fun _ hposition => Option.some.inj hposition⟩

/-- The leaves start with those of given terminals of a tree and go on with `rest`. -/
def Holds (leaves : List Leaf) (tree : List Anchored) (rest : List Leaf) : Prop :=
  ∃ taken, leaves = taken ++ rest ∧ List.Forall₂ Leaf.Bears taken tree

/-- No leaves are those of no terminals. -/
theorem holds_nil (leaves : List Leaf) : Holds leaves [] leaves :=
  ⟨[], rfl, .nil⟩

/-- Leaves of two parts of a tree in turn are those of both together. -/
theorem Holds.trans {leaves middle rest : List Leaf} {tree more : List Anchored}
    (hfirst : Holds leaves tree middle) (hsecond : Holds middle more rest) :
    Holds leaves (tree ++ more) rest := by
  obtain ⟨first, rfl, htree⟩ := hfirst
  obtain ⟨second, rfl, hmore⟩ := hsecond
  exact ⟨first ++ second, (List.append_assoc ..).symm, List.rel_append htree hmore⟩

/-- If the descent succeeds, the leaves that it took are those of its value. -/
def Finds {α : Type} (p : Descent α) (spell : α → List Anchored) : Prop :=
  ∀ leaves v rest, (p leaves).result = some (v, rest) → Holds leaves (spell v) rest

namespace Descent

variable {α : Type} {p q : Descent α} {spell : α → List Anchored}

/-! ### Parts of rules -/

/-- An alternative takes the leaves of whichever side it reads. -/
theorem orElse_finds (hp : Finds p spell) (hq : Finds q spell) : Finds (p <|> q) spell := by
  intro leaves v rest h
  rw [result_orElse] at h
  cases hfirst : (p leaves).result with
  | some found =>
      rw [hfirst] at h
      exact hp leaves v rest (hfirst.trans h)
  | none =>
      rw [hfirst] at h
      exact hq leaves v rest h

/-- The terminal that is asked for is taken where it stands. -/
theorem exactly_holds {t : Terminal} {leaves rest : List Leaf} {v : Unit}
    (h : (exactly t leaves).result = some (v, rest)) : Holds leaves [inner t] rest := by
  obtain ⟨first, rfl, hread⟩ := leaf_spans h
  split at hread
  · next ht => exact ⟨[first], rfl, .cons (Leaf.bears_inner ht) .nil⟩
  · cases hread

/-- A name that is read is at the place of its leaf. -/
theorem name_holds {leaves rest : List Leaf} {found : Located String}
    (h : (name leaves).result = some (found, rest)) :
    ∃ first, leaves = first :: rest ∧ first.terminal = .name found.value ∧
      first.position = found.position := by
  obtain ⟨first, rfl, hread⟩ := leaf_spans h
  split at hread
  · next text ht =>
      cases hread
      exact ⟨first, rfl, ht, rfl⟩
  · cases hread

/-- A name that a node starts with. -/
theorem name_finds : Finds name fun found => [.name found.position found.value] := by
  intro leaves found rest h
  obtain ⟨first, rfl, hterminal, hposition⟩ := name_holds h
  exact ⟨[first], rfl, .cons (hposition ▸ Leaf.bears_head hterminal rfl) .nil⟩

/-- A name that no node starts with. -/
theorem name_finds_inner : Finds name fun found => [inner (.name found.value)] := by
  intro leaves found rest h
  obtain ⟨first, rfl, hterminal, -⟩ := name_holds h
  exact ⟨[first], rfl, .cons (Leaf.bears_inner hterminal) .nil⟩

/-- A keyword that is read is taken where it stands. -/
theorem keyword_holds {m : Mark} {leaves rest : List Leaf} {v : Unit}
    (h : (keyword m leaves).result = some (v, rest)) : Holds leaves [inner (.mark m)] rest :=
  exactly_holds ((result_keyword m leaves).symm.trans h)

/-- The end of a heading takes a colon and the end of its line. -/
theorem colonLine_holds {leaves rest : List Leaf} {v : Unit}
    (h : (colonLine leaves).result = some (v, rest)) :
    Holds leaves [inner (.mark .colon), inner .newline] rest := by
  rw [result_colonLine, Option.bind_eq_some_iff] at h
  obtain ⟨⟨_, middle⟩, hcolon, hnewline⟩ := h
  exact (exactly_holds hcolon).trans (exactly_holds hnewline)

/-- What a repetition takes, value by value. -/
theorem repeated_holds (hp : Finds p spell) (leaves : List Leaf) :
    Holds leaves ((repeated p leaves).1.flatMap spell) (repeated p leaves).2.1 := by
  fun_induction repeated p leaves with
  | case1 leaves reach hfail => exact holds_nil leaves
  | case2 leaves value rest reach hfound hlt values last later hrest ih =>
      have hfirst := hp leaves value rest (by rw [hfound])
      rw [hrest] at ih
      exact hfirst.trans ih
  | case3 leaves value rest reach hfound hle => exact holds_nil leaves

/-- What is read again and again takes the leaves of all that was found. -/
theorem many_finds (hp : Finds p spell) : Finds (many p) (·.flatMap spell) := by
  intro leaves vs rest h
  cases h
  exact repeated_holds hp leaves

/-- What is read once or more takes the leaves of all that was found. -/
theorem many1_finds (hp : Finds p spell) : Finds (many1 p) (·.flatMap spell) := by
  intro leaves vs rest h
  have hholds := repeated_holds hp leaves
  unfold many1 at h
  split at h
  · cases h
  · next values last reach hne hrepeated =>
      cases h
      rwa [hrepeated] at hholds

/-- What may be left out takes its leaves if it was found, and none otherwise. -/
theorem optional_finds (hp : Finds p spell) :
    Finds (optional p) fun v? => (v?.map spell).getD [] := by
  intro leaves v? rest h
  rw [result_optional] at h
  cases hresult : (p leaves).result with
  | none =>
      rw [hresult] at h
      cases h
      exact holds_nil _
  | some found =>
      rw [hresult] at h
      cases h
      exact hp leaves _ _ hresult

/-- An item with the comma before it takes the leaves of both. -/
theorem commaItem_finds (hp : Finds p spell) :
    Finds (commaItem p) fun v => inner (.mark .comma) :: spell v := by
  intro leaves v rest h
  simp only [commaItem, result_bind, Option.bind_eq_some_iff] at h
  obtain ⟨⟨_, middle⟩, hcomma, hitem⟩ := h
  exact (exactly_holds hcomma).trans (hp middle v rest hitem)

/-- Items between commas take their leaves and those of the commas. -/
theorem separated1_finds (hp : Finds p spell) :
    Finds (separated1 p) fun vs => commas (vs.map spell) := by
  intro leaves vs rest h
  simp only [separated1, result_bind, result_pure, Option.bind_eq_some_iff] at h
  obtain ⟨⟨first, middle⟩, hfirst, ⟨others, last⟩, hothers, heq⟩ := h
  cases heq
  have hrest := many_finds (commaItem_finds hp) middle others _ hothers
  simpa [commas, List.flatMap_map] using (hp leaves first middle hfirst).trans hrest

/-- Items between commas, or none, take their leaves and those of the commas. -/
theorem separated_finds (hp : Finds p spell) :
    Finds (separated p) fun vs => commas (vs.map spell) := by
  refine orElse_finds (separated1_finds hp) fun leaves vs rest h => ?_
  cases h
  exact holds_nil leaves

/-! ### Rules -/

/-- A literal of any sort is at the place of its leaf. -/
theorem literalOf_finds (sort : Terminal → Bool) : Finds (literalOf sort) Expr.anchored := by
  intro leaves e rest h
  obtain ⟨first, rfl, hread⟩ := leaf_spans h
  split at hread
  · obtain ⟨v, hliteral, rfl⟩ := Option.map_eq_some_iff.1 hread
    have hterminal : first.terminal = v.terminal := by
      unfold Terminal.literal? at hliteral
      split at hliteral <;> cases hliteral <;> assumption
    exact ⟨[first], rfl, .cons (Leaf.bears_head hterminal _) .nil⟩
  · cases hread

/-- A literal is at the place of its leaf. -/
theorem literal_finds : Finds literal Expr.anchored :=
  orElse_finds (literalOf_finds _) (orElse_finds (literalOf_finds _) (literalOf_finds _))

/-- A reference is at the place of its name. -/
theorem reference_finds : Finds reference Expr.anchored := by
  intro leaves e rest h
  simp only [reference, result_bind, result_pure, Option.bind_eq_some_iff] at h
  obtain ⟨⟨found, middle⟩, hname, heq⟩ := h
  cases heq
  exact name_finds _ _ _ hname

/-- A call is at the place of its name, and takes the leaves of its arguments. -/
theorem call_finds {argument : Descent Expr} (hargument : Finds argument Expr.anchored) :
    Finds (call argument) Expr.anchored := by
  intro leaves e rest h
  simp only [call, result_bind, result_pure, Option.bind_eq_some_iff] at h
  obtain ⟨⟨found, _⟩, hname, _, hopen, ⟨args, _⟩, hargs, _, hclose, heq⟩ := h
  cases heq
  have htaken := (name_finds _ _ _ hname).trans ((exactly_holds hopen).trans
    ((separated_finds hargument _ _ _ hargs).trans (exactly_holds hclose)))
  simpa [Expr.anchored] using htaken

/-- An expression and all inside it are at the places of their leaves. -/
theorem expression_finds (fuel : Nat) : Finds (expression fuel) Expr.anchored := by
  induction fuel with
  | zero =>
      intro leaves e rest h
      cases h
  | succ fuel ih => exact orElse_finds (call_finds ih) (orElse_finds literal_finds reference_finds)

/-- The position that comes with a type and a name is that of the type. -/
theorem typedName_holds {leaves rest : List Leaf} {found : Position × String × String}
    (h : (typedName leaves).result = some (found, rest)) :
    Holds leaves [.name found.1 found.2.1, inner (.name found.2.2)] rest := by
  simp only [typedName, result_bind, result_pure, Option.bind_eq_some_iff] at h
  obtain ⟨⟨typeName, _⟩, htype, ⟨slotName, _⟩, hname, heq⟩ := h
  cases heq
  exact (name_finds _ _ _ htype).trans (name_finds_inner _ _ _ hname)

section

variable {value : Descent Expr} (hvalue : Finds value Expr.anchored)

include hvalue

/-- A default takes the mark that announces it and the leaves of its expression. -/
theorem default_finds (announced : Mark) :
    Finds (optional (default announced value)) (Slot.anchoredDefault announced) := by
  refine optional_finds fun leaves e rest h => ?_
  simp only [default, result_bind, Option.bind_eq_some_iff] at h
  obtain ⟨⟨_, middle⟩, hmark, he⟩ := h
  exact (exactly_holds hmark).trans (hvalue _ _ _ he)

/-- A parameter is at the place of its type. -/
theorem parameter_finds : Finds (parameter value) Slot.anchored := by
  intro leaves slot rest h
  simp only [parameter, result_bind, result_pure, Option.bind_eq_some_iff] at h
  obtain ⟨⟨⟨position, typeName, slotName⟩, _⟩, hnames, ⟨default?, _⟩, hdefault, heq⟩ := h
  cases heq
  exact (typedName_holds hnames).trans (default_finds hvalue .equals _ _ _ hdefault)

/-- The end of a method takes the leaves of the body and of its lines. -/
theorem methodTail_finds : Finds (methodTail value) Method.anchoredTail := by
  refine orElse_finds (fun leaves body rest h => ?_) fun leaves body rest h => ?_
  · simp only [methodBody, result_bind, result_pure, Option.bind_eq_some_iff] at h
    obtain ⟨_, hcolon, _, hindent, ⟨e, _⟩, he, _, hnewline, _, hdedent, heq⟩ := h
    cases heq
    exact (colonLine_holds hcolon).trans ((exactly_holds hindent).trans
      ((hvalue _ _ _ he).trans ((exactly_holds hnewline).trans (exactly_holds hdedent))))
  · simp only [noBody, result_bind, result_pure, Option.bind_eq_some_iff] at h
    obtain ⟨_, hnewline, heq⟩ := h
    cases heq
    exact exactly_holds hnewline

/-- A method is at the place of the type that it returns. -/
theorem method_finds : Finds (method value) Member.anchored := by
  intro leaves m rest h
  simp only [method, result_bind, result_pure, Option.bind_eq_some_iff] at h
  obtain ⟨⟨⟨position, returnType, methodName⟩, _⟩, hnames, _, hopen, ⟨slots, _⟩, hslots, _, hclose,
    ⟨body, _⟩, hbody, heq⟩ := h
  cases heq
  have hparameters := separated_finds (parameter_finds hvalue) _ _ _ hslots
  exact (typedName_holds hnames).trans ((exactly_holds hopen).trans (hparameters.trans
    ((exactly_holds hclose).trans (methodTail_finds hvalue _ _ _ hbody))))

/-- A stored attribute is at the place of its type. -/
theorem stored_finds : Finds (stored value) Member.anchored := by
  intro leaves m rest h
  simp only [stored, result_bind, result_pure, Option.bind_eq_some_iff] at h
  obtain ⟨⟨typeName, _⟩, htype, _, hat, ⟨slotName, _⟩, hname, ⟨default?, _⟩, hdefault, _, hnewline,
    heq⟩ := h
  cases heq
  exact (name_finds _ _ _ htype).trans
    ((exactly_holds hat).trans ((name_finds_inner _ _ _ hname).trans
    ((default_finds hvalue .assign _ _ _ hdefault).trans (exactly_holds hnewline))))

omit hvalue in
/-- An attribute that is only announced is at the place of its type. -/
theorem announced_finds : Finds announced Member.anchored := by
  intro leaves m rest h
  simp only [announced, result_bind, result_pure, Option.bind_eq_some_iff] at h
  obtain ⟨⟨⟨position, typeName, slotName⟩, _⟩, hnames, _, hnewline, heq⟩ := h
  cases heq
  exact (typedName_holds hnames).trans (exactly_holds hnewline)

/-- A member of any kind is at the place of its first leaf. -/
theorem member_finds : Finds (member value) Member.anchored :=
  orElse_finds (method_finds hvalue) (orElse_finds (stored_finds hvalue) announced_finds)

omit hvalue in
/-- Each interface is at the place of its name. -/
theorem interfaces_finds :
    Finds (optional interfaces) fun listed => Decl.anchoredInterfaces (listed.getD []) := by
  have hclause : Finds interfaces fun refs =>
      inner (.mark .asWord) ::
        commas (refs.map fun ref => [Anchored.name ref.position ref.value]) := by
    intro leaves refs rest h
    simp only [interfaces, result_bind, Option.bind_eq_some_iff] at h
    obtain ⟨_, hkeyword, hnames⟩ := h
    exact (keyword_holds hkeyword).trans (separated1_finds name_finds _ _ _ hnames)
  intro leaves listed rest h
  cases listed with
  | none => exact optional_finds hclause leaves none rest h
  | some refs =>
      -- A clause that is there lists an interface.
      have hne : refs ≠ [] := by
        rw [result_optional] at h
        cases hresult : (interfaces leaves).result with
        | none =>
            rw [hresult] at h
            cases h
        | some found =>
            rw [hresult] at h
            cases h
            simp only [interfaces, result_bind, Option.bind_eq_some_iff] at hresult
            obtain ⟨_, -, hnames⟩ := hresult
            exact (separated1_reads name_reads _ _ _ hnames).1.1
      obtain ⟨ref, refs, rfl⟩ := List.exists_cons_of_ne_nil hne
      exact optional_finds hclause leaves _ rest h

/-- A declaration is at the place of its first word, and all inside it where its leaves are. -/
theorem declaration_finds : Finds (declaration value) Decl.anchored := by
  intro leaves decl rest h
  simp only [declaration, result_bind, result_pure, Option.bind_eq_some_iff] at h
  obtain ⟨⟨position, _⟩, hposition, ⟨_, middle⟩, hobject, ⟨found, _⟩, hname, ⟨listed, _⟩, hlisted,
    _, hcolon, _, hindent, ⟨members, _⟩, hmembers, _, hdedent, heq⟩ := h
  cases heq
  obtain ⟨first, hfirst, hposition⟩ := Option.map_eq_some_iff.1 hposition
  cases hposition
  -- The declaration is where its keyword is.
  have hkeyword : Holds leaves [.mark first.position .objectWord] middle := by
    obtain ⟨taken, rfl, hbears⟩ := keyword_holds hobject
    obtain ⟨found, rfl⟩ := List.length_eq_one_iff.1 hbears.length_eq
    obtain rfl : found = first := Option.some.inj hfirst
    obtain ⟨⟨hterminal, -⟩, -⟩ := List.forall₂_cons.1 hbears
    exact ⟨[found], rfl, .cons (Leaf.bears_head hterminal rfl) .nil⟩
  exact hkeyword.trans ((name_finds_inner _ _ _ hname).trans
    ((interfaces_finds _ _ _ hlisted).trans ((colonLine_holds hcolon).trans
      ((exactly_holds hindent).trans ((many1_finds (member_finds hvalue) _ _ _ hmembers).trans
        (exactly_holds hdedent))))))

/-- Declarations that are read have taken all leaves but the last, and each of their nodes is where
the leaf is that it starts with. -/
theorem program_holds {leaves rest : List Leaf} {decls : List Decl}
    (h : (program value leaves).result = some (decls, rest)) :
    Holds leaves (decls.flatMap Decl.anchored) rest := by
  simp only [program, result_bind, result_pure, Option.bind_eq_some_iff] at h
  obtain ⟨⟨found, middle⟩, hdecls, ⟨_, _⟩, hend, heq⟩ := h
  cases heq
  obtain ⟨rfl, -⟩ := endOfInput_spans hend
  exact many_finds (declaration_finds hvalue) _ _ _ hdecls

end

end Descent

end Grammar

end EoJava
