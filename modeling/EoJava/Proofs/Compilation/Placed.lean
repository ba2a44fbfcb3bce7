import EoJava.Proofs.Compilation.Nodes
import EoJava.Proofs.Grammar.Expected

/-!
# Problems with the declarations of a source

The nodes of a declaration that is read from a source are at places of lexemes, and its names are
spelled by them (`Compilation.Places.spelledIn`). A fault of a declaration and a failure of an
expression are each at such a node and tell only such names. So they are where the source has
something, and they are told on one line (`Decl.SpelledIn.stands_of_blamed`,
`Decl.SpelledIn.stands_of_fails`).
-/

namespace EoJava

open Grammar (Terminal Anchored)
open Text (Unbroken)

/-! ## Where expressions fail -/

namespace Expr

/-- What is wrong with the terminal that an expression starts with, where the defaults of `slots`
are computed. -/
inductive Blamed (slots : List Slot) : Problem → Terminal → Prop where
  | number {text : String} (h : Java.numberLiteral? text = none) :
      Blamed slots (.malformedNumber text) (.number text)
  | unavailable (name : String) {slot : Slot} (hslot : slot ∈ slots) :
      Blamed slots (.unavailableSlot name slot.name) (.name name)
  | nameless : Blamed slots .namelessCall (.name "")

/-- An expression fails at one of its nodes, which is where the problem is. -/
theorem Fails.exists_anchored {slots : List Slot} {e : Expr} {problem : Located Problem}
    (h : e.Fails slots problem) :
    ∃ a ∈ e.anchored, ∃ t, a.located? = some ⟨problem.position, t⟩ ∧
      Blamed slots problem.value t := by
  induction h with
  | number hnone => exact ⟨_, List.mem_singleton_self _, _, rfl, .number hnone⟩
  | unavailable position name binding hslot =>
      exact ⟨_, List.mem_singleton_self _, _, rfl, .unavailable name hslot⟩
  | nameless position args => exact ⟨_, List.mem_cons_self, _, rfl, .nameless⟩
  | @argument position name args arg problem harg hfails ih =>
      obtain ⟨a, ha, t, hlocated, hblamed⟩ := ih
      have hmem := Anchored.mem_commas (List.mem_map_of_mem harg) ha
      exact ⟨a, by simp [anchored, hmem], t, hlocated, hblamed⟩

variable {slots : List Slot} {problem : Problem} {t : Terminal}

/-- Only a call without a name is refused for that. -/
theorem Blamed.eq_empty (h : Blamed slots problem t) (hcode : problem.code = .namelessCall) :
    t = .name "" := by
  cases h with
  | nameless => rfl
  | number | unavailable => cases hcode

/-- Only a number outside the ranges of Java is refused for that. -/
theorem Blamed.exists_number (h : Blamed slots problem t) (hcode : problem.code = .malformedNumber) :
    ∃ text, t = .number text ∧ Java.numberLiteral? text = none := by
  cases h with
  | number hnone => exact ⟨_, rfl, hnone⟩
  | nameless | unavailable => cases hcode

end Expr

/-! ## Parts of a declaration -/

/-- A problem is at one of certain places, and what it tells is on one line. -/
structure Located.Stands (Inside : Position → Prop) (problem : Located Problem) : Prop where
  inside : Inside problem.position
  unbroken : problem.value.Unbroken

/-- The slots of a member are spelled among its terminals, and each starts with its type. -/
theorem Member.anchored_of_slot {m : Member} {slot : Slot} (h : slot ∈ m.slots) :
    .name slot.position slot.typeName ∈ m.anchored ∧ .inner (.name slot.name) ∈ m.anchored := by
  rcases m with ⟨_ | _, found⟩ | m
  · obtain rfl := List.mem_singleton.1 h
    simp [anchored]
  · obtain rfl := List.mem_singleton.1 h
    simp [anchored]
  · have hslots {a : Anchored} (ha : a ∈ slot.anchored) : a ∈ (Member.method m).anchored := by
      have hmem : slot ∈ m.parameters := h
      have hlist := Anchored.mem_commas (List.mem_map_of_mem hmem) ha
      simp [anchored, Method.anchored, hlist]
    exact ⟨hslots (by simp [Slot.anchored]), hslots (by simp [Slot.anchored])⟩

namespace Decl

/-- The nodes of a declaration are at certain places, and its terminals are ones that can be
scanned. -/
def SpelledIn (Inside : Position → Prop) (decl : Decl) : Prop :=
  ∀ a ∈ decl.anchored, (∀ position ∈ a.node?, Inside position) ∧ a.terminal.Legible

variable {Inside : Position → Prop} {decl : Decl}

/-- The interfaces of a declaration are spelled among its terminals. -/
theorem anchored_of_reference {ref : Located String} (h : ref ∈ decl.interfaces) :
    .name ref.position ref.value ∈ decl.anchored := by
  have hlisted : .name ref.position ref.value ∈ anchoredInterfaces decl.interfaces := by
    cases hinterfaces : decl.interfaces with
    | nil =>
        rw [hinterfaces] at h
        cases h
    | cons first refs =>
        rw [hinterfaces] at h
        exact List.mem_cons_of_mem _
          (Anchored.mem_commas (List.mem_map_of_mem h) (List.mem_singleton_self _))
  simp [anchored, hlisted]

namespace SpelledIn

/-- A name of a declaration is on one line. -/
theorem unbroken_of_mem (h : decl.SpelledIn Inside) {a : Anchored} (ha : a ∈ decl.anchored)
    {text : String} (hterminal : a.terminal = .name text) : Unbroken text.toList := by
  have hlegible := (h a ha).2
  rw [hterminal] at hlegible
  exact Grammar.unbroken_print hlegible

/-- A declaration stands where one of the tokens is. -/
theorem inside (h : decl.SpelledIn Inside) : Inside decl.position :=
  (h (.mark decl.position .objectWord) (by simp [anchored])).1 _ rfl

/-- The name of a declaration is on one line. -/
theorem name (h : decl.SpelledIn Inside) : Unbroken decl.name.toList :=
  h.unbroken_of_mem (a := .inner (.name decl.name)) (by simp [anchored]) rfl

/-- Each interface stands where one of the tokens is, and its name is on one line. -/
theorem reference (h : decl.SpelledIn Inside) {ref : Located String} (href : ref ∈ decl.interfaces) :
    Inside ref.position ∧ Unbroken ref.value.toList := by
  have hmem := anchored_of_reference href
  exact ⟨(h _ hmem).1 _ rfl, h.unbroken_of_mem hmem rfl⟩

/-- Each slot stands where one of the tokens is, and its names are on one line. -/
theorem slot (h : decl.SpelledIn Inside) {slot : Slot} (hslot : slot ∈ decl.slots) :
    Inside slot.position ∧ Unbroken slot.typeName.toList ∧ Unbroken slot.name.toList := by
  obtain ⟨member, hmember, hslot⟩ := List.mem_flatMap.1 hslot
  obtain ⟨htype, hname⟩ := Member.anchored_of_slot hslot
  have htype := member_anchored_subset hmember htype
  have hname := member_anchored_subset hmember hname
  exact ⟨(h _ htype).1 _ rfl, h.unbroken_of_mem htype rfl, h.unbroken_of_mem hname rfl⟩

/-- Each method stands where one of the tokens is, and its name is on one line. -/
theorem method (h : decl.SpelledIn Inside) {m : Method} (hm : m ∈ decl.methods) :
    Inside m.position ∧ Unbroken m.name.toList := by
  have hsub : m.anchored ⊆ decl.anchored := member_anchored_subset (mem_methods.1 hm)
  have htype : .name m.position m.returnType ∈ decl.anchored := hsub (by simp [Method.anchored])
  have hname : .inner (.name m.name) ∈ decl.anchored := hsub (by simp [Method.anchored])
  exact ⟨(h _ htype).1 _ rfl, h.unbroken_of_mem hname rfl⟩

/-- Each member stands where one of the tokens is, and its name is on one line. -/
theorem member (h : decl.SpelledIn Inside) {member : Member} (hmember : member ∈ decl.members) :
    Inside member.position ∧ Unbroken member.name.toList := by
  rcases member with ⟨stored, slot⟩ | m
  · obtain ⟨hinside, -, hname⟩ := h.slot (subset_slots hmember (List.mem_singleton_self slot))
    exact ⟨hinside, hname⟩
  · exact h.method (mem_methods.2 hmember)

/-- What owns some slots is described on one line. -/
theorem owner (h : decl.SpelledIn Inside) {owner : SlotOwner} {slots : List Slot}
    (howner : owner.Holds decl slots) : slots ⊆ decl.slots ∧ Unbroken owner.describe.toList := by
  cases howner with
  | constructor =>
      refine ⟨decl.stored_subset, ?_⟩
      show Unbroken ("the constructor of '" ++ decl.name ++ "'").toList
      simp only [String.toList_append, Text.unbroken_append]
      exact ⟨⟨by decide +kernel, h.name⟩, by decide +kernel⟩
  | @method m hm =>
      refine ⟨parameters_subset hm, ?_⟩
      show Unbroken ("'" ++ decl.name ++ "." ++ m.name ++ "'").toList
      simp only [String.toList_append, Text.unbroken_append]
      exact ⟨⟨⟨⟨by decide +kernel, h.name⟩, by decide +kernel⟩, (h.method hm).2⟩,
        by decide +kernel⟩

/-! ## Faults and failures -/

/-- A fault of a declaration is at one of its nodes and tells only its names. -/
theorem stands_of_blamed (h : decl.SpelledIn Inside) {fault : Located Problem}
    (hblamed : decl.Blamed fault) : fault.Stands Inside := by
  have hname := h.name
  cases hblamed with
  | duplicateDeclaration line =>
      exact ⟨h.inside, by simpa [Problem.Unbroken, Problem.arguments, Scalar.display] using hname⟩
  | invalidInterface href | duplicateInterface href =>
      obtain ⟨hinside, href⟩ := h.reference href
      exact ⟨hinside, by simp [Problem.Unbroken, Problem.arguments, Scalar.display, hname, href]⟩
  | duplicateMember hmember =>
      obtain ⟨hinside, hmember⟩ := h.member hmember
      exact ⟨hinside,
        by simp [Problem.Unbroken, Problem.arguments, Scalar.display, hname, hmember]⟩
  | duplicateParameter hm hslot =>
      obtain ⟨hinside, -, hslot⟩ := h.slot (parameters_subset hm hslot)
      exact ⟨hinside, by
        simp [Problem.Unbroken, Problem.arguments, Scalar.display, hname, (h.method hm).2, hslot]⟩
  | missingDefault howner hslot hearlier =>
      obtain ⟨hsub, howner⟩ := h.owner howner
      obtain ⟨hinside, -, hslot⟩ := h.slot (hsub hslot)
      obtain ⟨-, -, hearlier⟩ := h.slot (hsub hearlier)
      exact ⟨hinside,
        by simp [Problem.Unbroken, Problem.arguments, Scalar.display, hslot, hearlier, howner]⟩
  | attributeInInterface hslot | abstractAttribute hslot =>
      obtain ⟨hinside, htype, hslot⟩ :=
        h.slot (subset_slots hslot (List.mem_singleton_self _))
      exact ⟨hinside,
        by simp [Problem.Unbroken, Problem.arguments, Scalar.display, hname, hslot, htype]⟩
  | mixedMethods hm hother =>
      obtain ⟨hinside, hm⟩ := h.method hm
      exact ⟨hinside, by
        simp [Problem.Unbroken, Problem.arguments, Scalar.display, hname, hm, (h.method hother).2]⟩
  | abstractMethodInClass hm hslot =>
      obtain ⟨hinside, hm⟩ := h.method hm
      obtain ⟨-, -, hslot⟩ := h.slot (decl.stored_subset hslot)
      exact ⟨hinside,
        by simp [Problem.Unbroken, Problem.arguments, Scalar.display, hname, hm, hslot]⟩

/-- A failure of an expression is at a node of its declaration, and it tells what that node and the
slots of the declaration are spelled by. -/
theorem stands_of_fails (h : decl.SpelledIn Inside) (hfresh : ∀ m ∈ decl.members, m.Fresh)
    {e : Expr} (he : e ∈ decl.expressions) {problem : Located Problem}
    (hfails : e.Fails decl.slots problem) : problem.Stands Inside := by
  obtain ⟨a, ha, t, hlocated, hblamed⟩ := hfails.exists_anchored
  obtain ⟨position, problem⟩ := problem
  obtain ⟨_, hposition, hnode⟩ := Option.map_eq_some_iff.1 hlocated
  obtain ⟨rfl, rfl⟩ := Located.mk.inj hnode
  obtain ⟨hinside, hlegible⟩ := h a (anchored_subset hfresh he ha)
  refine ⟨hinside _ hposition, ?_⟩
  have hprint := Grammar.unbroken_print hlegible
  generalize a.terminal = t at hblamed hprint
  cases hblamed with
  | number =>
      simpa [Problem.Unbroken, Problem.arguments, Scalar.display, Terminal.print] using hprint
  | unavailable name hslot =>
      obtain ⟨-, -, hslot⟩ := h.slot hslot
      simpa [Problem.Unbroken, Problem.arguments, Scalar.display, Terminal.print, hslot] using hprint
  | nameless => exact Arguments.unbroken_nil

end SpelledIn

end Decl

/-! ## Declarations of a source -/

namespace Compilation

variable {c read parsed : Compilation} {decls : List Decl}

/-- Declarations are spelled by the lexemes of a source, and each of their nodes is where the lexeme
is that it starts with. -/
def Places (c : Compilation) (decls : List Decl) : Prop :=
  List.Forall₂ Anchored.At ((Scan.source c.source.toList).lexemes.map Lexeme.placed)
    (Decl.programAnchored decls)

/-- The declarations that are read stand where the tokens are. -/
theorem places_of_parse (hfresh : c.Fresh) (hread : c.tokenize = (true, read))
    (hparse : read.parse = .ok (true, parsed)) (hdecls : parsed.declarations = some decls) :
    c.Places decls := by
  obtain ⟨met, hsource, hstores⟩ := stores_of_tokenize hfresh hread
  obtain ⟨found, us, htokenize, -, hcarried, hus, -⟩ := tokenize_of_source hfresh hsource
  obtain rfl : found = read := congrArg Prod.snd (htokenize.symm.trans hread)
  obtain ⟨rfl, hbears⟩ := bears_of_parse hcarried hparse hdecls
  have hplaced : hcarried.leaves.map Grammar.Leaf.placed = met.map Lexeme.placed := by
    rw [Grammar.Carried.leaves, ← hus]
    exact Grammar.placed_leavesFrom hstores 0
  rw [Places, hsource]
  show List.Forall₂ Anchored.At (met.map Lexeme.placed) (Decl.programAnchored decls)
  rw [← hplaced]
  exact List.forall₂_map_left_iff.2 hbears

namespace Places

/-- The nodes of declarations are among the lexemes. -/
theorem nodes_subset (h : c.Places decls) :
    Decl.nodes decls ⊆ (Scan.source c.source.toList).lexemes.map Lexeme.placed := by
  rw [← Decl.filterMap_programAnchored]
  exact (Grammar.located_sublist h).subset

/-- Declarations are spelled where the lexemes are. -/
theorem spelledIn (h : c.Places decls) {Inside : Position → Prop}
    (hinside : ∀ found ∈ (Scan.source c.source.toList).lexemes, Inside found.position) {decl : Decl}
    (hdecl : decl ∈ decls) : decl.SpelledIn Inside := by
  intro a ha
  have hmem : a ∈ Decl.programAnchored decls :=
    List.mem_append_left _ (List.mem_flatMap.2 ⟨decl, hdecl, ha⟩)
  obtain ⟨placed, hplaced, hterminal, hposition⟩ := Grammar.exists_of_forall₂ h.flip hmem
  obtain ⟨found, hfound, rfl⟩ := List.mem_map.1 hplaced
  refine ⟨fun position hnode => ?_, hterminal ▸ Scan.legible_of_met hfound⟩
  exact hposition position hnode ▸ hinside found hfound

end Places

end Compilation

end EoJava
