import EoJava.Proofs.Java.Outline
import EoJava.Proofs.Shape.Accepted
import Mathlib.Data.List.Nodup

/-!
# Shapes without positions

Positions and expressions do not count for the kind of a declaration, nor for its first fault, but
for where that is found (`fault?_mapNodes`). A classification finds no fault exactly if the names of
the declarations are distinct and none has a fault of its own (`classify_iff`).
-/

namespace EoJava

variable {f : Position → Position} {g : Expr → Expr}

/-- The kind of a declaration depends neither on positions nor on expressions. -/
theorem Decl.derivedKind_mapNodes (decl : Decl) :
    (decl.mapNodes f g).derivedKind = decl.derivedKind := by
  simp [derivedKind, stored_mapNodes, methods_mapNodes, Function.comp_def]

/-- An erased declaration has the kind of the declaration. -/
theorem Decl.derivedKind_erased (decl : Decl) : decl.erased.derivedKind = decl.derivedKind := by
  rw [erased_eq_mapNodes, derivedKind_mapNodes]

namespace Shape

theorem map_orElse {α β : Type} (f : α → β) (first next : Option α) :
    (first <|> next).map f = (first.map f <|> next.map f) := by
  cases first <;> rfl

/-- Interfaces at other places have the same fault, at its other place. -/
theorem interfaceFault?_relocate (name : String) (listed : List String)
    (refs : List (Located String)) :
    interfaceFault? name listed (refs.map (Located.relocate f)) =
      (interfaceFault? name listed refs).map (Located.relocate f) := by
  induction refs generalizing listed with
  | nil => rfl
  | cons ref refs ih =>
      simp only [List.map_cons, interfaceFault?, Located.relocate, ih]
      split
      · rfl
      · split <;> rfl

/-- Parameters with other nodes have the same fault, at its other place. -/
theorem parameterFault?_mapNodes (name method : String) (taken : List String)
    (slots : List Slot) : parameterFault? name method taken (slots.map (Slot.mapNodes f g)) =
      (parameterFault? name method taken slots).map (Located.relocate f) := by
  induction slots generalizing taken with
  | nil => rfl
  | cons slot slots ih =>
      simp only [List.map_cons, parameterFault?, Slot.name_mapNodes, ih]
      split <;> rfl

/-- Members with other nodes have the same fault, at its other place. -/
theorem memberFault?_mapNodes (name : String) (taken : List String) (members : List Member) :
    memberFault? name taken (members.map (Member.mapNodes f g)) =
      (memberFault? name taken members).map (Located.relocate f) := by
  induction members generalizing taken with
  | nil => rfl
  | cons member members ih =>
      simp only [List.map_cons, memberFault?, Member.name_mapNodes, Member.position_mapNodes, ih]
      split
      · rfl
      · rw [map_orElse]
        rcases member with ⟨stored, slot⟩ | m
        · rfl
        · exact congrArg (· <|> _) (parameterFault?_mapNodes name m.name [] m.parameters)

/-- The order of defaults has the same fault, whatever they are. -/
theorem defaultFault?_mapNodes (owner : SlotOwner) (defaulted? : Option String)
    (slots : List Slot) : defaultFault? owner defaulted? (slots.map (Slot.mapNodes f g)) =
      (defaultFault? owner defaulted? slots).map (Located.relocate f) := by
  induction slots generalizing defaulted? with
  | nil => rfl
  | cons slot slots ih =>
      obtain ⟨position, typeName, slotName, _ | e⟩ := slot <;> cases defaulted?
      · exact ih none
      · rfl
      · exact ih _
      · exact ih _

/-- Slots with other nodes have the same fault, at its other place. -/
theorem defaultsFault?_mapNodes (decl : Decl) :
    defaultsFault? (decl.mapNodes f g) = (defaultsFault? decl).map (Located.relocate f) := by
  rw [defaultsFault?, defaultsFault?, map_orElse, Decl.stored_mapNodes, Decl.methods_mapNodes,
    Decl.name_mapNodes, defaultFault?_mapNodes, List.findSome?_map, List.map_findSome?]
  simp only [Function.comp_def, Method.name_mapNodes, Method.parameters_mapNodes,
    defaultFault?_mapNodes]

/-- Announced attributes of a class are a fault, at their other place. -/
theorem announcedFault?_mapNodes (decl : Decl) :
    announcedFault? (decl.mapNodes f g) = (announcedFault? decl).map (Located.relocate f) := by
  rw [announcedFault?, announcedFault?, Decl.members_mapNodes, Decl.name_mapNodes,
    Decl.derivedKind_mapNodes, List.findSome?_map, List.map_findSome?]
  congr 1
  funext member
  rcases member with ⟨_ | _, slot⟩ | m <;> rfl

/-- Methods without a body are a fault in a class, at their other place. -/
theorem abstractFault?_mapNodes (decl : Decl) :
    abstractFault? (decl.mapNodes f g) = (abstractFault? decl).map (Located.relocate f) := by
  simp only [abstractFault?, Decl.methods_mapNodes, Decl.stored_mapNodes, List.find?_map,
    List.head?_map, Function.comp_def, Method.body_mapNodes, Option.isNone_map, Option.isSome_map,
    Decl.name_mapNodes]
  cases decl.methods.find? (·.body.isNone) with
  | none => rfl
  | some abstract =>
      cases decl.methods.find? (·.body.isSome) with
      | some concrete => rfl
      | none => cases decl.stored.head? <;> rfl

end Shape

/-- Positions and expressions do not count for the first fault of a declaration, but for where it
is. -/
theorem Decl.fault?_mapNodes (decl : Decl) :
    (decl.mapNodes f g).fault? = decl.fault?.map (Located.relocate f) := by
  simp only [fault?, Shape.map_orElse, ← Shape.defaultsFault?_mapNodes (g := g),
    ← Shape.announcedFault?_mapNodes (g := g), ← Shape.abstractFault?_mapNodes (g := g),
    ← Shape.memberFault?_mapNodes (g := g), ← Shape.interfaceFault?_relocate]
  rfl

/-- The code of a problem, at the place of the problem. -/
def Located.code (problem : Located Problem) : Located Code :=
  ⟨problem.position, problem.value.code⟩

namespace Shape

/-- A name is taken by a declaration wherever that is. The problem tells where. -/
theorem nameFault?_mapNodes (earlier : List Decl) (decl : Decl) :
    (nameFault? (earlier.map (Decl.mapNodes f g)) (decl.mapNodes f g)).map Located.code =
      ((nameFault? earlier decl).map Located.code).map (Located.relocate f) := by
  simp only [nameFault?, List.find?_map, Function.comp_def, Decl.name_mapNodes]
  cases earlier.find? (·.name == decl.name) <;> rfl

/-- Declarations with other nodes are refused for the same fault, at its other place. -/
theorem classifyAfter_mapNodes (earlier decls : List Decl) :
    (classifyAfter (earlier.map (Decl.mapNodes f g)) (decls.map (Decl.mapNodes f g))).2.map
        Located.code =
      ((classifyAfter earlier decls).2.map Located.code).map (Located.relocate f) := by
  induction decls generalizing earlier with
  | nil => rfl
  | cons decl decls ih =>
      have hfault : (nameFault? (earlier.map (Decl.mapNodes f g)) (decl.mapNodes f g) <|>
            (decl.mapNodes f g).fault?).map Located.code =
          ((nameFault? earlier decl <|> decl.fault?).map Located.code).map
            (Located.relocate f) := by
        rw [map_orElse, map_orElse, map_orElse, nameFault?_mapNodes, Decl.fault?_mapNodes]
        simp [Function.comp_def, Located.code, Located.relocate]
      rw [List.map_cons, classifyAfter, classifyAfter]
      revert hfault
      cases nameFault? earlier decl <|> decl.fault? <;>
        cases nameFault? (earlier.map (Decl.mapNodes f g)) (decl.mapNodes f g) <|>
          (decl.mapNodes f g).fault? <;> intro hfault
      · have hearlier := ih (earlier ++ [decl])
        rw [List.map_append] at hearlier
        exact hearlier
      · cases hfault
      · cases hfault
      · exact hfault

/-- Declarations at other places are classified alike: either none has a fault, or the first faults
have one code, each at its place. -/
theorem classify_mapNodes (decls : List Decl) :
    (classify (decls.map (Decl.mapNodes f g))).2.map Located.code =
      ((classify decls).2.map Located.code).map (Located.relocate f) :=
  classifyAfter_mapNodes [] decls

end Shape

/-- An erased declaration has the same fault. -/
theorem Decl.fault?_erased (decl : Decl) :
    decl.erased.fault? = decl.fault?.map Located.placeless := by
  rw [erased_eq_mapNodes, fault?_mapNodes]
  rfl

/-- A declaration is given its kind before or after its nodes are changed. -/
theorem Decl.classified_mapNodes (decl : Decl) :
    (decl.mapNodes f g).classified = decl.classified.mapNodes f g := by
  rw [classified, classified, derivedKind_mapNodes]
  rfl

/-- A declaration is given its kind before or after it is erased. -/
theorem Decl.erased_classified (decl : Decl) :
    decl.classified.erased = decl.erased.classified := by
  rw [erased_eq_mapNodes, erased_eq_mapNodes, classified_mapNodes]

/-- Positions and bindings do not count for whether a declaration is accepted. -/
theorem Decl.Accepted.congr {decl other : Decl} (h : decl.Accepted)
    (heq : other.erased = decl.erased) : other.Accepted := by
  have hkind : other.erased.kind = decl.erased.kind := congrArg Decl.kind heq
  have hderived : other.derivedKind = decl.derivedKind := by
    rw [← other.derivedKind_erased, heq, decl.derivedKind_erased]
  have hfault : other.fault?.map Located.placeless = decl.fault?.map Located.placeless := by
    rw [← other.fault?_erased, heq, decl.fault?_erased]
  refine ⟨hkind.trans (h.kind.trans (congrArg some hderived.symm)), ?_⟩
  rwa [h.fault, Option.map_none, Option.map_eq_none_iff] at hfault

namespace Shape

/-- The name of a declaration is no fault if no earlier one has it. -/
theorem nameFault?_eq_none_iff {earlier : List Decl} {decl : Decl} :
    nameFault? earlier decl = none ↔ decl.name ∉ earlier.map Decl.name := by
  have hfind : nameFault? earlier decl = none ↔ earlier.find? (·.name == decl.name) = none := by
    unfold nameFault?
    cases earlier.find? (·.name == decl.name) <;> simp
  rw [hfind, List.find?_eq_none]
  simp

/-- Declarations are classified without a fault after others exactly if none has a fault, and none
has a name that was taken before. -/
theorem classifyAfter_iff {earlier decls : List Decl} :
    (classifyAfter earlier decls).2 = none ↔ (∀ decl ∈ decls, decl.fault? = none) ∧
      (decls.map Decl.name).Nodup ∧ (earlier.map Decl.name).Disjoint (decls.map Decl.name) := by
  induction decls generalizing earlier with
  | nil => simp [classifyAfter]
  | cons decl decls ih =>
      have hhead : (nameFault? earlier decl <|> decl.fault?) = none ↔
          decl.name ∉ earlier.map Decl.name ∧ decl.fault? = none := by
        rw [orElse_eq_none_iff, nameFault?_eq_none_iff]
      rw [List.forall_mem_cons, List.map_cons, List.nodup_cons, List.disjoint_cons_right,
        classifyAfter]
      cases hfault : nameFault? earlier decl <|> decl.fault? with
      | some fault =>
          rw [hfault] at hhead
          simp only [reduceCtorEq, false_iff] at hhead ⊢
          exact fun h => hhead ⟨h.2.2.1, h.1.1⟩
      | none =>
          obtain ⟨hnew, hnone⟩ := hhead.1 hfault
          simp only [ih, List.map_append, List.map_cons, List.map_nil, List.disjoint_append_left,
            List.singleton_disjoint]
          constructor
          · rintro ⟨hnones, hnodup, hdisjoint, hname⟩
            exact ⟨⟨hnone, hnones⟩, ⟨hname, hnodup⟩, hnew, hdisjoint⟩
          · rintro ⟨⟨-, hnones⟩, ⟨hname, hnodup⟩, -, hdisjoint⟩
            exact ⟨hnones, hnodup, hdisjoint, hname⟩

/-- Declarations are classified without a fault exactly if none has one, and their names are
distinct. -/
theorem classify_iff {decls : List Decl} : (classify decls).2 = none ↔
    (∀ decl ∈ decls, decl.fault? = none) ∧ (decls.map Decl.name).Nodup := by
  rw [classify, classifyAfter_iff]
  simp

end Shape

end EoJava
