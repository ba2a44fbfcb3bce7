import EoJava.Proofs.Grammar.Terminal
import EoJava.Shape.Classification
import Mathlib.Data.List.Nodup

/-!
# Well-shaped declarations

The rules about the shape of declarations, said of the trees alone: `Decl.WellShaped` for one
declaration and `Decl.AllWellShaped` for those of a source. A declaration has no fault of its own
exactly if it is well shaped (`Decl.fault?_eq_none_iff`).
-/

namespace EoJava

/-! ## The rules -/

/-- A name that a type can have: an ASCII letter or an underscore, then letters, digits and
underscores, and no word that is reserved. -/
def PlainName (name : String) : Prop :=
  name ∉ ["object", "as", "true", "false"] ∧
    ∃ c cs, name.toList = c :: cs ∧ (c.isAlpha ∨ c = '_') ∧ ∀ d ∈ cs, d.isAlphanum ∨ d = '_'

/-- No slot without a default comes after one with a default. -/
def DefaultsLast (slots : List Slot) : Prop :=
  slots.Pairwise fun first later => first.default?.isSome → later.default?.isSome

namespace Decl

/-- The rules about one declaration. -/
structure WellShaped (decl : Decl) : Prop where
  plain : ∀ ref ∈ decl.interfaces, PlainName ref.value
  interfaces : (decl.interfaces.map (·.value)).Nodup
  members : (decl.members.map Member.name).Nodup
  parameters : ∀ m ∈ decl.methods, (m.parameters.map Slot.name).Nodup
  storedDefaults : DefaultsLast decl.stored
  parameterDefaults : ∀ m ∈ decl.methods, DefaultsLast m.parameters
  attributes : ∀ slot, .attribute false slot ∉ decl.members
  bodies : ∀ m ∈ decl.methods, m.body = none →
    decl.stored = [] ∧ ∀ other ∈ decl.methods, other.body = none

/-- The rules about the declarations of a source. -/
structure AllWellShaped (decls : List Decl) : Prop where
  each : ∀ decl ∈ decls, decl.WellShaped
  names : (decls.map Decl.name).Nodup

end Decl

/-! ## Faults -/

/-- The names that are accepted are the plain ones. -/
theorem isIdentifier_iff_plainName {name : String} : isIdentifier name ↔ PlainName name := by
  have hword : Mark.ofWord? name = none ↔ name ∉ ["object", "as", "true", "false"] := by
    simp [Mark.ofWord?, Mark.keywords, Mark.text, @eq_comm _ name]
  unfold isIdentifier PlainName
  rw [← hword]
  cases name.toList with
  | nil => simp
  | cons c cs => simp [Lexing.isNameStart, Lexing.isNamePart, and_comm, and_assoc]

namespace Shape

/-- Two searches find nothing exactly if neither does. -/
theorem orElse_eq_none_iff {α : Type} {first next : Option α} :
    (first <|> next) = none ↔ first = none ∧ next = none := by
  rw [Option.orElse_eq_orElse, Option.orElse_eq_or, Option.or_eq_none_iff]

/-- One more name is distinct from those after it and from those taken before. -/
theorem distinct_cons_iff {name : String} {names taken : List String} :
    (name ∉ taken ∧ names.Nodup ∧ (name :: taken).Disjoint names) ↔
      (name :: names).Nodup ∧ taken.Disjoint (name :: names) := by
  rw [List.nodup_cons, List.disjoint_cons_left, List.disjoint_cons_right]
  tauto

/-- Interfaces have no fault if their names are plain and each is listed once. -/
theorem interfaceFault?_eq_none_iff {name : String} {listed : List String}
    {refs : List (Located String)} :
    interfaceFault? name listed refs = none ↔ (∀ ref ∈ refs, PlainName ref.value) ∧
      (refs.map (·.value)).Nodup ∧ listed.Disjoint (refs.map (·.value)) := by
  induction refs generalizing listed with
  | nil => simp [interfaceFault?]
  | cons ref refs ih =>
      rw [interfaceFault?, List.map_cons, ← distinct_cons_iff, List.forall_mem_cons,
        ← isIdentifier_iff_plainName]
      by_cases hplain : isIdentifier ref.value
      · by_cases hlisted : ref.value ∈ listed
        · simp [hplain, hlisted]
        · simp [hplain, hlisted, ih]
      · simp [hplain]

/-- Parameters have no fault if their names are different. -/
theorem parameterFault?_eq_none_iff {name method : String} {taken : List String}
    {slots : List Slot} : parameterFault? name method taken slots = none ↔
      (slots.map Slot.name).Nodup ∧ taken.Disjoint (slots.map Slot.name) := by
  induction slots generalizing taken with
  | nil => simp [parameterFault?]
  | cons slot slots ih =>
      rw [parameterFault?, List.map_cons, ← distinct_cons_iff]
      by_cases htaken : slot.name ∈ taken
      · simp [htaken]
      · simp [htaken, ih]

/-- Members have no fault if their names are different, and those of the parameters of each method.
-/
theorem memberFault?_eq_none_iff {name : String} {taken : List String} {members : List Member} :
    memberFault? name taken members = none ↔
      (∀ m, .method m ∈ members → (m.parameters.map Slot.name).Nodup) ∧
        (members.map Member.name).Nodup ∧ taken.Disjoint (members.map Member.name) := by
  induction members generalizing taken with
  | nil => simp [memberFault?]
  | cons member members ih =>
      simp only [memberFault?, List.map_cons, ← distinct_cons_iff]
      by_cases htaken : member.name ∈ taken
      · simp [htaken]
      · rcases member with ⟨stored, slot⟩ | m
        · simp [htaken, ih]
        · simp [htaken, ih, parameterFault?_eq_none_iff, or_imp, forall_and, and_assoc]

/-- After a default, slots have no fault exactly if all of them have a default. -/
theorem defaultFault?_some_eq_none_iff {owner : SlotOwner} {defaulted : String}
    {slots : List Slot} : defaultFault? owner (some defaulted) slots = none ↔
      ∀ slot ∈ slots, slot.default?.isSome := by
  induction slots generalizing defaulted with
  | nil => simp [defaultFault?]
  | cons slot slots ih =>
      obtain ⟨position, typeName, slotName, _ | e⟩ := slot
      · simp [defaultFault?]
      · simp [defaultFault?, ih]

/-- The order of slots is no fault if those with defaults are last. -/
theorem defaultFault?_eq_none_iff {owner : SlotOwner} {slots : List Slot} :
    defaultFault? owner none slots = none ↔ DefaultsLast slots := by
  unfold DefaultsLast
  induction slots with
  | nil => simp [defaultFault?]
  | cons slot slots ih =>
      rw [List.pairwise_cons]
      obtain ⟨position, typeName, slotName, _ | e⟩ := slot
      · simp [defaultFault?, ih]
      · have hlast (h : ∀ slot ∈ slots, slot.default?.isSome) : slots.Pairwise
            fun first later => first.default?.isSome → later.default?.isSome :=
          List.pairwise_of_forall_mem_list fun _ _ later hlater _ => h later hlater
        simpa [defaultFault?, defaultFault?_some_eq_none_iff] using hlast

/-- A declaration has no fault in the order of its slots if defaults are last everywhere. -/
theorem defaultsFault?_eq_none_iff {decl : Decl} : defaultsFault? decl = none ↔
    DefaultsLast decl.stored ∧ ∀ m ∈ decl.methods, DefaultsLast m.parameters := by
  simp [defaultsFault?, defaultFault?_eq_none_iff]

/-- A class has no fault in its attributes if all of them are stored. -/
theorem announcedFault?_eq_none_iff {decl : Decl} :
    announcedFault? decl = none ↔ ∀ slot, .attribute false slot ∉ decl.members := by
  rw [announcedFault?, List.findSome?_eq_none_iff]
  constructor
  · intro h slot hslot
    cases h _ hslot
  · intro h member hmember
    rcases member with ⟨_ | _, slot⟩ | m
    · exact absurd hmember (h slot)
    · rfl
    · rfl

/-- The first method without a body is a fault exactly if there is a method with one, or a stored
attribute. -/
theorem abstractFault?_eq_none_iff {decl : Decl} :
    abstractFault? decl = none ↔ ∀ m ∈ decl.methods, m.body = none →
      decl.stored = [] ∧ ∀ other ∈ decl.methods, other.body = none := by
  unfold abstractFault?
  cases habstract : decl.methods.find? (·.body.isNone) with
  | none =>
      have hbodies : ∀ m ∈ decl.methods, m.body ≠ none := by
        simpa using List.find?_eq_none.1 habstract
      simpa using fun m hm hbody => absurd hbody (hbodies m hm)
  | some abstract =>
      have hmem := List.mem_of_find?_eq_some habstract
      have hbody : abstract.body = none := by simpa using List.find?_some habstract
      -- All methods without a body ask for the same, so the first one stands for all.
      have hfirst : (∀ m ∈ decl.methods, m.body = none →
          decl.stored = [] ∧ ∀ other ∈ decl.methods, other.body = none) ↔
            decl.stored = [] ∧ ∀ other ∈ decl.methods, other.body = none :=
        ⟨fun h => h abstract hmem hbody, fun h _ _ _ => h⟩
      rw [hfirst]
      cases hconcrete : decl.methods.find? (·.body.isSome) with
      | some concrete =>
          have hbodied : concrete.body ≠ none := by
            simpa [Option.isSome_iff_ne_none] using List.find?_some hconcrete
          simpa using fun _ => ⟨concrete, List.mem_of_find?_eq_some hconcrete, hbodied⟩
      | none =>
          have hnone : ∀ other ∈ decl.methods, other.body = none := by
            simpa using List.find?_eq_none.1 hconcrete
          cases hstored : decl.stored with
          | nil => simpa using hnone
          | cons slot slots => simp

end Shape

/-- A declaration has no fault of its own exactly if it is well shaped. -/
theorem Decl.fault?_eq_none_iff {decl : Decl} : decl.fault? = none ↔ decl.WellShaped := by
  have hmethods : (∀ m, .method m ∈ decl.members → (m.parameters.map Slot.name).Nodup) ↔
      ∀ m ∈ decl.methods, (m.parameters.map Slot.name).Nodup := by
    simp only [mem_methods]
  simp only [fault?, Shape.orElse_eq_none_iff, Shape.interfaceFault?_eq_none_iff,
    Shape.memberFault?_eq_none_iff, Shape.defaultsFault?_eq_none_iff,
    Shape.announcedFault?_eq_none_iff, Shape.abstractFault?_eq_none_iff, hmethods]
  constructor
  · rintro ⟨⟨hplain, hinterfaces, -⟩, ⟨hparameters, hmembers, -⟩, ⟨hstored, hdefaults⟩,
      hattributes, hbodies⟩
    exact ⟨hplain, hinterfaces, hmembers, hparameters, hstored, hdefaults, hattributes, hbodies⟩
  · intro h
    exact ⟨⟨h.plain, h.interfaces, List.disjoint_nil_left _⟩,
      ⟨h.parameters, h.members, List.disjoint_nil_left _⟩, ⟨h.storedDefaults, h.parameterDefaults⟩,
      h.attributes, h.bodies⟩

end EoJava
