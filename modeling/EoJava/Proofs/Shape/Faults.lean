import EoJava.Proofs.Grammar.Terminal
import EoJava.Shape.Classification

/-!
# Faults of declarations

`Decl.Blamed` lists the faults that a declaration can have, each with its place and with what it
tells. The fault that ends a classification is one of these (`blamed_of_classify`), so it belongs to
the classification.
-/

namespace EoJava

/-- The slots of a declaration that an owner has: the stored attributes, or the parameters of a
method. -/
inductive SlotOwner.Holds (decl : Decl) : SlotOwner → List Slot → Prop where
  | constructor : Holds decl (.constructor decl.name) decl.stored
  | method {m : Method} (hm : m ∈ decl.methods) :
      Holds decl (.method decl.name m.name) m.parameters

/-- The faults that a declaration can have, each at the part of it that breaks the rule. -/
inductive Decl.Blamed (decl : Decl) : Located Problem → Prop where
  | duplicateDeclaration (line : Int) :
      Blamed decl ⟨decl.position, .duplicateDeclaration decl.name line⟩
  | invalidInterface {ref : Located String} (href : ref ∈ decl.interfaces)
      (hname : ¬isIdentifier ref.value) :
      Blamed decl ⟨ref.position, .invalidInterface decl.name ref.value⟩
  | duplicateInterface {ref : Located String} (href : ref ∈ decl.interfaces) :
      Blamed decl ⟨ref.position, .duplicateInterface decl.name ref.value⟩
  | duplicateMember {member : Member} (hmember : member ∈ decl.members) :
      Blamed decl ⟨member.position, .duplicateMember decl.name member.name⟩
  | duplicateParameter {m : Method} {slot : Slot} (hm : m ∈ decl.methods)
      (hslot : slot ∈ m.parameters) :
      Blamed decl ⟨slot.position, .duplicateParameter decl.name m.name slot.name⟩
  | missingDefault {owner : SlotOwner} {slots : List Slot} {slot earlier : Slot}
      (howner : owner.Holds decl slots) (hslot : slot ∈ slots) (hearlier : earlier ∈ slots) :
      Blamed decl ⟨slot.position, .missingDefault slot.name earlier.name owner⟩
  | attributeInInterface {slot : Slot} (hslot : .attribute false slot ∈ decl.members) :
      Blamed decl ⟨slot.position, .attributeInInterface decl.name slot.name slot.typeName⟩
  | abstractAttribute {slot : Slot} (hslot : .attribute false slot ∈ decl.members) :
      Blamed decl ⟨slot.position, .abstractAttribute decl.name slot.name slot.typeName⟩
  | mixedMethods {m other : Method} (hm : m ∈ decl.methods) (hother : other ∈ decl.methods) :
      Blamed decl ⟨m.position, .mixedMethods decl.name m.name other.name⟩
  | abstractMethodInClass {m : Method} {slot : Slot} (hm : m ∈ decl.methods)
      (hslot : slot ∈ decl.stored) :
      Blamed decl ⟨m.position, .abstractMethodInClass decl.name m.name slot.name⟩

namespace Shape

variable {decl : Decl} {fault : Located Problem}

/-- What one search or the next finds, one of them finds. -/
theorem orElse_cases {α : Type} {first next : Option α} {found : α}
    (h : (first <|> next) = some found) : first = some found ∨ next = some found := by
  cases first with
  | none => exact .inr h
  | some _ => exact .inl h

/-- A fault among interfaces blames one of them. -/
theorem blamed_of_interfaceFault? {listed : List String} {refs : List (Located String)}
    (hrefs : refs ⊆ decl.interfaces) (h : interfaceFault? decl.name listed refs = some fault) :
    decl.Blamed fault := by
  fun_induction interfaceFault? decl.name listed refs with
  | case1 => cases h
  | case2 listed ref refs hname =>
      cases h
      exact .invalidInterface (hrefs List.mem_cons_self) (by simpa using hname)
  | case3 =>
      cases h
      exact .duplicateInterface (hrefs List.mem_cons_self)
  | case4 _ _ _ _ _ ih => exact ih (List.subset_of_cons_subset hrefs) h

/-- A fault among parameters blames one of them. -/
theorem blamed_of_parameterFault? {m : Method} (hm : m ∈ decl.methods) {taken : List String}
    {slots : List Slot} (hslots : slots ⊆ m.parameters)
    (h : parameterFault? decl.name m.name taken slots = some fault) : decl.Blamed fault := by
  fun_induction parameterFault? decl.name m.name taken slots with
  | case1 => cases h
  | case2 =>
      cases h
      exact .duplicateParameter hm (hslots List.mem_cons_self)
  | case3 _ _ _ _ ih => exact ih (List.subset_of_cons_subset hslots) h

/-- A fault among members blames one of them or one of its parameters. -/
theorem blamed_of_memberFault? {taken : List String} {members : List Member}
    (hmembers : members ⊆ decl.members) (h : memberFault? decl.name taken members = some fault) :
    decl.Blamed fault := by
  fun_induction memberFault? decl.name taken members with
  | case1 => cases h
  | case2 =>
      cases h
      exact .duplicateMember (hmembers List.mem_cons_self)
  | case3 taken member members _ parameters ih =>
      -- The parameters of a method are looked at before the members after it.
      rcases orElse_cases h with hparameters | hlater
      · rcases member with ⟨stored, slot⟩ | m
        · simp [parameters] at hparameters
        · exact blamed_of_parameterFault? (Decl.mem_methods.2 (hmembers List.mem_cons_self))
            (List.Subset.refl _) hparameters
      · exact ih (List.subset_of_cons_subset hmembers) hlater

/-- The name of a slot with a default is kept until a slot without one comes. -/
theorem blamed_of_defaultFault? {owner : SlotOwner} {all : List Slot}
    (howner : owner.Holds decl all) {defaulted? : Option String}
    (hdefaulted : ∀ name ∈ defaulted?, ∃ earlier ∈ all, earlier.name = name) {slots : List Slot}
    (hslots : slots ⊆ all) (h : defaultFault? owner defaulted? slots = some fault) :
    decl.Blamed fault := by
  fun_induction defaultFault? owner defaulted? slots with
  | case1 => cases h
  | case2 slot slots e hdefault ih =>
      refine ih ?_ (List.subset_of_cons_subset hslots) h
      rintro _ ⟨⟩
      exact ⟨slot, hslots List.mem_cons_self, rfl⟩
  | case3 slot slots name e hdefault ih =>
      exact ih hdefaulted (List.subset_of_cons_subset hslots) h
  | case4 slot slots hdefault ih =>
      exact ih (fun _ h => by cases h) (List.subset_of_cons_subset hslots) h
  | case5 slot slots name hdefault =>
      cases h
      obtain ⟨earlier, hearlier, rfl⟩ := hdefaulted name rfl
      exact .missingDefault howner (hslots List.mem_cons_self) hearlier

/-- An announced attribute of a class is blamed itself. -/
theorem blamed_of_announcedFault? (h : announcedFault? decl = some fault) :
    decl.Blamed fault := by
  obtain ⟨member, hmember, hfault⟩ := List.exists_of_findSome?_eq_some h
  split at hfault
  · cases hfault
    cases decl.derivedKind with
    | interfaceType => exact .attributeInInterface hmember
    | classType => exact .abstractAttribute hmember
  · cases hfault

/-- A method without a body in a class is blamed itself. -/
theorem blamed_of_abstractFault? (h : abstractFault? decl = some fault) : decl.Blamed fault := by
  obtain ⟨m, hm, h⟩ := Option.bind_eq_some_iff.1 h
  split at h
  · next other hother =>
      cases h
      exact .mixedMethods (List.mem_of_find?_eq_some hm) (List.mem_of_find?_eq_some hother)
  · obtain ⟨slot, hslot, h⟩ := Option.bind_eq_some_iff.1 h
    cases h
    exact .abstractMethodInClass (List.mem_of_find?_eq_some hm) (List.mem_of_mem_head? hslot)

/-- A fault in the order of defaults blames one of the slots. -/
theorem blamed_of_defaultsFault? (h : defaultsFault? decl = some fault) : decl.Blamed fault := by
  rcases orElse_cases h with hstored | hmethods
  · exact blamed_of_defaultFault? .constructor (fun _ h => by cases h) (List.Subset.refl _) hstored
  · obtain ⟨m, hm, hfault⟩ := List.exists_of_findSome?_eq_some hmethods
    exact blamed_of_defaultFault? (.method hm) (fun _ h => by cases h) (List.Subset.refl _) hfault

/-- A declaration is blamed for a rule that it breaks on its own. -/
theorem blamed_of_fault? (h : decl.fault? = some fault) : decl.Blamed fault := by
  rcases orElse_cases h with hinterfaces | h
  · exact blamed_of_interfaceFault? (List.Subset.refl _) hinterfaces
  rcases orElse_cases h with hmembers | h
  · exact blamed_of_memberFault? (List.Subset.refl _) hmembers
  rcases orElse_cases h with hdefaults | h
  · exact blamed_of_defaultsFault? hdefaults
  rcases orElse_cases h with hannounced | habstract
  · exact blamed_of_announcedFault? hannounced
  · exact blamed_of_abstractFault? habstract

/-- A fault in the name of a declaration blames the declaration. -/
theorem blamed_of_nameFault? {earlier : List Decl} (h : nameFault? earlier decl = some fault) :
    decl.Blamed fault := by
  obtain ⟨first, -, h⟩ := Option.bind_eq_some_iff.1 h
  cases h
  exact .duplicateDeclaration _

/-- Classifying declarations stops only at a fault of one of them. -/
theorem blamed_of_classifyAfter {earlier decls : List Decl}
    (h : (classifyAfter earlier decls).2 = some fault) : ∃ decl ∈ decls, decl.Blamed fault := by
  fun_induction classifyAfter earlier decls with
  | case1 => cases h
  | case2 earlier decl decls found hfound =>
      obtain rfl := Option.some.inj h
      refine ⟨decl, List.mem_cons_self, ?_⟩
      rcases orElse_cases hfound with hname | hrule
      · exact blamed_of_nameFault? hname
      · exact blamed_of_fault? hrule
  | case3 earlier decl decls _ rest fault? hrest ih =>
      obtain ⟨other, hother, hblamed⟩ := ih (by rw [hrest]; exact h)
      exact ⟨other, List.mem_cons_of_mem _ hother, hblamed⟩

variable {decls : List Decl}

/-- The fault that ends the classification of a source is one of a declaration. -/
theorem blamed_of_classify (h : (classify decls).2 = some fault) :
    ∃ decl ∈ decls, decl.Blamed fault :=
  blamed_of_classifyAfter h

/-- The fault that ends the classification of a source is one of its own. -/
theorem stage_of_classify (h : (classify decls).2 = some fault) :
    fault.value.code.stage = .classify := by
  obtain ⟨decl, -, hblamed⟩ := blamed_of_classify h
  cases hblamed <;> rfl

end Shape

end EoJava
