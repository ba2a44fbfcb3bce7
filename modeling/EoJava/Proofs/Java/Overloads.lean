import EoJava.Proofs.Java.Readback
import EoJava.Proofs.Java.Scoping

/-!
# Overloads

The constructors of a unit and its methods, told apart by their names and the numbers of their
parameters. Slots with a default give two overloads, and the shorter one can only mean the full one
by the call that it makes. This holds of the outline of every accepted declaration with a unit
(`Emitted.delegates`).
-/

namespace EoJava.Java

/-! ## Overloads of a tree -/

/-- A constructor or a method: its name, its formal parameters, and its statements if it has a
body. -/
structure Overload where
  name : String
  formals : List Formal
  body : Option (List Statement)

/-- What tells overloads apart: a name and a number of parameters. -/
def Overload.key (overload : Overload) : String × Nat :=
  (overload.name, overload.formals.length)

/-- The constructor that a member declares. -/
def TypeMember.constructor? : TypeMember → Option Overload
  | .constructor name formals body => some ⟨name, formals, some body⟩
  | _ => none

/-- The method that a member declares, with or without a body. -/
def TypeMember.overload? : TypeMember → Option Overload
  | .signature _ name formals => some ⟨name, formals, none⟩
  | .method _ _ name formals body => some ⟨name, formals, some body⟩
  | _ => none

/-- The constructors that a tree declares. -/
def TypeTree.constructors (tree : TypeTree) : List Overload :=
  tree.members.filterMap TypeMember.constructor?

/-- The methods that a tree declares. -/
def TypeTree.overloads (tree : TypeTree) : List Overload :=
  tree.members.filterMap TypeMember.overload?

/-! ## Overloads of slots -/

/-- What a delegation passes for a slot: its name if it has no default, and else what its default
is compiled to where the shorter signature delegates. -/
def Passes (fields : List String) (slots : List Slot) (slot : Slot) (arg : Term) : Prop :=
  match slot.default? with
  | none => arg = .name slot.name
  | some e => ∃ text,
    (expressionText (delegationScope fields slots slot.name) e).result = .ok text ∧
      SpellsTerm text arg

/-- Among overloads those with a name are the ones that slots give: the full signature alone if no
slot has a default, and else also one with the slots that have none. This one passes an argument for
each slot to the overload with its name that takes so many, and only the full one does. -/
inductive Overloaded (overloads : List Overload) (fields : List String) (name : String)
    (slots : List Slot) (call : List Term → Statement) : Prop where
  | single (full : Overload) (hslots : ∀ slot ∈ slots, slot.default? = none)
      (hfull : full.formals = slots.map formal)
      (hnamed : overloads.filter (·.name = name) = [full])
  | pair (full shorter : Overload) (args : List Term)
      (hslots : ∃ slot ∈ slots, slot.default?.isSome)
      (hfull : full.formals = slots.map formal)
      (hshorter : shorter.formals = (slots.filter (·.default?.isNone)).map formal)
      (hnamed : (overloads.filter (·.name = name)).Perm [full, shorter])
      (hbody : shorter.body = some [call args])
      (hargs : List.Forall₂ (Passes fields slots) slots args)
      (hcalled : ∀ overload, overload ∈ overloads ∧ overload.key = (name, args.length) ↔
        overload = full)
      (hother : shorter.key ≠ (name, args.length))

/-- The overloads of a tree are those that a declaration gives, and a name and a number of
parameters tell them apart. -/
structure Delegates (decl : Decl) (tree : TypeTree) : Prop where
  noConstructor : decl.stored = [] → tree.constructors = []
  constructor : decl.stored ≠ [] →
    Overloaded tree.constructors [] decl.name decl.stored .chained
  constructorName : ∀ overload ∈ tree.constructors, overload.name = decl.name
  method : ∀ m ∈ decl.methods, Overloaded tree.overloads (decl.stored.map (·.name)) m.name
    m.parameters (.forwarded m.name)
  methodName : ∀ overload ∈ tree.overloads, ∃ m ∈ decl.methods, overload.name = m.name
  constructors : (tree.constructors.map Overload.key).Nodup
  overloads : (tree.overloads.map Overload.key).Nodup

/-! ## Required slots -/

section

variable {slots : List Slot}

/-- If the defaults stand last, the slots before the first default are those without one. -/
theorem required_eq_filter (hlast : ∀ slot ∈ defaulted slots, slot.default?.isSome) :
    required slots = slots.filter (·.default?.isNone) := by
  have hsplit : required slots ++ defaulted slots = slots := List.takeWhile_append_dropWhile
  have hrequired : (required slots).filter (·.default?.isNone) = required slots := by
    refine List.filter_eq_self.2 fun slot hslot => ?_
    exact List.mem_takeWhile_imp (p := fun slot : Slot => slot.default?.isNone) hslot
  have hdefaulted : (defaulted slots).filter (·.default?.isNone) = [] := by
    refine List.filter_eq_nil_iff.2 fun slot hslot hnone => ?_
    exact Option.isSome_iff_ne_none.1 (hlast slot hslot) (Option.isNone_iff_eq_none.1 hnone)
  calc required slots
      = (required slots ++ defaulted slots).filter (·.default?.isNone) := by
        rw [List.filter_append, hrequired, hdefaulted, List.append_nil]
    _ = slots.filter (·.default?.isNone) := by rw [hsplit]

/-- The names of the required slots and the terms of the defaults are one for each slot, in
order. -/
theorem forall₂_delegated {P : Slot → Term → Prop} {t : Slot → Expr → Term}
    (hlast : ∀ slot ∈ defaulted slots, slot.default?.isSome)
    (hrequired : ∀ slot ∈ slots, slot.default? = none → P slot (.name slot.name))
    (hdefault : ∀ slot ∈ slots, ∀ e ∈ slot.default?, P slot (t slot e)) :
    List.Forall₂ P slots ((required slots).map (.name ·.name) ++
      slots.filterMap fun slot => slot.default?.map (t slot)) := by
  induction slots with
  | nil => exact .nil
  | cons slot slots ih =>
      obtain ⟨hslot, hothers⟩ := List.forall_mem_cons.1 hrequired
      obtain ⟨hslotDefault, hdefaults⟩ := List.forall_mem_cons.1 hdefault
      rcases hnone : slot.default? with _ | e
      · have hfirst : required (slot :: slots) = slot :: required slots :=
          List.takeWhile_cons_of_pos (by rw [hnone]; rfl)
        have hrest : defaulted (slot :: slots) = defaulted slots :=
          List.dropWhile_cons_of_pos (by rw [hnone]; rfl)
        rw [hfirst, List.filterMap_cons_none (by rw [hnone]; rfl)]
        exact .cons (hslot hnone) (ih (hrest ▸ hlast) hothers hdefaults)
      · have hrest : defaulted (slot :: slots) = slot :: slots :=
          List.dropWhile_cons_of_neg (by simp [hnone])
        have hall : ∀ slot ∈ slots, slot.default?.isSome :=
          (List.forall_mem_cons.1 (hrest ▸ hlast)).2
        have htail := ih (fun slot hslot => hall slot ((List.dropWhile_sublist _).mem hslot))
          hothers hdefaults
        rw [required_of_isSome hall] at htail
        rw [required_of_isSome (hrest ▸ hlast), List.filterMap_cons_some (by rw [hnone]; rfl)]
        exact .cons (hslotDefault e hnone) htail

/-- A delegation passes an argument for each slot. -/
theorem delegationTerms_pass {fields : List String}
    (hlast : ∀ slot ∈ defaulted slots, slot.default?.isSome)
    (hspellable : ∀ slot ∈ slots, SpellableSlot slot) (hrendered : Rendered fields slots) :
    List.Forall₂ (Passes fields slots) slots (delegationTerms fields slots) := by
  refine forall₂_delegated hlast (fun slot _ hnone => ?_) fun slot hslot e he => ?_
  · simp [Passes, hnone]
  · obtain ⟨text, htext⟩ := hrendered slot hslot e he
    rw [Passes, Option.mem_def.1 he]
    exact ⟨text, htext, expressionText_spells _ e ((hspellable slot hslot).default e he) _ htext⟩

end

/-! ## Overloads by name -/

/-- The overload that delegates, if there is one. -/
def shorterOverload (fields : List String) (name : String) (slots : List Slot)
    (call : List Term → Statement) : List Overload :=
  (delegation? fields slots).toList.map fun args =>
    ⟨name, (required slots).map formal, some [call args]⟩

section

variable {overloads : List Overload} {fields : List String} {name : String} {slots : List Slot}
  {call : List Term → Statement}

/-- If the overloads with a name are the full signature and what delegates to it, the slots of the
signature give them. -/
theorem overloaded_of_perm (hlast : ∀ slot ∈ defaulted slots, slot.default?.isSome)
    (hspellable : ∀ slot ∈ slots, SpellableSlot slot) (hrendered : Rendered fields slots)
    {body : Option (List Statement)} (hnamed : (overloads.filter (·.name = name)).Perm
      (⟨name, slots.map formal, body⟩ :: shorterOverload fields name slots call)) :
    Overloaded overloads fields name slots call := by
  unfold shorterOverload delegation? at hnamed
  by_cases hdefaults : hasDefaults slots
  · rw [if_pos hdefaults] at hnamed
    obtain ⟨slot, hslot, hdefault⟩ := List.any_eq_true.1 hdefaults
    have hargs := delegationTerms_pass hlast hspellable hrendered
    have hlength := hargs.length_eq
    have hsome : slot.default? ≠ none := Option.isSome_iff_ne_none.1 hdefault
    have hfewer : (slots.filter (·.default?.isNone)).length < slots.length :=
      List.length_filter_lt_length_iff_exists.2 ⟨slot, hslot, by simpa using hsome⟩
    rw [required_eq_filter hlast] at hnamed
    refine .pair _ _ _ ⟨slot, hslot, hdefault⟩ rfl rfl hnamed rfl hargs (fun overload => ?_) ?_
    · have hmem := hnamed.mem_iff (a := overload)
      rw [List.mem_filter, decide_eq_true_iff] at hmem
      rw [Overload.key, Prod.mk.injEq, ← and_assoc, hmem]
      constructor
      · rintro ⟨hmem, hkey⟩
        rcases List.mem_cons.1 hmem with rfl | hmem
        · rfl
        · obtain rfl := List.mem_singleton.1 hmem
          rw [List.length_map] at hkey
          omega
      · rintro rfl
        exact ⟨List.mem_cons_self .., by rw [List.length_map, hlength]⟩
    · simp only [Overload.key, ne_eq, Prod.mk.injEq, List.length_map, not_and]
      omega
  · rw [if_neg hdefaults] at hnamed
    refine .single _ (fun slot hslot => ?_) rfl (List.perm_singleton.1 hnamed)
    have hany := List.any_eq_false.1 (Bool.not_eq_true _ ▸ hdefaults) slot hslot
    simpa using hany

/-- The overloads with a name differ in the numbers of their parameters. -/
theorem Overloaded.nodup (h : Overloaded overloads fields name slots call) :
    ((overloads.filter (·.name = name)).map Overload.key).Nodup := by
  cases h with
  | single full _ _ hnamed =>
      rw [hnamed]
      exact List.nodup_singleton _
  | pair full shorter args _ _ _ hnamed _ _ hcalled hother =>
      have hfull := ((hcalled full).2 rfl).2
      rw [(hnamed.map _).nodup_iff, List.map_cons, List.map_singleton, hfull]
      exact List.nodup_cons.2 ⟨fun hmem => hother (List.mem_singleton.1 hmem).symm,
        List.nodup_singleton _⟩

/-- Overloads are told apart if those with one name are. -/
theorem nodup_of_named
    (h : ∀ overload ∈ overloads,
      ((overloads.filter (·.name = overload.name)).map Overload.key).Nodup) :
    (overloads.map Overload.key).Nodup := by
  induction overloads with
  | nil => exact List.nodup_nil
  | cons overload overloads ih =>
      obtain ⟨hfirst, hothers⟩ := List.forall_mem_cons.1 h
      refine List.nodup_cons.2 ⟨fun hmem => ?_, ih fun other hother => ?_⟩
      · obtain ⟨other, hother, hkey⟩ := List.mem_map.1 hmem
        rw [List.filter_cons_of_pos (by simp), List.map_cons, List.nodup_cons] at hfirst
        refine hfirst.1 (List.mem_map.2 ⟨other, List.mem_filter.2 ⟨hother, ?_⟩, hkey⟩)
        exact decide_eq_true (congrArg Prod.fst hkey)
      · exact (hothers other hother).sublist (((List.sublist_cons_self ..).filter _).map _)

end

/-! ## Overloads of an outline -/

theorem constructor_constructors (name : String) {slots : List Slot} (hslots : slots ≠ []) :
    (constructors name slots).filterMap TypeMember.constructor? =
      shorterOverload [] name slots .chained ++
        [⟨name, slots.map formal, some (slots.map fun slot => .assigned slot.name)⟩] := by
  rw [constructors, if_neg (by simpa using hslots), shorterConstructor, shorterOverload]
  cases delegation? [] slots <;> rfl

theorem constructor_shorterMethod (modifier : String) (fields : List String) (m : Method) :
    (shorterMethod modifier fields m).filterMap TypeMember.constructor? = [] := by
  unfold shorterMethod
  cases delegation? fields m.parameters <;> rfl

theorem constructor_classMethod (fields : List String) (m : Method) :
    (classMethod fields m).filterMap TypeMember.constructor? = [] := by
  unfold classMethod
  cases m.body with
  | none => rfl
  | some body => exact constructor_shorterMethod "public" fields m

/-- The method with a name that a member declares. -/
def TypeMember.named? (name : String) (member : TypeMember) : Option Overload :=
  member.overload?.filter (·.name = name)

/-- The full signature of a method, with what its body returns if it has one. -/
def fullOverload (fields : List String) (m : Method) : Overload :=
  ⟨m.name, m.parameters.map formal,
    m.body.map fun body => [.returned (term (bodyScope fields m) body)]⟩

/-- Members are those of a method: the overloads with its name are given ones, and there are no
others. -/
def Declares (found : Method → List Overload) (members : Method → List TypeMember) (m : Method) :
    Prop :=
  ∀ name, (members m).filterMap (TypeMember.named? name) = if m.name = name then found m else []

theorem declares_signature (fields : List String) {m : Method} (hbody : m.body = none) :
    Declares (fun m => [fullOverload fields m])
      (fun m => [.signature m.returnType m.name (m.parameters.map formal)]) m := by
  intro name
  by_cases hname : m.name = name <;>
    simp [TypeMember.named?, TypeMember.overload?, Option.filter, fullOverload, hbody, hname]

theorem declares_shorterMethod (modifier : String) (fields : List String) (m : Method) :
    Declares (fun m => shorterOverload fields m.name m.parameters (.forwarded m.name))
      (shorterMethod modifier fields) m := by
  intro name
  cases hargs : delegation? fields m.parameters with
  | none => simp [shorterMethod, shorterOverload, hargs]
  | some args =>
      by_cases hname : m.name = name <;>
        simp [shorterMethod, shorterOverload, hargs, TypeMember.named?, TypeMember.overload?,
          Option.filter, hname]

theorem declares_classMethod (fields : List String) {m : Method} (hbody : m.body.isSome) :
    Declares (fun m => fullOverload fields m ::
      shorterOverload fields m.name m.parameters (.forwarded m.name)) (classMethod fields) m := by
  intro name
  obtain ⟨body, hbody⟩ := Option.isSome_iff_exists.1 hbody
  have hshorter := declares_shorterMethod "public" fields m name
  by_cases hname : m.name = name <;>
    simp [classMethod, hbody, hshorter, TypeMember.named?, TypeMember.overload?, Option.filter,
      fullOverload, hname]

/-- The members of methods declare overloads with the names of these methods only. -/
theorem exists_method_of_mem {found : Method → List Overload} {members : Method → List TypeMember}
    {methods : List Method} (h : ∀ m ∈ methods, Declares found members m) {overload : Overload}
    (hmem : overload ∈ (methods.flatMap members).filterMap TypeMember.overload?) :
    ∃ m ∈ methods, overload.name = m.name := by
  obtain ⟨member, hmember, hoverload⟩ := List.mem_filterMap.1 hmem
  obtain ⟨m, hm, hmember⟩ := List.mem_flatMap.1 hmember
  have hnamed : overload ∈ (members m).filterMap (TypeMember.named? overload.name) :=
    List.mem_filterMap.2 ⟨member, hmember, by simp [TypeMember.named?, hoverload]⟩
  rw [h m hm overload.name] at hnamed
  refine ⟨m, hm, Eq.symm ?_⟩
  by_contra hname
  rw [if_neg hname] at hnamed
  cases hnamed

theorem TypeTree.filter_overloads (tree : TypeTree) (name : String) :
    tree.overloads.filter (·.name = name) = tree.members.filterMap (TypeMember.named? name) :=
  List.filter_filterMap ..

section

variable {decl : Decl}

/-- The constructors of a class come from its stored attributes. -/
theorem constructors_class (hkind : unitKind decl = .classType) :
    (outline decl).constructors =
      (constructors decl.name decl.stored).filterMap TypeMember.constructor? := by
  simp only [TypeTree.constructors, outline, unitMembers, hkind, List.filterMap_append,
    filterMap_flatMap_eq_nil fun m _ => constructor_classMethod _ m, List.append_nil,
    List.filterMap_map]
  simp [TypeMember.constructor?, Function.comp_def]

/-- An interface has no constructor. -/
theorem constructors_interface (hkind : unitKind decl = .interfaceType) :
    (outline decl).constructors = [] := by
  simp only [TypeTree.constructors, outline, unitMembers, hkind, List.filterMap_append,
    filterMap_flatMap_eq_nil fun m _ => constructor_shorterMethod _ _ m, List.append_nil,
    List.filterMap_map]
  simp [TypeMember.constructor?, Function.comp_def]

/-- What is found of the members of a class is found of its methods, if it is found neither of
fields nor of constructors. -/
theorem filterMap_class {select : TypeMember → Option Overload}
    (hkind : unitKind decl = .classType)
    (hfield : ∀ typeName name, select (.field typeName name) = none)
    (hconstructor : ∀ name formals body, select (.constructor name formals body) = none) :
    (outline decl).members.filterMap select =
      (decl.methods.flatMap (classMethod (decl.stored.map (·.name)))).filterMap select := by
  have hconstructors : (constructors decl.name decl.stored).filterMap select = [] := by
    unfold constructors shorterConstructor
    cases decl.stored with
    | nil => rfl
    | cons slot slots => cases delegation? [] (slot :: slots) <;> simp [hconstructor]
  simp only [outline, unitMembers, hkind, List.filterMap_append, hconstructors,
    List.filterMap_map]
  simp [hfield]

/-- What is found of the members of an interface is found of its signatures or of its `default`
methods. -/
theorem filterMap_interface (select : TypeMember → Option Overload)
    (hkind : unitKind decl = .interfaceType) :
    (outline decl).members.filterMap select =
      (decl.methods.flatMap fun m =>
          [.signature m.returnType m.name (m.parameters.map formal)]).filterMap select ++
        (decl.methods.flatMap (shorterMethod "default" [])).filterMap select := by
  simp only [outline, unitMembers, hkind, List.filterMap_append, List.map_eq_flatMap]

/-- The overloads with the name of a method are those of this method. -/
theorem filter_overloads_outline (haccepted : decl.Accepted) {m : Method} (hm : m ∈ decl.methods) :
    (outline decl).overloads.filter (·.name = m.name) =
      fullOverload (decl.stored.map (·.name)) m ::
        shorterOverload (decl.stored.map (·.name)) m.name m.parameters (.forwarded m.name) := by
  have hnodup := haccepted.methods_nodup
  rw [TypeTree.filter_overloads]
  cases hkind : unitKind decl with
  | interfaceType =>
      obtain ⟨hstored, hbodies⟩ := haccepted.interface_cases hkind
      rw [hstored, List.map_nil, filterMap_interface _ hkind,
        filterMap_flatMap_of_name hnodup (fun m hm => declares_signature [] (hbodies m hm)) m hm,
        filterMap_flatMap_of_name hnodup (fun m _ => declares_shorterMethod "default" [] m) m hm]
      rfl
  | classType =>
      rw [filterMap_class hkind (fun _ _ => rfl) fun _ _ _ => rfl]
      exact filterMap_flatMap_of_name hnodup
        (fun m hm => declares_classMethod _ (haccepted.class_bodies hkind m hm)) m hm

/-- Every overload of a unit has the name of a method. -/
theorem exists_method (haccepted : decl.Accepted) {overload : Overload}
    (hmem : overload ∈ (outline decl).overloads) : ∃ m ∈ decl.methods, overload.name = m.name := by
  rw [TypeTree.overloads] at hmem
  cases hkind : unitKind decl with
  | interfaceType =>
      obtain ⟨-, hbodies⟩ := haccepted.interface_cases hkind
      rw [filterMap_interface _ hkind] at hmem
      rcases List.mem_append.1 hmem with hmem | hmem
      · exact exists_method_of_mem (fun m hm => declares_signature [] (hbodies m hm)) hmem
      · exact exists_method_of_mem (fun m _ => declares_shorterMethod "default" [] m) hmem
  | classType =>
      rw [filterMap_class hkind (fun _ _ => rfl) fun _ _ _ => rfl] at hmem
      exact exists_method_of_mem
        (fun m hm => declares_classMethod _ (haccepted.class_bodies hkind m hm)) hmem

/-- Every constructor has the name of its declaration. -/
theorem name_of_constructor {overload : Overload}
    (hmem : overload ∈ (outline decl).constructors) : overload.name = decl.name := by
  cases hkind : unitKind decl with
  | interfaceType =>
      rw [constructors_interface hkind] at hmem
      cases hmem
  | classType =>
      rw [constructors_class hkind] at hmem
      by_cases hstored : decl.stored = []
      · rw [hstored] at hmem
        cases hmem
      · rw [constructor_constructors decl.name hstored, shorterOverload] at hmem
        rcases List.mem_append.1 hmem with hmem | hmem
        · obtain ⟨args, -, rfl⟩ := List.mem_map.1 hmem
          rfl
        · rw [List.mem_singleton.1 hmem]

end

/-- The overloads of the unit of an accepted declaration delegate. -/
theorem Emitted.delegates {decl : Decl} {unit : JavaUnit} (h : Emitted decl unit)
    (haccepted : decl.Accepted) (hspellable : ∀ t ∈ decl.terminals, t.Spellable) :
    Delegates decl (outline decl) := by
  have hdecl := spellableDecl_of_terminals hspellable
  obtain ⟨hstored, hparameters⟩ := h.rendered haccepted
  have hclass : decl.stored ≠ [] → unitKind decl = .classType := by
    intro hne
    cases hkind : unitKind decl with
    | interfaceType => exact absurd (haccepted.interface_cases hkind).1 hne
    | classType => rfl
  have hconstructor : decl.stored ≠ [] →
      Overloaded (outline decl).constructors [] decl.name decl.stored .chained := by
    intro hne
    have hnamed : (outline decl).constructors.filter (·.name = decl.name) =
        (outline decl).constructors :=
      List.filter_eq_self.2 fun overload hmem => decide_eq_true (name_of_constructor hmem)
    rw [constructors_class (hclass hne), constructor_constructors decl.name hne] at hnamed ⊢
    exact overloaded_of_perm haccepted.defaulted_stored hdecl.stored hstored
      (hnamed ▸ List.perm_append_singleton _ _)
  have hmethod : ∀ m ∈ decl.methods, Overloaded (outline decl).overloads
      (decl.stored.map (·.name)) m.name m.parameters (.forwarded m.name) := by
    intro m hm
    exact overloaded_of_perm (haccepted.defaulted_parameters m hm) (hdecl.methods m hm).parameters
      (hparameters m hm) (.of_eq (filter_overloads_outline haccepted hm))
  have hnone : decl.stored = [] → (outline decl).constructors = [] := by
    intro hempty
    cases hkind : unitKind decl with
    | interfaceType => exact constructors_interface hkind
    | classType =>
        rw [constructors_class hkind, hempty]
        rfl
  refine ⟨hnone, hconstructor, fun _ => name_of_constructor, hmethod,
    fun _ => exists_method haccepted, nodup_of_named fun overload hmem => ?_,
    nodup_of_named fun overload hmem => ?_⟩
  · rw [name_of_constructor hmem]
    by_cases hempty : decl.stored = []
    · rw [hnone hempty] at hmem
      cases hmem
    · exact (hconstructor hempty).nodup
  · obtain ⟨m, hm, hname⟩ := exists_method haccepted hmem
    rw [hname]
    exact (hmethod m hm).nodup

end EoJava.Java
