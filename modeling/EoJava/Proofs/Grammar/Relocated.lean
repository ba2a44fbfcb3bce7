import EoJava.Proofs.Grammar.Nodes
import EoJava.Proofs.Syntax.Mapped

/-!
# Trees and the places of their nodes

A tree at other places is spelled by the same terminals, and its nodes start with the same ones, at
their other places (`Decl.programAnchored_relocated`). Two trees that differ in places only are the
same if their nodes are at the same places (`Decl.eq_of_programAnchored`).
-/

namespace EoJava

open Grammar (Terminal Anchored)
open Grammar.Anchored (inner commas)

namespace Grammar.Anchored

/-- A terminal of a tree at other places. -/
def relocate (f : Position → Position) (a : Anchored) : Anchored where
  node? := a.node?.map f
  terminal := a.terminal
  content h := a.content (by rwa [Option.isSome_map] at h)

variable {f : Position → Position}

/-- A node that is moved starts with the same terminal at its other place. -/
@[simp]
theorem relocate_head (position : Position) (t : Terminal) (h : t.kind.isContent) :
    (head position t h).relocate f = head (f position) t h :=
  rfl

/-- A node that starts with a name starts with it at its other place. -/
@[simp]
theorem relocate_name (position : Position) (text : String) :
    (name position text).relocate f = name (f position) text :=
  rfl

/-- A node that starts with a mark starts with it at its other place. -/
@[simp]
theorem relocate_mark (position : Position) (m : Mark) :
    (mark position m).relocate f = mark (f position) m :=
  rfl

/-- A terminal that no node starts with has no place to be changed. -/
@[simp]
theorem relocate_inner (t : Terminal) : (inner t).relocate f = inner t :=
  rfl

/-- The commas between items are not moved. -/
theorem map_relocate_commas (items : List (List Anchored)) :
    (commas items).map (relocate f) = commas (items.map (List.map (relocate f))) := by
  cases items with
  | nil => rfl
  | cons first others => simp [commas, List.map_flatMap, List.flatMap_map]

/-- The name that a node starts with tells where the node is. -/
theorem name_inj {position other : Position} {text text' : String}
    (h : name position text = name other text') : position = other :=
  Option.some.inj (congrArg node? h)

/-- Trees that are the same without their places have as many terminals. -/
theorem length_eq {α : Type} {spell : α → List Anchored} {placeless : α → α}
    (h : ∀ a, spell (placeless a) = (spell a).map (relocate fun _ => .nowhere)) (a b : α)
    (hab : placeless a = placeless b) : (spell a).length = (spell b).length := by
  have hlength (a : α) : (spell (placeless a)).length = (spell a).length := by
    rw [h, List.length_map]
  rw [← hlength, hab, hlength]

/-! ## Items of a list -/

section

variable {α β : Type} {spell : α → List Anchored} {blank : α → β} {xs ys : List α}

/-- Items that are spelled alike are the same, if each is determined by its spelling and by a form
that says how long this is. -/
theorem eq_of_flatMap
    (hlength : ∀ a b, blank a = blank b → (spell a).length = (spell b).length)
    (h : ∀ x ∈ xs, ∀ y, blank x = blank y → spell x = spell y → x = y)
    (hblank : xs.map blank = ys.map blank) (hspell : xs.flatMap spell = ys.flatMap spell) :
    xs = ys := by
  induction xs generalizing ys with
  | nil => exact (List.map_eq_nil_iff.1 hblank.symm).symm
  | cons x xs ih =>
      obtain ⟨y, ys, rfl, hy, hys⟩ := List.map_eq_cons_iff.1 hblank.symm
      rw [List.flatMap_cons, List.flatMap_cons] at hspell
      obtain ⟨hx, hxs⟩ := List.append_inj hspell (hlength x y hy.symm)
      obtain ⟨hhead, htail⟩ := List.forall_mem_cons.1 h
      rw [hhead y hy.symm hx, ih htail hys.symm hxs]

/-- The same holds for items that are spelled with commas between them. -/
theorem eq_of_commas
    (hlength : ∀ a b, blank a = blank b → (spell a).length = (spell b).length)
    (h : ∀ x ∈ xs, ∀ y, blank x = blank y → spell x = spell y → x = y)
    (hblank : xs.map blank = ys.map blank)
    (hspell : commas (xs.map spell) = commas (ys.map spell)) : xs = ys := by
  cases xs with
  | nil => exact (List.map_eq_nil_iff.1 hblank.symm).symm
  | cons x xs =>
      obtain ⟨y, ys, rfl, hy, hys⟩ := List.map_eq_cons_iff.1 hblank.symm
      simp only [commas, List.map_cons, List.flatMap_map] at hspell
      obtain ⟨hx, hxs⟩ := List.append_inj hspell (hlength x y hy.symm)
      obtain ⟨hhead, htail⟩ := List.forall_mem_cons.1 h
      rw [hhead y hy.symm hx]
      refine congrArg _ (eq_of_flatMap (fun a b hab => ?_) (fun a ha b hab hspelled => ?_)
        hys.symm hxs)
      · exact congrArg Nat.succ (hlength a b hab)
      · exact htail a ha b hab (List.cons.inj hspelled).2

end

end Grammar.Anchored

/-! ## Expressions -/

namespace Expr

variable {f : Position → Position}

mutual

/-- A moved expression is spelled by the same terminals, and its nodes are at their other places. -/
theorem anchored_relocated (e : Expr) :
    (e.relocated f).anchored = e.anchored.map (Anchored.relocate f) := by
  cases e with
  | literal | reference => rfl
  | call position name args =>
      have hargs := anchoredAll_relocatedAll args
      rw [relocated, anchored, anchored, hargs]
      simp [Anchored.map_relocate_commas]

/-- Moved arguments are spelled by the same terminals, and their nodes are at their other places. -/
theorem anchoredAll_relocatedAll (args : List Expr) :
    anchoredAll (relocatedAll f args) =
      (anchoredAll args).map (List.map (Anchored.relocate f)) := by
  cases args with
  | nil => rfl
  | cons arg args =>
      rw [relocatedAll, anchoredAll, anchoredAll, anchored_relocated arg,
        anchoredAll_relocatedAll args, List.map_cons]

end

/-- The nodes of an expression without positions are nowhere. -/
theorem anchored_placeless (e : Expr) :
    e.placeless.anchored = e.anchored.map (Anchored.relocate fun _ => .nowhere) := by
  rw [placeless_eq_relocated, anchored_relocated]

mutual

/-- An expression is determined by the places of its nodes and by what it is without them. -/
theorem eq_of_anchored (e other : Expr) (hplaceless : e.placeless = other.placeless)
    (hanchored : e.anchored = other.anchored) : e = other := by
  cases e <;> cases other <;> simp only [placeless, reduceCtorEq] at hplaceless
  · cases hplaceless
    cases hanchored
    rfl
  · cases hplaceless
    cases hanchored
    rfl
  · next position name args position' name' args' =>
      obtain ⟨-, rfl, hargs⟩ := Expr.call.inj hplaceless
      rw [placelessAll_eq_map, placelessAll_eq_map] at hargs
      rw [anchored, anchored, anchoredAll_eq_map, anchoredAll_eq_map] at hanchored
      obtain ⟨hname, htail⟩ := List.cons.inj hanchored
      obtain rfl := Anchored.name_inj hname
      have hcommas := List.append_cancel_right (List.cons.inj htail).2
      rw [Anchored.eq_of_commas (Anchored.length_eq anchored_placeless)
        (forall_eq_of_anchored args) hargs hcommas]

/-- Each argument is determined by its form and the places of its nodes. -/
theorem forall_eq_of_anchored (args : List Expr) : ∀ arg ∈ args, ∀ other : Expr,
    arg.placeless = other.placeless → arg.anchored = other.anchored → arg = other := by
  cases args with
  | nil => exact nofun
  | cons arg args =>
      exact List.forall_mem_cons.2
        ⟨fun other => eq_of_anchored arg other, forall_eq_of_anchored args⟩

end

end Expr

/-! ## Declarations -/

section

variable {f : Position → Position}

namespace Slot

/-- A moved default is spelled by the same terminals, and its nodes are at their other places. -/
theorem anchoredDefault_relocated (announced : Mark) (default? : Option Expr) :
    anchoredDefault announced (default?.map (Expr.relocated f)) =
      (anchoredDefault announced default?).map (Anchored.relocate f) := by
  cases default? with
  | none => rfl
  | some e => simp [anchoredDefault, Expr.anchored_relocated]

/-- A default is determined by its form and the places of its nodes. -/
theorem eq_of_anchoredDefault {announced : Mark} {default? other? : Option Expr}
    (hplaceless : default?.map Expr.placeless = other?.map Expr.placeless)
    (hanchored : anchoredDefault announced default? = anchoredDefault announced other?) :
    default? = other? := by
  cases default? <;> cases other? <;> simp only [Option.map_some, Option.map_none, reduceCtorEq,
    Option.some.injEq] at hplaceless
  · rfl
  · exact congrArg some (Expr.eq_of_anchored _ _ hplaceless (List.cons.inj hanchored).2)

/-- A moved slot is spelled by the same terminals, and its nodes are at their other places. -/
theorem anchored_relocated (slot : Slot) :
    (slot.mapNodes f (Expr.relocated f)).anchored = slot.anchored.map (Anchored.relocate f) := by
  simp [anchored, anchoredDefault_relocated]

/-- The nodes of a slot without positions are nowhere. -/
theorem anchored_placeless (slot : Slot) :
    slot.placeless.anchored = slot.anchored.map (Anchored.relocate fun _ => .nowhere) := by
  rw [placeless_eq_relocated, anchored_relocated]

/-- A slot is determined by its form and the places of its nodes. -/
theorem eq_of_anchored (slot other : Slot) (hplaceless : slot.placeless = other.placeless)
    (hanchored : slot.anchored = other.anchored) : slot = other := by
  obtain ⟨position, typeName, name, default?⟩ := slot
  obtain ⟨position', typeName', name', other?⟩ := other
  obtain ⟨-, rfl, rfl, hdefault⟩ := Slot.mk.inj hplaceless
  obtain ⟨hposition, htail⟩ := List.cons.inj hanchored
  obtain rfl := Anchored.name_inj hposition
  obtain rfl := eq_of_anchoredDefault hdefault (List.cons.inj htail).2
  rfl

end Slot

namespace Method

/-- A moved body is spelled by the same terminals, and its nodes are at their other places. -/
theorem anchoredTail_relocated (body : Option Expr) :
    anchoredTail (body.map (Expr.relocated f)) =
      (anchoredTail body).map (Anchored.relocate f) := by
  cases body with
  | none => rfl
  | some e => simp [anchoredTail, Expr.anchored_relocated]

/-- A moved method is spelled by the same terminals, and its nodes are at their other places. -/
theorem anchored_relocated (m : Method) :
    (m.mapNodes f (Expr.relocated f)).anchored = m.anchored.map (Anchored.relocate f) := by
  simp [anchored, Anchored.map_relocate_commas, anchoredTail_relocated, Slot.anchored_relocated,
    Function.comp_def]

/-- The nodes of a body without positions are nowhere. -/
theorem anchoredTail_placeless (body : Option Expr) :
    anchoredTail (body.map Expr.placeless) =
      (anchoredTail body).map (Anchored.relocate fun _ => .nowhere) := by
  rw [← anchoredTail_relocated, ← funext Expr.placeless_eq_relocated]

/-- A body is determined by its form and the places of its nodes. -/
theorem eq_of_anchoredTail {body other : Option Expr}
    (hplaceless : body.map Expr.placeless = other.map Expr.placeless)
    (hanchored : anchoredTail body = anchoredTail other) : body = other := by
  cases body <;> cases other <;> simp only [Option.map_some, Option.map_none, reduceCtorEq,
    Option.some.injEq] at hplaceless
  · rfl
  · simp only [anchoredTail, List.cons.injEq, true_and] at hanchored
    exact congrArg some (Expr.eq_of_anchored _ _ hplaceless (List.append_cancel_right hanchored))

/-- A method is determined by its form and the places of its nodes. -/
theorem eq_of_anchored (m other : Method) (hplaceless : m.placeless = other.placeless)
    (hanchored : m.anchored = other.anchored) : m = other := by
  obtain ⟨position, returnType, name, parameters, body⟩ := m
  obtain ⟨position', returnType', name', parameters', body'⟩ := other
  obtain ⟨-, rfl, rfl, hparameters, hbody⟩ := Method.mk.inj hplaceless
  simp only [anchored, List.cons.injEq, true_and] at hanchored
  obtain ⟨hposition, htail⟩ := hanchored
  obtain rfl := Anchored.name_inj hposition
  obtain ⟨hcommas, htail⟩ := List.append_inj' htail
    (congrArg Nat.succ (Anchored.length_eq anchoredTail_placeless _ _ hbody))
  obtain rfl := eq_of_anchoredTail hbody (List.cons.inj htail).2
  obtain rfl : parameters = parameters' :=
    Anchored.eq_of_commas (Anchored.length_eq Slot.anchored_placeless)
      (fun slot _ => slot.eq_of_anchored) hparameters hcommas
  rfl

end Method

namespace Member

/-- A moved member is spelled by the same terminals, and its nodes are at their other places. -/
theorem anchored_relocated (member : Member) :
    (member.mapNodes f (Expr.relocated f)).anchored =
      member.anchored.map (Anchored.relocate f) := by
  rcases member with ⟨_ | _, slot⟩ | m
  · rfl
  · simp [mapNodes, anchored, Slot.anchoredDefault_relocated]
  · exact m.anchored_relocated

/-- The nodes of a member without positions are nowhere. -/
theorem anchored_placeless (member : Member) :
    member.placeless.anchored = member.anchored.map (Anchored.relocate fun _ => .nowhere) := by
  rw [placeless_eq_relocated, anchored_relocated]

/-- A member as it is read is determined by its form and the places of its nodes. -/
theorem eq_of_anchored (member : Member) (hfresh : member.Fresh) (other : Member)
    (hplaceless : member.placeless = other.placeless)
    (hanchored : member.anchored = other.anchored) : member = other := by
  rcases member with ⟨stored, slot⟩ | m <;> rcases other with ⟨stored', slot'⟩ | m' <;>
    simp only [placeless, reduceCtorEq, Member.attribute.injEq, Member.method.injEq] at hplaceless
  · obtain ⟨rfl, hslot⟩ := hplaceless
    obtain ⟨position, typeName, name, default?⟩ := slot
    obtain ⟨position', typeName', name', other?⟩ := slot'
    obtain ⟨-, rfl, rfl, hdefault⟩ := Slot.mk.inj hslot
    cases stored with
    | false =>
        -- The default of an attribute that is only announced is not spelled, but there is none.
        obtain rfl : default? = none := hfresh
        obtain rfl : other? = none := by simpa using hdefault.symm
        simp only [anchored, List.cons.injEq] at hanchored
        obtain rfl := Anchored.name_inj hanchored.1
        rfl
    | true =>
        simp only [anchored, List.cons.injEq, true_and] at hanchored
        obtain ⟨hposition, htail⟩ := hanchored
        obtain rfl := Anchored.name_inj hposition
        obtain rfl := Slot.eq_of_anchoredDefault hdefault (List.append_cancel_right htail)
        rfl
  · exact congrArg Member.method (m.eq_of_anchored m' hplaceless hanchored)

end Member

namespace Decl

/-- Moved interfaces are spelled by the same terminals at their other places. -/
theorem anchoredInterfaces_relocated (refs : List (Located String)) :
    anchoredInterfaces (refs.map (Located.relocate f)) =
      (anchoredInterfaces refs).map (Anchored.relocate f) := by
  cases refs with
  | nil => rfl
  | cons ref refs =>
      simp [anchoredInterfaces, Anchored.map_relocate_commas, Function.comp_def, Located.relocate]

/-- A moved declaration is spelled by the same terminals, and its nodes are at their other places.
-/
theorem anchored_relocated (decl : Decl) :
    (decl.relocated f).anchored = decl.anchored.map (Anchored.relocate f) := by
  simp [relocated, mapNodes, anchored, anchoredInterfaces_relocated, List.map_flatMap,
    List.flatMap_map, Member.anchored_relocated]

/-- Interfaces without positions are nowhere. -/
theorem anchoredInterfaces_placeless (refs : List (Located String)) :
    anchoredInterfaces (refs.map Located.placeless) =
      (anchoredInterfaces refs).map (Anchored.relocate fun _ => .nowhere) :=
  anchoredInterfaces_relocated (f := fun _ => .nowhere) refs

/-- The nodes of a declaration without positions are nowhere. -/
theorem anchored_placeless (decl : Decl) :
    decl.placeless.anchored = decl.anchored.map (Anchored.relocate fun _ => .nowhere) := by
  rw [placeless_eq_relocated, anchored_relocated]

/-- Interfaces are determined by their names and their places. -/
theorem eq_of_anchoredInterfaces {refs others : List (Located String)}
    (hplaceless : refs.map Located.placeless = others.map Located.placeless)
    (hanchored : anchoredInterfaces refs = anchoredInterfaces others) : refs = others := by
  cases refs with
  | nil => exact (List.map_eq_nil_iff.1 hplaceless.symm).symm
  | cons ref refs =>
      obtain ⟨other, others, rfl, -⟩ := List.map_eq_cons_iff.1 hplaceless.symm
      refine Anchored.eq_of_commas (fun _ _ _ => rfl) (fun found _ other hvalue hname => ?_)
        hplaceless (List.cons.inj hanchored).2
      obtain ⟨position, value⟩ := found
      obtain ⟨position', value'⟩ := other
      obtain ⟨-, rfl⟩ := Located.mk.inj hvalue
      obtain rfl := Anchored.name_inj (List.cons.inj hname).1
      rfl

/-- A declaration is determined by the places of its nodes and by what it is without them. -/
theorem eq_of_anchored (decl : Decl) (hfresh : ∀ m ∈ decl.members, m.Fresh) (other : Decl)
    (hplaceless : decl.placeless = other.placeless)
    (hanchored : decl.anchored = other.anchored) : decl = other := by
  obtain ⟨position, name, interfaces, members, kind⟩ := decl
  obtain ⟨position', name', interfaces', members', kind'⟩ := other
  obtain ⟨-, rfl, hinterfaces, hmembers, rfl⟩ := Decl.mk.inj hplaceless
  simp only [anchored, List.cons.injEq, true_and] at hanchored
  obtain ⟨hposition, htail⟩ := hanchored
  obtain rfl : position = position' := Option.some.inj (congrArg Anchored.node? hposition)
  obtain ⟨hlisted, hblock⟩ := List.append_inj htail
    (Anchored.length_eq anchoredInterfaces_placeless _ _ hinterfaces)
  obtain rfl := eq_of_anchoredInterfaces hinterfaces hlisted
  simp only [List.cons.injEq, true_and] at hblock
  obtain rfl : members = members' :=
    Anchored.eq_of_flatMap (Anchored.length_eq Member.anchored_placeless)
      (fun member hmember => member.eq_of_anchored (hfresh member hmember)) hmembers
      (List.append_cancel_right hblock)
  rfl

/-- So are several declarations, one after the other. -/
theorem eq_of_flatMap_anchored {decls others : List Decl} (hfresh : ∀ decl ∈ decls, decl.Fresh)
    (hplaceless : decls.map placeless = others.map placeless)
    (hanchored : decls.flatMap anchored = others.flatMap anchored) : decls = others :=
  Anchored.eq_of_flatMap (Anchored.length_eq anchored_placeless)
    (fun decl hdecl => decl.eq_of_anchored (hfresh decl hdecl).2.2) hplaceless hanchored

end Decl

end

/-! ## Leaves -/

namespace Grammar

variable {f : Position → Position}

/-- A leaf at another place. -/
def Leaf.relocate (f : Position → Position) (leaf : Leaf) : Leaf :=
  { leaf with position := f leaf.position }

/-- A leaf and its terminal can be moved together. -/
theorem Leaf.Bears.relocate {leaf : Leaf} {a : Anchored} (h : leaf.Bears a) :
    (leaf.relocate f).Bears (a.relocate f) := by
  obtain ⟨hterminal, hposition⟩ := h
  refine ⟨hterminal, fun position hnode => ?_⟩
  obtain ⟨found, hfound, rfl⟩ := Option.map_eq_some_iff.1 hnode
  exact congrArg f (hposition found hfound)

/-- What leaves bear is determined by where they are. -/
theorem eq_of_bears {leaves : List Leaf} {tree other : List Anchored}
    (htree : List.Forall₂ Leaf.Bears leaves tree) (hother : List.Forall₂ Leaf.Bears leaves other)
    (h : tree.map (Anchored.relocate fun _ => .nowhere) =
      other.map (Anchored.relocate fun _ => .nowhere)) : tree = other := by
  induction htree generalizing other with
  | nil =>
      cases hother
      rfl
  | @cons leaf a leaves tree hbears _ ih =>
      obtain ⟨b, other, rfl, hhead, htail⟩ := List.map_eq_cons_iff.1 h.symm
      obtain ⟨hbears', hother⟩ := List.forall₂_cons.1 hother
      rw [ih hother htail.symm]
      obtain ⟨node?, terminal, hcontent⟩ := a
      obtain ⟨node?', terminal', hcontent'⟩ := b
      obtain ⟨hnode, rfl⟩ : node?'.map (fun _ => Position.nowhere) =
          node?.map (fun _ => Position.nowhere) ∧ terminal' = terminal := by
        simpa [Anchored.relocate] using hhead
      obtain rfl : node? = node?' := by
        cases node? <;> cases node?' <;> simp only [Option.map_some, Option.map_none,
          reduceCtorEq] at hnode
        · rfl
        · exact congrArg some ((hbears.2 _ rfl).symm.trans (hbears'.2 _ rfl))
      rfl

/-- The leaves of tokens at other places. -/
theorem leavesFrom_relocate {tokens others : List Token}
    (h : others.map (·.position) = tokens.map (f ·.position)) (index : Nat) (ts : List Terminal) :
    leavesFrom index others ts = (leavesFrom index tokens ts).map (Leaf.relocate f) := by
  induction tokens generalizing others index ts with
  | nil =>
      obtain rfl := List.map_eq_nil_iff.1 h
      rfl
  | cons token tokens ih =>
      obtain ⟨other, others, rfl, hposition, hothers⟩ := List.map_eq_cons_iff.1 h
      cases ts with
      | nil => rfl
      | cons t ts =>
          rw [leavesFrom, leavesFrom, ih hothers, hposition]
          rfl

end Grammar

end EoJava
