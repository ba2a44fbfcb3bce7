import EoJava.Proofs.Grammar.Terminal

/-!
# Trees with other nodes

`Decl.mapNodes f g` is a declaration with every position outside its expressions changed by `f` and
every expression by `g`. If `g` changes the positions as well, by `f`, that is `Decl.relocated f`,
the same declaration at other places. A declaration without its positions is one of these
(`Decl.placeless_eq_relocated`).
-/

namespace EoJava

/-- A value at the place that `f` makes of its own. -/
def Located.relocate {α : Type} (f : Position → Position) (found : Located α) : Located α :=
  ⟨f found.position, found.value⟩

namespace Expr

mutual

/-- An expression at other places. -/
def relocated (f : Position → Position) : Expr → Expr
  | .literal position value => .literal (f position) value
  | .reference position name binding => .reference (f position) name binding
  | .call position name args => .call (f position) name (relocatedAll f args)

/-- Arguments at other places. -/
def relocatedAll (f : Position → Position) : List Expr → List Expr
  | [] => []
  | arg :: args => arg.relocated f :: relocatedAll f args

end

/-- Arguments are moved one by one. -/
@[simp]
theorem relocatedAll_eq_map (f : Position → Position) (args : List Expr) :
    relocatedAll f args = args.map (relocated f) := by
  induction args with
  | nil => rfl
  | cons arg args ih => simp [relocatedAll, ih]

mutual

/-- Moving an expression twice is moving it once, by both changes. -/
theorem relocated_relocated (f g : Position → Position) (e : Expr) :
    (e.relocated f).relocated g = e.relocated (g ∘ f) := by
  cases e with
  | literal | reference => rfl
  | call position name args =>
      rw [relocated, relocated, relocated, relocatedAll_relocatedAll f g args]
      rfl

/-- Moving arguments twice is moving them once, by both changes. -/
theorem relocatedAll_relocatedAll (f g : Position → Position) (args : List Expr) :
    relocatedAll g (relocatedAll f args) = relocatedAll (g ∘ f) args := by
  cases args with
  | nil => rfl
  | cons arg args =>
      rw [relocatedAll, relocatedAll, relocatedAll, relocated_relocated f g arg,
        relocatedAll_relocatedAll f g args]

end

end Expr

section

variable (f : Position → Position) (g : Expr → Expr)

/-- A slot with its position and its default changed. -/
def Slot.mapNodes (slot : Slot) : Slot :=
  { slot with position := f slot.position, default? := slot.default?.map g }

/-- A method with its positions and its expressions changed. -/
def Method.mapNodes (m : Method) : Method :=
  { m with
    position := f m.position
    parameters := m.parameters.map (Slot.mapNodes f g)
    body := m.body.map g }

/-- A member with its positions and its expressions changed. -/
def Member.mapNodes : Member → Member
  | .attribute stored slot => .attribute stored (slot.mapNodes f g)
  | .method m => .method (m.mapNodes f g)

/-- A declaration with its positions and its expressions changed. -/
def Decl.mapNodes (decl : Decl) : Decl :=
  { decl with
    position := f decl.position
    interfaces := decl.interfaces.map (Located.relocate f)
    members := decl.members.map (Member.mapNodes f g) }

variable {f g}

/-- The position of a changed slot is the changed position. -/
@[simp]
theorem Slot.position_mapNodes (slot : Slot) : (slot.mapNodes f g).position = f slot.position := rfl

/-- A changed slot has the type it had. -/
@[simp]
theorem Slot.typeName_mapNodes (slot : Slot) : (slot.mapNodes f g).typeName = slot.typeName := rfl

/-- A changed slot has the name it had. -/
@[simp]
theorem Slot.name_mapNodes (slot : Slot) : (slot.mapNodes f g).name = slot.name := rfl

/-- A changed slot has a default if it had one, and that is the changed default. -/
@[simp]
theorem Slot.default?_mapNodes (slot : Slot) :
    (slot.mapNodes f g).default? = slot.default?.map g := rfl

/-- The position of a changed method is the changed position. -/
@[simp]
theorem Method.position_mapNodes (m : Method) : (m.mapNodes f g).position = f m.position := rfl

/-- A changed method returns what it did. -/
@[simp]
theorem Method.returnType_mapNodes (m : Method) : (m.mapNodes f g).returnType = m.returnType := rfl

/-- A changed method has the name it had. -/
@[simp]
theorem Method.name_mapNodes (m : Method) : (m.mapNodes f g).name = m.name := rfl

/-- The parameters of a changed method are the changed parameters, in the same order. -/
@[simp]
theorem Method.parameters_mapNodes (m : Method) :
    (m.mapNodes f g).parameters = m.parameters.map (Slot.mapNodes f g) := rfl

/-- A changed method has a body if it had one, and that is the changed body. -/
@[simp]
theorem Method.body_mapNodes (m : Method) : (m.mapNodes f g).body = m.body.map g := rfl

/-- A changed member has the name it had, whichever kind of member it is. -/
@[simp]
theorem Member.name_mapNodes (member : Member) : (member.mapNodes f g).name = member.name := by
  rcases member with ⟨stored, slot⟩ | m <;> rfl

/-- The position of a changed member is the changed position. -/
@[simp]
theorem Member.position_mapNodes (member : Member) :
    (member.mapNodes f g).position = f member.position := by
  rcases member with ⟨stored, slot⟩ | m <;> rfl

/-- A changed declaration has the name it had. -/
@[simp]
theorem Decl.name_mapNodes (decl : Decl) : (decl.mapNodes f g).name = decl.name := rfl

/-- The members of a changed declaration are the changed members, in the same order. -/
@[simp]
theorem Decl.members_mapNodes (decl : Decl) :
    (decl.mapNodes f g).members = decl.members.map (Member.mapNodes f g) := rfl

/-- The same attributes are stored by a changed declaration. -/
theorem Decl.stored_mapNodes (decl : Decl) :
    (decl.mapNodes f g).stored = decl.stored.map (Slot.mapNodes f g) := by
  simp only [stored, mapNodes, List.filterMap_map, List.map_filterMap]
  congr 1
  funext member
  rcases member with ⟨_ | _, slot⟩ | m <;> rfl

/-- The methods of a changed declaration are the changed methods. -/
theorem Decl.methods_mapNodes (decl : Decl) :
    (decl.mapNodes f g).methods = decl.methods.map (Method.mapNodes f g) := by
  simp only [methods, mapNodes, List.filterMap_map, List.map_filterMap]
  congr 1
  funext member
  rcases member with ⟨stored, slot⟩ | m <;> rfl

/-! ## Changes one after the other -/

variable {f' : Position → Position} {g' : Expr → Expr}

/-- Changing a slot twice is changing it once. -/
theorem Slot.mapNodes_mapNodes (slot : Slot) :
    (slot.mapNodes f g).mapNodes f' g' = slot.mapNodes (f' ∘ f) (g' ∘ g) := by
  simp [mapNodes]

/-- Changing a member twice is changing it once. -/
theorem Member.mapNodes_mapNodes (member : Member) :
    (member.mapNodes f g).mapNodes f' g' = member.mapNodes (f' ∘ f) (g' ∘ g) := by
  rcases member with ⟨stored, slot⟩ | m
  · exact congrArg (Member.attribute stored) slot.mapNodes_mapNodes
  · simp [mapNodes, Method.mapNodes, Function.comp_def, Slot.mapNodes_mapNodes]

/-- Changing a declaration twice is changing it once. -/
theorem Decl.mapNodes_mapNodes (decl : Decl) :
    (decl.mapNodes f g).mapNodes f' g' = decl.mapNodes (f' ∘ f) (g' ∘ g) := by
  simp [mapNodes, Function.comp_def, Member.mapNodes_mapNodes, Located.relocate]

end

/-- A declaration at other places. -/
def Decl.relocated (f : Position → Position) (decl : Decl) : Decl :=
  decl.mapNodes f (Expr.relocated f)

/-- Moving a declaration twice is moving it once, by both changes. -/
theorem Decl.relocated_relocated (f g : Position → Position) (decl : Decl) :
    (decl.relocated f).relocated g = decl.relocated (g ∘ f) := by
  have hexpr : Expr.relocated g ∘ Expr.relocated f = Expr.relocated (g ∘ f) :=
    funext (Expr.relocated_relocated f g)
  rw [relocated, relocated, mapNodes_mapNodes, hexpr]
  rfl

/-! ## Trees without their places -/

mutual

/-- An expression without positions is one that is moved to no place. -/
theorem Expr.placeless_eq_relocated (e : Expr) : e.placeless = e.relocated fun _ => .nowhere := by
  cases e with
  | literal | reference => rfl
  | call position name args =>
      rw [placeless, relocated, Expr.placelessAll_eq_relocatedAll args]

/-- Arguments without positions are those that are moved to no place. -/
theorem Expr.placelessAll_eq_relocatedAll (args : List Expr) :
    placelessAll args = relocatedAll (fun _ => .nowhere) args := by
  cases args with
  | nil => rfl
  | cons arg args =>
      rw [placelessAll, relocatedAll, Expr.placeless_eq_relocated arg,
        Expr.placelessAll_eq_relocatedAll args]

end

/-- A slot without positions is one that is moved to no place. -/
theorem Slot.placeless_eq_relocated (slot : Slot) :
    slot.placeless = slot.mapNodes (fun _ => .nowhere) (Expr.relocated fun _ => .nowhere) := by
  have hexpr : Expr.placeless = Expr.relocated fun _ => .nowhere :=
    funext Expr.placeless_eq_relocated
  rw [placeless, hexpr]
  rfl

/-- A member without positions is one that is moved to no place. -/
theorem Member.placeless_eq_relocated (member : Member) :
    member.placeless = member.mapNodes (fun _ => .nowhere) (Expr.relocated fun _ => .nowhere) := by
  have hexpr : Expr.placeless = Expr.relocated fun _ => .nowhere :=
    funext Expr.placeless_eq_relocated
  have hslot : Slot.placeless =
      Slot.mapNodes (fun _ => .nowhere) (Expr.relocated fun _ => .nowhere) :=
    funext Slot.placeless_eq_relocated
  rcases member with ⟨stored, slot⟩ | m
  · exact congrArg (Member.attribute stored) slot.placeless_eq_relocated
  · rw [placeless, Method.placeless, hexpr, hslot]
    rfl

/-- A declaration without positions is one that is moved to no place. -/
theorem Decl.placeless_eq_relocated (decl : Decl) :
    decl.placeless = decl.relocated fun _ => .nowhere := by
  have hmember : Member.placeless =
      Member.mapNodes (fun _ => .nowhere) (Expr.relocated fun _ => .nowhere) :=
    funext Member.placeless_eq_relocated
  rw [placeless, hmember]
  rfl

/-- Moving a declaration is not seen once its positions are dropped. -/
theorem Decl.placeless_relocated (f : Position → Position) (decl : Decl) :
    (decl.relocated f).placeless = decl.placeless := by
  rw [placeless_eq_relocated, relocated_relocated, placeless_eq_relocated]
  rfl

end EoJava
