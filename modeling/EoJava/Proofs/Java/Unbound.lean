import EoJava.Proofs.Java.Outline

/-!
# What an emission fills in

An emission fills in the bindings of references. It leaves the rest of a declaration as it was, it
does not look at the bindings that it finds, and it finds nothing to change when it is repeated.
Each part of an emission is such a stage (`Annotated.Fills`), up to that for a whole declaration
(`declTexts_fills`).
-/

namespace EoJava

/-! ## Trees without bindings -/

namespace Expr

mutual

/-- An expression without its bindings. -/
def unbound : Expr → Expr
  | .literal position value => .literal position value
  | .reference position name _ => .reference position name none
  | .call position name args => .call position name (unboundAll args)

/-- Arguments without their bindings. -/
def unboundAll : List Expr → List Expr
  | [] => []
  | arg :: args => arg.unbound :: unboundAll args

end

/-- Bindings are dropped argument by argument. -/
@[simp]
theorem unboundAll_eq_map (args : List Expr) : unboundAll args = args.map unbound := by
  induction args with
  | nil => rfl
  | cons arg args ih => rw [unboundAll, ih, List.map_cons]

mutual

/-- Bindings are not seen in an erased expression. -/
theorem erased_unbound (e : Expr) : e.unbound.erased = e.erased := by
  cases e with
  | literal | reference => rfl
  | call position name args => rw [unbound, erased, erased, erasedAll_unboundAll args]

/-- Bindings are not seen in erased arguments. -/
theorem erasedAll_unboundAll (args : List Expr) : erasedAll (unboundAll args) = erasedAll args := by
  cases args with
  | nil => rfl
  | cons arg args =>
      rw [unboundAll, erasedAll, erasedAll, erased_unbound arg, erasedAll_unboundAll args]

end

mutual

/-- Bindings are dropped once. -/
theorem unbound_unbound (e : Expr) : e.unbound.unbound = e.unbound := by
  cases e with
  | literal | reference => rfl
  | call position name args => rw [unbound, unbound, unboundAll_unboundAll args]

/-- Bindings of arguments are dropped once. -/
theorem unboundAll_unboundAll (args : List Expr) :
    unboundAll (unboundAll args) = unboundAll args := by
  cases args with
  | nil => rfl
  | cons arg args =>
      rw [unboundAll, unboundAll, unbound_unbound arg, unboundAll_unboundAll args]

end

end Expr

/-- A slot without its bindings. -/
def Slot.unbound : Slot → Slot :=
  mapNodes id Expr.unbound

/-- A method without its bindings. -/
def Method.unbound : Method → Method :=
  mapNodes id Expr.unbound

/-- A member without its bindings. -/
def Member.unbound : Member → Member :=
  mapNodes id Expr.unbound

/-- A declaration without its bindings. -/
def Decl.unbound : Decl → Decl :=
  mapNodes id Expr.unbound

/-- Bindings of a method are dropped once. -/
theorem Method.unbound_unbound (m : Method) : m.unbound.unbound = m.unbound := by
  have hexpr : Expr.unbound ∘ Expr.unbound = Expr.unbound := funext Expr.unbound_unbound
  have hslot : Slot.mapNodes id Expr.unbound ∘ Slot.mapNodes id Expr.unbound =
      Slot.mapNodes id Expr.unbound := by
    funext slot
    rw [Function.comp_apply, Slot.mapNodes_mapNodes, hexpr, Function.id_comp]
  simp only [unbound, mapNodes, List.map_map, Option.map_map, hexpr, hslot, id]

/-- Bindings of a declaration are dropped once. -/
theorem Decl.unbound_unbound (decl : Decl) : decl.unbound.unbound = decl.unbound := by
  have hexpr : Expr.unbound ∘ Expr.unbound = Expr.unbound := funext Expr.unbound_unbound
  rw [unbound, mapNodes_mapNodes, hexpr]
  rfl

/-- Positions and bindings are more than bindings. -/
theorem Decl.erased_unbound (decl : Decl) : decl.unbound.erased = decl.erased := by
  have hexpr : Expr.erased ∘ Expr.unbound = Expr.erased := funext Expr.erased_unbound
  rw [unbound, erased_eq_mapNodes, mapNodes_mapNodes, hexpr, erased_eq_mapNodes]
  rfl

/-- Declarations that differ in bindings only are the same when they are erased. -/
theorem Decl.erased_congr {decl other : Decl} (h : decl.unbound = other.unbound) :
    decl.erased = other.erased := by
  rw [← decl.erased_unbound, h, other.erased_unbound]

/-! ## Stages that fill in -/

namespace Annotated

variable {α β γ δ : Type}

/-- A stage fills in what `unbind` leaves out of a node: the rest of the node is as it was and
decides the result, and if the stage is repeated, nothing changes. -/
structure Fills (unbind : α → α) (stage : α → Annotated α β) (node : α) : Prop where
  frame : unbind (stage node).node = unbind node
  result : (stage (unbind node)).result = (stage node).result
  again : stage (stage node).node = stage node

/-- A part of a node, and the node with another part. -/
structure Lens (unbind : α → α) (unbindPart : γ → γ) (get : α → γ) (set : α → γ → α) : Prop where
  get_set (node : α) (part : γ) : get (set node part) = part
  set_get (node : α) : set node (get node) = node
  set_set (node : α) (part other : γ) : set (set node part) other = set node other
  unbind_set (node : α) (part : γ) : unbind (set node part) = set (unbind node) (unbindPart part)

/-- A stage, and another one for the node that it leaves, if it succeeds. -/
def bind (first : Annotated α β) (next : β → α → Annotated α γ) : Annotated α γ :=
  match first with
  | ⟨node, .error problem⟩ => ⟨node, .error problem⟩
  | ⟨node, .ok value⟩ => next value node

/-- The part of a node without its bindings is the part without its bindings. -/
theorem Lens.get_unbind {unbind : α → α} {unbindPart : γ → γ} {get : α → γ} {set : α → γ → α}
    (h : Lens unbind unbindPart get set) (node : α) :
    get (unbind node) = unbindPart (get node) := by
  rw [← h.get_set (unbind node) (unbindPart (get node)), ← h.unbind_set, h.set_get]

namespace Fills

variable {unbind : α → α} {stage other : α → Annotated α β}

/-- Nodes that differ in what is left out have the same result. -/
theorem congr (h : ∀ node, Fills unbind stage node) {first second : α}
    (heq : unbind first = unbind second) : (stage first).result = (stage second).result := by
  rw [← (h first).result, heq, (h second).result]

/-- A stage that leaves its node alone fills in nothing, if its value does not look at the bindings.
-/
theorem done {value : α → β} {node : α} (h : value (unbind node) = value node) :
    Fills unbind (fun node => Annotated.done node (value node)) node where
  frame := rfl
  result := congrArg Except.ok h
  again := rfl

/-- A stage that fills in each node of a list does so for the whole list. -/
theorem visit {nodes : List α} (h : ∀ node ∈ nodes, Fills unbind stage node) :
    Fills (List.map unbind) (Annotated.visit stage) nodes := by
  induction nodes with
  | nil => exact ⟨rfl, rfl, rfl⟩
  | cons node nodes ih =>
      obtain ⟨⟨hframe, hresult, hagain⟩, hnodes⟩ := List.forall_mem_cons.1 h
      have htail := ih hnodes
      -- The visit goes on or stops at the first node, whatever the bindings are that it has.
      rcases hfound : stage node with ⟨found, problem | value⟩
      · rw [hfound] at hframe hresult hagain
        rcases hunbound : stage (unbind node) with ⟨left, result⟩
        obtain rfl : result = .error problem := by rwa [hunbound] at hresult
        constructor
        · simp [Annotated.visit, hfound, hframe]
        · simp [Annotated.visit, hfound, hunbound]
        · simp [Annotated.visit, hfound, hagain]
      · rw [hfound] at hframe hresult hagain
        rcases hunbound : stage (unbind node) with ⟨left, result⟩
        obtain rfl : result = .ok value := by rwa [hunbound] at hresult
        constructor
        · simp [Annotated.visit, Annotated.map, hfound, hframe, htail.frame]
        · simp [Annotated.visit, Annotated.map, hfound, hunbound, htail.result]
        · simp [Annotated.visit, Annotated.map, hfound, hagain, htail.again]

/-- A stage for a part of a node that depends on the rest of the node. -/
theorem part {get : α → γ} {set : α → γ → α} {unbindPart : γ → γ}
    {inner : α → γ → Annotated γ β} {f : α → β → δ} (hlens : Lens unbind unbindPart get set)
    (hinner : ∀ node part, Fills unbindPart (inner node) part)
    (hkey : ∀ node, inner (unbind node) = inner node) (hf : ∀ node, f (unbind node) = f node)
    (node : α) :
    Fills unbind (fun node => (inner node (get node)).map (set node) (f node)) node := by
  obtain ⟨hframe, hresult, hagain⟩ := hinner node (get node)
  have hunbind : unbind (set node (inner node (get node)).node) = unbind node := by
    rw [hlens.unbind_set, hframe, ← hlens.get_unbind, hlens.set_get]
  constructor
  · exact hunbind
  · simp only [Annotated.map, hkey, hf, hlens.get_unbind, hresult]
  · have hkept : inner (set node (inner node (get node)).node) = inner node := by
      rw [← hkey, hunbind, hkey]
    have hsame : f (set node (inner node (get node)).node) = f node := by
      rw [← hf, hunbind, hf]
    simp only [Annotated.map, hkept, hsame, hlens.get_set, hlens.set_set, hagain]

/-- A stage that fills in a node does so where there may be none. -/
theorem visitOption (h : ∀ node, Fills unbind stage node) (node? : Option α) :
    Fills (Option.map unbind) (Annotated.visitOption stage) node? := by
  cases node? with
  | none => exact ⟨rfl, rfl, rfl⟩
  | some node =>
      obtain ⟨hframe, hresult, hagain⟩ := h node
      constructor
      · simp [Annotated.visitOption, Annotated.map, hframe]
      · simp [Annotated.visitOption, Annotated.map, hresult]
      · simp [Annotated.visitOption, Annotated.map, hagain]

/-- Which of two stages a node goes through may depend on what is not left out. -/
theorem ite {p : α → Bool} (hp : ∀ node, p (unbind node) = p node)
    (h : ∀ node, Fills unbind stage node) (hother : ∀ node, Fills unbind other node) (node : α) :
    Fills unbind (fun node => if p node then stage node else other node) node := by
  cases hnode : p node with
  | true =>
      obtain ⟨hframe, hresult, hagain⟩ := h node
      have hkept : p (stage node).node = true := by rw [← hp, hframe, hp, hnode]
      constructor <;> simpa [hp, hnode, hkept]
  | false =>
      obtain ⟨hframe, hresult, hagain⟩ := hother node
      have hkept : p (other node).node = false := by rw [← hp, hframe, hp, hnode]
      constructor <;> simpa [hp, hnode, hkept]

/-- A stage fills in after another one if it keeps what the other one has nothing to fill in. -/
theorem bind {next : β → α → Annotated α γ} (hunbind : ∀ node, unbind (unbind node) = unbind node)
    (h : ∀ node, Fills unbind stage node)
    (hnext : ∀ value node, Fills unbind (next value) node)
    (hkeep : ∀ value node, stage node = .done node value →
      (stage (next value node).node).node = (next value node).node) (node : α) :
    Fills unbind (fun node => (stage node).bind next) node := by
  obtain ⟨hframe, hresult, hagain⟩ := h node
  rcases hfound : stage node with ⟨found, problem | value⟩
  · rw [hfound] at hframe hresult hagain
    rcases hunbound : stage (unbind node) with ⟨left, result⟩
    obtain rfl : result = .error problem := by rwa [hunbound] at hresult
    constructor
    · simp [Annotated.bind, hfound, hframe]
    · simp [Annotated.bind, hfound, hunbound]
    · simp [Annotated.bind, hfound, hagain]
  · rw [hfound] at hframe hresult hagain
    rcases hunbound : stage (unbind node) with ⟨left, result⟩
    obtain rfl : result = .ok value := by rwa [hunbound] at hresult
    have hleft : unbind left = unbind found := by
      have hstart := (h (unbind node)).frame
      rw [hunbound, hunbind] at hstart
      exact hstart.trans hframe.symm
    -- On what the second stage leaves, the first one gives what it gave and fills in nothing.
    have hkept : (stage (next value found).node).result = .ok value := by
      rw [congr h (((hnext value found).frame).trans hframe), hfound]
    have hafter : stage (next value found).node = .done (next value found).node value := by
      show (⟨(stage (next value found).node).node, (stage (next value found).node).result⟩ :
        Annotated α β) = _
      rw [hkeep value found hagain, hkept]
      rfl
    constructor
    · simp [Annotated.bind, hfound, hframe, (hnext value found).frame]
    · simpa [Annotated.bind, hfound, hunbound] using congr (hnext value) hleft
    · simp [Annotated.bind, hfound, hafter, Annotated.done, (hnext value found).again]

end Fills

/-- What a visit of settled nodes leaves is what it was given. -/
theorem node_visit_of_settled {stage : α → Annotated α β} {nodes : List α}
    (h : ∀ node ∈ nodes, (stage node).node = node) : (visit stage nodes).node = nodes := by
  induction nodes with
  | nil => rfl
  | cons node nodes ih =>
      obtain ⟨hnode, hnodes⟩ := List.forall_mem_cons.1 h
      rw [visit]
      rcases hfound : stage node with ⟨found, problem | value⟩
      · rw [hfound] at hnode
        exact congrArg (· :: nodes) hnode
      · rw [hfound] at hnode
        show found :: (visit stage nodes).node = node :: nodes
        rw [ih hnodes, ← hnode]

/-- If a visit succeeds and leaves what it was given, so does the stage for each node. -/
theorem settled_of_visit {stage : α → Annotated α β} {nodes : List α} {values : List β}
    (h : visit stage nodes = .done nodes values) : ∀ node ∈ nodes, (stage node).node = node := by
  induction nodes generalizing values with
  | nil => exact List.forall_mem_nil _
  | cons node nodes ih =>
      rw [visit] at h
      rcases hfound : stage node with ⟨found, problem | value⟩
      · simp [hfound, done] at h
      · rw [hfound] at h
        rcases hvisit : visit stage nodes with ⟨left, problem | others⟩
        · simp [hvisit, map, done, Except.map] at h
        · obtain ⟨⟨rfl, rfl⟩, -⟩ : (found = node ∧ left = nodes) ∧ value :: others = values := by
            simpa [hvisit, map, done, Except.map] using h
          exact List.forall_mem_cons.2 ⟨congrArg Annotated.node hfound, ih hvisit⟩

/-- What is kept by a stage for each node is kept by a visit. -/
theorem forall_node_visit {Kept : α → Prop} {stage : α → Annotated α β} {nodes : List α}
    (hstage : ∀ node, Kept node → Kept (stage node).node) (h : ∀ node ∈ nodes, Kept node) :
    ∀ node ∈ (visit stage nodes).node, Kept node := by
  induction nodes with
  | nil => exact h
  | cons node nodes ih =>
      obtain ⟨hnode, hnodes⟩ := List.forall_mem_cons.1 h
      have hkept := hstage node hnode
      rw [visit]
      rcases hfound : stage node with ⟨found, problem | value⟩
      · rw [hfound] at hkept
        exact List.forall_mem_cons.2 ⟨hkept, hnodes⟩
      · rw [hfound] at hkept
        exact List.forall_mem_cons.2 ⟨hkept, ih hnodes⟩

end Annotated

namespace Java

/-! ## Expressions -/

mutual

/-- Rendering an expression fills in its bindings and nothing else. -/
theorem expressionText_fills (scope : Scope) (e : Expr) :
    Annotated.Fills Expr.unbound (expressionText scope) e := by
  cases e with
  | literal position value =>
      cases hvalue : literalText? value <;> constructor <;>
        simp [expressionText, Expr.unbound, Annotated.done, Annotated.stop, hvalue]
  | reference position name binding =>
      cases hname : scope.refusedBy? name <;> constructor <;>
        simp [expressionText, Expr.unbound, Annotated.done, Annotated.stop, hname]
  | call position name args =>
      obtain ⟨hframe, hresult, hagain⟩ :=
        Annotated.Fills.visit (forall_expressionText_fills scope args)
      by_cases hname : name.isEmpty
      · constructor <;> simp [expressionText, Expr.unbound, Annotated.stop, hname]
      · constructor
        · simp [expressionText, argumentTexts_eq_visit, Expr.unbound, Annotated.map, hname, hframe]
        · simp [expressionText, argumentTexts_eq_visit, Expr.unbound, Annotated.map, hname, hresult]
        · simp [expressionText, argumentTexts_eq_visit, Annotated.map, hname, hagain]

/-- Rendering fills in the bindings of each argument. -/
theorem forall_expressionText_fills (scope : Scope) (args : List Expr) :
    ∀ arg ∈ args, Annotated.Fills Expr.unbound (expressionText scope) arg := by
  cases args with
  | nil => exact List.forall_mem_nil _
  | cons arg args =>
      exact List.forall_mem_cons.2
        ⟨expressionText_fills scope arg, forall_expressionText_fills scope args⟩

end

/-! ## Slots and methods -/

/-- The default of a slot. -/
theorem lens_default : Annotated.Lens Slot.unbound (Option.map Expr.unbound) Slot.default?
    fun slot default? => { slot with default? } :=
  ⟨fun _ _ => rfl, fun _ => rfl, fun _ _ _ => rfl, fun _ _ => rfl⟩

/-- The parameters of a method. -/
theorem lens_parameters : Annotated.Lens Method.unbound (List.map Slot.unbound) Method.parameters
    fun m parameters => { m with parameters } :=
  ⟨fun _ _ => rfl, fun _ => rfl, fun _ _ _ => rfl, fun _ _ => rfl⟩

/-- The body of a method. -/
theorem lens_body : Annotated.Lens Method.unbound (Option.map Expr.unbound) Method.body
    fun m body => { m with body } :=
  ⟨fun _ _ => rfl, fun _ => rfl, fun _ _ _ => rfl, fun _ _ => rfl⟩

/-- The members of a declaration. -/
theorem lens_members : Annotated.Lens Decl.unbound (List.map Member.unbound) Decl.members
    fun decl members => { decl with members } :=
  ⟨fun _ _ => rfl, fun _ => rfl, fun _ _ _ => rfl, fun _ _ => rfl⟩

/-- A node that is filled in as a whole. -/
theorem lens_whole {α : Type} (unbind : α → α) :
    Annotated.Lens unbind unbind id fun _ whole => whole :=
  ⟨fun _ _ => rfl, fun _ => rfl, fun _ _ _ => rfl, fun _ _ => rfl⟩

/-- Rendering a default fills in its bindings and nothing else. -/
theorem slotText_fills (fields : List String) (slots : List Slot) :
    ∀ slot, Annotated.Fills Slot.unbound (slotText fields slots) slot :=
  Annotated.Fills.part lens_default (f := fun _ => id)
    (fun slot => Annotated.Fills.visitOption
      (expressionText_fills (delegationScope fields slots slot.name)))
    (fun _ => rfl) fun _ => rfl

/-- What the default of a slot can use does not depend on bindings. -/
theorem slotText_unbound (fields : List String) (slots : List Slot) :
    slotText fields (slots.map Slot.unbound) = slotText fields slots := by
  funext slot
  rw [slotText, slotText, Slot.unbound, delegationScope_mapNodes]

/-- What a delegation passes on does not depend on bindings. -/
theorem delegationArguments_unbound (slots : List Slot) :
    delegationArguments (slots.map Slot.unbound) = delegationArguments slots :=
  funext (delegationArguments_mapNodes slots)

/-- Whether there are defaults does not depend on bindings. -/
theorem hasDefaults_unbound (slots : List Slot) :
    hasDefaults (slots.map Slot.unbound) = hasDefaults slots :=
  hasDefaults_mapNodes slots

/-- A delegation fills in the bindings of its defaults and nothing else. -/
theorem methodDelegation_fills (fields : List String) :
    ∀ m, Annotated.Fills Method.unbound (methodDelegation fields) m := by
  refine Annotated.Fills.ite (fun m => hasDefaults_unbound m.parameters) ?_
    fun m => Annotated.Fills.done rfl
  refine Annotated.Fills.part lens_parameters
    (fun m parameters => Annotated.Fills.visit fun slot _ =>
      slotText_fills fields m.parameters slot)
    (fun m => ?_) fun m => ?_
  · rw [← slotText_unbound fields m.parameters]
    rfl
  · rw [← delegationArguments_unbound m.parameters]
    rfl

/-- The text of the body of a method, if it has one. -/
def bodyText (fields : List String) (m : Method) : Annotated Method (Option String) :=
  (Annotated.visitOption
    (expressionText { fields, parameters := m.parameters.map (·.name) }) m.body).map
      ({ m with body := · }) id

/-- Rendering a body fills in its bindings and nothing else. -/
theorem bodyText_fills (fields : List String) :
    ∀ m, Annotated.Fills Method.unbound (bodyText fields) m := by
  refine Annotated.Fills.part lens_body (f := fun _ => id)
    (fun m => Annotated.Fills.visitOption (expressionText_fills _)) (fun m => ?_) fun _ => rfl
  simp [Method.unbound, Function.comp_def]

/-- The texts of a method are that of its body, and those of its delegation if it has a body. -/
theorem classMethodTexts_eq_bind (fields : List String) (m : Method) :
    classMethodTexts fields m = (bodyText fields m).bind fun
      | none, m => .done m ⟨none, none⟩
      | some text, m => (methodDelegation fields m).map id (⟨some text, ·⟩) := by
  rw [classMethodTexts, bodyText]
  obtain ⟨position, returnType, name, parameters, _ | body⟩ := m
  · rfl
  · dsimp only [Annotated.visitOption]
    rcases expressionText { fields, parameters := parameters.map (·.name) } body with
      ⟨found, problem | text⟩ <;> rfl

/-- A delegation changes a method in its parameters only. -/
theorem methodDelegation_node (fields : List String) (m : Method) :
    ∃ parameters, (methodDelegation fields m).node = { m with parameters } := by
  unfold methodDelegation
  by_cases hdefaults : hasDefaults m.parameters
  · rw [if_pos hdefaults]
    exact ⟨_, rfl⟩
  · rw [if_neg hdefaults]
    exact ⟨m.parameters, rfl⟩

/-- A method of a class has its bindings filled in and nothing else. -/
theorem classMethodTexts_fills (fields : List String) :
    ∀ m, Annotated.Fills Method.unbound (classMethodTexts fields) m := by
  rw [funext (classMethodTexts_eq_bind fields)]
  refine Annotated.Fills.bind Method.unbound_unbound (bodyText_fills fields)
    (fun text? m => ?_) fun text? m hsettled => ?_
  · cases text? with
    | none => exact Annotated.Fills.done rfl
    | some text =>
        exact Annotated.Fills.part (lens_whole _) (f := fun _ => MethodTexts.mk (some text))
          (fun _ => methodDelegation_fills fields) (fun _ => rfl) (fun _ => rfl) m
  · cases text? with
    | none => exact congrArg Annotated.node hsettled
    | some text =>
        obtain ⟨parameters, hnode⟩ := methodDelegation_node fields m
        have hframe := (methodDelegation_fills fields m).frame
        rw [hnode] at hframe
        have hnames : parameters.map (·.name) = m.parameters.map (·.name) := by
          simpa [Method.unbound, Function.comp_def] using
            congrArg (fun m : Method => m.parameters.map (·.name)) hframe
        have hbody : (Annotated.visitOption
            (expressionText { fields, parameters := m.parameters.map (·.name) }) m.body).node =
              m.body :=
          congrArg (fun found => found.node.body) hsettled
        show (bodyText fields (methodDelegation fields m).node).node =
          (methodDelegation fields m).node
        rw [hnode]
        simp only [bodyText, Annotated.map, hnames, hbody]

/-- A method of an interface has its bindings filled in and nothing else. -/
theorem interfaceMethodTexts_fills :
    ∀ m, Annotated.Fills Method.unbound interfaceMethodTexts m :=
  Annotated.Fills.part (lens_whole _) (f := fun _ => MethodTexts.mk none)
    (fun _ => methodDelegation_fills []) (fun _ => rfl) fun _ => rfl

/-! ## Members -/

/-- If each method is filled in, so are the members. -/
theorem visitMethods_fills {β : Type} {f : Method → Annotated Method β}
    (h : ∀ m, Annotated.Fills Method.unbound f m) (members : List Member) :
    Annotated.Fills (List.map Member.unbound) (visitMethods f) members := by
  refine Annotated.Fills.visit fun member _ => ?_
  rcases member with ⟨stored, slot⟩ | m
  · constructor <;> rfl
  · obtain ⟨hframe, hresult, hagain⟩ := h m
    constructor
    · exact congrArg Member.method hframe
    · exact congrArg (Except.map some) hresult
    · exact congrArg (Annotated.map Member.method some) hagain

/-- If each stored attribute is filled in, so are the members. -/
theorem visitStored_fills {β : Type} {f : Slot → Annotated Slot β}
    (h : ∀ slot, Annotated.Fills Slot.unbound f slot) (members : List Member) :
    Annotated.Fills (List.map Member.unbound) (visitStored f) members := by
  refine Annotated.Fills.visit fun member _ => ?_
  rcases member with ⟨_ | _, slot⟩ | m
  · constructor <;> rfl
  · obtain ⟨hframe, hresult, hagain⟩ := h slot
    constructor
    · exact congrArg (Member.attribute true) hframe
    · exact congrArg (Except.map some) hresult
    · exact congrArg (Annotated.map (Member.attribute true) some) hagain
  · constructor <;> rfl

/-- What is stored is settled where it was before the methods were visited. -/
theorem visitStored_visitMethods {β γ : Type} {f : Slot → Annotated Slot β}
    {g : Method → Annotated Method γ} {members : List Member} {values : List (Option β)}
    (h : visitStored f members = .done members values) :
    (visitStored f (visitMethods g members).node).node = (visitMethods g members).node := by
  refine Annotated.node_visit_of_settled (Annotated.forall_node_visit (fun member hmember => ?_)
    (Annotated.settled_of_visit h))
  rcases member with ⟨stored, slot⟩ | m
  · exact hmember
  · rfl

/-! ## Declarations -/

/-- The stored attributes without bindings are those of the declaration without bindings. -/
theorem stored_unbound (decl : Decl) :
    decl.unbound.stored = decl.stored.map Slot.unbound :=
  decl.stored_mapNodes

/-- The constructors fill in the bindings of stored attributes and nothing else. -/
theorem constructorTexts_fills :
    ∀ decl, Annotated.Fills Decl.unbound constructorTexts decl := by
  refine Annotated.Fills.ite (fun decl => ?_) ?_ fun decl => Annotated.Fills.done rfl
  · rw [stored_unbound, hasDefaults_unbound]
  · refine Annotated.Fills.part lens_members
      (fun decl => visitStored_fills (slotText_fills [] decl.stored)) (fun decl => ?_)
      fun decl => ?_
    · rw [stored_unbound, slotText_unbound]
    · rw [stored_unbound, delegationArguments_unbound]

/-- The names of the fields do not depend on bindings. -/
theorem fields_unbound (decl : Decl) :
    decl.unbound.stored.map (·.name) = decl.stored.map (·.name) := by
  rw [stored_unbound, List.map_map]
  rfl

/-- An interface has its bindings filled in and nothing else. -/
theorem interfaceTexts_fills : ∀ decl, Annotated.Fills Decl.unbound interfaceTexts decl :=
  Annotated.Fills.part lens_members
    (f := fun _ (texts : List (Option MethodTexts)) => DeclTexts.mk none (texts.filterMap id))
    (fun _ => visitMethods_fills interfaceMethodTexts_fills) (fun _ => rfl) fun _ => rfl

/-- The texts of a class are those of its constructors and then those of its methods. -/
theorem classTexts_eq_bind (decl : Decl) :
    classTexts decl = (constructorTexts decl).bind fun constructor decl =>
      (visitMethods (classMethodTexts (decl.stored.map (·.name))) decl.members).map
        ({ decl with members := · }) fun texts => ⟨constructor, texts.filterMap id⟩ := by
  rw [classTexts]
  rcases constructorTexts decl with ⟨found, problem | constructor⟩ <;> rfl

/-- The stored slots are the same, up to their bindings. -/
theorem stored_congr {decl other : Decl} (h : decl.unbound = other.unbound) :
    decl.stored.map Slot.unbound = other.stored.map Slot.unbound := by
  rw [← stored_unbound, h, stored_unbound]

/-- What a constructor finds settled is settled for it after the methods were visited. -/
theorem constructorTexts_visitMethods {β : Type} {f : Method → Annotated Method β} {decl : Decl}
    {texts : Option (List String)}
    (hframe : ∀ members,
      (visitMethods f members).node.map Member.unbound = members.map Member.unbound)
    (h : constructorTexts decl = .done decl texts) :
    (constructorTexts { decl with members := (visitMethods f decl.members).node }).node =
      { decl with members := (visitMethods f decl.members).node } := by
  have hunbound : ({ decl with members := (visitMethods f decl.members).node } : Decl).unbound =
      decl.unbound := by
    rw [lens_members.unbind_set, hframe]
    rfl
  have hstored := stored_congr hunbound
  simp only [constructorTexts] at h ⊢
  rw [← hasDefaults_unbound, ← slotText_unbound, hstored, hasDefaults_unbound, slotText_unbound]
  by_cases hdefaults : hasDefaults decl.stored
  · rw [if_pos hdefaults] at h ⊢
    rcases hvisit : visitStored (slotText [] decl.stored) decl.members with ⟨left, problem | values⟩
    · rw [hvisit] at h
      cases congrArg Annotated.result h
    · obtain rfl : left = decl.members := by
        rw [hvisit] at h
        exact congrArg (fun found => found.node.members) h
      show ({ decl with members := _ } : Decl) = _
      rw [visitStored_visitMethods hvisit]
  · rw [if_neg hdefaults]
    rfl

/-- A class has its bindings filled in and nothing else. -/
theorem classTexts_fills : ∀ decl, Annotated.Fills Decl.unbound classTexts decl := by
  rw [funext classTexts_eq_bind]
  refine Annotated.Fills.bind ?_ constructorTexts_fills (fun constructor => ?_)
    fun constructor decl hsettled => ?_
  · exact Decl.unbound_unbound
  · refine Annotated.Fills.part lens_members
      (f := fun _ (texts : List (Option MethodTexts)) =>
        DeclTexts.mk constructor (texts.filterMap id))
      (fun decl => visitMethods_fills (classMethodTexts_fills (decl.stored.map (·.name))))
      (fun decl => ?_) fun _ => rfl
    rw [fields_unbound]
  · exact constructorTexts_visitMethods
      (fun members => (visitMethods_fills (classMethodTexts_fills _) members).frame) hsettled

/-- The kind of a declaration says which texts it needs. -/
theorem declTexts_eq_ite (decl : Decl) : declTexts decl =
    if unitKind decl == .interfaceType then interfaceTexts decl else classTexts decl := by
  unfold declTexts
  cases unitKind decl <;> rfl

/-- The texts of a declaration do not depend on its bindings, which are all that is filled in. -/
theorem declTexts_fills : ∀ decl, Annotated.Fills Decl.unbound declTexts decl := by
  rw [funext declTexts_eq_ite]
  exact Annotated.Fills.ite (fun _ => rfl) interfaceTexts_fills classTexts_fills

end Java

end EoJava
