import EoJava.Proofs.Java.Lines

/-!
# Units as they are read

What is written of a declaration spells the members of its outline, so the text of the unit of a
declaration is read as the outline (`Emitted.reads`), and an emission gives such a unit for each
declaration (`emitted_of_emit`).
-/

namespace EoJava.Java

open Writer (Writes)

variable {fields : List String}

/-! ## Headers -/

/-- A space separates what is around it. -/
theorem separates_space : Separates " " [] :=
  separates_of_isClosed (by decide) (by decide)

/-- A semicolon separates what is around it. -/
theorem separates_semicolon : Separates ";" [.symbol ';'] :=
  separates_of_isClosed (by decide) (by decide)

/-- A name is one word if a space follows it. -/
theorem leads_name_space {name : String} (h : Nameable name) : Leads (name ++ " ") [.word name] :=
  (spells_name h).append_separates separates_space

/-- The modifier of a parameter is one word. -/
theorem leads_final : Leads "final " [.word "final"] :=
  leads_of_isClosed (by decide) (by decide)

/-- The modifier of a method is one word. -/
theorem leads_public : Leads "public " [.word "public"] :=
  leads_of_isClosed (by decide) (by decide)

/-- The text of a parameter spells its type and its name. -/
theorem spells_formal {slot : Slot} (h : SpellableSlot slot) :
    Spells ("final " ++ slot.typeName ++ " " ++ slot.name) (formal slot).lexemes :=
  ((leads_final.append_spells (spells_name h.type)).append_separates
    separates_space).append_spells (spells_name h.name)

/-- A signature spells a name and formal parameters. -/
theorem leads_signature {name : String} {slots : List Slot} (hname : Nameable name)
    (h : ∀ slot ∈ slots, SpellableSlot slot) :
    Leads (signature name slots)
      (.word name :: parenthesized ((slots.map formal).map Formal.lexemes) []) := by
  refine (spells_name hname).parenthesized ?_ separates_rightParen
  rw [List.map_map, List.forall₂_map_left_iff, List.forall₂_map_right_iff, List.forall₂_same]
  exact fun slot hslot => spells_formal (h slot hslot)

/-- A modifier, a type and a signature make the header of a method. -/
theorem leads_header {start type name : String} {lexemes : List Lexeme} {slots : List Slot}
    (hstart : Leads start lexemes) (htype : Nameable type) (hname : Nameable name)
    (h : ∀ slot ∈ slots, SpellableSlot slot) :
    Leads (start ++ type ++ " " ++ signature name slots) (lexemes ++ .word type :: .word name ::
      parenthesized ((slots.map formal).map Formal.lexemes) []) := by
  have hheader := ((hstart.append_spells (spells_name htype)).append_separates
    separates_space).append (leads_signature hname h)
  simpa using hheader

/-! ## Statements -/

/-- The end of a call statement separates what is around it. -/
theorem separates_end : Separates ");" [.symbol ')', .symbol ';'] :=
  separates_of_isClosed (by decide) (by decide)

/-- A text spells a statement. -/
def SpellsStatement (text : String) (s : Statement) : Prop :=
  Spells text s.lexemes

/-- The word that gives a value back is followed by a space. -/
theorem leads_return : Leads "return " [.word "return"] :=
  leads_of_isClosed (by decide) (by decide)

/-- A body spells the statement that gives its value back. -/
theorem spells_returned {text : String} {t : Term} (h : SpellsTerm text t) :
    SpellsStatement ("return " ++ text ++ ";") (.returned t) := by
  have hline := (leads_return.append_spells h).append_separates separates_semicolon
  simpa [SpellsStatement, Statement.lexemes] using hline.spells

/-- A delegation spells a call of the full method. -/
theorem spells_forwarded {method : String} {args : List String} {ts : List Term}
    (hmethod : Nameable method) (h : List.Forall₂ SpellsTerm args ts) :
    SpellsStatement (delegate method args) (.forwarded method ts) := by
  have hargs : List.Forall₂ Spells args (ts.map Term.lexemes) := List.forall₂_map_right_iff.2 h
  have hthis := leads_return.append_spells (spells_this hmethod)
  rw [← String.append_assoc] at hthis
  exact (hthis.parenthesized hargs separates_end).spells

/-- A delegation spells a call of the full constructor. -/
theorem spells_chained {args : List String} {ts : List Term} (h : List.Forall₂ SpellsTerm args ts) :
    SpellsStatement ("this(" ++ ", ".intercalate args ++ ");") (.chained ts) := by
  have hargs : List.Forall₂ Spells args (ts.map Term.lexemes) := List.forall₂_map_right_iff.2 h
  exact ((spells_name nameable_this).parenthesized hargs separates_end).spells

/-- An assignment spells a field that is set to the parameter of its name. -/
theorem spells_assigned {name : String} (h : Nameable name) :
    SpellsStatement ("this." ++ name ++ " = " ++ name ++ ";") (.assigned name) := by
  have hequals : Separates " = " [.symbol '='] :=
    separates_of_isClosed (by decide) (by decide)
  exact ((((spells_this h).append_separates hequals).append_spells
    (spells_name h)).append_separates separates_semicolon).spells

/-! ## Members -/

/-- Lexemes of members are written. -/
def WritesMembers (write : Writer → Except Breakdown Writer) (members : List TypeMember) : Prop :=
  Writes write (members.flatMap TypeMember.lexemes)

/-- Members that are written in turn are written one after the other. -/
theorem WritesMembers.bind {write next : Writer → Except Breakdown Writer}
    {members others : List TypeMember} (hwrite : WritesMembers write members)
    (hnext : WritesMembers next others) :
    WritesMembers (fun writer => write writer >>= next) (members ++ others) := by
  rw [WritesMembers, List.flatMap_append]
  exact Writes.bind hwrite hnext

/-- A method is written with one statement. -/
theorem writes_method {modifier type name statement : String} {slots : List Slot} {s : Statement}
    (hmodifier : Nameable modifier) (htype : Nameable type) (hname : Nameable name)
    (hslots : ∀ slot ∈ slots, SpellableSlot slot) (hstatement : SpellsStatement statement s) :
    WritesMembers (fun writer => writer.blank.block
        (modifier ++ " " ++ type ++ " " ++ signature name slots) [statement])
      [.method modifier type name (slots.map formal) [s]] := by
  have hheader := leads_header (leads_name_space hmodifier) htype hname hslots
  have hwrites := Writes.block hheader.spells (.cons hstatement .nil)
  simpa [WritesMembers, TypeMember.lexemes, parenthesized] using hwrites

/-- A delegation is written as the shorter method, if there is one. -/
theorem writeDelegation_writes {modifier : String} {m : Method} {texts : MethodTexts}
    (hmodifier : Nameable modifier) (hm : SpellableMethod m)
    (h : SpellsDelegation fields m.parameters texts.delegation) :
    WritesMembers (writeDelegation modifier m texts) (shorterMethod modifier fields m) := by
  obtain ⟨body, args?⟩ := texts
  unfold SpellsDelegation at h
  unfold writeDelegation shorterMethod
  generalize delegation? fields m.parameters = ts? at h ⊢
  cases h with
  | none => exact .skip
  | some hargs =>
      exact writes_method hmodifier hm.type hm.name (required_spellable hm.parameters)
        (spells_forwarded hm.name hargs)

/-- The modifier of a method is read as a name. -/
theorem nameable_public : Nameable "public" :=
  nameable_of_isIdentifier (by decide)

/-- A method is written as the members of a class that it becomes. -/
theorem writeMethod_writes {m : Method} {texts : MethodTexts} (hm : SpellableMethod m)
    (h : SpellsMethod fields m texts) :
    WritesMembers (writeMethod · (m, texts)) (classMethod fields m) := by
  obtain ⟨hbody, hdelegation⟩ := h
  simp only [writeMethod]
  unfold classMethod
  cases hm' : m.body with
  | none =>
      rw [hm', Option.map_none] at hbody
      obtain ⟨body, args?⟩ := texts
      cases hbody
      exact .skip
  | some e =>
      have hshorter := writeDelegation_writes nameable_public hm (hdelegation (by simp [hm']))
      rw [hm', Option.map_some] at hbody
      obtain ⟨body, args?⟩ := texts
      cases hbody with
      | some hbody =>
          have hfull := writes_method nameable_public hm.type hm.name hm.parameters
            (spells_returned hbody)
          exact hfull.bind hshorter

/-- A constructor is written with its statements. -/
theorem writes_constructor {name : String} {slots : List Slot} {lines : List String}
    {body : List Statement} (hname : Nameable name) (hslots : ∀ slot ∈ slots, SpellableSlot slot)
    (hbody : List.Forall₂ SpellsStatement lines body) :
    WritesMembers (fun writer => writer.blank.block ("public " ++ signature name slots) lines)
      [.constructor name (slots.map formal) body] := by
  have hheader := leads_public.append (leads_signature hname hslots)
  have hlines : List.Forall₂ Spells lines (body.map Statement.lexemes) :=
    List.forall₂_map_right_iff.2 hbody
  have hwrites := Writes.block hheader.spells hlines
  simpa [WritesMembers, TypeMember.lexemes, parenthesized, List.flatMap_def] using hwrites

/-- The constructors are written as those of the outline. -/
theorem writeConstructors_writes {decl : Decl} {texts : DeclTexts} (hdecl : SpellableDecl decl)
    (h : SpellsDelegation [] decl.stored texts.constructor) :
    WritesMembers (writeConstructors decl texts) (constructors decl.name decl.stored) := by
  unfold writeConstructors constructors
  by_cases hstored : decl.stored.isEmpty
  · rw [if_pos hstored]
    simp only [hstored, ↓reduceIte]
    exact .skip
  · have hassigned : List.Forall₂ SpellsStatement
        (decl.stored.map fun slot => "this." ++ slot.name ++ " = " ++ slot.name ++ ";")
        (decl.stored.map fun slot => .assigned slot.name) := by
      rw [List.forall₂_map_left_iff, List.forall₂_map_right_iff, List.forall₂_same]
      exact fun slot hslot => spells_assigned (hdecl.stored slot hslot).name
    have hfull := writes_constructor hdecl.name hdecl.stored hassigned
    obtain ⟨args?, methods⟩ := texts
    unfold SpellsDelegation at h
    unfold shorterConstructor
    rw [if_neg hstored]
    simp only [hstored]
    generalize delegation? [] decl.stored = ts? at h ⊢
    cases h with
    | none => exact hfull
    | some hargs =>
        have hshorter := writes_constructor hdecl.name (required_spellable hdecl.stored)
          (.cons (spells_chained hargs) .nil)
        exact hshorter.bind hfull

/-- Methods are written in order, each with its texts. -/
theorem foldlM_writes {write : Writer → Method × MethodTexts → Except Breakdown Writer}
    {members : Method → List TypeMember} {Good : Method → MethodTexts → Prop}
    {methods : List Method}
    {texts : List MethodTexts} (hmethods : ∀ m ∈ methods, SpellableMethod m)
    (htexts : List.Forall₂ Good methods texts)
    (hwrite : ∀ m texts, SpellableMethod m → Good m texts →
      WritesMembers (write · (m, texts)) (members m)) :
    WritesMembers (fun writer => (methods.zip texts).foldlM write writer)
      (methods.flatMap members) := by
  induction htexts with
  | nil => exact .skip
  | @cons m text methods texts htext htexts ih =>
      obtain ⟨hm, hmethods⟩ := List.forall_mem_cons.1 hmethods
      exact (hwrite m text hm htext).bind (ih hmethods)

/-! ## Units -/

/-- The clause that lists interfaces stands apart from the name before it. -/
theorem spells_clause (keyword : String) {decl : Decl} (hdecl : SpellableDecl decl)
    (hkeyword : Nameable keyword) (hkind : TypeTree.clauseWord (unitKind decl) = keyword) :
    Spells (interfaceClause keyword decl)
        (TypeTree.clause (unitKind decl) (decl.interfaces.map (·.value))) ∧
      Apart (interfaceClause keyword decl).toList := by
  unfold interfaceClause
  cases hrefs : decl.interfaces with
  | nil => exact ⟨spells_empty, apart_nil⟩
  | cons ref refs =>
      have hnames : List.Forall₂ Spells (decl.interfaces.map (·.value))
          ((decl.interfaces.map (·.value)).map fun name => [Lexeme.word name]) := by
        rw [List.map_map, List.forall₂_map_left_iff, List.forall₂_map_right_iff, List.forall₂_same]
        exact fun ref href => spells_name (hdecl.interfaces ref href)
      rw [hrefs] at hnames
      have hclause := ((separates_space.leads.append_spells
        (spells_name hkeyword)).append_separates separates_space).append_spells
        (spells_intercalate hnames)
      simp only [List.isEmpty_cons, Bool.false_eq_true, ↓reduceIte]
      refine ⟨?_, ?_⟩
      · simpa [TypeTree.clause, hkind] using hclause
      · simp only [String.toList_append, List.append_assoc]
        exact apart_cons (by decide) (by decide)

/-- The header of a unit spells what stands before its members. -/
theorem spells_opening (keyword : String) {start : String} {decl : Decl}
    (hdecl : SpellableDecl decl)
    (hstart : Leads start (TypeTree.opening (unitKind decl))) (hkeyword : Nameable keyword)
    (hkind : TypeTree.clauseWord (unitKind decl) = keyword) :
    Spells (start ++ decl.name ++ interfaceClause keyword decl)
      (TypeTree.opening (unitKind decl) ++ .word decl.name ::
        TypeTree.clause (unitKind decl) (decl.interfaces.map (·.value))) := by
  obtain ⟨hclause, hapart⟩ := spells_clause keyword hdecl hkeyword hkind
  have hheader := (hstart.append_spells (spells_name hdecl.name)).append hclause hapart
  simpa using hheader

/-- What is written in a block that is closed at the end is a unit. -/
theorem leads_unit {start : Writer} {write : Writer → Except Breakdown Writer}
    {lexemes others : List Lexeme} {text : String} (hstart : start.Spelled lexemes)
    (hwrite : Writes write others)
    (h : (do
      let writer ← write start
      let writer ← writer.closeBlock
      writer.text) = .ok text) : Leads text (lexemes ++ (others ++ [.symbol '\x7d'])) := by
  obtain ⟨mid, hmid, h⟩ := exists_of_bind_eq_ok h
  obtain ⟨done, hdone, htext⟩ := exists_of_bind_eq_ok h
  have hspelled := (hwrite start mid _ hmid hstart).closeBlock hdone
  rw [List.append_assoc] at hspelled
  refine hspelled.leads ?_ htext
  unfold Writer.closeBlock at hdone
  split at hdone
  · cases hdone
  · cases hdone
    simp [Writer.line]

/-- A field spells its modifiers, its type and its name. -/
theorem spells_field {slot : Slot} (h : SpellableSlot slot) :
    Spells ("private final " ++ slot.typeName ++ " " ++ slot.name ++ ";")
      (TypeMember.field slot.typeName slot.name).lexemes := by
  have hprivate : Leads "private final " [.word "private", .word "final"] :=
    leads_of_isClosed (by decide) (by decide)
  exact ((((hprivate.append_spells (spells_name h.type)).append_separates
    separates_space).append_spells (spells_name h.name)).append_separates
    separates_semicolon).spells

/-- A signature without a body spells its type, its name and its parameters. -/
theorem spells_methodSignature {m : Method} (h : SpellableMethod m) :
    Spells (m.returnType ++ " " ++ signature m.name m.parameters ++ ";")
      (TypeMember.signature m.returnType m.name (m.parameters.map formal)).lexemes := by
  have hline := (((spells_name h.type).append_separates separates_space).append
    (leads_signature h.name h.parameters)).append separates_semicolon.leads
  simpa [TypeMember.lexemes, parenthesized] using hline.spells

/-- The text of a class spells the outline of its declaration. -/
theorem classUnit_leads {decl : Decl} {texts : DeclTexts} {text : String}
    (hkind : unitKind decl = .classType) (hdecl : SpellableDecl decl)
    (htexts : SpellsDecl decl texts) (h : classUnit decl texts = .ok text) :
    Leads text (outline decl).lexemes := by
  rw [SpellsDecl, hkind] at htexts
  obtain ⟨hconstructor, hmethods⟩ := htexts
  have hstart : Leads "public final class " (TypeTree.opening (unitKind decl)) := by
    rw [hkind]
    exact leads_of_isClosed (by decide) (by decide)
  have hheader := spells_opening "implements" hdecl hstart
    (nameable_of_isIdentifier (by decide)) (by rw [hkind]; rfl)
  have hfields : List.Forall₂ Spells
      (decl.stored.map fun slot => "private final " ++ slot.typeName ++ " " ++ slot.name ++ ";")
      (decl.stored.map fun slot => (TypeMember.field slot.typeName slot.name).lexemes) := by
    rw [List.forall₂_map_left_iff, List.forall₂_map_right_iff, List.forall₂_same]
    exact fun slot hslot => spells_field (hdecl.stored slot hslot)
  have hopen := (Writer.spelled_nil.openBlock hheader).foldl_line hfields
  have hwrite := (writeConstructors_writes hdecl hconstructor).bind
    (foldlM_writes hdecl.methods hmethods fun m texts hm h => writeMethod_writes hm h)
  unfold classUnit at h
  have hleads := leads_unit hopen hwrite (by rw [← h, bind_assoc])
  simpa [outline, unitMembers, hkind, TypeTree.lexemes, braced, List.flatMap_def,
    Function.comp_def] using hleads

/-- The text of an interface spells the outline of its declaration. -/
theorem interfaceUnit_leads {decl : Decl} {texts : DeclTexts} {text : String}
    (hkind : unitKind decl = .interfaceType) (hdecl : SpellableDecl decl)
    (htexts : SpellsDecl decl texts) (h : interfaceUnit decl texts = .ok text) :
    Leads text (outline decl).lexemes := by
  rw [SpellsDecl, hkind] at htexts
  have hstart : Leads "public interface " (TypeTree.opening (unitKind decl)) := by
    rw [hkind]
    exact leads_of_isClosed (by decide) (by decide)
  have hheader := spells_opening "extends" hdecl hstart
    (nameable_of_isIdentifier (by decide)) (by rw [hkind]; rfl)
  have hsignatures : List.Forall₂ Spells
      (decl.methods.map fun m => m.returnType ++ " " ++ signature m.name m.parameters ++ ";")
      (decl.methods.map fun m =>
        (TypeMember.signature m.returnType m.name (m.parameters.map formal)).lexemes) := by
    rw [List.forall₂_map_left_iff, List.forall₂_map_right_iff, List.forall₂_same]
    exact fun m hm => spells_methodSignature (hdecl.methods m hm)
  have hopen := (Writer.spelled_nil.openBlock hheader).foldl_line hsignatures
  have hdefault : Nameable "default" := nameable_of_isIdentifier (by decide)
  have hwrite : WritesMembers (fun writer => (decl.methods.zip texts.methods).foldlM
      (fun writer entry => writeDelegation "default" entry.1 entry.2 writer) writer)
      (decl.methods.flatMap (shorterMethod "default" [])) :=
    foldlM_writes hdecl.methods htexts fun _ _ hm h => writeDelegation_writes hdefault hm h
  have hleads := leads_unit hopen hwrite h
  simpa [outline, unitMembers, hkind, TypeTree.lexemes, braced, List.flatMap_def,
    Function.comp_def] using hleads

/-- The text of the unit of a declaration is read as the outline of the declaration. -/
theorem unitOf_reads {decl : Decl} {texts : DeclTexts} {unit : JavaUnit}
    (hdecl : SpellableDecl decl) (htexts : SpellsDecl decl texts)
    (h : unitOf decl texts = .ok unit) : Reads unit.text (outline decl) := by
  have hleads : Leads unit.text (outline decl).lexemes := by
    unfold unitOf at h
    cases hkind : unitKind decl with
    | interfaceType =>
        simp only [hkind] at h
        obtain ⟨text, htext, hunit⟩ := exists_of_bind_eq_ok h
        cases hunit
        exact interfaceUnit_leads hkind hdecl htexts htext
    | classType =>
        simp only [hkind] at h
        obtain ⟨text, htext, hunit⟩ := exists_of_bind_eq_ok h
        cases hunit
        exact classUnit_leads hkind hdecl htexts htext
  exact hleads.lexemes?_eq

/-! ## Emissions -/

/-- A declaration becomes a unit. -/
inductive Emitted (decl : Decl) (unit : JavaUnit) : Prop where
  | intro {texts : DeclTexts} (htexts : (declTexts decl).result = .ok texts)
      (hunit : unitOf (declTexts decl).node texts = .ok unit)

/-- A declaration is as spellable after its references are bound as before. -/
theorem spellableDecl_declTexts {decl : Decl} (h : ∀ t ∈ decl.terminals, t.Spellable) :
    SpellableDecl (declTexts decl).node := by
  refine spellableDecl_of_terminals ?_
  rwa [← Decl.terminals_erased, erased_declTexts, Decl.terminals_erased]

/-- A unit that is emitted is read as the outline of its declaration. -/
theorem Emitted.reads {decl : Decl} {unit : JavaUnit} (h : Emitted decl unit)
    (hdecl : ∀ t ∈ decl.terminals, t.Spellable) : Reads unit.text (outline decl) := by
  obtain ⟨htexts, hunit⟩ := h
  have herased := erased_declTexts decl
  have hspells := (spellsDecl_erased _ _).2 (declTexts_spells hdecl _ htexts)
  rw [← herased] at hspells
  have hreads :=
    unitOf_reads (spellableDecl_declTexts hdecl) ((spellsDecl_erased _ _).1 hspells) hunit
  rwa [outline_congr herased] at hreads

/-- Two relations between lists, one after the other. -/
theorem forall₂_trans {α β γ : Type} {R : α → β → Prop} {S : β → γ → Prop} {T : α → γ → Prop}
    (h : ∀ a b c, R a b → S b c → T a c) {xs : List α} {ys : List β} {zs : List γ}
    (hfirst : List.Forall₂ R xs ys) (hnext : List.Forall₂ S ys zs) : List.Forall₂ T xs zs := by
  induction hfirst generalizing zs with
  | nil =>
      cases hnext
      exact .nil
  | cons hx hxs ih =>
      cases hnext with
      | cons hy hys => exact .cons (h _ _ _ hx hy) (ih hys)

/-- Steps that all succeed give their values in order. -/
theorem forall₂_of_mapM_id {α ε : Type} {steps : List (Except ε α)} {values : List α}
    (h : steps.mapM id = .ok values) :
    List.Forall₂ (fun step value => step = .ok value) steps values := by
  induction steps generalizing values with
  | nil =>
      cases h
      exact .nil
  | cons step steps ih =>
      rw [List.mapM_cons] at h
      obtain ⟨value, hvalue, h⟩ := exists_of_bind_eq_ok h
      obtain ⟨others, hothers, h⟩ := exists_of_bind_eq_ok h
      cases h
      exact .cons hvalue (ih hothers)

/-- What an emission does with each declaration. -/
def emission (decl : Decl) : Annotated Decl (Except Breakdown JavaUnit) :=
  (declTexts decl).map id (unitOf (declTexts decl).node)

/-- An emission changes nothing of a declaration but its bindings. -/
theorem erased_emission (decl : Decl) : (emission decl).node.erased = decl.erased :=
  erased_declTexts decl

/-- If an emission gives a unit of a declaration, it is the unit that the declaration becomes. -/
theorem emission_emits (decl : Decl) :
    (emission decl).Gives fun step => ∀ unit, step = .ok unit → Emitted decl unit := by
  intro step hstep
  unfold emission Annotated.map at hstep
  cases htexts : (declTexts decl).result with
  | error problem =>
      rw [htexts] at hstep
      cases hstep
  | ok texts =>
      rw [htexts] at hstep
      cases hstep
      exact fun unit hunit => ⟨htexts, hunit⟩

/-- Every unit of an emission is that of its declaration, and the declarations that are left differ
from those that were given in their bindings only. -/
theorem emitted_of_emit {decls bound : List Decl} {units : List JavaUnit}
    (h : emit decls = .ok ⟨bound, .ok units⟩) :
    List.Forall₂ Emitted decls units ∧ bound.map Decl.erased = decls.map Decl.erased := by
  have hnode := Annotated.node_visit erased_emission decls
  have hgives := Annotated.Gives.visit fun decl (_ : decl ∈ decls) => emission_emits decl
  simp only [emit] at h
  split at h
  · cases h
  · next steps hsteps =>
      obtain ⟨values, hvalues, h⟩ := exists_of_bind_eq_ok h
      cases h
      exact ⟨forall₂_trans (fun _ _ _ hstep hunit => hstep _ hunit) (hgives steps hsteps)
        (forall₂_of_mapM_id hvalues), hnode⟩

/-- The declarations that are left are where they were. -/
theorem positions_of_emit {decls bound : List Decl} {units : List JavaUnit}
    (h : emit decls = .ok ⟨bound, .ok units⟩) :
    bound.map Decl.position = decls.map Decl.position := by
  have hnode := Annotated.node_visit (f := emission) position_declTexts decls
  simp only [emit] at h
  split at h
  · cases h
  · obtain ⟨values, hvalues, h⟩ := exists_of_bind_eq_ok h
    cases h
    exact hnode

end EoJava.Java
