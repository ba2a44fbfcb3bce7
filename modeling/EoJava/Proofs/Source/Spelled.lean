import EoJava.Proofs.Token.Rows

/-!
# Canonical sources spell their trees

What is written for a tree spells its terminals, part by part: first the texts within a row, then
the rows of members and declarations. So the canonical source of declarations is read as the
terminals of these (`source_written`).
-/

namespace EoJava

open Grammar (Terminal commaSeparated)
open Lexing (Apart apart_nil apart_cons)
open Scan (Spells spells_nil openAfter Lays)

/-! ## Lists -/

namespace Scan.Spells

variable {text : List Char} {ts : List Terminal}

theorem colon : Spells [':'] [.mark .colon] :=
  spells_nil.mark (m := .colon) (by decide) fun _ => apart_nil

theorem comma (h : Spells text ts) : Spells (',' :: text) (.mark .comma :: ts) :=
  h.mark (m := .comma) (by decide) fun h => by cases h

theorem leftParen (h : Spells text ts) : Spells ('(' :: text) (.mark .leftParen :: ts) :=
  h.mark (m := .leftParen) (by decide) fun h => by cases h

theorem rightParen (h : Spells text ts) : Spells (')' :: text) (.mark .rightParen :: ts) :=
  h.mark (m := .rightParen) (by decide) fun h => by cases h

theorem atSign (h : Spells text ts) : Spells ('@' :: text) (.mark .atSign :: ts) :=
  h.mark (m := .atSign) (by decide) fun h => by cases h

/-- A name stands before a space. -/
theorem name_space {name : String} (h : Spells text ts) (hname : (Terminal.name name).Legible) :
    Spells (name.toList ++ ' ' :: text) (.name name :: ts) :=
  h.space.name hname (apart_cons (by decide))

/-- A keyword stands before a space. -/
theorem keyword_space {m : Mark} (h : Spells text ts) (hm : m ∈ Mark.keywords) :
    Spells (m.text.toList ++ ' ' :: text) (.mark m :: ts) :=
  h.space.keyword hm (apart_cons (by decide))

/-- A name stands before a parenthesis. -/
theorem name_leftParen {name : String} (h : Spells text ts)
    (hname : (Terminal.name name).Legible) :
    Spells (name.toList ++ '(' :: text) (.name name :: .mark .leftParen :: ts) :=
  h.leftParen.name hname (apart_cons (by decide))

/-- A text stands before the last parenthesis of a list. -/
theorem append_rightParen (h : Spells text ts) :
    Spells (text ++ [')']) (ts ++ [.mark .rightParen]) :=
  h.append spells_nil.rightParen (apart_cons (by decide))

/-- A text stands before the colon at the end of its row. -/
theorem append_colon (h : Spells text ts) : Spells (text ++ [':']) (ts ++ [.mark .colon]) :=
  h.append .colon (apart_cons (by decide))

end Scan.Spells

namespace Written

/-- What follows the first of some items stands apart from it. -/
theorem apart_others (others : List (List Char)) :
    Apart (others.flatMap fun item => ',' :: ' ' :: item) := by
  cases others with
  | nil => exact apart_nil
  | cons item others => exact apart_cons (by decide)

/-- Items with a comma and a space before each are read as the items with a comma before each. -/
theorem spells_others {texts : List (List Char)} {tss : List (List Terminal)}
    (h : List.Forall₂ Spells texts tss) :
    Spells (texts.flatMap fun item => ',' :: ' ' :: item) (tss.flatMap (.mark .comma :: ·)) := by
  induction h with
  | nil => exact spells_nil
  | cons hfirst hothers ih => exact (hfirst.append ih (apart_others _)).space.comma

/-- A list of texts spells a list of what they spell. -/
theorem spells_listed {texts : List (List Char)} {tss : List (List Terminal)}
    (h : List.Forall₂ Spells texts tss) : Spells (listed texts) (commaSeparated tss) := by
  cases h with
  | nil => exact spells_nil
  | cons hfirst hothers => exact hfirst.append (spells_others hothers) (apart_others _)

/-- A list has the terminals of its items. -/
theorem mem_commaSeparated {tss : List (List Terminal)} {ts : List Terminal} {t : Terminal}
    (hts : ts ∈ tss) (ht : t ∈ ts) : t ∈ commaSeparated tss := by
  cases tss with
  | nil => cases hts
  | cons first others =>
      rw [commaSeparated, List.mem_append]
      rcases List.mem_cons.1 hts with rfl | hts
      · exact .inl ht
      · exact .inr (List.mem_flatMap.2 ⟨ts, hts, List.mem_cons_of_mem _ ht⟩)

/-- Parts that close the parentheses that they open do so together. -/
theorem openAfter_flatMap {α : Type} {f : α → List Terminal} {parts : List α}
    (h : ∀ part ∈ parts, ∀ depth, openAfter depth (f part) = depth) (depth : Nat) :
    openAfter depth (parts.flatMap f) = depth := by
  induction parts with
  | nil => rfl
  | cons part parts ih =>
      obtain ⟨hpart, hparts⟩ := List.forall_mem_cons.1 h
      rw [List.flatMap_cons, Scan.openAfter_append, hpart, ih hparts]

/-- Items that close the parentheses that they open do so in a list. -/
theorem openAfter_commaSeparated {tss : List (List Terminal)}
    (h : ∀ ts ∈ tss, ∀ depth, openAfter depth ts = depth) (depth : Nat) :
    openAfter depth (commaSeparated tss) = depth := by
  cases tss with
  | nil => rfl
  | cons ts others =>
      obtain ⟨hts, hothers⟩ := List.forall_mem_cons.1 h
      rw [commaSeparated, Scan.openAfter_append, hts]
      refine openAfter_flatMap (fun ts hts depth => ?_) depth
      rw [Scan.openAfter_cons]
      exact hothers ts hts depth

end Written

/-! ## Expressions -/

/-- An identifier starts with a visible character. -/
theorem startsVisible_name {name : String} (h : (Terminal.name name).Legible) :
    Text.StartsVisible name.toList := by
  obtain ⟨c, cs, hname, hc, -⟩ := Grammar.isIdentifier_iff.1 h
  have hplain := Text.isPlain_of_isNamePart (Grammar.isNamePart_of_isNameStart hc)
  exact ⟨c, cs, hname, hplain.isVisible⟩

/-- An identifier spells its name. -/
theorem spells_name {name : String} (h : (Terminal.name name).Legible) :
    Spells name.toList [.name name] := by
  rw [← List.append_nil name.toList]
  exact spells_nil.name h apart_nil

/-- A written literal is read as its terminal. -/
theorem Literal.spells (value : Literal) (h : value.terminal.Legible) :
    Spells value.written [value.terminal] := by
  rw [← List.append_nil value.written]
  cases value with
  | string value => exact spells_nil.string value
  | number text => exact spells_nil.number h apart_nil
  | boolean value =>
      cases value with
      | true => exact spells_nil.keyword (by decide) apart_nil
      | false => exact spells_nil.keyword (by decide) apart_nil

/-- A written literal starts with a visible character. -/
theorem Literal.startsVisible (value : Literal) (h : value.terminal.Legible) :
    Text.StartsVisible value.written := by
  cases value with
  | string value => exact ⟨_, _, rfl, by decide⟩
  | number text =>
      obtain ⟨c, cs, htext, -⟩ := Text.Numeral.exists_cons_of_isNumeral h
      refine ⟨c, cs, htext, (Text.isPlain_of_mem_numeral h c ?_).isVisible⟩
      simp [htext]
  | boolean value => cases value <;> exact ⟨_, _, rfl, by decide⟩

namespace Expr

mutual

/-- The source of an expression spells its terminals. -/
theorem spells (e : Expr) (h : ∀ t ∈ e.terminals, t.Legible) : Spells e.written e.terminals := by
  cases e with
  | literal position value => exact value.spells (h _ (by simp [terminals]))
  | reference position name binding => exact spells_name (h _ (by simp [terminals]))
  | call position name args =>
      have hname := h (.name name) (by simp [terminals])
      have hargs : ∀ ts ∈ argumentTerminals args, ∀ t ∈ ts, t.Legible := by
        intro ts hts t ht
        have hmem := Written.mem_commaSeparated hts ht
        exact h t (by simp_all [terminals])
      have hlist := Written.spells_listed (spells_arguments args hargs)
      exact hlist.append_rightParen.name_leftParen hname

/-- The source of each argument spells its terminals. -/
theorem spells_arguments (args : List Expr)
    (h : ∀ ts ∈ argumentTerminals args, ∀ t ∈ ts, t.Legible) :
    List.Forall₂ Spells (argumentsWritten args) (argumentTerminals args) := by
  cases args with
  | nil => exact .nil
  | cons arg args =>
      obtain ⟨harg, hargs⟩ := List.forall_mem_cons.1 h
      exact .cons (arg.spells harg) (spells_arguments args hargs)

end

mutual

/-- An expression closes the parentheses that it opens. -/
@[simp]
theorem openAfter_terminals (e : Expr) (depth : Nat) : openAfter depth e.terminals = depth := by
  cases e with
  | literal position value =>
      cases value with
      | string value | number text => rfl
      | boolean value => cases value <;> rfl
  | reference position name binding => rfl
  | call position name args =>
      have hargs := Written.openAfter_commaSeparated (openAfter_arguments args) (depth + 1)
      rw [terminals, Scan.openAfter_cons, Scan.openAfter_cons, Scan.openAfter_append]
      exact congrArg (openAfter · [.mark .rightParen]) hargs

/-- All parentheses of an argument are closed in it. -/
theorem openAfter_arguments (args : List Expr) :
    ∀ ts ∈ argumentTerminals args, ∀ depth, openAfter depth ts = depth := by
  cases args with
  | nil => exact fun _ h => absurd h List.not_mem_nil
  | cons arg args =>
      exact List.forall_mem_cons.2 ⟨arg.openAfter_terminals, openAfter_arguments args⟩

end

/-- A written expression starts with a visible character. -/
theorem startsVisible (e : Expr) (h : ∀ t ∈ e.terminals, t.Legible) :
    Text.StartsVisible e.written := by
  cases e with
  | literal position value => exact value.startsVisible (h _ (by simp [terminals]))
  | reference position name binding => exact startsVisible_name (h _ (by simp [terminals]))
  | call position name args =>
      exact (startsVisible_name (h (.name name) (by simp [terminals]))).append _

end Expr

/-! ## Slots and methods -/

namespace Slot

variable {slot : Slot} {announced : Mark}

/-- A written default stands apart from the name before it. -/
theorem apart_default (slot : Slot) (announced : Mark) : Apart (slot.defaultWritten announced) := by
  unfold defaultWritten
  split
  · exact apart_nil
  · exact apart_cons (by decide)

/-- The source of a default spells its terminals, whether `:=` or `=` announces it. -/
theorem spells_default (hannounced : announced = .assign ∨ announced = .equals)
    (h : ∀ t ∈ slot.defaultTerminals announced, t.Legible) :
    Spells (slot.defaultWritten announced) (slot.defaultTerminals announced) := by
  unfold defaultWritten
  unfold defaultTerminals at h ⊢
  cases hdefault : slot.default? with
  | none => exact spells_nil
  | some e =>
      rw [hdefault] at h
      have he := e.spells fun t ht => h t (List.mem_cons_of_mem _ ht)
      rcases hannounced with rfl | rfl
      · exact (he.space.mark (m := .assign) (by decide) fun h => by cases h).space
      · exact (he.space.mark (m := .equals) (by decide) fun h => by cases h).space

/-- All parentheses of a default are closed in it. -/
theorem openAfter_default (hannounced : announced = .assign ∨ announced = .equals)
    (slot : Slot) (depth : Nat) : openAfter depth (slot.defaultTerminals announced) = depth := by
  unfold defaultTerminals
  cases slot.default? with
  | none => rfl
  | some e => rcases hannounced with rfl | rfl <;> exact e.openAfter_terminals depth

/-- The source of a parameter spells its terminals. -/
theorem spells (h : ∀ t ∈ slot.terminals, t.Legible) : Spells slot.written slot.terminals := by
  have hdefault : Spells (slot.defaultWritten .equals) (slot.defaultTerminals .equals) :=
    spells_default (.inr rfl) fun t ht => h t (by simp [terminals, ht])
  have hname := hdefault.name (h (.name slot.name) (by simp [terminals])) (slot.apart_default _)
  exact hname.name_space (h (.name slot.typeName) (by simp [terminals]))

/-- All parentheses of a slot are closed in it. -/
theorem openAfter_terminals (slot : Slot) (depth : Nat) : openAfter depth slot.terminals = depth :=
  openAfter_default (.inr rfl) slot depth

end Slot

namespace Method

/-- The terminals of a method up to its last parenthesis. -/
def headerTerminals (m : Method) : List Terminal :=
  .name m.returnType :: .name m.name :: .mark .leftParen ::
    (commaSeparated (m.parameters.map Slot.terminals) ++ [.mark .rightParen])

/-- A method is its header and what comes after it. -/
theorem terminals_eq (m : Method) : m.terminals = m.headerTerminals ++ tailTerminals m.body := by
  simp [terminals, headerTerminals]

variable {m : Method}

/-- A written header is read as the terminals of the header. -/
theorem spells_header (h : ∀ t ∈ m.headerTerminals, t.Legible) :
    Spells m.header m.headerTerminals := by
  have hparameters : List.Forall₂ Spells (m.parameters.map Slot.written)
      (m.parameters.map Slot.terminals) := by
    rw [List.forall₂_map_left_iff, List.forall₂_map_right_iff, List.forall₂_same]
    intro slot hslot
    refine slot.spells fun t ht => h t ?_
    have hmem := Written.mem_commaSeparated (List.mem_map_of_mem hslot) ht
    simp [headerTerminals, hmem]
  have hlist := (Written.spells_listed hparameters).append_rightParen
  have hname := hlist.name_leftParen (h (.name m.name) (by simp [headerTerminals]))
  exact hname.name_space (h (.name m.returnType) (by simp [headerTerminals]))

/-- All parentheses of a header are closed in it. -/
theorem openAfter_header (m : Method) (depth : Nat) :
    openAfter depth m.headerTerminals = depth := by
  have hslots : ∀ ts ∈ m.parameters.map Slot.terminals, ∀ depth, openAfter depth ts = depth :=
    List.forall_mem_map.2 fun slot _ => slot.openAfter_terminals
  have hparameters := Written.openAfter_commaSeparated hslots (depth + 1)
  rw [headerTerminals, Scan.openAfter_cons, Scan.openAfter_cons, Scan.openAfter_cons,
    Scan.openAfter_append]
  exact congrArg (openAfter · [.mark .rightParen]) hparameters

/-- A method closes the parentheses that it opens. -/
theorem openAfter_terminals (m : Method) (depth : Nat) : openAfter depth m.terminals = depth := by
  rw [terminals_eq, Scan.openAfter_append, openAfter_header]
  cases m.body with
  | none => rfl
  | some e =>
      have hbody : openAfter depth (tailTerminals (some e)) =
          openAfter (openAfter depth e.terminals) [.newline, .dedent] := Scan.openAfter_append ..
      rw [hbody, e.openAfter_terminals]
      rfl

end Method

/-- All parentheses of a member are closed in it. -/
theorem Member.openAfter_terminals (m : Member) (depth : Nat) :
    openAfter depth m.terminals = depth := by
  rcases m with ⟨_ | _, slot⟩ | m
  · rfl
  · have hslot : openAfter depth (terminals (.attribute true slot)) =
        openAfter (openAfter depth (slot.defaultTerminals .assign)) [.newline] :=
      Scan.openAfter_append ..
    rw [hslot, slot.openAfter_default (.inl rfl)]
    rfl
  · exact m.openAfter_terminals depth

/-! ## Rows -/

section

variable {more : List Row} {us : List Terminal}

/-- A row of the innermost block comes before rows that are laid out. -/
theorem Row.Holds.lays {level : Nat} {content : List Char} {ts : List Terminal}
    (h : Row.Holds ⟨level, content⟩ ts) (hmore : Lays level more us) :
    Lays level (⟨level, content⟩ :: more) (ts ++ .newline :: us) :=
  .row h hmore

/-- The rows of a method are laid out as its terminals. Its body closes at what comes after it. -/
theorem Method.lays {m : Method} (h : ∀ t ∈ m.terminals, t.Legible)
    (hhead : ∀ row ∈ more.head?, row.level ≤ 1) (hmore : Lays 1 more us) :
    Lays 1 (m.rows ++ more) (m.terminals ++ us) := by
  rw [terminals_eq] at h ⊢
  obtain ⟨hheader, htail⟩ := List.forall_mem_append.1 h
  have hspells := spells_header hheader
  have hvisible : Text.StartsVisible m.header :=
    (startsVisible_name (hheader (.name m.returnType) (by simp [headerTerminals]))).append _
  unfold rows
  unfold tailTerminals at htail ⊢
  cases hbody : m.body with
  | none =>
      have hrow : Row.Holds ⟨1, m.header⟩ m.headerTerminals :=
        ⟨hspells, hvisible, m.openAfter_header 0⟩
      simpa using hrow.lays hmore
  | some e =>
      have he : ∀ t ∈ e.terminals, t.Legible := fun t ht => htail t (by simp [hbody, ht])
      have hrow : Row.Holds ⟨1, m.header ++ [':']⟩ (m.headerTerminals ++ [.mark .colon]) :=
        ⟨hspells.append_colon, hvisible.append _, by
          rw [Scan.openAfter_append, m.openAfter_header]
          rfl⟩
      have hbody : Row.Holds ⟨2, e.written⟩ e.terminals :=
        ⟨e.spells he, e.startsVisible he, e.openAfter_terminals 0⟩
      have hlays := hrow.lays (.indent rfl (hbody.lays (.dedent hhead hmore)))
      simpa using hlays

/-- The rows of a member are laid out as its terminals. -/
theorem Member.lays {m : Member} (h : ∀ t ∈ m.terminals, t.Legible)
    (hhead : ∀ row ∈ more.head?, row.level ≤ 1) (hmore : Lays 1 more us) :
    Lays 1 (m.rows ++ more) (m.terminals ++ us) := by
  rcases m with ⟨_ | _, slot⟩ | m
  · have htype := h (.name slot.typeName) (by simp [terminals])
    have hname := spells_name (h (.name slot.name) (by simp [terminals]))
    have hrow : Row.Holds ⟨1, slot.typeName.toList ++ ' ' :: slot.name.toList⟩
        [.name slot.typeName, .name slot.name] :=
      ⟨hname.name_space htype, (startsVisible_name htype).append _, rfl⟩
    exact hrow.lays hmore
  · have htype := h (.name slot.typeName) (by simp [terminals])
    have hdefault : Spells (slot.defaultWritten .assign) (slot.defaultTerminals .assign) :=
      Slot.spells_default (.inl rfl) fun t ht => h t (by simp [terminals, ht])
    have hname := hdefault.name (h (.name slot.name) (by simp [terminals])) (slot.apart_default _)
    have hrow : Row.Holds
        ⟨1, slot.typeName.toList ++ ' ' :: '@' :: (slot.name.toList ++ slot.defaultWritten .assign)⟩
        (.name slot.typeName :: .mark .atSign :: .name slot.name ::
          slot.defaultTerminals .assign) :=
      ⟨hname.atSign.name_space htype, (startsVisible_name htype).append _,
        Slot.openAfter_default (.inl rfl) slot 0⟩
    have hlays := hrow.lays hmore
    rw [List.cons_append, List.cons_append, List.cons_append] at hlays
    simpa [terminals, rows] using hlays
  · exact m.lays h hhead hmore

/-- The first row of a member is in the block of its declaration. -/
theorem Member.exists_rows (m : Member) : ∃ row rows, m.rows = row :: rows ∧ row.level = 1 := by
  rcases m with ⟨_ | _, slot⟩ | m
  · exact ⟨_, _, rfl, rfl⟩
  · exact ⟨_, _, rfl, rfl⟩
  · rw [rows, Method.rows]
    cases m.body <;> exact ⟨_, _, rfl, rfl⟩

/-- The rows of members are laid out as their terminals. -/
theorem Member.lays_all {members : List Member} (h : ∀ m ∈ members, ∀ t ∈ m.terminals, t.Legible)
    (hhead : ∀ row ∈ more.head?, row.level ≤ 1) (hmore : Lays 1 more us) :
    Lays 1 (members.flatMap Member.rows ++ more) (members.flatMap Member.terminals ++ us) := by
  induction members with
  | nil => exact hmore
  | cons m members ih =>
      obtain ⟨hm, hmembers⟩ := List.forall_mem_cons.1 h
      rw [List.flatMap_cons, List.flatMap_cons, List.append_assoc, List.append_assoc]
      refine m.lays hm ?_ (ih hmembers)
      -- After a member comes the first row of the next one, or what comes after all of them.
      cases members with
      | nil => exact hhead
      | cons next members =>
          obtain ⟨row, rows, hrows, hlevel⟩ := next.exists_rows
          rw [List.flatMap_cons, hrows]
          rintro _ ⟨⟩
          exact hlevel.le

end

/-! ## Declarations -/

namespace Decl

/-- A written list of interfaces is read as its terminals. -/
theorem spells_interfaces {refs : List (Located String)}
    (h : ∀ t ∈ interfaceTerminals refs, t.Legible) :
    Spells (interfacesWritten refs) (interfaceTerminals refs) := by
  cases refs with
  | nil => exact spells_nil
  | cons ref refs =>
      have hnames : List.Forall₂ Spells ((ref :: refs).map (·.value.toList))
          ((ref :: refs).map fun ref => [Terminal.name ref.value]) := by
        rw [List.forall₂_map_left_iff, List.forall₂_map_right_iff, List.forall₂_same]
        intro other hother
        refine spells_name (h _ (List.mem_cons_of_mem _ ?_))
        exact Written.mem_commaSeparated (List.mem_map_of_mem hother) (by simp)
      exact ((Written.spells_listed hnames).keyword_space (m := .asWord) (by decide)).space

/-- A written list of interfaces stands apart from the name before it. -/
theorem apart_interfaces (refs : List (Located String)) : Apart (interfacesWritten refs) := by
  cases refs with
  | nil => exact apart_nil
  | cons ref refs => exact apart_cons (by decide)

/-- A list of interfaces opens no parenthesis. -/
theorem openAfter_interfaces (refs : List (Located String)) (depth : Nat) :
    openAfter depth (interfaceTerminals refs) = depth := by
  cases refs with
  | nil => rfl
  | cons ref refs =>
      refine Written.openAfter_commaSeparated (fun ts hts depth => ?_) depth
      obtain ⟨ref, -, rfl⟩ := List.mem_map.1 hts
      rfl

/-- A declaration closes the parentheses that it opens. -/
theorem openAfter_terminals (decl : Decl) (depth : Nat) :
    openAfter depth decl.terminals = depth := by
  have hmembers := Written.openAfter_flatMap
    (fun (m : Member) (_ : m ∈ decl.members) depth => m.openAfter_terminals depth) depth
  calc openAfter depth decl.terminals
    _ = openAfter (openAfter depth (interfaceTerminals decl.interfaces))
        (decl.members.flatMap Member.terminals ++ [.dedent]) := Scan.openAfter_append ..
    _ = openAfter (openAfter depth (decl.members.flatMap Member.terminals)) [.dedent] := by
      rw [openAfter_interfaces, Scan.openAfter_append]
    _ = depth := by
      rw [hmembers]
      rfl

/-- Declarations close the parentheses that they open. -/
theorem openAfter_all (decls : List Decl) (depth : Nat) :
    openAfter depth (decls.flatMap terminals) = depth :=
  Written.openAfter_flatMap (fun decl _ => decl.openAfter_terminals) depth

variable {decl : Decl}

/-- The first row of a declaration holds its terminals up to the colon. -/
theorem holds_header (h : ∀ t ∈ decl.terminals, t.Legible) :
    Row.Holds ⟨0, decl.header⟩ (.mark .objectWord :: .name decl.name ::
      (interfaceTerminals decl.interfaces ++ [.mark .colon])) := by
  have hinterfaces :
      Spells (interfacesWritten decl.interfaces) (interfaceTerminals decl.interfaces) :=
    spells_interfaces fun t ht => h t (by simp [terminals, ht])
  have hname := hinterfaces.append_colon.name (h (.name decl.name) (by simp [terminals]))
    ((apart_interfaces _).append (apart_cons (by decide)))
  refine ⟨hname.keyword_space (m := .objectWord) (by decide), ?_, ?_⟩
  · exact ⟨_, _, rfl, by decide⟩
  · rw [Scan.openAfter_cons, Scan.openAfter_cons, Scan.openAfter_append]
    exact congrArg (openAfter · [.mark .colon]) (openAfter_interfaces _ 0)

/-- The rows of a declaration with a member are laid out as its terminals. -/
theorem lays {more : List Row} {us : List Terminal} (h : ∀ t ∈ decl.terminals, t.Legible)
    (hmembers : decl.members ≠ []) (hhead : ∀ row ∈ more.head?, row.level = 0)
    (hmore : Lays 0 more us) : Lays 0 (decl.rows ++ more) (decl.terminals ++ us) := by
  have hinner : Lays 1 (decl.members.flatMap Member.rows ++ more)
      (decl.members.flatMap Member.terminals ++ .dedent :: us) := by
    refine Member.lays_all (fun m hm t ht => h t ?_) (fun row hrow => ?_)
      (.dedent (fun row hrow => (hhead row hrow).le) hmore)
    · have hmem := List.mem_flatMap.2 ⟨m, hm, ht⟩
      simp [terminals, hmem]
    · exact (hhead row hrow).le.trans (Nat.zero_le 1)
  -- The block opens before the first row of the first member.
  have hbody : Lays 0 (decl.members.flatMap Member.rows ++ more)
      (.indent :: (decl.members.flatMap Member.terminals ++ .dedent :: us)) := by
    obtain ⟨m, members, hcons⟩ := List.exists_cons_of_ne_nil hmembers
    obtain ⟨row, rows, hrows, hlevel⟩ := m.exists_rows
    rw [hcons, List.flatMap_cons, hrows] at hinner ⊢
    exact .indent hlevel hinner
  simpa [rows, terminals] using (holds_header h).lays hbody

/-- The canonical source of declarations is laid out as their terminals. -/
theorem lays_all {decls : List Decl} (h : ∀ decl ∈ decls, ∀ t ∈ decl.terminals, t.Legible)
    (hmembers : ∀ decl ∈ decls, decl.members ≠ []) :
    Lays 0 (decls.flatMap rows) (decls.flatMap terminals) := by
  induction decls with
  | nil => exact .nil
  | cons decl decls ih =>
      obtain ⟨hdecl, hdecls⟩ := List.forall_mem_cons.1 h
      obtain ⟨hmember, hmembers⟩ := List.forall_mem_cons.1 hmembers
      rw [List.flatMap_cons, List.flatMap_cons]
      refine lays hdecl hmember ?_ (ih hdecls hmembers)
      cases decls with
      | nil => exact fun _ h => by cases h
      | cons next decls =>
          rintro _ ⟨⟩
          rfl

/-- The canonical source of declarations is read as their terminals. -/
theorem source_written {decls : List Decl} (h : ∀ decl ∈ decls, ∀ t ∈ decl.terminals, t.Legible)
    (hmembers : ∀ decl ∈ decls, decl.members ≠ []) :
    ∃ met, met.map (·.value.terminal) = programTerminals decls ∧
      Scan.source (written decls).toList = ⟨met, .ok ()⟩ := by
  obtain ⟨met, hmet, hsource⟩ := Scan.source_of_lays (lays_all h hmembers)
  refine ⟨met, hmet, ?_⟩
  rw [written, String.toList_ofList]
  exact hsource

end Decl

end EoJava
