import EoJava.Proofs.Java.Laid
import EoJava.Proofs.Java.Units

/-!
# Formatted units

What is written of a declaration opens and closes its blocks where the lines show it
(`Writer.Lays`), so the text of its unit is formatted (`Emitted.formatted`). The strings of the
declaration stand in statements, whose ends do not depend on them.
-/

namespace EoJava.Java

open Writer (indentation)

/-! ## Texts -/

/-- A text ends with one line feed, has no carriage return, and its lines are laid out. -/
structure Formatted (text : String) : Prop where
  noReturn : '\r' ∉ text.toList
  ending : ∃ body, text.toList = body ++ ['\n'] ∧ body.getLast? ≠ some '\n' ∧
    LaidOut ((Text.splitLines body).map String.ofList)

theorem Printed.not_mem {text : String} (h : Printed text) {c : Char} (hc : c.toNat < 0x20) :
    c ∉ text.toList :=
  fun hmem => absurd (h c hmem) (Nat.not_le_of_lt hc)

/-- When the last block is closed, the text is complete. -/
theorem Rows.formatted {lines : List String} (h : Rows lines 1) :
    Formatted ("\n".intercalate (lines ++ [indentation 0 ++ "\x7d"]) ++ "\n") := by
  have hprinted := printed_concat h.printed (visible_brace.printed_line 0)
  have hsplit := Text.splitLines_intercalate (by simp) fun line hline =>
    (hprinted line hline).not_mem (c := '\n') (by decide)
  refine ⟨?_, ("\n".intercalate (lines ++ [indentation 0 ++ "\x7d"])).toList,
    String.toList_append, ?_, ?_⟩
  · have hreturn : ∀ c ∈ ("\n".intercalate (lines ++ [indentation 0 ++ "\x7d"])).toList,
        c ≠ '\r' :=
      Text.forall_mem_intercalate (by simp) fun line hline =>
        List.forall_mem_ne'.2 ((hprinted line hline).not_mem (by decide))
    rw [String.toList_append]
    exact fun hmem => (List.mem_append.1 hmem).elim (fun h => hreturn _ h rfl) (by decide)
  · rw [String.intercalate_append_of_ne_nil h.aligned.ne_nil (List.cons_ne_nil _ _),
      String.intercalate_singleton, ← String.append_assoc, String.toList_append,
      List.getLast?_append_of_ne_nil _ (by decide)]
    decide
  · rw [hsplit, List.map_map]
    simpa [Function.comp_def] using h.laidOut

/-! ## What stands in a line -/

/-- What ends with a semicolon makes a statement of what stands before it. -/
theorem Visible.statement {text more : String} (h : Visible text) (hmore : Printed more)
    (hends : more.toList.getLast? = some ';') : IsStatement (text ++ more) := by
  refine ⟨h.append hmore, ?_⟩
  rw [String.toList_append, List.getLast?_append_of_ne_nil, hends]
  rintro hnil
  simp [hnil] at hends

theorem Nameable.visible {name : String} (h : Nameable name) : Visible name := by
  have hprinted := h.printed
  obtain ⟨c, rest, htext, hc, -⟩ := h
  refine ⟨⟨c, rest, htext, ?_⟩, hprinted⟩
  rintro rfl
  exact absurd hc (by decide)

theorem printed_signature {name : String} {slots : List Slot} (hname : Nameable name)
    (h : ∀ slot ∈ slots, SpellableSlot slot) : Printed (signature name slots) := by
  have hformals : Printed (formals slots) := by
    refine printed_intercalate (by decide) (List.forall_mem_map.2 fun slot hslot => ?_)
    have hspellable := h slot hslot
    simp only [printed_append]
    exact ⟨⟨⟨by decide, hspellable.type.printed⟩, by decide⟩, hspellable.name.printed⟩
  simp only [signature, printed_append]
  exact ⟨⟨⟨hname.printed, by decide⟩, hformals⟩, by decide⟩

theorem statement_field {slot : Slot} (h : SpellableSlot slot) :
    IsStatement ("private final " ++ slot.typeName ++ " " ++ slot.name ++ ";") := by
  have hprivate : Visible "private final " := by decide
  exact (((hprivate.append h.type.printed).append (by decide)).append h.name.printed).statement
    (by decide) rfl

theorem statement_signature {m : Method} (h : SpellableMethod m) :
    IsStatement (m.returnType ++ " " ++ signature m.name m.parameters ++ ";") :=
  ((h.type.visible.append (by decide)).append (printed_signature h.name h.parameters)).statement
    (by decide) rfl

theorem statement_assigned {slot : Slot} (h : SpellableSlot slot) :
    IsStatement ("this." ++ slot.name ++ " = " ++ slot.name ++ ";") := by
  have hthis : Visible "this." := by decide
  exact (((hthis.append h.name.printed).append (by decide)).append h.name.printed).statement
    (by decide) rfl

theorem statement_returned {text : String} (h : Printed text) :
    IsStatement ("return " ++ text ++ ";") := by
  have hreturn : Visible "return " := by decide
  exact (hreturn.append h).statement (by decide) rfl

theorem statement_delegate {name : String} (hname : Nameable name) {args : List String}
    (h : ∀ arg ∈ args, Printed arg) : IsStatement (delegate name args) := by
  have hthis : Visible "return this." := by decide
  exact (((hthis.append hname.printed).append (by decide)).append (printed_arguments h)).statement
    (by decide) rfl

theorem statement_chained {args : List String} (h : ∀ arg ∈ args, Printed arg) :
    IsStatement ("this(" ++ ", ".intercalate args ++ ");") := by
  have hthis : Visible "this(" := by decide
  exact (hthis.append (printed_arguments h)).statement (by decide) rfl

/-- The clause that lists the interfaces of a declaration is printed. -/
theorem printed_interfaceClause {keyword : String} (hkeyword : Printed keyword) {decl : Decl}
    (h : SpellableDecl decl) : Printed (interfaceClause keyword decl) := by
  have hrefs : Printed (", ".intercalate (decl.interfaces.map (·.value))) :=
    printed_arguments (List.forall_mem_map.2 fun ref href => (h.interfaces ref href).printed)
  unfold interfaceClause
  split
  · decide
  · simp only [printed_append]
    exact ⟨⟨⟨by decide, hkeyword⟩, by decide⟩, hrefs⟩

/-! ## Writing -/

/-- Statements are added to the block that is open. -/
theorem Rows.statements {lines : List String} {depth : Nat} (h : Rows lines depth)
    {body : List String} (hbody : ∀ text ∈ body, IsStatement text) :
    Rows (lines ++ body.map (indentation depth ++ ·)) depth := by
  induction body generalizing lines with
  | nil => simpa using h
  | cons text body ih =>
      obtain ⟨htext, hbody⟩ := List.forall_mem_cons.1 hbody
      simpa using ih (h.statement htext) hbody

namespace Writer

/-- What is written so far are lines of a unit, in as many blocks as are open. -/
def Laid (writer : Writer) : Prop :=
  Rows writer.lines writer.depth

/-- A way of writing goes on with the lines of a unit, in the same block. -/
def Lays (write : Writer → Except Breakdown Writer) : Prop :=
  ∀ writer after, write writer = .ok after → writer.Laid →
    after.Laid ∧ after.depth = writer.depth

/-- A header after a blank line, unless no blank line may stand there, is that of a block. -/
theorem Laid.header_blank {writer : Writer} (h : writer.Laid) {header : String}
    (hheader : Visible header) :
    Rows (writer.blank.lines ++ [indentation writer.depth ++ (header ++ " \x7b")])
      (writer.depth + 1) := by
  unfold blank
  cases hlast : writer.lines.getLast? with
  | none => exact .header h hheader
  | some last =>
      by_cases hnone : last = "" || last.toList.getLast? == some '\x7b'
      · -- Where no blank line is written, a header may follow any line.
        simp only [hnone, ↓reduceIte]
        exact .header h hheader
      · simp only [hnone]
        refine .member h (fun found hfound => ?_) hheader
        cases hlast.symm.trans hfound
        refine Bool.eq_false_iff.2 fun hopens => hnone ?_
        simp [getLast?_of_opens hopens]

namespace Lays

variable {write next : Writer → Except Breakdown Writer}

/-- Nothing is written. -/
theorem skip : Lays Except.ok := by
  rintro writer _ ⟨⟩ h
  exact ⟨h, rfl⟩

/-- One part is written after another. -/
theorem bind (hwrite : Lays write) (hnext : Lays next) :
    Lays fun writer => write writer >>= next := by
  intro writer after hafter h
  obtain ⟨mid, hmid, hlater⟩ := exists_of_bind_eq_ok hafter
  obtain ⟨hlaid, hdepth⟩ := hwrite writer mid hmid h
  obtain ⟨hlaid', hdepth'⟩ := hnext mid after hlater hlaid
  exact ⟨hlaid', hdepth'.trans hdepth⟩

/-- A block of statements is written after a blank line. -/
theorem block {header : String} {body : List String} (hheader : Visible header)
    (hbody : ∀ text ∈ body, IsStatement text) :
    Lays fun writer => writer.blank.block header body := by
  intro writer after hafter h
  simp only [block_eq, depth_blank] at hafter
  cases hafter
  exact ⟨.closing ((h.header_blank hheader).statements hbody) h.aligned.pos, rfl⟩

/-- Parts are written in order. -/
theorem foldlM {α : Type} {write : Writer → α → Except Breakdown Writer} {parts : List α}
    (h : ∀ part ∈ parts, Lays (write · part)) :
    Lays fun writer => parts.foldlM write writer := by
  induction parts with
  | nil => exact skip
  | cons part parts ih =>
      obtain ⟨hpart, hparts⟩ := List.forall_mem_cons.1 h
      exact hpart.bind (ih hparts)

end Lays

/-- A unit starts with a header, and statements after it. -/
theorem laid_start {header : String} {body : List String} (hheader : Visible header)
    (hbody : ∀ text ∈ body, IsStatement text) :
    (body.foldl line (({} : Writer).openBlock header)).Laid := by
  rw [foldl_line]
  exact Rows.statements (.opening hheader) hbody

/-- What is written in the block of a unit leaves that block, and the unit ends with it. -/
theorem Lays.formatted {write : Writer → Except Breakdown Writer} (hwrite : Lays write)
    {writer : Writer} (hlaid : writer.Laid) (hdepth : writer.depth = 1) {text : String}
    (h : (do
      let writer ← write writer
      let writer ← writer.closeBlock
      writer.text) = .ok text) : Formatted text := by
  obtain ⟨⟨lines, depth⟩, hafter, h⟩ := exists_of_bind_eq_ok h
  obtain ⟨hrows, hkept⟩ := hwrite writer _ hafter hlaid
  obtain rfl : depth = 1 := hkept.trans hdepth
  cases h
  exact Rows.formatted hrows

end Writer

open Writer (Lays)

/-! ## Declarations -/

/-- The header of a method, with its modifier. -/
theorem visible_method {modifier type name : String} {slots : List Slot}
    (hmodifier : Visible modifier) (htype : Nameable type) (hname : Nameable name)
    (h : ∀ slot ∈ slots, SpellableSlot slot) :
    Visible (modifier ++ " " ++ type ++ " " ++ signature name slots) :=
  (((hmodifier.append (by decide)).append htype.printed).append (by decide)).append
    (printed_signature hname h)

theorem writeDelegation_lays {modifier : String} {m : Method} {texts : MethodTexts}
    (hmodifier : Visible modifier) (hm : SpellableMethod m)
    (h : PrintedDelegation texts.delegation) : Lays (writeDelegation modifier m texts) := by
  unfold writeDelegation
  cases hargs : texts.delegation with
  | none => exact .skip
  | some args =>
      exact .block (visible_method hmodifier hm.type hm.name (required_spellable hm.parameters))
        (List.forall_mem_singleton.2 (statement_delegate hm.name (h args hargs)))

theorem writeMethod_lays {m : Method} {texts : MethodTexts} (hm : SpellableMethod m)
    (h : texts.Printed) : Lays (writeMethod · (m, texts)) := by
  have hpublic := nameable_public.visible
  simp only [writeMethod]
  cases hbody : texts.body with
  | none => exact .skip
  | some body =>
      have hblock := Lays.block (visible_method hpublic hm.type hm.name hm.parameters)
        (List.forall_mem_singleton.2 (statement_returned (h.body body hbody)))
      exact hblock.bind (writeDelegation_lays hpublic hm h.delegation)

theorem visible_constructor {name : String} {slots : List Slot} (hname : Nameable name)
    (h : ∀ slot ∈ slots, SpellableSlot slot) : Visible ("public " ++ signature name slots) := by
  have hpublic : Visible "public " := by decide
  exact hpublic.append (printed_signature hname h)

theorem writeConstructors_lays {decl : Decl} {texts : DeclTexts} (hdecl : SpellableDecl decl)
    (h : PrintedDelegation texts.constructor) : Lays (writeConstructors decl texts) := by
  unfold writeConstructors
  by_cases hstored : decl.stored.isEmpty
  · simp only [hstored, ↓reduceIte]
    exact .skip
  · have hfull := Lays.block (visible_constructor hdecl.name hdecl.stored)
      (List.forall_mem_map.2 fun slot hslot => statement_assigned (hdecl.stored slot hslot))
    simp only [hstored]
    cases hargs : texts.constructor with
    | none => exact hfull
    | some args =>
        have hshorter := Lays.block
          (visible_constructor hdecl.name (required_spellable hdecl.stored))
          (List.forall_mem_singleton.2 (statement_chained (h args hargs)))
        exact hshorter.bind hfull

/-- The methods of a declaration are written, each with its texts. -/
theorem methods_lay {write : Writer → Method × MethodTexts → Except Breakdown Writer}
    {decl : Decl} {texts : DeclTexts} (hdecl : SpellableDecl decl) (htexts : texts.Printed)
    (hwrite : ∀ m texts, SpellableMethod m → texts.Printed → Lays (write · (m, texts))) :
    Lays fun writer => (decl.methods.zip texts.methods).foldlM write writer := by
  refine .foldlM fun ⟨m, text⟩ hpart => ?_
  obtain ⟨hm, htext⟩ := List.of_mem_zip hpart
  exact hwrite m text (hdecl.methods m hm) (htexts.methods text htext)

/-- The header of a unit. -/
theorem visible_unit {start : String} (keyword : String) {decl : Decl} (hstart : Visible start)
    (hkeyword : Printed keyword) (hdecl : SpellableDecl decl) :
    Visible (start ++ decl.name ++ interfaceClause keyword decl) :=
  (hstart.append hdecl.name.printed).append (printed_interfaceClause hkeyword hdecl)

theorem classUnit_formatted {decl : Decl} {texts : DeclTexts} {text : String}
    (hdecl : SpellableDecl decl) (htexts : texts.Printed) (h : classUnit decl texts = .ok text) :
    Formatted text := by
  have hstart : Visible "public final class " := by decide
  have hlaid := Writer.laid_start (visible_unit "implements" hstart (by decide) hdecl)
    (List.forall_mem_map.2 fun slot hslot => statement_field (hdecl.stored slot hslot))
  have hwrite := (writeConstructors_lays hdecl htexts.constructor).bind
    (methods_lay hdecl htexts fun m texts hm h => writeMethod_lays hm h)
  refine hwrite.formatted hlaid (by rw [Writer.foldl_line]; rfl) ?_
  rw [← h, bind_assoc]
  rfl

theorem interfaceUnit_formatted {decl : Decl} {texts : DeclTexts} {text : String}
    (hdecl : SpellableDecl decl) (htexts : texts.Printed)
    (h : interfaceUnit decl texts = .ok text) : Formatted text := by
  have hstart : Visible "public interface " := by decide
  have hdefault : Visible "default" := by decide
  have hlaid := Writer.laid_start (visible_unit "extends" hstart (by decide) hdecl)
    (List.forall_mem_map.2 fun m hm => statement_signature (hdecl.methods m hm))
  have hwrite : Lays fun writer => (decl.methods.zip texts.methods).foldlM
      (fun writer entry => writeDelegation "default" entry.1 entry.2 writer) writer :=
    methods_lay hdecl htexts fun m texts hm h => writeDelegation_lays hdefault hm h.delegation
  exact hwrite.formatted hlaid (by rw [Writer.foldl_line]; rfl) h

/-- The unit of a declaration is formatted, whatever the strings in it are. -/
theorem Emitted.formatted {decl : Decl} {unit : JavaUnit} (h : Emitted decl unit)
    (hdecl : ∀ t ∈ decl.terminals, t.Spellable) : Formatted unit.text := by
  obtain ⟨htexts, hunit⟩ := h
  -- The texts are those of the declaration as given, the unit is written of the bound one.
  have hprinted := declTexts_printed (spellableDecl_of_terminals hdecl) _ htexts
  have hbound := spellableDecl_declTexts hdecl
  unfold unitOf at hunit
  cases hkind : unitKind (declTexts decl).node with
  | interfaceType =>
      simp only [hkind] at hunit
      obtain ⟨text, htext, hunit⟩ := exists_of_bind_eq_ok hunit
      cases hunit
      exact interfaceUnit_formatted hbound hprinted htext
  | classType =>
      simp only [hkind] at hunit
      obtain ⟨text, htext, hunit⟩ := exists_of_bind_eq_ok hunit
      cases hunit
      exact classUnit_formatted hbound hprinted htext

end EoJava.Java
