import EoJava.Proofs.Grammar.Columns
import EoJava.Proofs.Java.Rendering
import EoJava.Proofs.Text.Lines

/-!
# Texts without control characters

Names and numbers hold no control characters, and in a string they are written with escapes. So
whatever the strings of a declaration are, its texts are printed (`declTexts_printed`), and none
of them breaks a line.
-/

namespace EoJava.Java

open Grammar (Printable)

/-- There is no control character in a text. -/
def Printed (text : String) : Prop :=
  Printable text.toList

instance (text : String) : Decidable (Printed text) :=
  inferInstanceAs (Decidable (Printable text.toList))

/-- Two texts together are printed if both are. -/
@[simp]
theorem printed_append {text more : String} :
    Printed (text ++ more) ↔ Printed text ∧ Printed more := by
  simp [Printed, Printable, or_imp, forall_and]

/-- Texts with a printed one between them are printed if each is. -/
theorem printed_intercalate {between : String} (hbetween : Printed between) {texts : List String}
    (h : ∀ text ∈ texts, Printed text) : Printed (between.intercalate texts) :=
  Text.forall_mem_intercalate hbetween h

/-- Names are printed. -/
theorem Nameable.printed {name : String} (h : Nameable name) : Printed name := by
  have hcontrol : ∀ n < 0x20, Lexing.isNamePart (Char.ofNat n) = false := by decide
  have hpart : ∀ c, Lexing.isNamePart c → 0x20 ≤ c.toNat := by
    intro c hc
    by_contra hlt
    rw [← Char.ofNat_toNat c, hcontrol c.toNat (by omega)] at hc
    cases hc
  obtain ⟨c, cs, htext, hc, hcs, -⟩ := h
  rw [Printed, htext]
  exact List.forall_mem_cons.2
    ⟨hpart c (Grammar.isNamePart_of_isNameStart hc), fun d hd => hpart d (hcs d hd)⟩

/-- Arguments with commas between them are printed if each is. -/
theorem printed_arguments {args : List String} (h : ∀ arg ∈ args, Printed arg) :
    Printed (", ".intercalate args) :=
  printed_intercalate (by decide) h

/-- Making an object is printed if its arguments are. -/
theorem printed_construction {name : String} (hname : Nameable name) {args : List String}
    (h : ∀ arg ∈ args, Printed arg) : Printed (construction name args) := by
  simp only [construction, printed_append]
  exact ⟨⟨⟨⟨by decide, hname.printed⟩, by decide⟩, printed_arguments h⟩, by decide⟩

/-- A reference is printed, whatever it is bound to. -/
theorem printed_reference {name : String} (hname : Nameable name) (binding : Binding) :
    Printed (referenceText name binding) := by
  cases binding with
  | field => exact printed_append.2 ⟨by decide, hname.printed⟩
  | parameter => exact hname.printed
  | constructor => exact printed_construction hname (List.forall_mem_nil _)

/-- A number is printed for Java if it was printed in the source. -/
theorem printed_numberLiteral {number literal : String} (h : Printed number)
    (hliteral : numberLiteral? number = some literal) : Printed literal := by
  have hlong : Printed (number ++ "L") := printed_append.2 ⟨h, by decide⟩
  unfold numberLiteral? at hliteral
  simp only at hliteral
  split_ifs at hliteral <;> cases hliteral <;> assumption

/-- A literal is printed, since the control characters of a string are escaped. -/
theorem printed_literalText {value : Literal} (hvalue : value.terminal.Spellable) {text : String}
    (h : literalText? value = .ok text) : Printed text := by
  cases value with
  | string value =>
      cases h
      rw [Printed, stringLiteral, String.toList_ofList]
      exact Grammar.printable_print (t := .string value) trivial
  | boolean value => cases value <;> cases h <;> decide
  | number number =>
      have hnumber : Printed number :=
        Grammar.printable_print (t := Grammar.Terminal.number number) hvalue
      rw [literalText?] at h
      split at h
      · next literal hliteral =>
          cases h
          exact printed_numberLiteral hnumber hliteral
      · cases h

/-! ## Expressions -/

mutual

/-- The text of an expression is printed, whatever the strings in it are. -/
theorem expressionText_printed (scope : Scope) (e : Expr) (h : ∀ t ∈ e.terminals, t.Spellable) :
    (expressionText scope e).Gives Printed := by
  cases e with
  | literal position value =>
      have hvalue := h value.terminal (by simp [Expr.terminals])
      rw [expressionText]
      cases htext : literalText? value with
      | ok text => exact .done (printed_literalText hvalue htext) _
      | error problem => exact .stop _ _ _
  | reference position name binding =>
      have hname := h (.name name) (by simp [Expr.terminals])
      rw [expressionText]
      cases scope.refusedBy? name with
      | none => exact .done (printed_reference hname _) _
      | some slot => exact .stop _ _ _
  | call position name args =>
      have hname := h (.name name) (by simp [Expr.terminals])
      rw [expressionText]
      by_cases hempty : name.isEmpty
      · rw [if_pos hempty]
        exact .stop _ _ _
      · rw [if_neg hempty]
        have hargs : ∀ arg ∈ args, ∀ t ∈ arg.terminals, t.Spellable := by
          intro arg harg t ht
          have hmem := Written.mem_commaSeparated (List.mem_map_of_mem harg) ht
          exact h t (by simp [Expr.terminals, hmem])
        exact (argumentTexts_printed scope args hargs).map _ fun texts htexts =>
          printed_construction hname htexts

/-- The texts of arguments are printed, whatever the strings in them are. -/
theorem argumentTexts_printed (scope : Scope) (args : List Expr)
    (h : ∀ arg ∈ args, ∀ t ∈ arg.terminals, t.Spellable) :
    (argumentTexts scope args).Gives (∀ text ∈ ·, Printed text) := by
  cases args with
  | nil => exact .done (List.forall_mem_nil _) _
  | cons arg args =>
      obtain ⟨harg, hargs⟩ := List.forall_mem_cons.1 h
      have hgives := expressionText_printed scope arg harg
      rw [argumentTexts]
      rcases htext : expressionText scope arg with ⟨found, problem | text⟩
      · rintro _ ⟨⟩
      · rw [htext] at hgives
        exact (argumentTexts_printed scope args hargs).map _ fun _ htexts =>
          List.forall_mem_cons.2 ⟨hgives text rfl, htexts⟩

end

/-! ## Delegations -/

/-- The text of a default is printed. -/
theorem slotText_printed (fields : List String) (slots : List Slot) {slot : Slot}
    (h : SpellableSlot slot) :
    (slotText fields slots slot).Gives fun text? => ∀ text ∈ text?, Printed text := by
  refine (Annotated.Gives.visitOption fun e he =>
    expressionText_printed _ e (h.default e he)).map _ fun text? htext => ?_
  intro text hmem
  obtain rfl : text? = some text := hmem
  generalize slot.default? = default? at htext
  cases htext with
  | some htext => exact htext

/-- The arguments of a delegation are names and printed defaults. -/
theorem delegationArguments_printed {slots : List Slot} {defaults : List (Option String)}
    (hslots : ∀ slot ∈ slots, SpellableSlot slot)
    (h : ∀ text? ∈ defaults, ∀ text ∈ text?, Printed text) :
    ∀ arg ∈ delegationArguments slots defaults, Printed arg := by
  refine List.forall_mem_append.2 ⟨List.forall_mem_map.2 fun slot hslot => ?_, fun arg harg => ?_⟩
  · exact (required_spellable hslots slot hslot).name.printed
  · obtain ⟨text?, htext, harg⟩ := List.mem_filterMap.1 harg
    exact h text? htext arg harg

/-- The arguments of a delegation, if there is one, are printed. -/
def PrintedDelegation (args? : Option (List String)) : Prop :=
  ∀ args ∈ args?, ∀ arg ∈ args, Printed arg

/-- Where there is no delegation, nothing is written. -/
theorem printedDelegation_none : PrintedDelegation none :=
  fun _ hargs => nomatch hargs

/-- The arguments of the delegation of a method are printed. -/
theorem methodDelegation_printed (fields : List String) {m : Method}
    (h : ∀ slot ∈ m.parameters, SpellableSlot slot) :
    (methodDelegation fields m).Gives PrintedDelegation := by
  unfold methodDelegation
  by_cases hdefaults : hasDefaults m.parameters
  · rw [if_pos hdefaults]
    refine (Annotated.Gives.visit fun slot hslot =>
      slotText_printed fields m.parameters (h slot hslot)).map _ fun _ htexts => ?_
    rintro _ ⟨⟩
    exact delegationArguments_printed h (forall_of_forall₂ htexts.flip)
  · rw [if_neg hdefaults]
    exact .done printedDelegation_none _

/-- The texts of a method are printed. -/
structure MethodTexts.Printed (texts : MethodTexts) : Prop where
  body : ∀ text ∈ texts.body, Java.Printed text
  delegation : PrintedDelegation texts.delegation

/-- The texts of a method of a class are printed. -/
theorem classMethodTexts_printed (fields : List String) {m : Method} (h : SpellableMethod m) :
    (classMethodTexts fields m).Gives MethodTexts.Printed := by
  rw [classMethodTexts]
  cases hbody : m.body with
  | none => exact .done ⟨by simp, printedDelegation_none⟩ _
  | some body =>
      have hgives := expressionText_printed { fields, parameters := m.parameters.map (·.name) } body
        (h.body body hbody)
      rcases htext : expressionText { fields, parameters := m.parameters.map (·.name) } body with
        ⟨found, problem | text⟩
      · simp only [htext]
        rintro _ ⟨⟩
      · simp only [htext]
        rw [htext] at hgives
        refine (methodDelegation_printed fields (m := { m with body := some found })
          h.parameters).map _ fun _ hargs => ⟨?_, hargs⟩
        rintro _ ⟨⟩
        exact hgives text rfl

/-- The texts of a method of an interface are printed. -/
theorem interfaceMethodTexts_printed {m : Method} (h : SpellableMethod m) :
    (interfaceMethodTexts m).Gives MethodTexts.Printed :=
  (methodDelegation_printed [] h.parameters).map _ fun _ hargs => ⟨by simp, hargs⟩

/-! ## Declarations -/

/-- The texts of a declaration are printed. -/
structure DeclTexts.Printed (texts : DeclTexts) : Prop where
  constructor : PrintedDelegation texts.constructor
  methods : ∀ m ∈ texts.methods, m.Printed

/-- The arguments of the delegation of a constructor are printed. -/
theorem constructorTexts_printed {decl : Decl} (h : ∀ slot ∈ decl.stored, SpellableSlot slot) :
    (constructorTexts decl).Gives PrintedDelegation := by
  simp only [constructorTexts]
  by_cases hdefaults : hasDefaults decl.stored
  · rw [if_pos hdefaults]
    refine (visitStored_gives fun slot hslot =>
      slotText_printed [] decl.stored (h slot hslot)).map _ fun _ htexts => ?_
    rintro _ ⟨⟩
    exact delegationArguments_printed h (forall_of_forall₂ htexts.flip)
  · rw [if_neg hdefaults]
    exact .done printedDelegation_none _

/-- The texts of an interface are printed. -/
theorem interfaceTexts_printed {decl : Decl} (h : SpellableDecl decl) :
    (interfaceTexts decl).Gives DeclTexts.Printed :=
  (visitMethods_gives fun m hm => interfaceMethodTexts_printed (h.methods m hm)).map _
    fun _ htexts => ⟨printedDelegation_none, forall_of_forall₂ htexts.flip⟩

/-- The texts of a class are printed. -/
theorem classTexts_printed {decl : Decl} (h : SpellableDecl decl) :
    (classTexts decl).Gives DeclTexts.Printed := by
  have hgives := constructorTexts_printed h.stored
  have hmethods := methods_constructorTexts decl
  rw [classTexts]
  rcases hfound : constructorTexts decl with ⟨found, problem | constructor⟩
  · rintro _ ⟨⟩
  · rw [hfound] at hgives hmethods
    exact (visitMethods_gives fun m hm => classMethodTexts_printed (found.stored.map (·.name))
      (h.methods m (hmethods ▸ hm))).map _ fun _ htexts =>
        ⟨hgives constructor rfl, forall_of_forall₂ htexts.flip⟩

/-- The texts of a declaration are printed, whatever its strings are. -/
theorem declTexts_printed {decl : Decl} (h : SpellableDecl decl) :
    (declTexts decl).Gives DeclTexts.Printed := by
  unfold declTexts
  cases unitKind decl with
  | interfaceType => exact interfaceTexts_printed h
  | classType => exact classTexts_printed h

end EoJava.Java
