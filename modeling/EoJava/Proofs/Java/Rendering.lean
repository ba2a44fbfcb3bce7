import EoJava.Proofs.Java.Bindings
import EoJava.Proofs.Java.Spelling
import EoJava.Proofs.Source.Spelled

/-!
# Rendered expressions

The text of an expression spells its term (`expressionText_spells`), and so do the arguments of a
delegation. Names must be names of Java for this, and numbers numerals.
-/

namespace EoJava

open Grammar (Terminal)

/-- A name is one for Java too, and a number is a numeral. -/
def Grammar.Terminal.Spellable : Terminal → Prop
  | .name text => Java.Nameable text
  | .number text => Text.Numeral.isNumeral text.toList
  | _ => True

/-- What is legible in a source can be spelled in a unit. -/
theorem Grammar.Terminal.Legible.spellable {t : Terminal} (h : t.Legible) : t.Spellable := by
  cases t with
  | name text => exact Java.nameable_of_isIdentifier h
  | number text => exact h
  | _ => trivial

namespace Java

variable {text : String} {lexemes : List Lexeme}

/-! ## Numbers -/

section

open Text.Numeral

variable {whole fraction : List Char}

/-- A digit is part of a number for Java too. -/
theorem isNumberPart_of_isDigit {c : Char} (h : c.isDigit) : isNumberPart c := by
  simp [isNumberPart, isWordPart, Char.isAlphanum, h]

/-- A numeral without a sign is a number. -/
theorem countable_numeral (hwhole : IsDigits whole) (hfraction : IsFraction fraction) :
    Countable (whole ++ fraction) := by
  obtain ⟨hne, hdigits⟩ := hwhole
  obtain ⟨c, cs, rfl⟩ := List.exists_cons_of_ne_nil hne
  have hmarks : ∀ d ∈ (c :: cs) ++ fraction, d.isDigit ∨ d = '.' := by
    refine List.forall_mem_append.2 ⟨fun d hd => .inl (hdigits d hd), ?_⟩
    rcases hfraction with rfl | ⟨digits, rfl, -, hdigits⟩
    · exact List.forall_mem_nil _
    · exact List.forall_mem_cons.2 ⟨.inr rfl, fun d hd => .inl (hdigits d hd)⟩
  have hlast : ((c :: cs) ++ fraction).getLast? ≠ some 'L' := by
    intro hlast
    exact absurd (hmarks _ (List.mem_of_getLast? hlast)) (by decide)
  refine ⟨⟨c, cs ++ fraction, rfl, hdigits c (List.mem_cons_self ..)⟩, fun d hd => ?_, ?_⟩
  · rcases hmarks d hd with h | rfl
    · exact isNumberPart_of_isDigit h
    · rfl
  · rw [isNumber, if_neg hlast]
    exact isNumeral_iff.2 ⟨[], c :: cs, fraction, rfl, .inl rfl, ⟨hne, hdigits⟩, hfraction⟩

/-- Digits with the suffix of a `long` are a number. -/
theorem countable_long (hwhole : IsDigits whole) : Countable (whole ++ ['L']) := by
  obtain ⟨hne, hdigits⟩ := hwhole
  obtain ⟨c, cs, rfl⟩ := List.exists_cons_of_ne_nil hne
  refine ⟨⟨c, cs ++ ['L'], rfl, hdigits c (List.mem_cons_self ..)⟩, ?_, ?_⟩
  · exact List.forall_mem_append.2
      ⟨fun d hd => isNumberPart_of_isDigit (hdigits d hd), by simp; decide⟩
  · rw [isNumber, if_pos List.getLast?_concat, List.dropLast_concat]
    exact List.all_eq_true.2 hdigits

/-- A number is spelled with its sign apart. -/
theorem spells_signed {sign digits : List Char} (hsign : sign = [] ∨ sign = ['-'])
    (hdigits : Countable digits) :
    Spells (String.ofList (sign ++ digits)) (numberTerm (sign ++ digits)).lexemes := by
  obtain ⟨⟨c, cs, rfl, hc⟩, -⟩ := id hdigits
  have hminus : c ≠ '-' := by
    rintro rfl
    cases hc
  rcases hsign with rfl | rfl
  · have hterm : numberTerm (c :: cs) = .number false (String.ofList (c :: cs)) := by
      unfold numberTerm
      split
      · next heq => exact absurd (List.cons.inj heq).1 hminus
      · rfl
    rw [List.nil_append, hterm]
    exact spells_number hdigits
  · exact spells_negative hdigits

/-- The literal of a number spells it. -/
theorem spells_numberLiteral {literal : String} (htext : isNumeral text.toList)
    (h : numberLiteral? text = some literal) :
    Spells literal (numberTerm literal.toList).lexemes := by
  obtain ⟨sign, whole, fraction, heq, hsign, hwhole, hfraction⟩ := isNumeral_iff.1 htext
  have hself : Spells text (numberTerm text.toList).lexemes := by
    have hspells := spells_signed hsign (countable_numeral hwhole hfraction)
    rwa [← heq, String.ofList_toList] at hspells
  simp only [numberLiteral?, htext, Bool.not_true, Bool.false_eq_true, ↓reduceIte] at h
  split at h
  · cases h
    exact hself
  · next hpoint =>
      split at h
      · cases h
        exact hself
      · split at h
        · cases h
          have hnone : fraction = [] := by
            rcases hfraction with rfl | ⟨digits, rfl, -⟩
            · rfl
            · simp [heq] at hpoint
          have hspells := spells_signed hsign (countable_long hwhole)
          have hlong : (text ++ "L").toList = sign ++ (whole ++ ['L']) := by
            rw [String.toList_append, heq, hnone, List.append_nil, List.append_assoc]
            rfl
          rwa [← hlong, String.ofList_toList] at hspells
        · cases h

end

/-! ## Expressions -/

/-- A truth value is one lexeme. -/
theorem spells_truth (value : Bool) :
    Spells (if value then "true" else "false") [.truth value] := by
  cases value with
  | false =>
      have hparts : ∀ d ∈ ['a', 'l', 's', 'e'], isWordPart d :=
        Text.forall_mem_of_all (by decide)
      exact ⟨_, .self (Text.forall_mem_of_all (by decide)),
        fun rest hrest => lex_word rfl hparts hrest.not_wordPart⟩
  | true =>
      have hparts : ∀ d ∈ ['r', 'u', 'e'], isWordPart d :=
        Text.forall_mem_of_all (by decide)
      exact ⟨_, .self (Text.forall_mem_of_all (by decide)),
        fun rest hrest => lex_word rfl hparts hrest.not_wordPart⟩

/-- The text of a literal spells it. -/
theorem spells_literalText {value : Literal} (hvalue : value.terminal.Spellable)
    (h : literalText? value = .ok text) : Spells text (literalTerm value).lexemes := by
  cases value with
  | string value =>
      cases h
      exact spells_stringLiteral value
  | boolean value =>
      cases value with
      | false =>
          cases h
          exact spells_truth false
      | true =>
          cases h
          exact spells_truth true
  | number number =>
      rw [literalText?] at h
      split at h
      · next literal hliteral =>
          cases h
          rw [literalTerm, hliteral, Option.getD_some]
          exact spells_numberLiteral hvalue hliteral
      · cases h

/-- A comma and a space separate arguments. -/
theorem separates_comma : Separates ", " [.symbol ','] :=
  separates_of_isClosed (by decide) (by decide)

/-- An opening parenthesis separates what is around it. -/
theorem separates_leftParen : Separates "(" [.symbol '('] :=
  separates_of_isClosed (by decide) (by decide)

/-- A closing parenthesis separates what is around it. -/
theorem separates_rightParen : Separates ")" [.symbol ')'] :=
  separates_of_isClosed (by decide) (by decide)

/-- Texts with commas between them spell the list of what they spell. -/
theorem spells_intercalate {texts : List String} {items : List (List Lexeme)}
    (h : List.Forall₂ Spells texts items) : Spells (", ".intercalate texts) (listed items) := by
  induction h with
  | nil => exact spells_empty
  | @cons text item texts items htext htexts ih =>
      cases htexts with
      | nil => simpa [listed] using htext
      | cons hnext hothers =>
          rw [String.intercalate_cons_cons]
          have hlist := (htext.append_separates separates_comma).append_spells ih
          simpa [listed] using hlist

/-- A list between parentheses may follow a text, and anything may follow the list. -/
theorem Spells.parenthesized {texts : List String} {items : List (List Lexeme)} {close : String}
    {after : List Lexeme} (h : Spells text lexemes) (htexts : List.Forall₂ Spells texts items)
    (hclose : Separates close (.symbol ')' :: after)) :
    Leads (text ++ "(" ++ ", ".intercalate texts ++ close)
      (lexemes ++ parenthesized items after) := by
  have hopen := h.append_separates separates_leftParen
  have hclosed := (hopen.append_spells (spells_intercalate htexts)).append_separates hclose
  rw [List.append_assoc, List.append_assoc] at hclosed
  exact hclosed

/-- The word that makes an object is followed by a space. -/
theorem leads_new : Leads "new " [.word "new"] :=
  leads_of_isClosed (by decide) (by decide)

/-- An object is made with its name and its arguments in parentheses. -/
theorem leads_construction {name : String} {args : List String} {items : List (List Lexeme)}
    (hname : Nameable name) (h : List.Forall₂ Spells args items) :
    Leads (construction name args) (.word "new" :: .word name :: parenthesized items []) :=
  (leads_new.append_spells (spells_name hname)).parenthesized h separates_rightParen

/-- A reference spells its term, whatever it is bound to. -/
theorem spells_reference {name : String} (hname : Nameable name) (binding : Binding) :
    Spells (referenceText name binding) (referenceTerm name binding).lexemes := by
  cases binding with
  | field => exact spells_this hname
  | parameter => exact spells_name hname
  | constructor => exact (leads_construction hname .nil).spells

/-! ## Expressions -/

/-- A text spells a term. -/
def SpellsTerm (text : String) (t : Term) : Prop :=
  Spells text t.lexemes

mutual

/-- The text of an expression spells its term. -/
theorem expressionText_spells (scope : Scope) (e : Expr) (h : ∀ t ∈ e.terminals, t.Spellable) :
    (expressionText scope e).Gives fun text => SpellsTerm text (term scope e) := by
  cases e with
  | literal position value =>
      have hvalue := h value.terminal (by simp [Expr.terminals])
      rw [expressionText]
      cases htext : literalText? value with
      | ok text =>
          refine Annotated.Gives.done ?_ _
          exact spells_literalText hvalue htext
      | error problem => exact .stop _ _ _
  | reference position name binding =>
      have hname := h (.name name) (by simp [Expr.terminals])
      rw [expressionText]
      cases scope.refusedBy? name with
      | none =>
          refine Annotated.Gives.done ?_ _
          exact spells_reference hname _
      | some slot => exact .stop _ _ _
  | call position name args =>
      have hname := h (.name name) (by simp [Expr.terminals])
      rw [expressionText]
      by_cases hempty : name.isEmpty
      · rw [if_pos hempty]
        exact .stop _ _ _
      · rw [if_neg hempty]
        have hargs : ∀ arg ∈ args, ∀ t ∈ arg.terminals, t.Spellable := by
          intro arg harg t ht
          have hmem := Written.mem_commaSeparated (List.mem_map_of_mem harg) ht
          exact h t (by simp [Expr.terminals, hmem])
        refine (argumentTexts_spells scope args hargs).map _ fun texts htexts => ?_
        have hlexemes : List.Forall₂ Spells texts ((terms scope args).map Term.lexemes) :=
          List.forall₂_map_right_iff.2 htexts
        rw [SpellsTerm, term, Term.lexemes, Term.argumentLexemes_eq_map]
        exact (leads_construction hname hlexemes).spells

/-- The texts of arguments spell their terms. -/
theorem argumentTexts_spells (scope : Scope) (args : List Expr)
    (h : ∀ arg ∈ args, ∀ t ∈ arg.terminals, t.Spellable) :
    (argumentTexts scope args).Gives fun texts =>
      List.Forall₂ SpellsTerm texts (terms scope args) := by
  cases args with
  | nil => exact .done .nil _
  | cons arg args =>
      obtain ⟨harg, hargs⟩ := List.forall_mem_cons.1 h
      have hgives := expressionText_spells scope arg harg
      rw [argumentTexts]
      rcases htext : expressionText scope arg with ⟨found, problem | text⟩
      · rintro _ ⟨⟩
      · rw [htext] at hgives
        exact (argumentTexts_spells scope args hargs).map _ fun _ htexts =>
          .cons (hgives text rfl) htexts

end

/-! ## Delegations -/

/-- The default of a slot is spelled in the scope of a delegation. -/
def SpellsDefault (fields : List String) (slots : List Slot) (slot : Slot)
    (text? : Option String) : Prop :=
  Option.Rel SpellsTerm text? (slot.default?.map (term (delegationScope fields slots slot.name)))

/-- The text of a default spells its term, in the scope of the delegation. -/
theorem slotText_spells (fields : List String) (slots : List Slot) {slot : Slot}
    (h : ∀ e ∈ slot.default?, ∀ t ∈ e.terminals, t.Spellable) :
    (slotText fields slots slot).Gives (SpellsDefault fields slots slot) := by
  obtain ⟨position, typeName, name, default?⟩ := slot
  refine (Annotated.Gives.visitOption fun e he => expressionText_spells _ e (h e he)).map _
    fun text? htext => ?_
  cases htext with
  | none => exact .none
  | some htext => exact .some htext

/-- What is there on one side of a relation is there on the other. -/
theorem forall₂_filterMap {α β γ : Type} {R : β → γ → Prop} {f : α → Option γ} {xs : List α}
    {ys : List (Option β)} (h : List.Forall₂ (fun x y? => Option.Rel R y? (f x)) xs ys) :
    List.Forall₂ R (ys.filterMap id) (xs.filterMap f) := by
  induction h with
  | nil => exact .nil
  | @cons x y? xs ys hx hxs ih =>
      rw [List.filterMap_cons, List.filterMap_cons]
      generalize f x = z? at hx
      cases hx with
      | none => exact ih
      | some h => exact .cons h ih

/-- What holds of all nodes with results holds of all nodes. -/
theorem forall_of_forall₂ {α β : Type} {P : α → Prop} {nodes : List α} {results : List β}
    (h : List.Forall₂ (fun node _ => P node) nodes results) : ∀ node ∈ nodes, P node := by
  induction h with
  | nil => exact List.forall_mem_nil _
  | cons hnode _ ih => exact List.forall_mem_cons.2 ⟨hnode, ih⟩

/-- The arguments of a delegation are spelled: the required slots by name, then the defaults. -/
theorem delegationArguments_spells {fields : List String} {slots : List Slot}
    {defaults : List (Option String)} (hnames : ∀ slot ∈ slots, Nameable slot.name)
    (h : List.Forall₂ (SpellsDefault fields slots) slots defaults) :
    List.Forall₂ SpellsTerm (delegationArguments slots defaults)
      (delegationTerms fields slots) := by
  refine List.rel_append ?_ (forall₂_filterMap h)
  rw [List.forall₂_map_left_iff, List.forall₂_map_right_iff, List.forall₂_same]
  intro slot hslot
  exact spells_name (hnames slot ((List.takeWhile_sublist _).subset hslot))

/-- The arguments of a delegation, if there is one, are spelled. -/
def SpellsDelegation (fields : List String) (slots : List Slot) (args? : Option (List String)) :
    Prop :=
  Option.Rel (List.Forall₂ SpellsTerm) args? (delegation? fields slots)

/-- The names and the default of a slot can be spelled. -/
structure SpellableSlot (slot : Slot) : Prop where
  type : Nameable slot.typeName
  name : Nameable slot.name
  default : ∀ e ∈ slot.default?, ∀ t ∈ e.terminals, t.Spellable

/-- The names, the parameters and the body of a method can be spelled. -/
structure SpellableMethod (m : Method) : Prop where
  type : Nameable m.returnType
  name : Nameable m.name
  parameters : ∀ slot ∈ m.parameters, SpellableSlot slot
  body : ∀ e ∈ m.body, ∀ t ∈ e.terminals, t.Spellable

/-- A parameter can be spelled if its terminals can. -/
theorem spellableSlot_of_terminals {slot : Slot} (h : ∀ t ∈ slot.terminals, t.Spellable) :
    SpellableSlot slot where
  type := h (.name slot.typeName) (by simp [Slot.terminals])
  name := h (.name slot.name) (by simp [Slot.terminals])
  default := fun e he t ht => h t (by
    simp [Slot.terminals, Slot.defaultTerminals, Option.mem_def.1 he, ht])

/-- A stored attribute can be spelled if its terminals can. -/
theorem spellableSlot_of_attribute {slot : Slot}
    (h : ∀ t ∈ (Member.attribute true slot).terminals, t.Spellable) : SpellableSlot slot where
  type := h (.name slot.typeName) (by simp [Member.terminals])
  name := h (.name slot.name) (by simp [Member.terminals])
  default := fun e he t ht => h t (by
    simp [Member.terminals, Slot.defaultTerminals, Option.mem_def.1 he, ht])

/-- If slots can be spelled, so can those that are required. -/
theorem required_spellable {slots : List Slot} (h : ∀ slot ∈ slots, SpellableSlot slot) :
    ∀ slot ∈ required slots, SpellableSlot slot :=
  fun slot hslot => h slot ((List.takeWhile_sublist _).subset hslot)

/-- A method can be spelled if its terminals can. -/
theorem spellableMethod_of_terminals {m : Method} (h : ∀ t ∈ m.terminals, t.Spellable) :
    SpellableMethod m where
  type := h (.name m.returnType) (by simp [Method.terminals])
  name := h (.name m.name) (by simp [Method.terminals])
  parameters := fun slot hslot => spellableSlot_of_terminals fun t ht => h t (by
    have hmem := Written.mem_commaSeparated (List.mem_map_of_mem hslot) ht
    simp [Method.terminals, hmem])
  body := fun e he t ht => h t (by
    simp [Method.terminals, Method.tailTerminals, Option.mem_def.1 he, ht])

/-- The texts of a delegation spell its arguments. -/
theorem methodDelegation_spells (fields : List String) {m : Method}
    (h : ∀ slot ∈ m.parameters, SpellableSlot slot) :
    (methodDelegation fields m).Gives (SpellsDelegation fields m.parameters) := by
  unfold methodDelegation SpellsDelegation delegation?
  by_cases hdefaults : hasDefaults m.parameters
  · rw [if_pos hdefaults, if_pos hdefaults]
    refine (Annotated.Gives.visit fun slot hslot =>
      slotText_spells fields m.parameters (h slot hslot).default).map _ fun _ htexts => ?_
    exact .some (delegationArguments_spells (fun slot hslot => (h slot hslot).name) htexts)
  · rw [if_neg hdefaults, if_neg hdefaults]
    exact .done .none _

/-- The texts of a method of a class: its body, and the arguments of its delegation. -/
def SpellsMethod (fields : List String) (m : Method) (texts : MethodTexts) : Prop :=
  Option.Rel SpellsTerm texts.body (m.body.map (term (bodyScope fields m))) ∧
    (m.body.isSome → SpellsDelegation fields m.parameters texts.delegation)

/-- The texts of a method of a class spell its body and its delegation. -/
theorem classMethodTexts_spells (fields : List String) {m : Method} (h : SpellableMethod m) :
    (classMethodTexts fields m).Gives (SpellsMethod fields m) := by
  rw [classMethodTexts]
  unfold SpellsMethod
  cases hbody : m.body with
  | none => exact .done ⟨.none, fun hsome => by cases hsome⟩ _
  | some body =>
      have hgives := expressionText_spells { fields, parameters := m.parameters.map (·.name) } body
        (h.body body hbody)
      rcases htext : expressionText { fields, parameters := m.parameters.map (·.name) } body with
        ⟨found, problem | text⟩
      · simp only [htext]
        rintro _ ⟨⟩
      · simp only [htext]
        rw [htext] at hgives
        have hshorter := methodDelegation_spells fields (m := { m with body := some found })
          h.parameters
        exact hshorter.map _ fun _ hargs => ⟨.some (hgives text rfl), fun _ => hargs⟩

/-- The texts of a method of an interface spell its delegation. -/
theorem interfaceMethodTexts_spells {m : Method} (h : SpellableMethod m) :
    (interfaceMethodTexts m).Gives fun texts =>
      SpellsDelegation [] m.parameters texts.delegation :=
  (methodDelegation_spells [] h.parameters).map _ fun _ hargs => hargs

/-! ## Declarations -/

/-- A visit of members gives good results for those that it is about. -/
theorem visit_filterMap {α β γ : Type} {Good : α → β → Prop} {select : γ → Option α}
    {f : γ → Annotated γ (Option β)} {members : List γ}
    (h : ∀ member ∈ members, (f member).Gives fun text? =>
      Option.Rel (fun text node => Good node text) text? (select member)) :
    (Annotated.visit f members).Gives fun texts =>
      List.Forall₂ Good (members.filterMap select) (texts.filterMap id) :=
  fun texts htexts => (forall₂_filterMap (Annotated.Gives.visit h texts htexts)).flip

/-- If each method gives good texts, the members give them in the order of the methods. -/
theorem visitMethods_gives {β : Type} {Good : Method → β → Prop} {f : Method → Annotated Method β}
    {decl : Decl} (h : ∀ m ∈ decl.methods, (f m).Gives (Good m)) :
    (visitMethods f decl.members).Gives fun texts =>
      List.Forall₂ Good decl.methods (texts.filterMap id) := by
  refine visit_filterMap fun member hmember => ?_
  rcases member with ⟨stored, slot⟩ | m
  · exact .done .none _
  · exact (h m (List.mem_filterMap.2 ⟨_, hmember, rfl⟩)).map _ fun _ hgood => .some hgood

/-- If each stored attribute gives good texts, the members give them in the order of the attributes.
-/
theorem visitStored_gives {β : Type} {Good : Slot → β → Prop} {f : Slot → Annotated Slot β}
    {decl : Decl} (h : ∀ slot ∈ decl.stored, (f slot).Gives (Good slot)) :
    (visitStored f decl.members).Gives fun texts =>
      List.Forall₂ Good decl.stored (texts.filterMap id) := by
  refine visit_filterMap fun member hmember => ?_
  rcases member with ⟨_ | _, slot⟩ | m
  · exact .done .none _
  · exact (h slot (List.mem_filterMap.2 ⟨_, hmember, rfl⟩)).map _ fun _ hgood => .some hgood
  · exact .done .none _

/-- The texts of constructors spell their delegation. -/
theorem constructorTexts_spells {decl : Decl} (h : ∀ slot ∈ decl.stored, SpellableSlot slot) :
    (constructorTexts decl).Gives (SpellsDelegation [] decl.stored) := by
  unfold SpellsDelegation delegation?
  simp only [constructorTexts]
  by_cases hdefaults : hasDefaults decl.stored
  · rw [if_pos hdefaults, if_pos hdefaults]
    refine (visitStored_gives fun slot hslot =>
      slotText_spells [] decl.stored (h slot hslot).default).map _ fun _ htexts => ?_
    exact .some (delegationArguments_spells (fun slot hslot => (h slot hslot).name) htexts)
  · rw [if_neg hdefaults, if_neg hdefaults]
    exact .done .none _

/-- The texts of a declaration spell what its unit consists of. -/
def SpellsDecl (decl : Decl) (texts : DeclTexts) : Prop :=
  match unitKind decl with
  | .interfaceType =>
    List.Forall₂ (fun m texts => SpellsDelegation [] m.parameters texts.delegation)
      decl.methods texts.methods
  | .classType =>
    SpellsDelegation [] decl.stored texts.constructor ∧
      List.Forall₂ (SpellsMethod (decl.stored.map (·.name))) decl.methods texts.methods

/-- The names, the slots and the methods of a declaration can be spelled. -/
structure SpellableDecl (decl : Decl) : Prop where
  name : Nameable decl.name
  interfaces : ∀ ref ∈ decl.interfaces, Nameable ref.value
  stored : ∀ slot ∈ decl.stored, SpellableSlot slot
  methods : ∀ m ∈ decl.methods, SpellableMethod m

/-- A declaration can be spelled if its terminals can. -/
theorem spellableDecl_of_terminals {decl : Decl} (h : ∀ t ∈ decl.terminals, t.Spellable) :
    SpellableDecl decl := by
  have hmembers : ∀ member ∈ decl.members, ∀ t ∈ member.terminals, t.Spellable := by
    intro member hmember t ht
    have hmem := List.mem_flatMap.2 ⟨member, hmember, ht⟩
    exact h t (by simp [Decl.terminals, hmem])
  refine ⟨h (.name decl.name) (by simp [Decl.terminals]), fun ref href => ?_, fun slot hslot => ?_,
    fun m hm => ?_⟩
  · have hmem : Terminal.name ref.value ∈ Decl.interfaceTerminals decl.interfaces := by
      obtain ⟨first, others, hcons⟩ := List.exists_cons_of_ne_nil (List.ne_nil_of_mem href)
      rw [hcons] at href ⊢
      exact List.mem_cons_of_mem _
        (Written.mem_commaSeparated (List.mem_map_of_mem href) (List.mem_singleton_self _))
    exact h (.name ref.value) (by simp [Decl.terminals, hmem])
  · obtain ⟨member, hmember, heq⟩ := List.mem_filterMap.1 hslot
    have hterminals := hmembers member hmember
    rcases member with ⟨_ | _, other⟩ | m
    · cases heq
    · cases heq
      exact spellableSlot_of_attribute hterminals
    · cases heq
  · obtain ⟨member, hmember, heq⟩ := List.mem_filterMap.1 hm
    have hterminals := hmembers member hmember
    rcases member with ⟨stored, slot⟩ | other
    · cases heq
    · cases heq
      exact spellableMethod_of_terminals hterminals

/-- What the texts of a method spell depends neither on positions nor on bindings. -/
theorem spellsMethod_erased (fields : List String) (m : Method) (texts : MethodTexts) :
    SpellsMethod fields m.erased texts ↔ SpellsMethod fields m texts := by
  have hscope : bodyScope fields m.erased = bodyScope fields m := by
    simp [bodyScope, Function.comp_def]
  simp [SpellsMethod, SpellsDelegation, hscope, delegation?_erased, Function.comp_def]

/-- Positions and bindings do not count for what is spelled. -/
theorem spellsDecl_erased (decl : Decl) (texts : DeclTexts) :
    SpellsDecl decl.erased texts ↔ SpellsDecl decl texts := by
  have hkind : unitKind decl.erased = unitKind decl := rfl
  unfold SpellsDecl
  rw [hkind]
  cases unitKind decl with
  | interfaceType =>
      simp [SpellsDelegation, Decl.methods_erased, delegation?_erased, List.forall₂_map_left_iff]
  | classType =>
      simp [SpellsDelegation, Decl.stored_erased, Decl.methods_erased, delegation?_erased,
        List.forall₂_map_left_iff, spellsMethod_erased, Function.comp_def]

/-- The texts of an interface spell the delegations of its methods. -/
theorem interfaceTexts_spells {decl : Decl} (h : SpellableDecl decl) :
    (interfaceTexts decl).Gives fun texts =>
      List.Forall₂ (fun m texts => SpellsDelegation [] m.parameters texts.delegation)
        decl.methods texts.methods :=
  (visitMethods_gives fun m hm => interfaceMethodTexts_spells (h.methods m hm)).map _
    fun _ htexts => htexts

/-- The texts of a class spell its delegations and the bodies of its methods. -/
theorem classTexts_spells {decl : Decl} (h : ∀ t ∈ decl.terminals, t.Spellable) :
    (classTexts decl).Gives fun texts =>
      SpellsDelegation [] decl.stored texts.constructor ∧
        List.Forall₂ (SpellsMethod (decl.stored.map (·.name))) decl.methods texts.methods := by
  have hdecl := spellableDecl_of_terminals h
  have hgives := constructorTexts_spells hdecl.stored
  have hmethods := methods_constructorTexts decl
  have hfields := fields_constructorTexts decl
  rw [classTexts]
  rcases hfound : constructorTexts decl with ⟨found, problem | constructor⟩
  · rintro _ ⟨⟩
  · rw [hfound] at hgives hmethods hfields
    simp only at hmethods hfields
    rw [← hmethods, ← hfields]
    exact (visitMethods_gives fun m hm => classMethodTexts_spells (found.stored.map (·.name))
      (hdecl.methods m (hmethods ▸ hm))).map _ fun _ htexts => ⟨hgives constructor rfl, htexts⟩

/-- The texts that are found for a declaration spell what its unit consists of. -/
theorem declTexts_spells {decl : Decl} (h : ∀ t ∈ decl.terminals, t.Spellable) :
    (declTexts decl).Gives (SpellsDecl decl) := by
  unfold declTexts SpellsDecl
  cases unitKind decl with
  | interfaceType => exact interfaceTexts_spells (spellableDecl_of_terminals h)
  | classType => exact classTexts_spells h

end Java

end EoJava
