import EoJava.Proofs.Grammar.Descent

/-!
# What a descent takes

`Spans leaves ts rest` says that `leaves` start with leaves of the terminals `ts` and go on with
`rest`. A descent that succeeds takes the terminals that spell its value: `Reads p Good spell`. For
a whole source this is `program_reads`.
-/

namespace EoJava.Grammar

/-- The leaves start with given terminals and go on with `rest`. -/
def Spans (leaves : List Leaf) (ts : List Terminal) (rest : List Leaf) : Prop :=
  ∃ taken, leaves = taken ++ rest ∧ taken.map (·.terminal) = ts

namespace Spans

variable {leaves middle rest : List Leaf} {ts us : List Terminal} {t : Terminal}

/-- No terminals are spanned by no leaves. -/
@[simp]
theorem nil_iff : Spans leaves [] rest ↔ leaves = rest := by
  simp [Spans]

/-- Leaves that span a terminal and more start with a leaf of it. -/
theorem cons_iff :
    Spans leaves (t :: ts) rest ↔
      ∃ first others, leaves = first :: others ∧ first.terminal = t ∧ Spans others ts rest := by
  constructor
  · rintro ⟨_ | ⟨first, taken⟩, rfl, hts⟩
    · cases hts
    · obtain ⟨rfl, rfl⟩ := List.cons.inj hts
      exact ⟨first, taken ++ rest, rfl, rfl, taken, rfl, rfl⟩
  · rintro ⟨first, _, rfl, rfl, taken, rfl, rfl⟩
    exact ⟨first :: taken, rfl, rfl⟩

/-- Leaves span one list of terminals after another exactly if they can be divided so. -/
theorem append_iff :
    Spans leaves (ts ++ us) rest ↔ ∃ middle, Spans leaves ts middle ∧ Spans middle us rest := by
  constructor
  · rintro ⟨taken, rfl, hts⟩
    obtain ⟨first, second, rfl, rfl, rfl⟩ := List.map_eq_append_iff.1 hts
    exact ⟨second ++ rest, ⟨first, by simp, rfl⟩, second, rfl, rfl⟩
  · rintro ⟨_, ⟨first, rfl, rfl⟩, second, rfl, rfl⟩
    exact ⟨first ++ second, by simp, by simp⟩

/-- What spans two lists of terminals in turn spans them together. -/
theorem trans (hfirst : Spans leaves ts middle) (hsecond : Spans middle us rest) :
    Spans leaves (ts ++ us) rest :=
  append_iff.2 ⟨middle, hfirst, hsecond⟩

/-- Terminals that are taken leave fewer leaves. -/
theorem length_lt (h : Spans leaves ts rest) (hne : ts ≠ []) : rest.length < leaves.length := by
  obtain ⟨taken, rfl, rfl⟩ := h
  have hpos := List.length_pos_iff.2 hne
  simp only [List.length_map] at hpos
  simp only [List.length_append]
  omega

/-- The terminals of all leaves. -/
theorem map_terminal (h : Spans leaves ts rest) :
    leaves.map (·.terminal) = ts ++ rest.map (·.terminal) := by
  obtain ⟨taken, rfl, rfl⟩ := h
  simp

end Spans

/-- If the descent succeeds, its value is good and it took the terminals that spell the value. -/
def Reads {α : Type} (p : Descent α) (Good : α → Prop) (spell : α → List Terminal) : Prop :=
  ∀ leaves v rest, (p leaves).result = some (v, rest) → Good v ∧ Spans leaves (spell v) rest

namespace Descent

variable {α : Type} {p q : Descent α} {Good : α → Prop} {spell : α → List Terminal}

/-! ## Parts of rules -/

/-- An alternative reads what either side of it reads. -/
theorem orElse_reads (hp : Reads p Good spell) (hq : Reads q Good spell) :
    Reads (p <|> q) Good spell := by
  intro leaves v rest h
  rw [result_orElse] at h
  cases hfirst : (p leaves).result with
  | some found =>
      rw [hfirst] at h
      exact hp leaves v rest (hfirst.trans h)
  | none =>
      rw [hfirst] at h
      exact hq leaves v rest h

/-- A leaf that is read is the only one taken. -/
theorem leaf_spans {read : Leaf → Option α} {leaves rest : List Leaf} {v : α}
    (h : (leaf read leaves).result = some (v, rest)) :
    ∃ first, leaves = first :: rest ∧ read first = some v := by
  cases leaves with
  | nil => cases h
  | cons first others =>
      rw [result_leaf_cons, Option.map_eq_some_iff] at h
      obtain ⟨value, hread, heq⟩ := h
      cases heq
      exact ⟨first, rfl, hread⟩

/-- The leaf of a terminal that is asked for spans it. -/
theorem exactly_spans {t : Terminal} {leaves rest : List Leaf} {v : Unit}
    (h : (exactly t leaves).result = some (v, rest)) : Spans leaves [t] rest := by
  obtain ⟨first, rfl, hread⟩ := leaf_spans h
  split at hread
  · next ht => exact ⟨[first], rfl, by simp [ht]⟩
  · cases hread

/-- A name that is read spans itself. -/
theorem name_reads : Reads name (fun _ => True) fun found => [.name found.value] := by
  intro leaves v rest h
  obtain ⟨first, rfl, hread⟩ := leaf_spans h
  split at hread
  · next text ht =>
      cases hread
      exact ⟨trivial, [first], rfl, by simp [ht]⟩
  · cases hread

/-- A keyword that is read spans its mark. -/
theorem keyword_spans {m : Mark} {leaves rest : List Leaf} {v : Unit}
    (h : (keyword m leaves).result = some (v, rest)) : Spans leaves [.mark m] rest :=
  exactly_spans ((result_keyword m leaves).symm.trans h)

/-- The end of a heading spans a colon and the end of its line. -/
theorem colonLine_spans {leaves rest : List Leaf} {v : Unit}
    (h : (colonLine leaves).result = some (v, rest)) :
    Spans leaves [.mark .colon, .newline] rest := by
  rw [result_colonLine, Option.bind_eq_some_iff] at h
  obtain ⟨⟨_, middle⟩, hcolon, hnewline⟩ := h
  exact (exactly_spans hcolon).trans (exactly_spans hnewline)

/-- At the end of the input nothing is taken, and the end is what comes next. -/
theorem endOfInput_spans {leaves rest : List Leaf} {v : Unit}
    (h : (endOfInput leaves).result = some (v, rest)) :
    rest = leaves ∧ rest.head?.map (·.terminal) = some .endOfInput := by
  cases leaves with
  | nil => cases h
  | cons first others =>
      simp only [endOfInput] at h
      split at h
      · next ht =>
          cases h
          exact ⟨rfl, by simp [ht]⟩
      · cases h

/-- What a repetition takes, value by value. -/
theorem repeated_spans (hp : Reads p Good spell) (leaves : List Leaf) :
    (∀ v ∈ (repeated p leaves).1, Good v) ∧
      Spans leaves ((repeated p leaves).1.flatMap spell) (repeated p leaves).2.1 := by
  fun_induction repeated p leaves with
  | case1 leaves reach hfail => simp
  | case2 leaves value rest reach hfound hlt values last later hrest ih =>
      obtain ⟨hgood, hspans⟩ := hp leaves value rest (by rw [hfound])
      rw [hrest] at ih
      exact ⟨List.forall_mem_cons.2 ⟨hgood, ih.1⟩, by
        simpa using hspans.trans ih.2⟩
  | case3 leaves value rest reach hfound hle => simp

/-- What is read again and again spans the texts of all that was found. -/
theorem many_reads (hp : Reads p Good spell) :
    Reads (many p) (fun vs => ∀ v ∈ vs, Good v) (·.flatMap spell) := by
  intro leaves vs rest h
  cases h
  exact repeated_spans hp leaves

/-- What is read once or more spans the texts of all that was found, and something was found. -/
theorem many1_reads (hp : Reads p Good spell) :
    Reads (many1 p) (fun vs => vs ≠ [] ∧ ∀ v ∈ vs, Good v) (·.flatMap spell) := by
  intro leaves vs rest h
  have hspans := repeated_spans hp leaves
  unfold many1 at h
  split at h
  · cases h
  · next values last reach hne hrepeated =>
      cases h
      rw [hrepeated] at hspans
      exact ⟨⟨by simpa using hne, hspans.1⟩, hspans.2⟩

/-- What may be left out spans its text if it was found, and nothing otherwise. -/
theorem optional_reads (hp : Reads p Good spell) :
    Reads (optional p) (fun v? => ∀ v ∈ v?, Good v) fun v? => (v?.map spell).getD [] := by
  intro leaves v? rest h
  rw [result_optional] at h
  cases hresult : (p leaves).result with
  | none =>
      rw [hresult] at h
      cases h
      simp
  | some found =>
      rw [hresult] at h
      cases h
      simpa using hp leaves _ _ hresult

/-- An item with the comma before it spans both. -/
theorem commaItem_reads (hp : Reads p Good spell) :
    Reads (commaItem p) Good fun v => .mark .comma :: spell v := by
  intro leaves v rest h
  simp only [commaItem, result_bind, Option.bind_eq_some_iff] at h
  obtain ⟨⟨_, middle⟩, hcomma, hitem⟩ := h
  obtain ⟨hgood, hspans⟩ := hp middle v rest hitem
  exact ⟨hgood, (exactly_spans hcomma).trans hspans⟩

/-- Items between commas span their texts with commas between them, and there is one or more. -/
theorem separated1_reads (hp : Reads p Good spell) :
    Reads (separated1 p) (fun vs => vs ≠ [] ∧ ∀ v ∈ vs, Good v)
      fun vs => commaSeparated (vs.map spell) := by
  intro leaves vs rest h
  simp only [separated1, result_bind, result_pure, Option.bind_eq_some_iff] at h
  obtain ⟨⟨first, middle⟩, hfirst, ⟨others, last⟩, hothers, heq⟩ := h
  cases heq
  obtain ⟨hgood, hspans⟩ := hp leaves first middle hfirst
  obtain ⟨hgoods, hrest⟩ := many_reads (commaItem_reads hp) middle others _ hothers
  refine ⟨⟨by simp, List.forall_mem_cons.2 ⟨hgood, hgoods⟩⟩, ?_⟩
  simpa [commaSeparated, List.flatMap_map] using hspans.trans hrest

/-- Items between commas, or none, span their texts with commas between them. -/
theorem separated_reads (hp : Reads p Good spell) :
    Reads (separated p) (fun vs => ∀ v ∈ vs, Good v) fun vs => commaSeparated (vs.map spell) := by
  refine orElse_reads (fun leaves vs rest h => ?_) fun leaves vs rest h => ?_
  · obtain ⟨⟨-, hgood⟩, hspans⟩ := separated1_reads hp leaves vs rest h
    exact ⟨hgood, hspans⟩
  · cases h
    simp [commaSeparated]

/-! ## Rules -/

/-- A literal of any sort spans its one terminal. -/
theorem literalOf_reads (sort : Terminal → Bool) :
    Reads (literalOf sort) Expr.Fresh Expr.terminals := by
  intro leaves e rest h
  obtain ⟨first, rfl, hread⟩ := leaf_spans h
  split at hread
  · obtain ⟨v, hliteral, rfl⟩ := Option.map_eq_some_iff.1 hread
    refine ⟨trivial, [first], rfl, ?_⟩
    have hterminal : first.terminal = v.terminal := by
      unfold Terminal.literal? at hliteral
      split at hliteral <;> cases hliteral <;> assumption
    simp [Expr.terminals, hterminal]
  · cases hread

/-- A literal spans its one terminal. -/
theorem literal_reads : Reads literal Expr.Fresh Expr.terminals :=
  orElse_reads (literalOf_reads _) (orElse_reads (literalOf_reads _) (literalOf_reads _))

/-- A reference spans its name, and is not bound yet. -/
theorem reference_reads : Reads reference Expr.Fresh Expr.terminals := by
  intro leaves e rest h
  simp only [reference, result_bind, result_pure, Option.bind_eq_some_iff] at h
  obtain ⟨⟨found, middle⟩, hname, heq⟩ := h
  cases heq
  exact ⟨rfl, (name_reads _ _ _ hname).2⟩

/-- A call spans its text if its arguments span theirs. -/
theorem call_reads {argument : Descent Expr}
    (hargument : Reads argument Expr.Fresh Expr.terminals) :
    Reads (call argument) Expr.Fresh Expr.terminals := by
  intro leaves e rest h
  simp only [call, result_bind, result_pure, Option.bind_eq_some_iff] at h
  obtain ⟨⟨found, _⟩, hname, _, hopen, ⟨args, _⟩, hargs, _, hclose, heq⟩ := h
  cases heq
  obtain ⟨hfresh, hspans⟩ := separated_reads hargument _ _ _ hargs
  have htaken := (name_reads _ _ _ hname).2.trans
    ((exactly_spans hopen).trans (hspans.trans (exactly_spans hclose)))
  exact ⟨by simpa [Expr.Fresh] using hfresh, by simpa [Expr.terminals] using htaken⟩

/-- An expression spans its text, however much fuel there is to read it. -/
theorem expression_reads (fuel : Nat) : Reads (expression fuel) Expr.Fresh Expr.terminals := by
  induction fuel with
  | zero =>
      intro leaves e rest h
      cases h
  | succ fuel ih => exact orElse_reads (call_reads ih) (orElse_reads literal_reads reference_reads)

/-- A type and a name span the two of them. -/
theorem typedName_spans {leaves rest : List Leaf} {found : Position × String × String}
    (h : (typedName leaves).result = some (found, rest)) :
    Spans leaves [.name found.2.1, .name found.2.2] rest := by
  simp only [typedName, result_bind, result_pure, Option.bind_eq_some_iff] at h
  obtain ⟨⟨typeName, _⟩, htype, ⟨slotName, _⟩, hname, heq⟩ := h
  cases heq
  exact (name_reads _ _ _ htype).2.trans (name_reads _ _ _ hname).2

section

variable {value : Descent Expr} (hvalue : Reads value Expr.Fresh Expr.terminals)

include hvalue

/-- A default spans the mark that announces it and its expression. -/
theorem default_reads (announced : Mark) :
    Reads (default announced value) Expr.Fresh fun e => .mark announced :: e.terminals := by
  intro leaves e rest h
  simp only [default, result_bind, Option.bind_eq_some_iff] at h
  obtain ⟨⟨_, middle⟩, hmark, he⟩ := h
  obtain ⟨hfresh, hspans⟩ := hvalue _ _ _ he
  exact ⟨hfresh, (exactly_spans hmark).trans hspans⟩

/-- A parameter spans its type, its name and its default. -/
theorem parameter_reads : Reads (parameter value) Slot.Fresh Slot.terminals := by
  intro leaves slot rest h
  simp only [parameter, result_bind, result_pure, Option.bind_eq_some_iff] at h
  obtain ⟨⟨⟨position, typeName, slotName⟩, _⟩, hnames, ⟨default?, _⟩, hdefault, heq⟩ := h
  cases heq
  obtain ⟨hfresh, hspans⟩ := optional_reads (default_reads hvalue .equals) _ _ _ hdefault
  exact ⟨hfresh, by
    simpa [Slot.terminals, Slot.defaultTerminals_eq] using (typedName_spans hnames).trans hspans⟩

/-- The end of a method spans the body and the end of the line. -/
theorem methodTail_reads :
    Reads (methodTail value) (fun body => ∀ e ∈ body, e.Fresh) Method.tailTerminals := by
  refine orElse_reads (fun leaves body rest h => ?_) fun leaves body rest h => ?_
  · simp only [methodBody, result_bind, result_pure, Option.bind_eq_some_iff] at h
    obtain ⟨_, hcolon, _, hindent, ⟨e, _⟩, he, _, hnewline, _, hdedent, heq⟩ := h
    cases heq
    obtain ⟨hfresh, hspans⟩ := hvalue _ _ _ he
    have htaken := (colonLine_spans hcolon).trans ((exactly_spans hindent).trans
      (hspans.trans ((exactly_spans hnewline).trans (exactly_spans hdedent))))
    exact ⟨by simpa using hfresh, htaken⟩
  · simp only [noBody, result_bind, result_pure, Option.bind_eq_some_iff] at h
    obtain ⟨_, hnewline, heq⟩ := h
    cases heq
    exact ⟨by simp, exactly_spans hnewline⟩

/-- A method spans its signature and its end. -/
theorem method_reads : Reads (method value) Member.Fresh Member.terminals := by
  intro leaves m rest h
  simp only [method, result_bind, result_pure, Option.bind_eq_some_iff] at h
  obtain ⟨⟨⟨position, returnType, methodName⟩, _⟩, hnames, _, hopen, ⟨slots, _⟩, hslots, _, hclose,
    ⟨body, _⟩, hbody, heq⟩ := h
  cases heq
  obtain ⟨hfresh, hspans⟩ := separated_reads (parameter_reads hvalue) _ _ _ hslots
  obtain ⟨hbodyFresh, hbodySpans⟩ := methodTail_reads hvalue _ _ _ hbody
  have htaken := (typedName_spans hnames).trans ((exactly_spans hopen).trans
    (hspans.trans ((exactly_spans hclose).trans hbodySpans)))
  exact ⟨⟨hfresh, hbodyFresh⟩, by simpa [Member.terminals, Method.terminals] using htaken⟩

/-- A stored attribute spans its text. -/
theorem stored_reads : Reads (stored value) Member.Fresh Member.terminals := by
  intro leaves m rest h
  simp only [stored, result_bind, result_pure, Option.bind_eq_some_iff] at h
  obtain ⟨⟨typeName, _⟩, htype, _, hat, ⟨slotName, _⟩, hname, ⟨default?, _⟩, hdefault, _, hnewline,
    heq⟩ := h
  cases heq
  obtain ⟨hfresh, hspans⟩ := optional_reads (default_reads hvalue .assign) _ _ _ hdefault
  have htaken := (name_reads _ _ _ htype).2.trans ((exactly_spans hat).trans
    ((name_reads _ _ _ hname).2.trans (hspans.trans (exactly_spans hnewline))))
  exact ⟨hfresh, by simpa [Member.terminals, Slot.defaultTerminals_eq] using htaken⟩

omit hvalue in
/-- An attribute that is only announced spans its type, its name and the end of the line. -/
theorem announced_reads : Reads announced Member.Fresh Member.terminals := by
  intro leaves m rest h
  simp only [announced, result_bind, result_pure, Option.bind_eq_some_iff] at h
  obtain ⟨⟨⟨position, typeName, slotName⟩, _⟩, hnames, _, hnewline, heq⟩ := h
  cases heq
  exact ⟨rfl, (typedName_spans hnames).trans (exactly_spans hnewline)⟩

/-- A member of any kind spans its text. -/
theorem member_reads : Reads (member value) Member.Fresh Member.terminals :=
  orElse_reads (method_reads hvalue) (orElse_reads (stored_reads hvalue) announced_reads)

omit hvalue in
/-- A list of interfaces spans the word before it and the names between commas. -/
theorem interfaces_reads :
    Reads interfaces (fun _ => True) Decl.interfaceTerminals := by
  intro leaves refs rest h
  simp only [interfaces, result_bind, Option.bind_eq_some_iff] at h
  obtain ⟨_, hkeyword, hnames⟩ := h
  obtain ⟨⟨hne, -⟩, hspans⟩ := separated1_reads name_reads _ _ _ hnames
  refine ⟨trivial, ?_⟩
  cases refs with
  | nil => contradiction
  | cons ref refs => exact (keyword_spans hkeyword).trans hspans

/-- A declaration spans its heading and the block of its members. -/
theorem declaration_reads : Reads (declaration value) Decl.Fresh Decl.terminals := by
  intro leaves decl rest h
  simp only [declaration, result_bind, result_pure, Option.bind_eq_some_iff] at h
  obtain ⟨⟨position, _⟩, hposition, _, hobject, ⟨found, _⟩, hname, ⟨listed, _⟩, hlisted, _, hcolon,
    _, hindent, ⟨members, _⟩, hmembers, _, hdedent, heq⟩ := h
  cases heq
  obtain ⟨_, -, hposition⟩ := Option.map_eq_some_iff.1 hposition
  cases hposition
  have hclause := (optional_reads interfaces_reads _ _ _ hlisted).2
  obtain ⟨⟨hne, hfresh⟩, hspans⟩ := many1_reads (member_reads hvalue) _ _ _ hmembers
  have hinterfaces : (listed.map Decl.interfaceTerminals).getD [] =
      Decl.interfaceTerminals (listed.getD []) := by
    cases listed <;> rfl
  simp only [hinterfaces] at hclause
  have htaken := (keyword_spans hobject).trans ((name_reads _ _ _ hname).2.trans
    (hclause.trans ((colonLine_spans hcolon).trans ((exactly_spans hindent).trans
      (hspans.trans (exactly_spans hdedent))))))
  exact ⟨⟨rfl, hne, hfresh⟩, by simpa [Decl.terminals] using htaken⟩

/-- Declarations that are read have taken all leaves. -/
theorem program_reads {leaves rest : List Leaf} {decls : List Decl}
    (h : (program value leaves).result = some (decls, rest)) :
    (∀ decl ∈ decls, decl.Fresh) ∧ Spans leaves (decls.flatMap Decl.terminals) rest ∧
      rest.head?.map (·.terminal) = some .endOfInput := by
  simp only [program, result_bind, result_pure, Option.bind_eq_some_iff] at h
  obtain ⟨⟨found, middle⟩, hdecls, ⟨_, _⟩, hend, heq⟩ := h
  cases heq
  obtain ⟨hfresh, hspans⟩ := many_reads (declaration_reads hvalue) _ _ _ hdecls
  obtain ⟨rfl, hlast⟩ := endOfInput_spans hend
  exact ⟨hfresh, hspans, hlast⟩

end

end Descent

end EoJava.Grammar
