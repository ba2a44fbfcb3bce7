import EoJava.Proofs.Grammar.Spellings

/-!
# The grammar follows the descent

Every rule of the grammar, on printed text, follows the descent of the same name on leaves, up to
`program_follows`. The trees that the rules build are those of the descent: every way back to a
token succeeds, so no rule breaks down.
-/

namespace EoJava.Grammar

open Text (Cursor)
open Matcher (skip rule)

variable (sheet : Sheet)

/-! ## Expressions -/

/-- A literal of one sort, if what is built from the text of its leaf is the literal of the leaf. -/
theorem literalOf_follows {description : String} {sort : Terminal → Bool}
    {take? : List Char → Option (List Char × List Char)}
    {build : Nat × List Char → Except Breakdown Expr} (hempty : take? [] = none)
    (hend : sort .endOfInput = false)
    (htake : ∀ {t : Terminal} {rest : List Char}, t.Legible → t ≠ .endOfInput →
      take? (t.print ++ ' ' :: rest) = if sort t then some (t.print, ' ' :: rest) else none)
    (hliteral : ∀ t, sort t → t.literal?.isSome)
    (hbuild : ∀ start leaf value, sheet.Starts start leaf → sort leaf.terminal →
      leaf.terminal.literal? = some value →
        Builds (build (start, leaf.terminal.print)) (.literal leaf.position value)) :
    Follows sheet (do let found ← Matcher.described description take?; pure (build found))
      (Descent.literalOf sort) Builds := by
  refine (described_follows _ hempty hend htake fun leaf => ?_).map ?_
  · cases hsort : sort leaf.terminal with
    | false => simp
    | true => simpa using hliteral _ hsort
  · rintro ⟨start, taken⟩ e ⟨leaf, hstarts, htaken, hread⟩
    obtain rfl : taken = leaf.terminal.print := htaken
    split at hread
    · next hsort =>
        obtain ⟨value, hvalue, rfl⟩ := Option.map_eq_some_iff.1 hread
        exact hbuild start leaf value hstarts hsort hvalue
    · cases hread

theorem isSome_literal? {t : Terminal} (h : t.isString ∨ t.isNumber ∨ t.isTruth) :
    t.literal?.isSome := by
  unfold Terminal.literal?
  split
  case h_5 hstring hnumber htrue hfalse =>
    cases t <;> simp_all [Terminal.isString, Terminal.isNumber, Terminal.isTruth]
  all_goals rfl

/-- The way back from the start of a string leads to a token at its place and with its text. -/
theorem exists_token_of_starts {start : Nat} {leaf : Leaf} {value : String}
    (hstarts : sheet.Starts start leaf) (hleaf : leaf.terminal = .string value) :
    ∃ token, sheet.anchors.token start = .ok token ∧ token.position = leaf.position ∧
      sheet.anchors.text token = .ok value := by
  have hposition := hstarts.position
  have htext := hstarts.text value hleaf
  simp only [Anchors.position] at hposition
  cases htoken : sheet.anchors.token start with
  | error breakdown =>
      rw [htoken] at hposition
      cases hposition
  | ok token =>
      rw [htoken] at hposition htext
      exact ⟨token, rfl, Except.ok.inj hposition, htext⟩

/-- A string literal has the text of its token, the others are read from the printed text. -/
theorem literal_follows : Follows sheet (literal sheet.anchors) Descent.literal Builds := by
  refine Follows.rule (Follows.orElse ?_ (Follows.orElse ?_ ?_))
  · refine literalOf_follows sheet rfl rfl takeString?_print
      (fun t ht => isSome_literal? (.inl ht)) fun start leaf value hstarts hsort hliteral => ?_
    obtain ⟨text, hleaf⟩ : ∃ text, leaf.terminal = .string text := by
      revert hsort
      cases leaf.terminal <;> simp [Terminal.isString]
    obtain ⟨token, htoken, hposition, htext⟩ := exists_token_of_starts sheet hstarts hleaf
    rw [hleaf] at hliteral
    cases hliteral
    simp only [Builds, htoken, htext, ok_bind, hposition]
    rfl
  · refine literalOf_follows sheet rfl rfl take?_print
      (fun t ht => isSome_literal? (.inr (.inl ht)))
      fun start leaf value hstarts hsort hliteral => ?_
    have hposition := hstarts.position
    obtain ⟨index, position, terminal⟩ := leaf
    cases terminal <;> cases hsort
    cases hliteral
    simp only [Builds, hposition, Terminal.print, String.ofList_toList]
    rfl
  · refine literalOf_follows sheet rfl rfl takeBoolean?_print
      (fun t ht => isSome_literal? (.inr (.inr ht)))
      fun start leaf value hstarts hsort hliteral => ?_
    have hposition := hstarts.position
    obtain ⟨index, position, terminal⟩ := leaf
    rcases terminal with _ | _ | _ | m | _ | _ | _ | _ <;> try cases m
    all_goals cases hsort
    all_goals
      cases hliteral
      simp only [Builds, hposition]
      rfl

/-- The matcher of references follows the descent of one. -/
theorem reference_follows : Follows sheet (reference sheet.anchors) Descent.reference Builds := by
  refine name_follows.bind fun found read h => follows_pure ?_
  obtain ⟨hposition, hname⟩ := h
  rw [Builds, hposition, ← hname]
  rfl

/-- The matcher of calls follows the descent of one if that of the arguments does. -/
theorem call_follows {argument : Matcher (Except Breakdown Expr)} {value : Descent Expr}
    (h : Follows sheet argument value Builds) (hreads : Reads value Expr.Fresh Expr.terminals) :
    Follows sheet (call sheet.anchors argument) (Descent.call value) Builds := by
  refine Follows.rule (name_follows.bind fun found read hname => ?_)
  refine leftParen_follows.bind fun _ _ _ => ?_
  refine (h.separated hreads comma_follows).bind fun args values hargs => ?_
  refine rightParen_follows.bind fun _ _ _ => ?_
  refine follows_pure ?_
  obtain ⟨hposition, hname⟩ := hname
  have hmap : args.mapM id = .ok values := mapM_builds hargs
  rw [Builds, hposition, hmap, ← hname]
  rfl

/-- The matcher of expressions follows the descent of one, with any fuel. -/
theorem expression_follows (fuel : Nat) :
    Follows sheet (expression sheet.anchors fuel) (Descent.expression fuel) Builds := by
  induction fuel with
  | zero => exact fun _ _ _ => ⟨.none, sheet.index_zero⟩
  | succ fuel ih =>
      exact Follows.rule ((call_follows sheet ih (Descent.expression_reads fuel)).orElse
        ((literal_follows sheet).orElse (reference_follows sheet)))

/-! ## Members -/

/-- Two names that were read are those of a typed name. -/
def TypedNameAt (found : Nat × String × String) (read : Position × String × String) : Prop :=
  sheet.anchors.position found.1 = .ok read.1 ∧ found.2 = read.2

/-- The matcher of a type and a name follows the descent of both. -/
theorem typedName_follows : Follows sheet typedName Descent.typedName (TypedNameAt sheet) := by
  refine name_follows.bind fun found read hfirst => name_follows.bind fun _ _ hsecond => ?_
  exact follows_pure ⟨hfirst.1, Prod.ext hfirst.2 hsecond.2⟩

variable {value : Matcher (Except Breakdown Expr)} {descent : Descent Expr}
variable (hvalue : Follows sheet value descent Builds)

include hvalue

/-- The matcher of defaults follows the descent of one, behind any symbol but the colon. -/
theorem default_follows {m : Mark} (hs : .mark m ∈ Terminal.symbols) (hcolon : m ≠ .colon) :
    Follows sheet (default m.text value) (Descent.default m descent) Builds :=
  Follows.rule ((spelling_follows hs hcolon).bind fun _ _ _ => hvalue)

omit hvalue in
/-- A slot is built from its parts. -/
theorem slot_builds {start : Nat} {position : Position} {default? : Option (Except Breakdown Expr)}
    {value? : Option Expr} (hposition : sheet.anchors.position start = .ok position)
    (hdefault : Option.Rel Builds default? value?) (typeName slotName : String) :
    Builds (slot sheet.anchors start typeName slotName default?)
      { position, typeName, name := slotName, default? := value? } := by
  have hbuilt := mapM?_builds hdefault
  rw [Builds] at hbuilt
  rw [Builds, slot, hposition, hbuilt]
  rfl

/-- The matcher of parameters follows the descent of one. -/
theorem parameter_follows :
    Follows sheet (parameter sheet.anchors value) (Descent.parameter descent) Builds := by
  refine Follows.rule ((typedName_follows sheet).bind fun found read hnames => ?_)
  refine (default_follows sheet hvalue (m := .equals) (by decide) (by decide)).optional.bind
    fun default? value? hdefault => follows_pure ?_
  obtain ⟨start, typeName, slotName⟩ := found
  obtain ⟨position, _, _⟩ := read
  obtain ⟨hposition, heq⟩ := hnames
  cases heq
  exact slot_builds sheet hposition hdefault typeName slotName

/-- The matcher of the ends of methods follows the descent of one. -/
theorem methodTail_follows :
    Follows sheet (methodTail value) (Descent.methodTail descent) (Option.Rel Builds) := by
  refine Follows.rule (Follows.orElse (Follows.rule (Follows.of_grouped ?_)) (Follows.rule ?_))
  · refine colonLine_follows.bind fun _ _ _ => indent_follows.bind fun _ _ _ => ?_
    refine hvalue.bind fun body e hbody => newline_follows.bind fun _ _ _ => ?_
    exact dedent_follows.bind fun _ _ _ => follows_pure (.some hbody)
  · exact newline_follows.bind fun _ _ _ => follows_pure .none

/-- The matcher of methods follows the descent of one. -/
theorem method_follows (hreads : Reads descent Expr.Fresh Expr.terminals) :
    Follows sheet (method sheet.anchors value) (Descent.method descent) Builds := by
  refine Follows.rule ((typedName_follows sheet).bind fun found read hnames => ?_)
  refine leftParen_follows.bind fun _ _ _ => ?_
  have hparameters := (parameter_follows sheet hvalue).separated
    (Descent.parameter_reads hreads) comma_follows
  refine hparameters.bind fun slots values hslots => ?_
  refine rightParen_follows.bind fun _ _ _ => ?_
  refine (methodTail_follows sheet hvalue).bind fun body e hbody => follows_pure ?_
  obtain ⟨start, returnType, methodName⟩ := found
  obtain ⟨position, _, _⟩ := read
  obtain ⟨hposition, heq⟩ := hnames
  cases heq
  have hposition : sheet.anchors.position start = .ok position := hposition
  have hbody : body.mapM id = .ok e := mapM?_builds hbody
  have hslots : slots.mapM id = .ok values := mapM_builds hslots
  rw [Builds, hposition, hbody, hslots]
  rfl

/-- The matcher of attributes tries both kinds, and so does the descent. -/
theorem memberAttribute_follows :
    Follows sheet (memberAttribute sheet.anchors value)
      (Descent.stored descent <|> Descent.announced) Builds := by
  refine Follows.rule (Follows.orElse (Follows.rule ?_) (Follows.rule ?_))
  · refine name_follows.bind fun found read hname => ?_
    refine atSign_follows.bind fun _ _ _ => ?_
    refine name_follows.bind fun found' read' hname' => ?_
    refine (default_follows sheet hvalue (m := .assign) (by decide)
      (by decide)).optional.bind fun default? value? hdefault => ?_
    refine newline_follows.bind fun _ _ _ => follows_pure ?_
    have hslot : slot sheet.anchors found.1 (String.ofList found.2) (String.ofList found'.2)
        default? = .ok _ := slot_builds sheet hname.1 hdefault _ _
    rw [Builds, hslot, hname.2, hname'.2]
    rfl
  · refine (typedName_follows sheet).bind fun found read hnames => ?_
    refine newline_follows.bind fun _ _ _ => follows_pure ?_
    obtain ⟨start, typeName, slotName⟩ := found
    obtain ⟨position, _, _⟩ := read
    obtain ⟨hposition, heq⟩ := hnames
    cases heq
    have hslot : slot sheet.anchors start typeName slotName none = .ok _ :=
      slot_builds sheet hposition .none typeName slotName
    rw [Builds, hslot]
    rfl

/-- The matcher of members follows the descent of one. -/
theorem member_follows (hreads : Reads descent Expr.Fresh Expr.terminals) :
    Follows sheet (member sheet.anchors value) (Descent.member descent) Builds :=
  Follows.rule ((method_follows sheet hvalue hreads).orElse (memberAttribute_follows sheet hvalue))

/-! ## Declarations -/

omit hvalue in
/-- The matcher of interfaces follows the descent of them. -/
theorem interfaces_follows :
    Follows sheet (interfaces sheet.anchors) Descent.interfaces Builds := by
  refine Follows.rule ((keyword_follows (by decide)).bind fun _ _ _ => ?_)
  refine (name_follows.separated1 Descent.name_reads comma_follows).map fun names refs hnames => ?_
  refine mapM_builds (hnames.imp fun found ref hname => ?_)
  obtain ⟨start, taken⟩ := found
  obtain ⟨hposition, htaken⟩ := hname
  have hposition : sheet.anchors.position start = .ok ref.position := hposition
  have htaken : String.ofList taken = ref.value := htaken
  simp only [Builds, hposition, htaken]
  rfl

omit hvalue in
/-- Where no white space stands, the offset is that of the first leaf. -/
theorem position_follows {leaves : List Leaf} {cursor : Cursor} (hshows : sheet.Shows leaves cursor)
    (hskip : skip cursor = cursor) :
    FollowsAt sheet Matcher.offset Descent.position
      (fun start position => sheet.anchors.position start = .ok position) leaves cursor := by
  refine ⟨?_, sheet.index_zero⟩
  have hshown := hshows
  cases hshows with
  | stop _ _ hstarts | leaf _ _ _ hstarts =>
      rw [hskip] at hstarts
      exact .some ⟨hstarts.position, hshown, Nat.le_of_eq (Nat.add_comm ..)⟩

/-- The matcher of declarations follows the descent of one. -/
theorem declaration_follows (hreads : Reads descent Expr.Fresh Expr.terminals) :
    Follows sheet (declaration sheet.anchors value) (Descent.declaration descent) Builds := by
  -- The place is read before any leaf, so white space has to be skipped by then.
  refine follows_rule_of_skipped fun leaves cursor hshows hskip => ?_
  refine (position_follows sheet hshows hskip).bind fun start position hposition => ?_
  refine (keyword_follows (by decide)).bind fun _ _ _ => ?_
  refine name_follows.bind fun found read hname => ?_
  refine (interfaces_follows sheet).optional.bind fun listed refs? hlisted => ?_
  refine Follows.of_grouped (colonLine_follows.bind fun _ _ _ => ?_)
  refine indent_follows.bind fun _ _ _ => ?_
  refine ((member_follows sheet hvalue hreads).many1 (Descent.member_reads hreads)
    Member.terminals_ne_nil).bind fun built members hmembers => ?_
  refine dedent_follows.bind fun _ _ _ => follows_pure ?_
  have hmembers : built.mapM id = .ok members := mapM_builds hmembers
  have hinterfaces : listed.getD (pure []) = .ok (refs?.getD []) := by
    cases hlisted with
    | none => rfl
    | some h => exact h
  rw [Builds, hposition, hinterfaces, hmembers, hname.2]
  rfl

omit hvalue in
/-- The end of the text is where the end of the input stands. -/
theorem endOfText_follows :
    Follows sheet Matcher.endOfText Descent.endOfInput fun _ _ => True := by
  intro leaves cursor hshows
  cases hshows with
  | @stop leaf _ hterminal hrest hstarts =>
      have hm : Matcher.endOfText cursor = ⟨some ((), skip cursor), .clear⟩ := by
        simp only [Matcher.endOfText, hrest]
      have hp : Descent.endOfInput [leaf] = ⟨some ((), [leaf]), 0⟩ := by
        simp [Descent.endOfInput, hterminal]
      refine ⟨?_, ?_⟩
      · rw [hm, hp]
        refine .some ⟨trivial, (Sheet.Shows.stop hterminal hrest hstarts).skip, ?_⟩
        have hlength := length_skip_le cursor
        simp only
        omega
      · rw [hm, hp]
        exact sheet.index_zero
  | @leaf leaf others _ gap hlegible hne hrest hstarts hinside hothers =>
      have hm : Matcher.endOfText cursor =
          ⟨none, .single (skip cursor).offset (.thing "end of input")⟩ := by
        obtain ⟨c, cs, hprint, -⟩ := print_head hlegible hne
        simp only [Matcher.endOfText, hrest, hprint, List.cons_append]
      exact followsAt_refused hstarts hm (by simp [Descent.endOfInput, hne])

/-- The matcher of the whole grammar follows the descent of a program. -/
theorem program_follows (hreads : Reads descent Expr.Fresh Expr.terminals) :
    Follows sheet (program sheet.anchors value) (Descent.program descent) Builds := by
  have hdeclarations := (declaration_follows sheet hvalue hreads).many
    (Descent.declaration_reads hreads) (by simp [Decl.terminals])
  refine Follows.rule (hdeclarations.bind fun built decls hdecls => ?_)
  exact (endOfText_follows sheet).bind fun _ _ _ => follows_pure (mapM_builds hdecls)

end EoJava.Grammar
