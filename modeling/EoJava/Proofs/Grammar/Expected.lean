import EoJava.Proofs.Breakdown
import EoJava.Proofs.Diagnostic.Unbroken
import EoJava.Proofs.Grammar.Parsing

/-!
# What the grammar expects is told on one line

Spellings are shown between quotes and everything else by a description of its own, so no
expectation holds a line feed. Sequence, choice and repetition only collect expectations
(`Matcher.Unbroken`), and what was expected at a frontier is told on one line
(`unbroken_program`, `Frontier.Unbroken.describe`).
-/

namespace EoJava

open Text (Cursor)

/-- A quoted text is on one line. -/
theorem Text.Quoted.unbroken_quote (text : List Char) : Text.Unbroken (quote text) := by
  have hescaped : Text.Unbroken (text.flatMap escape) := by
    intro hmem
    obtain ⟨c, -, hc⟩ := List.mem_flatMap.1 hmem
    exact absurd (Grammar.printable_escape c _ hc) (by decide)
  rw [quote, Text.unbroken_cons, Text.unbroken_append]
  exact ⟨by decide, hescaped, by decide⟩

namespace Grammar

/-! ## Frontiers -/

namespace Frontier

/-- What is expected at a frontier is described without line feeds. -/
def Unbroken (frontier : Frontier) : Prop :=
  ∀ wanted ∈ frontier.wanted, Text.Unbroken wanted.what.describe.toList

variable {earlier later frontier : Frontier}

/-- Nothing is expected at a clear frontier. -/
theorem unbroken_clear : clear.Unbroken :=
  List.forall_mem_nil _

/-- A frontier at which one thing is expected shows the description of this one. -/
theorem unbroken_single {what : Expectation} (h : Text.Unbroken what.describe.toList)
    (offset : Nat) : (single offset what).Unbroken :=
  List.forall_mem_singleton.2 h

/-- Of two frontiers together nothing is expected that neither of them expects. -/
theorem Unbroken.followedBy (hearlier : earlier.Unbroken) (hlater : later.Unbroken) :
    (earlier.followedBy later).Unbroken := by
  unfold Frontier.followedBy
  split
  · exact hearlier
  · split
    · exact hlater
    · refine List.forall_mem_append.2 ⟨List.forall_mem_map.2 hlater, fun wanted hwanted => ?_⟩
      exact hearlier wanted (List.mem_filter.1 hwanted).1

/-- Settling a frontier only drops what is expected. -/
theorem Unbroken.settle (h : frontier.Unbroken) (reached : Nat) :
    (frontier.settle reached).Unbroken := by
  unfold Frontier.settle
  split
  · exact List.forall_mem_map.2 h
  · exact h

/-- Names that are listed with commas and words between them are on one line if each is. -/
theorem unbroken_enumerate {items : List String} (h : ∀ item ∈ items, Text.Unbroken item.toList) :
    Text.Unbroken (enumerate items).toList := by
  fun_cases enumerate items with
  | case1 => decide
  | case2 a => simpa using h
  | case3 a b => simpa using h
  | case4 items =>
      have hlast : Text.Unbroken (items.getLast?.getD "").toList := by
        cases hitem : items.getLast? with
        | none => decide
        | some item => exact h item (List.mem_of_getLast? hitem)
      have hlisted : Text.Unbroken (", ".intercalate items.dropLast).toList :=
        Text.unbroken_intercalate (by decide) fun item hitem => h item (List.dropLast_subset _ hitem)
      simp only [String.toList_append, Text.unbroken_append]
      exact ⟨⟨hlisted, by decide⟩, hlast⟩

/-- What was expected at a frontier is told on one line. -/
theorem Unbroken.describe (h : frontier.Unbroken) : Text.Unbroken frontier.describe.toList := by
  simp only [Frontier.describe, String.toList_append, Text.unbroken_append]
  refine ⟨by decide, unbroken_enumerate (List.forall_mem_map.2 fun wanted hwanted => ?_)⟩
  exact h wanted (List.mem_filter.1 hwanted).1

end Frontier

/-! ## Matchers -/

namespace Matcher

/-- Whatever a matcher expects, and wherever, is described without line feeds. -/
def Unbroken {α : Type} (matcher : Matcher α) : Prop :=
  ∀ cursor, (matcher cursor).frontier.Unbroken

variable {α β : Type} {matcher first second : Matcher α}

/-- A matcher that takes nothing expects nothing. -/
theorem unbroken_pure (value : α) : (pure value : Matcher α).Unbroken :=
  fun _ => Frontier.unbroken_clear

/-- A matcher that always fails expects nothing. -/
theorem unbroken_never : (never : Matcher α).Unbroken :=
  fun _ => Frontier.unbroken_clear

/-- Asking for the offset expects nothing. -/
theorem unbroken_offset : offset.Unbroken :=
  fun _ => Frontier.unbroken_clear

/-- Matchers in turn expect what each of them does. -/
theorem Unbroken.bind (hfirst : first.Unbroken) {next : α → Matcher β}
    (hnext : ∀ value, (next value).Unbroken) : (first >>= next).Unbroken := by
  intro cursor
  show (Matcher.bind first next cursor).frontier.Unbroken
  have hthere := hfirst cursor
  unfold Matcher.bind
  generalize first cursor = attempt at hthere
  obtain ⟨_ | ⟨value, after⟩, frontier⟩ := attempt
  · exact hthere
  · exact hthere.followedBy (hnext value after)

/-- Alternatives expect what each of them does. -/
theorem Unbroken.orElse (hfirst : first.Unbroken) (hsecond : second.Unbroken) :
    (first <|> second).Unbroken := by
  intro cursor
  show (Matcher.orElse first second cursor).frontier.Unbroken
  have hthere := hfirst cursor
  unfold Matcher.orElse
  generalize first cursor = attempt at hthere
  obtain ⟨_ | found, frontier⟩ := attempt
  · exact hthere.followedBy (hsecond cursor)
  · exact hthere

/-- A settled matcher expects no more than it did. -/
theorem Unbroken.settled (h : matcher.Unbroken) : matcher.settled.Unbroken := by
  intro cursor
  have hthere := h cursor
  unfold Matcher.settled
  generalize matcher cursor = attempt at hthere
  obtain ⟨_ | ⟨value, after⟩, frontier⟩ := attempt
  · exact hthere
  · exact hthere.settle after.offset

/-- A rule expects what its body does. -/
theorem Unbroken.rule (h : matcher.Unbroken) : (rule matcher).Unbroken :=
  fun cursor => h.settled (skip cursor)

/-- Each round of a repetition expects what the matcher does. -/
theorem Unbroken.repeated (h : matcher.Unbroken) (cursor : Cursor) :
    (repeated matcher cursor).2.2.Unbroken := by
  fun_induction Matcher.repeated matcher cursor with
  | case1 cursor frontier hnone =>
      have hthere := h cursor
      rwa [hnone] at hthere
  | case2 cursor value after frontier hsome hlt values last later hrest ih =>
      have hthere := h cursor
      rw [hsome] at hthere
      rw [hrest] at ih
      exact hthere.followedBy ih
  | case3 cursor value after frontier hsome hle =>
      have hthere := h cursor
      rwa [hsome] at hthere

/-- A repetition expects what the matcher does. -/
theorem Unbroken.many (h : matcher.Unbroken) : (many matcher).Unbroken :=
  Unbroken.settled fun cursor => h.repeated cursor

/-- A repetition of one or more expects what the matcher does. -/
theorem Unbroken.many1 (h : matcher.Unbroken) : (many1 matcher).Unbroken := by
  refine Unbroken.settled fun cursor => ?_
  have hthere := h.repeated cursor
  generalize Matcher.repeated matcher cursor = found at hthere
  obtain ⟨_ | ⟨value, values⟩, after, frontier⟩ := found <;> exact hthere

/-- An option expects what the matcher does. -/
theorem Unbroken.optional (h : matcher.Unbroken) : (optional matcher).Unbroken := by
  refine Unbroken.settled fun cursor => ?_
  have hthere := h cursor
  generalize matcher cursor = attempt at hthere
  obtain ⟨_ | found, frontier⟩ := attempt <;> exact hthere

/-- A text is expected in quotes, and these hide its line feeds. -/
theorem unbroken_spelling (text : String) : (spelling text).Unbroken := by
  intro cursor
  dsimp only [spelling]
  split
  · exact Frontier.unbroken_clear
  · refine Frontier.unbroken_single ?_ _
    rw [Expectation.describe, String.toList_ofList]
    exact Text.Quoted.unbroken_quote text.toList

/-- A rule with a description expects this description. -/
theorem unbroken_described {description : String} (h : Text.Unbroken description.toList)
    (take? : List Char → Option (List Char × List Char)) : (described description take?).Unbroken := by
  intro cursor
  have hthing : Text.Unbroken (Expectation.thing description).describe.toList := h
  dsimp only [described]
  split
  · exact Frontier.unbroken_clear
  · exact Frontier.unbroken_single hthing _

/-- The end of the input is expected under its name. -/
theorem unbroken_endOfText : endOfText.Unbroken := by
  intro cursor
  dsimp only [endOfText]
  split
  · exact Frontier.unbroken_clear
  · exact Frontier.unbroken_single (by decide) _

/-- One or more items expect what the items do, or the separator. -/
theorem Unbroken.separated1 (h : matcher.Unbroken) (separator : String) :
    (separated1 matcher separator).Unbroken :=
  .rule (h.bind fun _ => .bind
    (.many (.settled ((unbroken_spelling separator).bind fun _ => h))) fun _ => unbroken_pure _)

/-- Items expect what the items do, or the separator. -/
theorem Unbroken.separated (h : matcher.Unbroken) (separator : String) :
    (separated matcher separator).Unbroken :=
  .rule (.orElse (h.separated1 separator) (.rule (unbroken_pure [])))

/-- A keyword expects its text or the end of a name. -/
theorem unbroken_keyword (mark : Mark) : (keyword mark).Unbroken := by
  intro cursor
  have hthere := unbroken_spelling mark.text cursor
  dsimp only [keyword]
  split
  · exact hthere
  · split
    · split
      · exact Frontier.unbroken_single (by decide) _
      · exact hthere
    · exact hthere

/-- A name is expected under its description. -/
theorem unbroken_name : name.Unbroken :=
  unbroken_described (by decide) _

/-- The end of a line is expected under its description. -/
theorem unbroken_newline : newline.Unbroken :=
  unbroken_described (by decide) _

/-- The start of a block is expected under its description. -/
theorem unbroken_indent : indent.Unbroken :=
  unbroken_described (by decide) _

/-- The end of a block is expected under its description. -/
theorem unbroken_dedent : dedent.Unbroken :=
  unbroken_described (by decide) _

end Matcher

/-! ## Rules -/

open Matcher

variable (anchors : Anchors)

/-- A literal expects nothing that is described on two lines. -/
theorem unbroken_literal : (literal anchors).Unbroken := by
  have hstring : string.Unbroken := unbroken_described (by decide) _
  have hnumber : number.Unbroken := unbroken_described (by decide) _
  have hboolean : boolean.Unbroken := unbroken_described (by decide) _
  exact .rule (.orElse (hstring.bind fun _ => unbroken_pure _)
    (.orElse (hnumber.bind fun _ => unbroken_pure _) (hboolean.bind fun _ => unbroken_pure _)))

/-- A reference expects nothing that is described on two lines. -/
theorem unbroken_reference : (reference anchors).Unbroken :=
  unbroken_name.bind fun _ => unbroken_pure _

/-- A call expects nothing that is described on two lines, if no argument does. -/
theorem unbroken_call {argument : Matcher (Except Breakdown Expr)} (h : argument.Unbroken) :
    (call anchors argument).Unbroken :=
  .rule (unbroken_name.bind fun _ => (unbroken_spelling "(").bind fun _ =>
    (h.separated ",").bind fun _ => (unbroken_spelling ")").bind fun _ => unbroken_pure _)

/-- An expression expects nothing that is described on two lines. -/
theorem unbroken_expression (fuel : Nat) : (expression anchors fuel).Unbroken := by
  induction fuel with
  | zero => exact unbroken_never
  | succ fuel ih =>
      exact .rule (.orElse (unbroken_call anchors ih)
        (.orElse (unbroken_literal anchors) (unbroken_reference anchors)))

/-- A type and a name expect nothing that is described on two lines. -/
theorem unbroken_typedName : typedName.Unbroken :=
  unbroken_name.bind fun _ => unbroken_name.bind fun _ => unbroken_pure _

/-- A list of interfaces expects nothing that is described on two lines. -/
theorem unbroken_interfaces : (interfaces anchors).Unbroken :=
  .rule ((unbroken_keyword .asWord).bind fun _ => (unbroken_name.separated1 ",").bind fun _ =>
    unbroken_pure _)

section

variable {value : Matcher (Except Breakdown Expr)} (hvalue : value.Unbroken)

include hvalue

/-- A default expects nothing that is described on two lines. -/
theorem unbroken_default (announced : String) : (default announced value).Unbroken :=
  .rule ((unbroken_spelling announced).bind fun _ => hvalue)

/-- A parameter expects nothing that is described on two lines. -/
theorem unbroken_parameter : (parameter anchors value).Unbroken :=
  .rule (unbroken_typedName.bind fun _ =>
    (unbroken_default hvalue "=").optional.bind fun _ => unbroken_pure _)

/-- The end of a method expects nothing that is described on two lines. -/
theorem unbroken_methodTail : (methodTail value).Unbroken := by
  refine .rule (.orElse (.rule ?_) (.rule ?_))
  · exact (unbroken_spelling ":").bind fun _ => unbroken_newline.bind fun _ =>
      unbroken_indent.bind fun _ => hvalue.bind fun _ => unbroken_newline.bind fun _ =>
        unbroken_dedent.bind fun _ => unbroken_pure _
  · exact unbroken_newline.bind fun _ => unbroken_pure _

/-- A method expects nothing that is described on two lines. -/
theorem unbroken_method : (method anchors value).Unbroken :=
  .rule (unbroken_typedName.bind fun _ => (unbroken_spelling "(").bind fun _ =>
    ((unbroken_parameter anchors hvalue).separated ",").bind fun _ =>
      (unbroken_spelling ")").bind fun _ => (unbroken_methodTail hvalue).bind fun _ =>
        unbroken_pure _)

/-- An attribute expects nothing that is described on two lines. -/
theorem unbroken_memberAttribute : (memberAttribute anchors value).Unbroken := by
  refine .rule (.orElse (.rule ?_) (.rule ?_))
  · exact unbroken_name.bind fun _ => (unbroken_spelling "@").bind fun _ =>
      unbroken_name.bind fun _ => (unbroken_default hvalue ":=").optional.bind fun _ =>
        unbroken_newline.bind fun _ => unbroken_pure _
  · exact unbroken_typedName.bind fun _ => unbroken_newline.bind fun _ => unbroken_pure _

/-- A member expects nothing that is described on two lines. -/
theorem unbroken_member : (member anchors value).Unbroken :=
  .rule (.orElse (unbroken_method anchors hvalue) (unbroken_memberAttribute anchors hvalue))

/-- A declaration expects nothing that is described on two lines. -/
theorem unbroken_declaration : (declaration anchors value).Unbroken :=
  .rule (unbroken_offset.bind fun _ => (unbroken_keyword .objectWord).bind fun _ =>
    unbroken_name.bind fun _ => (unbroken_interfaces anchors).optional.bind fun _ =>
      (unbroken_spelling ":").bind fun _ => unbroken_newline.bind fun _ =>
        unbroken_indent.bind fun _ => (unbroken_member anchors hvalue).many1.bind fun _ =>
          unbroken_dedent.bind fun _ => unbroken_pure _)

/-- A program expects nothing that is described on two lines. -/
theorem unbroken_program : (program anchors value).Unbroken :=
  .rule ((unbroken_declaration anchors hvalue).many.bind fun _ =>
    unbroken_endOfText.bind fun _ => unbroken_pure _)

end

/-! ## Refusals -/

/-- Everything in a list has a partner in a list related to it. -/
theorem exists_of_forall₂ {α β : Type} {R : α → β → Prop} {as : List α} {bs : List β}
    (h : List.Forall₂ R as bs) {a : α} (ha : a ∈ as) : ∃ b ∈ bs, R a b := by
  induction h with
  | nil => cases ha
  | @cons first partner _ _ hfirst _ ih =>
      rcases List.mem_cons.1 ha with rfl | ha
      · exact ⟨partner, List.mem_cons_self, hfirst⟩
      · obtain ⟨b, hb, hrel⟩ := ih ha
        exact ⟨b, List.mem_cons_of_mem _ hb, hrel⟩

/-- What is printed of a token of a source is on one line. -/
theorem unbroken_print {t : Terminal} (ht : t.Legible) : Text.Unbroken t.print :=
  fun hmem => absurd (printable_print ht _ hmem) (by decide)

variable {table : StringTable} {tokens : Array Token} {us : List Terminal} {token : Token}

/-- A token of a source is described on one line. -/
theorem unbroken_describe {t : Terminal} (h : token.Carries table t) (ht : t.Legible)
    {found : String} (hfound : token.describe table = .ok found) :
    Text.Unbroken found.toList := by
  obtain ⟨hkind, htext⟩ := h
  have hprint := unbroken_print ht
  rw [Token.describe, hkind] at hfound
  cases t with
  | indent | dedent | newline | endOfInput | string =>
      cases hfound
      decide
  | mark m =>
      cases hfound
      cases m <;> decide +kernel
  | name text | number text =>
      dsimp only [Terminal.kind] at hfound
      rw [htext text rfl] at hfound
      cases hfound
      simpa [Terminal.print] using hprint

/-- The token of an id is one of the tokens. -/
theorem mem_of_tokenOf {id : Int} (h : tokenOf tokens id = .ok token) : token ∈ tokens.toList := by
  unfold tokenOf at h
  split at h
  · next found =>
      cases h
      split at found
      · simpa using Array.mem_of_getElem? found
      · cases found
  · cases h

namespace Carried

/-- A token that is looked up among those of a source carries a legible terminal. -/
theorem exists_legible (h : Carried table tokens us) {id : Int}
    (htoken : tokenOf tokens id = .ok token) : ∃ t, token.Carries table t ∧ t.Legible := by
  obtain ⟨t, ht, hcarries⟩ := exists_of_forall₂ h.carries (mem_of_tokenOf htoken)
  refine ⟨t, hcarries, ?_⟩
  rcases List.mem_append.1 ht with ht | ht
  · exact (h.legible t ht).1
  · rw [List.mem_singleton.1 ht]
    trivial

/-- What was expected is told on one line together with the token found. -/
theorem unbroken_of_refusal (h : Carried table tokens us) {printed : Printed} {frontier : Frontier}
    (hfrontier : frontier.Unbroken) {refused : Refusal}
    (hrefused : refusal table tokens printed frontier = .ok refused) :
    refused.problem.Unbroken := by
  obtain ⟨token, htoken, hrefused⟩ := exists_of_bind_eq_ok hrefused
  obtain ⟨found, hfound, hrefused⟩ := exists_of_bind_eq_ok hrefused
  cases hrefused
  obtain ⟨t, hcarries, hlegible⟩ := h.exists_legible htoken
  show Arguments.Unbroken [("detail", .text _)]
  simpa [Scalar.display] using ⟨hfrontier.describe, unbroken_describe hcarries hlegible hfound⟩

/-- The problem of tokens that are refused is told on one line. -/
theorem unbroken_of_parse (h : Carried table tokens us) {refused : Refusal}
    (hparse : parse table tokens = .ok (.error refused)) : refused.problem.Unbroken := by
  unfold parse at hparse
  split at hparse
  · cases hparse
    show Arguments.Unbroken [("limit", .int maxDepth)]
    simp [Scalar.display]
  · obtain ⟨printed, -, hparse⟩ := exists_of_bind_eq_ok hparse
    dsimp only at hparse
    split at hparse
    · obtain ⟨decls, -, hparse⟩ := exists_of_bind_eq_ok hparse
      cases hparse
    · obtain ⟨found, hfound, hparse⟩ := exists_of_bind_eq_ok hparse
      cases hparse
      exact h.unbroken_of_refusal (unbroken_program _ (unbroken_expression _ _) _) hfound

end Carried

end Grammar

end EoJava
