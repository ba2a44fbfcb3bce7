import EoJava.Proofs.Grammar.Furthest
import EoJava.Proofs.Grammar.Spellings

/-!
# The first leaf that is not viable

Every rule of the grammar gets as far as the texts that its production derives, from single leaves
up to whole declarations. So if a source is refused, the furthest leaf that was refused is the first
one that no derivable source has there, or the one after it if it only starts like what is expected
(`program_reach`).
-/

namespace EoJava.Grammar

open scoped Computability

variable {α : Type} {L M : Language Kind} {i limit : Nat} {leaf : Leaf} {others leaves : List Leaf}

instance : Nonempty Position :=
  ⟨.nowhere⟩

instance [h : Nonempty α] : Nonempty (Located α) :=
  h.map (⟨.nowhere, ·⟩)

instance : Nonempty Expr :=
  ⟨.literal .nowhere (.boolean true)⟩

instance : Nonempty Slot :=
  ⟨⟨.nowhere, "", "", none⟩⟩

/-! ## Single leaves -/

/-- A leaf that is a text, or that starts like one, leads to the place after it. -/
theorem isGreatest_after (hone : ∀ text ∈ L, text.length = 1) {k : Kind} (hk : [k] ∈ L)
    (h : leaf.kind = k ∨ leaf.terminal.Mimics k) :
    IsGreatest (places L i (leaf :: others)) (i + 1) := by
  refine ⟨⟨[k], ⟨[], hk⟩, ?_, rfl⟩, fun n => le_of_mem_places fun text htext => ?_⟩
  · rcases h with rfl | h
    · exact .cons (.nil others)
    · exact .mimic h
  · exact Nat.le_of_eq (hone text htext)

/-- Any other leaf leads nowhere. -/
theorem isGreatest_start (hne : ∃ text, text ∈ L) (hone : ∀ text ∈ L, text.length = 1)
    (h : ∀ k, [k] ∈ L → leaf.kind ≠ k ∧ ¬leaf.terminal.Mimics k) :
    IsGreatest (places L i (leaf :: others)) i := by
  refine ⟨start_mem_places hne, ?_⟩
  rintro n ⟨kinds, ⟨more, hmore⟩, hresembles, rfl⟩
  have hlength := hone _ hmore
  cases hresembles with
  | nil => exact Nat.le_refl i
  | mimic hmimics =>
      obtain rfl : more = [] := by simpa using hlength
      exact absurd hmimics (h _ hmore).2
  | @cons kinds _ _ _ =>
      obtain ⟨rfl, rfl⟩ : kinds = [] ∧ more = [] := by simpa using hlength
      exact absurd rfl (h _ hmore).1

/-- A leaf that does not start like one of the language is read if it is one. -/
theorem leaf_furthestAt {read : Leaf → Option α} (hne : ∃ text, text ∈ L)
    (hone : ∀ text ∈ L, text.length = 1) (hend : [.endOfInput] ∉ L)
    (hread : (read leaf).isSome ↔ [leaf.kind] ∈ L)
    (hmimics : ∀ k, [k] ∈ L → ¬leaf.terminal.Mimics k) (h : Numbered i (leaf :: others)) :
    FurthestAt (Descent.leaf read) L i (leaf :: others) := by
  cases hfound : read leaf with
  | none =>
      rw [hfound] at hread
      have hmissed : Descent.leaf read (leaf :: others) = _ := leaf_missed hfound
      refine ⟨fun v rest hresult => by simp [hmissed] at hresult, ?_⟩
      rw [hmissed, Outcome.place_of_none rfl, h.index_eq]
      refine isGreatest_start hne hone fun k hk => ⟨?_, hmimics k hk⟩
      rintro rfl
      simpa using hread.2 hk
  | some value =>
      have hmem := hread.1 (by rw [hfound]; rfl)
      have hothers : Numbered (i + 1) others := h.tail fun hterminal => by
        rw [Leaf.kind, hterminal] at hmem
        exact hend hmem
      have hresult : Descent.leaf read (leaf :: others) = _ := leaf_found hfound
      refine ⟨fun v rest h => ?_, ?_⟩
      · rw [hresult] at h
        cases h
        exact ⟨[leaf], rfl, hmem, hothers⟩
      · rw [hresult, Outcome.place_of_some rfl hothers, Nat.zero_max]
        exact isGreatest_after hone hmem (.inl rfl)

/-- A leaf of the language is read, whatever stands after it. -/
theorem leaf_completes {read : Leaf → Option α} (hone : ∀ text ∈ L, text.length = 1)
    (hread : ∀ leaf, (read leaf).isSome ↔ [leaf.kind] ∈ L) :
    Completes limit (Descent.leaf read) L fun _ => True := by
  intro taken rest _ htaken _
  obtain ⟨leaf, rfl⟩ : ∃ leaf, taken = [leaf] := by
    simpa [List.length_eq_one_iff] using hone _ htaken
  obtain ⟨value, hvalue⟩ := Option.isSome_iff_exists.1 ((hread leaf).2 htaken)
  exact ⟨value, by rw [List.singleton_append, leaf_found hvalue]⟩

/-- What is read as one leaf of the kinds of a language is fixed, if nothing starts like them. -/
theorem leaf_fixed {read : Leaf → Option α} (hne : ∃ text, text ∈ L)
    (hone : ∀ text ∈ L, text.length = 1) (hend : [.endOfInput] ∉ L)
    (hread : ∀ leaf, (read leaf).isSome ↔ [leaf.kind] ∈ L)
    (hmimics : ∀ k, [k] ∈ L → ∀ t : Terminal, ¬t.Mimics k) :
    Fixed limit (Descent.leaf read) L := by
  refine ⟨⟨hne, fun h _ => ?_⟩, leaf_completes hone hread⟩
  obtain ⟨leaf, others, rfl, -⟩ := h.exists_cons
  exact leaf_furthestAt hne hone hend (hread leaf) (fun k hk => hmimics k hk _) h

/-- Only keywords of a declaration and the colon are mimicked. -/
theorem Terminal.Mimics.eq {t : Terminal} {k : Kind} (h : t.Mimics k) :
    k = .mark .objectWord ∨ k = .mark .asWord ∨ k = .mark .colon := by
  cases h with
  | keyword hm => rcases hm with rfl | rfl <;> simp
  | colon => simp

/-- A terminal without a text is the only one of its kind. -/
theorem kind_eq_iff {s : Terminal} (hs : s.text? = none) (t : Terminal) :
    t.kind = s.kind ↔ t = s := by
  refine ⟨fun h => ?_, congrArg Terminal.kind⟩
  cases s <;> cases t <;> simp_all [Terminal.kind, Terminal.text?]

/-- A terminal without a text of its own is told by its kind. -/
theorem exactly_isSome_iff {s : Terminal} (hs : s.text? = none) (leaf : Leaf) :
    (if leaf.terminal = s then some () else none).isSome ↔
      [leaf.kind] ∈ ({[s.kind]} : Language Kind) := by
  simp [Leaf.kind, kind_eq_iff hs]

/-- A terminal that is there is read, whatever stands after it. -/
theorem exactly_completes {s : Terminal} (hs : s.text? = none) :
    Completes limit (Descent.exactly s) {[s.kind]} fun _ => True :=
  leaf_completes (by simp) (exactly_isSome_iff hs)

/-- A given terminal, at a leaf that does not start like it. -/
theorem exactly_furthestAt {s : Terminal} (hs : s.text? = none) (hend : s ≠ .endOfInput)
    (hmimics : ¬leaf.terminal.Mimics s.kind) (h : Numbered i (leaf :: others)) :
    FurthestAt (Descent.exactly s) {[s.kind]} i (leaf :: others) := by
  refine leaf_furthestAt ⟨_, rfl⟩ (by simp) ?_ (exactly_isSome_iff hs leaf) (by simpa) h
  simpa using fun heq : Kind.endOfInput = s.kind =>
    hend ((kind_eq_iff (t := s) (s := .endOfInput) rfl).1 heq.symm)

/-- Besides the colon, no symbol is what another terminal may start like. -/
theorem symbol_kind : ∀ s ∈ Terminal.symbols, s ≠ .mark .colon → s.text? = none ∧
    s.kind ≠ .endOfInput ∧ s.kind ≠ .mark .objectWord ∧ s.kind ≠ .mark .asWord ∧
      s.kind ≠ .mark .colon := by
  decide

/-- A symbol gets as far as its one text, unless it is the colon. -/
theorem exactly_fixed {s : Terminal} (hs : s ∈ Terminal.symbols) (hcolon : s ≠ .mark .colon) :
    Fixed limit (Descent.exactly s) {[s.kind]} := by
  obtain ⟨htext, hend, hobject, has, hcolon⟩ := symbol_kind s hs hcolon
  refine leaf_fixed ⟨_, rfl⟩ (by simp) (by simpa using hend.symm) (exactly_isSome_iff htext) ?_
  rintro k hk t hmimics
  obtain rfl : k = s.kind := by simpa using hk
  rcases hmimics.eq with h | h | h <;> contradiction

/-- A name gets as far as its one text. No other terminal starts like a name. -/
theorem name_fixed : Fixed limit Descent.name {[.name]} := by
  refine leaf_fixed ⟨_, rfl⟩ (by simp) (by simp) (fun leaf => ?_) ?_
  · rcases leaf with ⟨index, position, terminal⟩
    cases terminal <;> simp [Leaf.kind, Terminal.kind]
  · rintro k hk t hmimics
    obtain rfl : k = .name := by simpa using hk
    simpa using hmimics.eq

/-- A keyword of a declaration. A name that starts with it leads to the place after the name. -/
theorem keyword_fixed {m : Mark} (hm : m = .objectWord ∨ m = .asWord) :
    Fixed limit (Descent.keyword m) {[.mark m]} := by
  refine ⟨⟨⟨_, rfl⟩, fun {i leaves} h _ => ?_⟩, fun taken rest hlimit htaken hrest => ?_⟩
  · obtain ⟨leaf, others, rfl, -⟩ := h.exists_cons
    cases hname : leaf.terminal.isName with
    | true =>
        obtain ⟨text, hleaf⟩ : ∃ text, leaf.terminal = .name text := by
          revert hname
          cases leaf.terminal <;> simp [Terminal.isName]
        have hkeyword : Descent.keyword m (leaf :: others) = _ := keyword_of_name m hleaf
        refine ⟨fun v rest hresult => by simp [hkeyword] at hresult, ?_⟩
        rw [hkeyword, Outcome.place_of_none rfl, h.index_eq]
        split
        · next hstart =>
            refine isGreatest_after (by simp) rfl (.inr ?_)
            rw [hleaf]
            exact .keyword hm (List.isPrefixOf_iff_prefix.1 hstart)
        · next hstart =>
            refine isGreatest_start ⟨_, rfl⟩ (by simp) fun k hk => ?_
            obtain rfl : k = .mark m := by simpa using hk
            rw [Leaf.kind, hleaf]
            refine ⟨by simp [Terminal.kind], ?_⟩
            rintro ⟨-, hprefix⟩
            exact hstart (List.isPrefixOf_iff_prefix.2 hprefix)
    | false =>
        refine (exactly_furthestAt rfl (by simp) ?_ h).congr (keyword_of_not_isName m hname)
        intro hmimics
        generalize leaf.terminal = t at hname hmimics
        rcases hmimics with _ | _
        · cases hname
        · rcases hm with h | h <;> cases h
  · rw [Descent.result_keyword]
    exact exactly_completes rfl taken rest hlimit htaken hrest

/-- A colon and the end of its line. The mark for a default leads to the place after it. -/
theorem colonLine_fixed : Fixed limit Descent.colonLine ({[.mark .colon]} * {[.newline]}) := by
  have hnewline (limit : Nat) : Fixed limit (Descent.exactly .newline) {[.newline]} :=
    exactly_fixed (by decide) (by decide)
  have hne : ∃ text, text ∈ ({[.mark .colon]} * {[.newline]} : Language Kind) :=
    ⟨_, Language.append_mem_mul rfl rfl⟩
  refine ⟨⟨hne, fun {i leaves} h hlimit => ?_⟩, fun taken rest hlimit htaken hrest => ?_⟩
  · obtain ⟨leaf, others, rfl, -⟩ := h.exists_cons
    by_cases hassign : leaf.terminal = .mark .assign
    · have hcolon : Descent.colonLine (leaf :: others) = _ := colonLine_of_assign hassign
      have hgreatest : IsGreatest (places {[.mark .colon]} i (leaf :: others)) (i + 1) :=
        isGreatest_after (by simp) rfl (.inr (hassign ▸ .colon))
      refine ⟨fun v rest hresult => by simp [hcolon] at hresult, ?_⟩
      rw [hcolon, Outcome.place_of_none rfl, h.index_eq]
      obtain ⟨kinds, hviable, hresembles, heq⟩ := hgreatest.1
      refine ⟨⟨kinds, hviable.mul_right ⟨_, rfl⟩, hresembles, heq⟩, ?_⟩
      rintro n ⟨kinds, hviable, hresembles, rfl⟩
      obtain hfirst | ⟨text, k, more, htext, -, rfl⟩ := viable_mul_cases hviable
      · exact hgreatest.2 ⟨kinds, hfirst, hresembles, rfl⟩
      · -- The colon itself does not stand there.
        obtain ⟨before, after, hleaves, rfl, -⟩ := hresembles.split
        obtain ⟨found, rfl, hfound⟩ := List.map_eq_singleton_iff.1 htext
        obtain ⟨rfl, -⟩ := List.cons.inj hleaves
        rw [Leaf.kind, hassign] at hfound
        cases hfound
    · refine FurthestAt.congr ?_ (colonLine_of_ne (by simpa using hassign))
      refine (exactly_furthestAt (s := .mark .colon) rfl (by simp) ?_ h).bind ⟨_, rfl⟩
        (fun v rest j _ hrest => (hnewline rest.length).at_leaves hrest (Nat.le_refl _))
        ((exactly_completes rfl).ends (fun _ _ _ _ _ => trivial) hlimit)
      generalize leaf.terminal = t at hassign
      rintro (_ | _)
      · simp_all
      · exact hassign rfl
  · have hboth := (exactly_completes (s := .mark .colon) rfl).bind
      (fun _ => (hnewline limit).completes) taken rest hlimit htaken hrest
    rw [Descent.result_colonLine]
    simpa only [Descent.result_bind] using hboth

/-! ## Lists -/

/-- A text that starts with a symbol is opened by that symbol only. -/
theorem opens_symbol {s : Terminal} (hs : s ∈ Terminal.symbols) (hcolon : s ≠ .mark .colon)
    {next : Terminal → Prop} (hnext : next s) : Opens ({[s.kind]} * M) next := by
  rintro k kinds ⟨_, rfl, text, -, heq⟩ t ht
  obtain ⟨rfl, -⟩ := List.cons.inj heq
  obtain ⟨htext, -, hobject, has, hkind⟩ := symbol_kind s hs hcolon
  rcases ht with ht | ht
  · rwa [(kind_eq_iff htext t).1 ht]
  · rcases ht.eq with h | h | h <;> contradiction

/-- A comma gets as far as its one text. -/
theorem comma_fixed : Fixed limit (Descent.exactly (.mark .comma)) {[.mark .comma]} :=
  exactly_fixed (s := .mark .comma) (by decide) (by decide)

section

variable [Nonempty α] {p : Descent α} {next : Terminal → Prop} (hp : Furthest limit p L)
  (hcompletes : Completes limit p L next) (hcomma : next (.mark .comma))

include hp hcompletes hcomma

/-- One or more items between commas get as far as their texts do. -/
theorem separated1_furthest :
    Furthest limit (Descent.separated1 p) (L * ({[.mark .comma]} * L)∗) := by
  have hnil : [] ∉ ({[.mark .comma]} * L : Language Kind) := by
    rintro ⟨_, rfl, _, -, ⟨⟩⟩
  have hopens : Opens ({[.mark .comma]} * L) next :=
    opens_symbol (s := .mark .comma) (by decide) (by decide) hcomma
  have hmany : Furthest limit (Descent.many (Descent.commaItem p)) ({[.mark .comma]} * L)∗ :=
    (comma_fixed.bind fun _ => hp).many (comma_fixed.completes.bind fun _ => hcompletes) hopens hnil
  exact hp.bind hcompletes (fun v => hmany.map _) hopens.kstar

/-- Items between commas, or none, get as far as their texts do. -/
theorem separated_furthest :
    Furthest limit (Descent.separated p) (L * ({[.mark .comma]} * L)∗ + 1) :=
  (separated1_furthest hp hcompletes hcomma).orElse_pure []

end

/-! ## Texts that trees spell -/

/-- A descent completes the texts of a right-hand side if it takes the trees that spell them. -/
theorem completes_of_takes {β : Type} {p : Descent α} {erase : α → β} {next : Terminal → Prop}
    {rhs : Ebnf} (Good : α → Prop) (spell : α → List Terminal)
    (hfits : ∀ ts, Fits rhs ts → ∃ v, Good v ∧ spell v = ts)
    (htakes : ∀ v, Good v → (spell v).length ≤ limit → Takes p spell erase next v) :
    Completes limit p rhs.language next := by
  intro taken rest hlimit htaken hrest
  have hfit : Fits rhs (taken.map (·.terminal)) := by
    rw [Fits, List.map_map]
    exact htaken
  obtain ⟨v, hgood, hspell⟩ := hfits _ hfit
  have hlength : (spell v).length ≤ limit := by
    rw [hspell, List.length_map]
    rw [List.length_append] at hlimit
    omega
  obtain ⟨w, hw, -⟩ := htakes v hgood hlength _ rest ⟨taken, rfl, hspell.symm⟩ hrest
  exact ⟨w, hw⟩

/-- A list in parentheses is completed if its items are taken. -/
theorem separated_completes {β : Type} {p : Descent α} {spell : α → List Terminal} {erase : α → β}
    {next : Terminal → Prop} {Good : α → Prop} {item : Ebnf}
    (hfits : ∀ ts, Fits item ts ↔ ∃ v, Good v ∧ spell v = ts)
    (htakes : ∀ v, Good v → (spell v).length ≤ limit → Takes p spell erase next v)
    (hcomma : next (.mark .comma)) (hclose : next (.mark .rightParen))
    (hrefuses : Refuses p (· = .mark .rightParen)) :
    Completes limit (Descent.separated p) (Ebnf.maybe (Ebnf.commas item)).language
      (· = .mark .rightParen) := by
  refine completes_of_takes (fun vs => ∀ v ∈ vs, Good v) (fun vs => commaSeparated (vs.map spell))
    (fun ts hfit => ?_) fun vs hgood hlength =>
      Descent.separated_takes (fun v hv => htakes v (hgood v hv) ?_) hcomma hclose (by simp)
        hrefuses
  · obtain ⟨vs, hgood, rfl⟩ := (fits_maybe_commas_iff fun us _ => hfits us).1 hfit
    exact ⟨vs, hgood, rfl⟩
  · exact Nat.le_trans (length_le_commaSeparated (List.mem_map_of_mem hv)) hlength

/-! ## Expressions -/

/-- An expression that fits the fuel is read if no parenthesis stands after it. -/
theorem expression_completes (fuel : Nat) :
    Completes fuel (Descent.expression fuel) (Ebnf.rule .expr).language (· ≠ .mark .leftParen) :=
  completes_of_takes Expr.Fresh Expr.terminals (fun _ => fits_expr_iff.1) fun _ hfresh hlength =>
    Descent.expression_takes hfresh hlength

/-- A literal of one sort. -/
theorem literalOf_furthest {sort : Terminal → Bool} (hne : ∃ text, text ∈ L)
    (hone : ∀ text ∈ L, text.length = 1)
    (hsort : ∀ t : Terminal, sort t ∧ t.literal?.isSome ↔ [t.kind] ∈ L)
    (hmimics : ∀ k, [k] ∈ L → ∀ t : Terminal, ¬t.Mimics k) :
    Furthest limit (Descent.literalOf sort) L := by
  refine (leaf_fixed hne hone ?_ (fun leaf => ?_) hmimics).toFurthest
  · intro hend
    cases ((hsort .endOfInput).2 hend).2
  · rw [Leaf.kind, ← hsort]
    cases sort leaf.terminal <;> simp

/-- The texts of a literal are the four kinds of terminal that a value can have. -/
theorem language_literal : (Ebnf.rule .literal).language =
    {[.string]} + ({[.number]} + ({[.mark .trueWord]} + {[.mark .falseWord]})) := by
  rw [Ebnf.language_rule]
  simp [Ebnf.production]

/-- A literal is a single terminal. -/
theorem length_of_literal {text : List Kind} (h : text ∈ (Ebnf.rule .literal).language) :
    text.length = 1 := by
  rw [language_literal] at h
  rcases h with rfl | rfl | rfl | rfl <;> rfl

/-- A literal gets as far as its texts. -/
theorem literal_furthest : Furthest limit Descent.literal (Ebnf.rule .literal).language := by
  have hstring : Furthest limit (Descent.literalOf Terminal.isString) {[.string]} := by
    refine literalOf_furthest ⟨_, rfl⟩ (by simp) (fun t => ?_) fun k hk t h => ?_
    · cases t <;> simp [Terminal.isString, Terminal.literal?, Terminal.kind]
    · rcases h.eq with rfl | rfl | rfl <;> simp at hk
  have hnumber : Furthest limit (Descent.literalOf Terminal.isNumber) {[.number]} := by
    refine literalOf_furthest ⟨_, rfl⟩ (by simp) (fun t => ?_) fun k hk t h => ?_
    · cases t <;> simp [Terminal.isNumber, Terminal.literal?, Terminal.kind]
    · rcases h.eq with rfl | rfl | rfl <;> simp at hk
  have htruth : Furthest limit (Descent.literalOf Terminal.isTruth)
      ({[.mark .trueWord]} + {[.mark .falseWord]}) := by
    refine literalOf_furthest ⟨_, .inl rfl⟩ (by rintro _ (rfl | rfl) <;> rfl) (fun t => ?_)
      fun k hk t h => ?_
    · rw [Language.mem_add, mem_singleton_iff, mem_singleton_iff]
      rcases t with _ | _ | _ | m | _ | _ | _ | _
      case mark => cases m <;> simp [Terminal.isTruth, Terminal.literal?, Terminal.kind]
      all_goals simp [Terminal.isTruth, Terminal.kind]
    · rw [Language.mem_add, mem_singleton_iff, mem_singleton_iff] at hk
      rcases h.eq with rfl | rfl | rfl <;> simp at hk
  rw [language_literal]
  refine hstring.orElse 1 (hnumber.orElse 1 htruth ?_ ?_) ?_ ?_
  · simp
  · rintro _ (rfl | rfl) <;> simp
  · simp
  · rintro _ (rfl | rfl | rfl) <;> simp

/-- No expression starts with a closing parenthesis, so an empty list of arguments ends there. -/
theorem expression_refuses_rightParen (fuel : Nat) :
    Refuses (Descent.expression fuel) (· = .mark .rightParen) :=
  fun leaves h => Descent.expression_refuses fuel leaves (h.imp (by
    rintro t rfl
    exact ⟨by simp, rfl⟩))

/-- An opening parenthesis gets as far as its one text. -/
theorem leftParen_fixed : Fixed limit (Descent.exactly (.mark .leftParen)) {[.mark .leftParen]} :=
  exactly_fixed (s := .mark .leftParen) (by decide) (by decide)

/-- A closing parenthesis gets as far as its one text. -/
theorem rightParen_fixed :
    Fixed limit (Descent.exactly (.mark .rightParen)) {[.mark .rightParen]} :=
  exactly_fixed (s := .mark .rightParen) (by decide) (by decide)

/-- A list in parentheses, up to the one that closes it. -/
theorem parenthesized_furthest {β : Type} [Nonempty α] {p : Descent α} {next : Terminal → Prop}
    {item : Ebnf} (hp : Furthest limit p item.language)
    (hcompletes : Completes limit p item.language next) (hcomma : next (.mark .comma))
    (hlist : Completes limit (Descent.separated p) (Ebnf.maybe (Ebnf.commas item)).language
      (· = .mark .rightParen)) {q : List α → Descent β} (hq : ∀ vs, Furthest limit (q vs) M) :
    Furthest limit
      (do
        Descent.exactly (.mark .leftParen)
        let vs ← Descent.separated p
        Descent.exactly (.mark .rightParen)
        q vs)
      ({[.mark .leftParen]} * ((Ebnf.maybe (Ebnf.commas item)).language *
        ({[.mark .rightParen]} * M))) := by
  have hseparated := separated_furthest hp hcompletes hcomma
  rw [← Ebnf.language_commas, ← Ebnf.language_maybe] at hseparated
  refine leftParen_fixed.bind fun _ => hseparated.bind hlist (fun vs => ?_)
    (opens_symbol (s := .mark .rightParen) (by decide) (by decide) rfl)
  exact rightParen_fixed.bind fun _ => hq vs

/-- The texts of an expression are those of calls, literals and references, in the order in which
they are tried. -/
theorem language_expr : (Ebnf.rule .expr).language =
    {[.name]} * ({[.mark .leftParen]} * ((Ebnf.maybe (Ebnf.commas (.rule .expr))).language *
      ({[.mark .rightParen]} * 1))) + ((Ebnf.rule .literal).language + {[.name]}) := by
  rw [Ebnf.language_rule]
  simp [Ebnf.production, mul_assoc]

/-- The arguments of a call stand after its name, so fewer leaves are left for them. -/
theorem expression_furthest (fuel : Nat) :
    Furthest fuel (Descent.expression fuel) (Ebnf.rule .expr).language := by
  induction fuel with
  | zero =>
      refine ⟨⟨[.name], .rule (.second (.second (.kind .name)))⟩, fun h hlimit => ?_⟩
      obtain ⟨leaf, others, rfl, -⟩ := h.exists_cons
      simp at hlimit
  | succ fuel ih =>
      have hlist : Completes fuel (Descent.separated (Descent.expression fuel)) _ _ :=
        separated_completes (fun _ => fits_expr_iff)
          (fun _ hfresh hlength => Descent.expression_takes hfresh hlength) (by simp) (by simp)
          (expression_refuses_rightParen fuel)
      have hcall : Furthest (fuel + 1) (Descent.call (Descent.expression fuel)) _ :=
        name_fixed.bind_succ (by simp) fun found =>
          parenthesized_furthest ih (expression_completes fuel) (by simp) hlist fun args =>
            pure_furthest (Expr.call found.position found.value args)
      have hreference : Furthest (fuel + 1) Descent.reference {[.name]} :=
        name_fixed.toFurthest.map _
      rw [language_expr]
      refine hcall.orElse 1 (literal_furthest.orElse 1 hreference ?_ ?_) ?_ ?_
      · exact fun text htext => Nat.le_of_eq (length_of_literal htext).symm
      · simp
      · rintro _ ⟨_, rfl, _, -, rfl⟩
        simp
      · rintro text (htext | rfl)
        · exact Nat.le_of_eq (length_of_literal htext)
        · simp

/-! ## Members -/

/-- The end of a line gets as far as its one text. -/
theorem newline_fixed : Fixed limit (Descent.exactly .newline) {[.newline]} :=
  exactly_fixed (by decide) (by decide)

/-- The start of a block gets as far as its one text. -/
theorem indent_fixed : Fixed limit (Descent.exactly .indent) {[.indent]} :=
  exactly_fixed (by decide) (by decide)

/-- The end of a block gets as far as its one text. -/
theorem dedent_fixed : Fixed limit (Descent.exactly .dedent) {[.dedent]} :=
  exactly_fixed (by decide) (by decide)

/-- A type and a name get as far as their texts. -/
theorem typedName_fixed : Fixed limit Descent.typedName ({[.name]} * {[.name]}) :=
  name_fixed.bind_fixed fun _ => name_fixed.map _

section

variable (fuel : Nat)

/-- A default gets as far as its texts, behind any symbol that announces it but the colon. -/
theorem default_furthest {m : Mark} (hm : .mark m ∈ Terminal.symbols) (hcolon : m ≠ .colon) :
    Furthest fuel (Descent.optional (Descent.default m (Descent.expression fuel)))
      (Ebnf.maybe (Ebnf.mark m ++ .rule .expr)).language := by
  rw [Ebnf.language_maybe, Ebnf.language_append, Ebnf.language_mark]
  have hmark : Fixed fuel (Descent.exactly (.mark m)) {[.mark m]} :=
    exactly_fixed hm (by simpa using hcolon)
  exact (hmark.bind fun _ => expression_furthest fuel).optional

/-- A default is read if no parenthesis stands after it that would make its last name a call, and a
default that is left out is seen to be so. -/
theorem default_completes (m : Mark) :
    Completes fuel (Descent.optional (Descent.default m (Descent.expression fuel)))
      (Ebnf.maybe (Ebnf.mark m ++ .rule .expr)).language
      (fun t => t ≠ .mark .leftParen ∧ t ≠ .mark m) := by
  have htakes (default? : Option Expr) (hfresh : ∀ e ∈ default?, e.Fresh)
      (hlength : ((default?.map (Terminal.mark m :: ·.terminals)).getD []).length ≤ fuel) :
      Takes (Descent.optional (Descent.default m (Descent.expression fuel)))
        (fun e? => (e?.map (Terminal.mark m :: ·.terminals)).getD []) (Option.map Expr.placeless)
        (fun t => t ≠ .mark .leftParen ∧ t ≠ .mark m) default? := by
    let slot : Slot := ⟨.nowhere, "", "", default?⟩
    have hslot : slot.Fresh := hfresh
    exact Descent.default_takes (fun e he hle => Descent.expression_takes he hle) m hslot
      (by rwa [Slot.defaultTerminals_eq])
  refine completes_of_takes (fun default? => ∀ e ∈ default?, e.Fresh) _ (fun ts hfit => ?_) htakes
  obtain ⟨default?, hfresh, rfl⟩ := fits_default_iff.1 hfit
  exact ⟨default?, hfresh, rfl⟩

/-- A parameter gets as far as its texts. -/
theorem parameter_furthest :
    Furthest fuel (Descent.parameter (Descent.expression fuel)) (Ebnf.rule .param).language := by
  rw [Ebnf.language_rule, Ebnf.production, Ebnf.language_append]
  simp only [Ebnf.language_append, Ebnf.language_kind]
  refine typedName_fixed.bind ?_
  rintro ⟨_, _, _⟩
  exact (default_furthest fuel (by decide) (by decide)).map _

/-- The texts of the end of a method. -/
def tailLanguage : Language Kind :=
  {[.mark .colon]} * {[.newline]} * ({[.indent]} * ((Ebnf.rule .expr).language *
    ({[.newline]} * {[.dedent]}))) + {[.newline]}

/-- The end of a method gets as far as its texts. -/
theorem methodTail_furthest :
    Furthest fuel (Descent.methodTail (Descent.expression fuel)) tailLanguage := by
  have hbody : Furthest fuel (Descent.methodBody (Descent.expression fuel)) _ :=
    colonLine_fixed.bind fun _ => indent_fixed.bind fun _ =>
      (expression_furthest fuel).bind (expression_completes fuel)
        (fun _ => newline_fixed.bind fun _ => dedent_fixed.toFurthest.map _)
        (opens_symbol (s := .newline) (by decide) (by decide) (by simp))
  have hnone : Furthest fuel Descent.noBody {[.newline]} := newline_fixed.toFurthest.map _
  refine hbody.orElse 1 hnone ?_ (by simp)
  rintro _ ⟨_, ⟨_, rfl, _, rfl, rfl⟩, _, -, rfl⟩
  simp

/-- A parameter is read if nothing stands after it that would continue it. -/
theorem parameter_completes :
    Completes fuel (Descent.parameter (Descent.expression fuel)) (Ebnf.rule .param).language
      (fun t => t ≠ .mark .leftParen ∧ t ≠ .mark .equals) :=
  completes_of_takes Slot.Fresh Slot.terminals (fun _ => fits_param_iff.1) fun _ hfresh hlength =>
    Descent.parameter_takes (fun _ hfresh hle => Descent.expression_takes hfresh hle) hfresh hlength

/-- A list of parameters is read up to the closing parenthesis. -/
theorem parameters_completes :
    Completes fuel (Descent.separated (Descent.parameter (Descent.expression fuel)))
      (Ebnf.maybe (Ebnf.commas (.rule .param))).language (· = .mark .rightParen) := by
  have hname : Refuses Descent.name (· = .mark .rightParen) :=
    fun leaves h => Descent.name_refuses leaves (h.imp (by
      rintro t rfl
      simp))
  exact separated_completes (fun _ => fits_param_iff)
    (fun _ hfresh hlength => Descent.parameter_takes
      (fun _ hfresh hle => Descent.expression_takes hfresh hle) hfresh hlength) (by simp) (by simp)
    (Descent.bind_refuses (Descent.bind_refuses hname _) _)

/-- The texts of a method are its signature and its end. -/
theorem language_method : (Ebnf.rule .method).language =
    {[.name]} * {[.name]} * ({[.mark .leftParen]} *
      ((Ebnf.maybe (Ebnf.commas (.rule .param))).language * ({[.mark .rightParen]} *
        tailLanguage))) := by
  rw [Ebnf.language_rule]
  simp [Ebnf.production, Ebnf.language_rule .paramList, tailLanguage, mul_assoc]

/-- A method gets as far as its texts. -/
theorem method_furthest :
    Furthest fuel (Descent.method (Descent.expression fuel)) (Ebnf.rule .method).language := by
  rw [language_method]
  refine typedName_fixed.bind ?_
  rintro ⟨_, _, _⟩
  exact parenthesized_furthest (parameter_furthest fuel) (parameter_completes fuel) (by simp)
    (parameters_completes fuel) fun _ => (methodTail_furthest fuel).map _

/-- The texts of a stored attribute. -/
def storedLanguage : Language Kind :=
  {[.name]} * ({[.mark .atSign]} * ({[.name]} *
    ((Ebnf.maybe (Ebnf.mark .assign ++ .rule .expr)).language * {[.newline]})))

/-- A stored attribute gets as far as its texts. -/
theorem stored_furthest :
    Furthest fuel (Descent.stored (Descent.expression fuel)) storedLanguage := by
  have hat : Fixed fuel (Descent.exactly (.mark .atSign)) {[.mark .atSign]} :=
    exactly_fixed (s := .mark .atSign) (by decide) (by decide)
  have hopens : Opens ({[.newline]} * 1) fun t => t ≠ .mark .leftParen ∧ t ≠ .mark .assign :=
    opens_symbol (s := .newline) (by decide) (by decide) (by simp)
  rw [mul_one] at hopens
  exact name_fixed.bind fun _ => hat.bind fun _ => name_fixed.bind fun _ =>
    (default_furthest fuel (by decide) (by decide)).bind (default_completes fuel .assign)
      (fun _ => newline_fixed.toFurthest.map _) hopens

/-- An attribute that is only announced gets as far as its texts. -/
theorem announced_furthest :
    Furthest limit Descent.announced ({[.name]} * {[.name]} * {[.newline]}) := by
  refine typedName_fixed.bind ?_
  rintro ⟨_, _, _⟩
  exact newline_fixed.toFurthest.map _

/-- No text of a stored attribute goes on with the second name of a method. -/
theorem length_of_stored {kinds : List Kind} {first second : Leaf} {others : List Leaf}
    (hviable : Viable storedLanguage kinds) (hsecond : second.kind = .name)
    (hresembles : Resembles kinds (first :: second :: others)) : kinds.length ≤ 1 := by
  obtain ⟨more, _, rfl, _, ⟨_, rfl, _, -, rfl⟩, heq⟩ := hviable
  cases hresembles with
  | nil => exact Nat.zero_le 1
  | mimic => exact Nat.le_refl 1
  | cons hresembles =>
      cases hresembles with
      | nil => exact Nat.le_refl 1
      | mimic hmimics =>
          obtain ⟨-, rfl, -⟩ : _ ∧ Kind.mark .atSign = _ ∧ _ := by simpa using heq
          simpa using hmimics.eq
      | cons =>
          obtain ⟨-, hat, -⟩ : _ ∧ Kind.mark .atSign = _ ∧ _ := by simpa using heq
          rw [hsecond] at hat
          cases hat

/-- The texts of a member are those of its three kinds, in the order in which they are tried. -/
theorem language_member : (Ebnf.rule .member).language =
    (Ebnf.rule .method).language + (storedLanguage + {[.name]} * {[.name]} * {[.newline]}) := by
  rw [Ebnf.language_rule]
  simp [Ebnf.production, Ebnf.language_rule .attribute, storedLanguage, mul_assoc]

/-- Where a method is found, an attribute ends within the first three leaves. -/
theorem le_of_attribute {taken rest : List Leaf} {i n : Nat}
    (htaken : taken.map Leaf.kind ∈ (Ebnf.rule .method).language)
    (hn : n ∈ places (storedLanguage + {[.name]} * {[.name]} * {[.newline]}) i (taken ++ rest)) :
    n ≤ i + taken.length := by
  rw [language_method] at htaken
  obtain ⟨_, ⟨_, rfl, _, rfl, rfl⟩, _, ⟨_, rfl, more, -, rfl⟩, heq⟩ := htaken
  obtain ⟨first, _, rfl, -, heq⟩ := List.map_eq_cons_iff.1 heq.symm
  obtain ⟨second, _, rfl, hsecond, heq⟩ := List.map_eq_cons_iff.1 heq
  obtain ⟨third, others, rfl, -, -⟩ := List.map_eq_cons_iff.1 heq
  simp only [List.length_cons]
  rw [places_add] at hn
  rcases hn with ⟨kinds, hviable, hresembles, rfl⟩ | hn
  · have hle := length_of_stored hviable hsecond hresembles
    omega
  · have hle : n ≤ i + 3 := le_of_mem_places (by simp [Language.mem_mul]) hn
    omega

/-- A member gets as far as the texts of any kind of member, though each kind is tried in turn. -/
theorem member_furthest :
    Furthest fuel (Descent.member (Descent.expression fuel)) (Ebnf.rule .member).language := by
  have hannounced : Furthest fuel Descent.announced _ := announced_furthest
  have hattribute := (stored_furthest fuel).orElse 3 hannounced
    (by
      rintro _ ⟨_, rfl, _, ⟨_, rfl, _, ⟨_, rfl, _, -, rfl⟩, rfl⟩, rfl⟩
      simp)
    (by
      rintro _ ⟨_, ⟨_, rfl, _, rfl, rfl⟩, _, rfl, rfl⟩
      simp)
  rw [language_member]
  obtain ⟨text, htext⟩ := (method_furthest fuel).nonempty
  refine ⟨⟨text, .inl htext⟩, fun h hlimit => ?_⟩
  have hmethod := (method_furthest fuel).at_leaves h hlimit
  refine hmethod.orElse (hattribute.at_leaves h hlimit) fun hsome n hn => ?_
  obtain ⟨⟨v, rest⟩, hresult⟩ := Option.isSome_iff_exists.1 hsome
  obtain ⟨taken, rfl, htaken, hrest⟩ := hmethod.takes v rest hresult
  rw [Outcome.place_of_some hresult hrest]
  exact Nat.le_trans (le_of_attribute htaken hn) (Nat.le_max_right ..)

/-! ## Declarations -/

/-- A member is read, whatever stands after it. -/
theorem member_completes :
    Completes fuel (Descent.member (Descent.expression fuel)) (Ebnf.rule .member).language
      fun _ => True :=
  completes_of_takes Member.Fresh Member.terminals (fun _ => fits_member_iff.1)
    fun _ hfresh hlength => Descent.member_takes
      (fun _ hfresh hle => Descent.expression_takes hfresh hle) hfresh hlength

/-- The members of a declaration get as far as their texts. -/
theorem members_furthest :
    Furthest fuel (Descent.many1 (Descent.member (Descent.expression fuel)))
      (Ebnf.plus (.rule .member)).language := by
  have hnil : [] ∉ (Ebnf.rule .member).language := by
    intro hmem
    obtain ⟨m, -, hm⟩ := fits_member_iff.1 (show Fits _ [] from hmem)
    exact m.terminals_ne_nil hm
  rw [Ebnf.plus, Ebnf.language_append, Ebnf.language_star]
  exact (member_furthest fuel).many1 (member_completes fuel) (fun _ _ _ _ _ => trivial) hnil

/-- The members of a declaration are read up to the end of their block. -/
theorem members_completes :
    Completes fuel (Descent.many1 (Descent.member (Descent.expression fuel)))
      (Ebnf.plus (.rule .member)).language (· = .dedent) := by
  have htakes (ms : List Member) (hfresh : ms ≠ [] ∧ ∀ m ∈ ms, m.Fresh)
      (hlength : (ms.flatMap Member.terminals).length ≤ fuel) :
      Takes (Descent.many1 (Descent.member (Descent.expression fuel)))
        (·.flatMap Member.terminals) (List.map Member.placeless) (· = .dedent) ms := by
    intro leaves rest hspans hrest
    refine Descent.many1_takes hfresh.1 (fun m hm => ?_) (fun m _ => m.terminals_ne_nil)
      (fun _ _ _ _ => trivial) hspans (fun _ _ => trivial)
      (Descent.member_refuses _ _ (hrest.imp (by simp)))
    exact Descent.member_takes (fun _ hfresh hle => Descent.expression_takes hfresh hle)
      (hfresh.2 m hm) (Nat.le_trans (length_le_flatMap hm) hlength)
  refine completes_of_takes _ _ (fun ts hfit => ?_) htakes
  obtain ⟨ms, hne, hfresh, hspell⟩ := fits_members_iff.1 hfit
  exact ⟨ms, ⟨hne, hfresh⟩, hspell⟩

/-- A list of interfaces gets as far as its texts. -/
theorem interfaces_furthest :
    Furthest fuel (Descent.optional Descent.interfaces)
      (Ebnf.maybe (Ebnf.mark .asWord ++ .rule .identList)).language := by
  have hname : Fixed fuel Descent.name _ := name_fixed
  have hnames := separated1_furthest hname.toFurthest hname.completes trivial
  have hlisted := ((keyword_fixed (.inr rfl)).bind fun _ => hnames).optional
  rw [Ebnf.language_maybe, Ebnf.language_append, Ebnf.language_rule, Ebnf.production,
    Ebnf.language_commas, Ebnf.language_mark, Ebnf.language_kind]
  exact hlisted

/-- A list of interfaces is read if no more of them stand after it. -/
theorem interfaces_completes :
    Completes fuel (Descent.optional Descent.interfaces)
      (Ebnf.maybe (Ebnf.mark .asWord ++ .rule .identList)).language
      (fun t => t ≠ .mark .comma ∧ t ≠ .mark .asWord) := by
  refine completes_of_takes (fun _ => True) (fun listed => Decl.interfaceTerminals (listed.getD []))
    (fun ts hfit => ?_) fun listed _ _ leaves rest hspans hrest =>
      Descent.interfaces_takes (listed.getD []) hspans hrest
  obtain ⟨names, hnames⟩ := fits_interfaces_iff.1 hfit
  exact ⟨some _, trivial, hnames⟩

/-- The texts of a declaration are its heading and the block of its members. -/
theorem language_objectDecl : (Ebnf.rule .objectDecl).language =
    1 * ({[.mark .objectWord]} * ({[.name]} *
      ((Ebnf.maybe (Ebnf.mark .asWord ++ .rule .identList)).language *
        ({[.mark .colon]} * {[.newline]} * ({[.indent]} *
          ((Ebnf.plus (.rule .member)).language * {[.dedent]})))))) := by
  rw [Ebnf.language_rule]
  simp [Ebnf.production, mul_assoc]

omit fuel in
/-- Asking for a position takes nothing and refuses nothing. -/
theorem position_furthestAt (h : Numbered i leaves) : FurthestAt Descent.position 1 i leaves := by
  obtain ⟨first, others, rfl, -⟩ := h.exists_cons
  have hresult : (Descent.position (first :: others)).result =
      some (first.position, first :: others) := rfl
  refine ⟨fun v rest hv => ?_, ?_⟩
  · cases hv
    exact ⟨[], rfl, Language.nil_mem_one, h⟩
  · rw [places_one, Outcome.place_of_some hresult h]
    exact (Nat.zero_max i).symm ▸ isGreatest_singleton

omit fuel in
/-- The colon of a header, or the mark for a default in its place, goes on no list of names. -/
theorem opens_colon : Opens ({[.mark .colon]} * {[.newline]} * M)
    fun t => t ≠ .mark .comma ∧ t ≠ .mark .asWord := by
  rintro k kinds ⟨_, ⟨_, rfl, _, rfl, rfl⟩, _, -, heq⟩ t ht
  obtain ⟨rfl, -⟩ := List.cons.inj heq
  rcases ht with ht | ht
  · rw [(kind_eq_iff (s := .mark .colon) rfl t).1 ht]
    simp
  · rcases ht with ⟨h | h, -⟩ | _
    · cases h
    · cases h
    · simp

/-- A declaration gets as far as its texts. -/
theorem declaration_furthest :
    Furthest fuel (Descent.declaration (Descent.expression fuel))
      (Ebnf.rule .objectDecl).language := by
  have hopens : Opens ({[.dedent]} * 1) (· = .dedent) :=
    opens_symbol (s := .dedent) (by decide) (by decide) rfl
  rw [mul_one] at hopens
  have hrest (position : Position) :=
    (keyword_fixed (.inl rfl)).bind fun _ => name_fixed.bind fun found =>
      (interfaces_furthest fuel).bind (interfaces_completes fuel)
        (fun listed => colonLine_fixed.bind fun _ => indent_fixed.bind fun _ =>
          (members_furthest fuel).bind (members_completes fuel)
            (fun members => dedent_fixed.toFurthest.map fun _ => (⟨position, found.value,
              listed.getD [], members, none⟩ : Decl)) hopens)
        opens_colon
  rw [language_objectDecl]
  have hnonempty := (hrest .nowhere).nonempty
  refine ⟨nonempty_mul ⟨[], Language.nil_mem_one⟩ hnonempty, fun h hlimit => ?_⟩
  refine (position_furthestAt h).bind hnonempty (fun position rest j hresult hnumbered => ?_) ?_
  · obtain ⟨_, -, heq⟩ := Option.map_eq_some_iff.1 hresult
    cases heq
    exact (hrest _).at_leaves hnumbered hlimit
  · -- Nothing is taken for the place.
    rintro before after k kinds rfl hbefore - -
    obtain rfl : before = [] := List.map_eq_nil_iff.1 hbefore
    obtain ⟨first, others, heq, -⟩ := h.exists_cons
    exact ⟨first.position, by rw [List.nil_append] at heq; rw [List.nil_append, heq]; rfl⟩

/-- Declarations are read up to the end of the input. -/
theorem declarations_completes :
    Completes fuel (Descent.many (Descent.declaration (Descent.expression fuel)))
      (Ebnf.star (.rule .objectDecl)).language (· = .endOfInput) := by
  have hrefuses : Refuses (Descent.declaration (Descent.expression fuel)) (· = .endOfInput) := by
    rintro (_ | ⟨first, others⟩) h
    · rfl
    · simp [Descent.declaration, Descent.result_keyword, begins_cons.1 h]
  have htakes (decls : List Decl) (hfresh : ∀ decl ∈ decls, decl.Fresh)
      (hlength : (decls.flatMap Decl.terminals).length ≤ fuel) :
      Takes (Descent.many (Descent.declaration (Descent.expression fuel)))
        (·.flatMap Decl.terminals) (List.map Decl.placeless) (· = .endOfInput) decls := by
    intro leaves rest hspans hrest
    refine Descent.many_takes (fun decl hdecl => ?_) (by simp [Decl.terminals])
      (fun _ _ _ _ => trivial) hspans (fun _ _ => trivial) (hrefuses rest hrest)
    exact Descent.declaration_takes (fun _ hfresh hle => Descent.expression_takes hfresh hle)
      (hfresh decl hdecl) (Nat.le_trans (length_le_flatMap hdecl) hlength)
  refine completes_of_takes _ _ (fun ts hfit => ?_) htakes
  simp only [fits_star_iff, fits_objectDecl_iff, exists_map_spell_iff] at hfit
  obtain ⟨_, rfl, decls, hfresh, rfl⟩ := hfit
  exact ⟨decls, hfresh, List.flatMap_def ..⟩

/-- Declarations get as far as their texts. -/
theorem declarations_furthest :
    Furthest fuel (Descent.many (Descent.declaration (Descent.expression fuel)))
      (Ebnf.star (.rule .objectDecl)).language := by
  have hcompletes : Completes fuel (Descent.declaration (Descent.expression fuel))
      (Ebnf.rule .objectDecl).language fun _ => True :=
    completes_of_takes Decl.Fresh Decl.terminals (fun _ => fits_objectDecl_iff.1)
      fun _ hfresh hlength => Descent.declaration_takes
        (fun _ hfresh hle => Descent.expression_takes hfresh hle) hfresh hlength
  have hnil : [] ∉ (Ebnf.rule .objectDecl).language := by
    intro hmem
    obtain ⟨decl, -, hdecl⟩ := fits_objectDecl_iff.1 (show Fits _ [] from hmem)
    simp [Decl.terminals] at hdecl
  rw [Ebnf.language_star]
  exact (declaration_furthest fuel).many hcompletes (fun _ _ _ _ _ => trivial) hnil

omit fuel in
/-- The end of the input is opened by itself only. -/
theorem opens_endOfInput : Opens {[.endOfInput]} (· = .endOfInput) := by
  rintro k kinds hmem t ht
  obtain ⟨rfl, -⟩ := List.cons.inj hmem
  rcases ht with ht | ht
  · exact (kind_eq_iff (s := .endOfInput) rfl t).1 ht
  · simpa using ht.eq

/-- If a source is refused, the furthest leaf that was refused is the furthest place to which the
grammar leads. -/
theorem program_reach (h : Numbered i leaves) (hlimit : leaves.length ≤ fuel)
    (hfail : (Descent.program (Descent.expression fuel) leaves).result = none) :
    IsGreatest (places (Ebnf.rule .program).language i leaves)
      (Descent.program (Descent.expression fuel) leaves).reach := by
  have hdecls := (declarations_furthest fuel).at_leaves h hlimit
  obtain ⟨⟨decls, rest⟩, hresult⟩ : ∃ found,
      (Descent.many (Descent.declaration (Descent.expression fuel)) leaves).result = some found :=
    ⟨_, rfl⟩
  obtain ⟨taken, rfl, -, hrest⟩ := hdecls.takes decls rest hresult
  obtain ⟨first, others, rfl, hindex⟩ := hrest.exists_cons
  -- The declarations end before a leaf that is not the end of the input.
  have hne : first.terminal ≠ .endOfInput := by
    intro hend
    simp [Descent.program, Descent.endOfInput, hresult, hend] at hfail
  have hreach : (Descent.program (Descent.expression fuel) (taken ++ first :: others)).reach =
      (Descent.many (Descent.declaration (Descent.expression fuel))
        (taken ++ first :: others)).place := by
    rw [Outcome.place_of_some hresult hrest]
    simp [Descent.program, Descent.endOfInput, hresult, hne, hindex]
  rw [hreach, Ebnf.language_rule, Ebnf.production, Ebnf.language_append, Ebnf.language_kind]
  constructor
  · obtain ⟨kinds, hviable, hresembles, heq⟩ := hdecls.greatest.1
    exact ⟨kinds, hviable.mul_right ⟨_, rfl⟩, hresembles, heq⟩
  · rintro n ⟨kinds, hviable, hresembles, rfl⟩
    obtain hfirst | ⟨text, k, more, htext, hmore, rfl⟩ := viable_mul_cases hviable
    · exact hdecls.greatest.2 ⟨kinds, hfirst, hresembles, rfl⟩
    · obtain ⟨before, after, heq, rfl, hafter⟩ := hresembles.split
      obtain ⟨v, hv⟩ := (declarations_completes fuel).ends opens_endOfInput hlimit before after k
        more heq htext hmore hafter
      rw [hresult] at hv
      cases hv
      exact absurd (begins_cons.1 (opens_endOfInput.begins hmore hafter)) hne

end

end EoJava.Grammar
