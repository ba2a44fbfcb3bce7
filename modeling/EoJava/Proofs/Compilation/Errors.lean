import EoJava.Proofs.Compilation.Parse
import EoJava.Proofs.Grammar.Offending

/-!
# Where a syntax error is reported

A source that the documented grammar does not derive is refused with one diagnostic, which names a
token, stands at its place and ends with its description (`parse_reports`). That is the first token
that is not viable after those before it, unless the token starts like one that is: a name like a
keyword of a declaration, or the mark for a default like a colon. The grammar gets into such a token
before it fails, and then the token after it is the one reported.
-/

namespace EoJava

open Grammar (Terminal Carried Derives Ebnf Shallow Viable)

namespace Grammar

/-! ## Leaves of tokens -/

/-- The leaves of tokens are numbered. -/
theorem numbered_leavesFrom {us : List Terminal} (hus : Terminal.endOfInput ∉ us)
    {tokens : List Token} (h : tokens.length = (us ++ [Terminal.endOfInput]).length) (index : Nat) :
    Numbered index (leavesFrom index tokens (us ++ [.endOfInput])) := by
  induction us generalizing tokens index with
  | nil =>
      obtain ⟨token, rfl⟩ := List.length_eq_one_iff.1 h
      have hend : (⟨index, token.position, .endOfInput⟩ : Leaf).terminal = .endOfInput := rfl
      exact .stop hend
  | cons t us ih =>
      rw [List.mem_cons, not_or] at hus
      obtain ⟨token, tokens, rfl⟩ := List.exists_cons_of_length_eq_add_one h
      have hne : (⟨index, token.position, t⟩ : Leaf).terminal ≠ .endOfInput := Ne.symm hus.1
      exact .leaf hne (ih hus.2 (Nat.succ.inj h) (index + 1))

namespace Carried

variable {table : StringTable} {tokens : Array Token} {us : List Terminal}

theorem map_kind_leaves (h : Carried table tokens us) :
    h.leaves.map Leaf.kind = tokens.toList.map (·.kind) := by
  rw [h.map_kind, ← h.map_terminal_leaves, List.map_map]
  rfl

theorem length_leaves (h : Carried table tokens us) : h.leaves.length = tokens.size := by
  simpa using congrArg List.length h.map_kind_leaves

/-- The token at an index carries a terminal exactly if the leaf there has it. -/
theorem exists_carries_iff (h : Carried table tokens us) {n : Nat} {t : Terminal} :
    (∃ token, tokens[n]? = some token ∧ token.Carries table t) ↔
      ∃ leaf, h.leaves[n]? = some leaf ∧ leaf.terminal = t := by
  have hcarries := h.carries
  rw [← h.map_terminal_leaves, List.forall₂_map_right_iff] at hcarries
  have hlength := h.length_leaves
  have hat (hn : n < tokens.size) :
      tokens[n].Carries table (h.leaves.get ⟨n, hlength ▸ hn⟩).terminal :=
    hcarries.get (by simpa using hn) (hlength ▸ hn)
  constructor
  · rintro ⟨token, htoken, ht⟩
    obtain ⟨hn, rfl⟩ := Array.getElem?_eq_some_iff.1 htoken
    exact ⟨_, List.getElem?_eq_getElem (hlength ▸ hn), (hat hn).unique ht⟩
  · rintro ⟨leaf, hleaf, rfl⟩
    obtain ⟨hn, rfl⟩ := List.getElem?_eq_some_iff.1 hleaf
    have hn : n < tokens.size := hlength ▸ hn
    exact ⟨_, Array.getElem?_eq_getElem hn, hat hn⟩

/-- A refusal names the furthest token to which the grammar leads, and it ends with the description
of that token. -/
theorem parse_furthest (h : Carried table tokens us)
    (hshallow : Shallow (tokens.toList.map (·.kind)))
    (hnone : ∀ decls : List Decl, (∀ decl ∈ decls, decl.Fresh) →
      Decl.programTerminals decls ≠ us ++ [.endOfInput]) :
    ∃ id token expected found,
      IsGreatest (places (Ebnf.rule .program).language 0 h.leaves) id ∧
      tokens[id]? = some token ∧ token.describe table = .ok found ∧
      parse table tokens =
        .ok (.error ⟨id, .syntaxError (expected ++ ", found " ++ found)⟩) := by
  have hus : Terminal.endOfInput ∉ us := fun hmem => (h.legible _ hmem).2 rfl
  obtain ⟨fuel, hfuel, ⟨decls, rest, hp, -⟩ |
    ⟨id, token, expected, found, hp, rfl, htoken, hfound, hparse, -⟩⟩ := h.parse_follows hshallow
  · obtain ⟨hfresh, hspelled⟩ :=
      program_sound (Descent.expression_reads fuel) hus h.map_terminal_leaves hp
    exact absurd hspelled (hnone decls hfresh)
  · have hlength : h.leaves.length = us.length + 1 := by
      simpa using congrArg List.length h.map_terminal_leaves
    exact ⟨_, token, expected, found,
      program_reach fuel (numbered_leavesFrom hus h.carries.length_eq 0) (hlength ▸ hfuel) hp,
      htoken, hfound, hparse⟩

end Carried

/-- A source ends at once, or it starts with the header of a declaration. -/
theorem header_of_program {kinds : List Kind} (h : Derives (.rule .program) kinds) :
    kinds = [.endOfInput] ∨ ∃ k rest, kinds = .mark .objectWord :: .name :: k :: rest ∧
      (k = .mark .asWord ∨ k = .mark .colon) := by
  rw [← Ebnf.mem_language, Ebnf.language_rule, Ebnf.production, Ebnf.language_append,
    Ebnf.language_kind, Ebnf.language_star] at h
  obtain ⟨text, htext, _, rfl, rfl⟩ := Language.mem_mul.1 h
  obtain ⟨parts, rfl, hparts⟩ := Language.mem_kstar.1 htext
  cases parts with
  | nil => exact .inl rfl
  | cons part parts =>
      right
      have hpart := hparts part (by simp)
      rw [language_objectDecl, one_mul] at hpart
      obtain ⟨_, rfl, _, ⟨_, rfl, _, ⟨listed, hlisted, _, hcolon, rfl⟩, rfl⟩, rfl⟩ := hpart
      obtain ⟨_, ⟨_, rfl, _, rfl, rfl⟩, _, -, rfl⟩ := hcolon
      obtain rfl | hlisted := Derives.maybe_iff.1 hlisted
      · exact ⟨_, _, rfl, .inr rfl⟩
      · obtain ⟨_, names, rfl, hword, -⟩ := Derives.append_iff.1 hlisted
        obtain rfl := Derives.mark_iff.1 hword
        exact ⟨_, _, rfl, .inl rfl⟩

end Grammar

namespace Compilation

/-- The first token that is not viable after those before it has a given index. -/
def Offends (c : Compilation) (k : Nat) : Prop :=
  IsLeast {n | ¬Viable (Ebnf.rule .program).language
    ((c.tokens.toList.map (·.kind)).take (n + 1))} k

/-- The token at an index starts like a kind of token that is viable there. -/
def Mimicked (c : Compilation) (k : Nat) : Prop :=
  ∃ token t kind, c.tokens[k]? = some token ∧ token.Carries c.strings t ∧ t.Mimics kind ∧
    Viable (Ebnf.rule .program).language ((c.tokens.toList.map (·.kind)).take k ++ [kind])

variable {c read : Compilation} {us : List Terminal}

/-- The leaf of a token starts like a viable kind exactly if the token does. -/
theorem mimicked_iff (h : Carried c.strings c.tokens us) (k : Nat) :
    Grammar.Mimicked (Ebnf.rule .program).language h.leaves k ↔ c.Mimicked k := by
  rw [Grammar.Mimicked, Mimicked, h.map_kind_leaves]
  constructor
  · rintro ⟨leaf, kind, hleaf, hmimics, hviable⟩
    obtain ⟨token, htoken, hcarries⟩ := h.exists_carries_iff.2 ⟨leaf, hleaf, rfl⟩
    exact ⟨token, leaf.terminal, kind, htoken, hcarries, hmimics, hviable⟩
  · rintro ⟨token, t, kind, htoken, hcarries, hmimics, hviable⟩
    obtain ⟨leaf, hleaf, rfl⟩ := h.exists_carries_iff.1 ⟨token, htoken, hcarries⟩
    exact ⟨leaf, kind, hleaf, hmimics, hviable⟩

/-- A source that is not derived is refused with one diagnostic at a token. The token is the first
one that is not viable after those before it, or the one after it if that one starts like a kind of
token that is viable there. -/
theorem parse_reports (hfresh : c.Fresh) (hread : c.tokenize = (true, read))
    (hshallow : Shallow (read.tokens.toList.map (·.kind)))
    (hderives : ¬Derives (.rule .program) (read.tokens.toList.map (·.kind))) :
    ∃ k id token expected found diagnostic, read.Offends k ∧
      (read.Mimicked k ∧ id = k + 1 ∨ ¬read.Mimicked k ∧ id = k) ∧
      read.tokens[id]? = some token ∧ token.describe read.strings = .ok found ∧
      read.parse = .ok (false, { read with diagnostics := [diagnostic] }) ∧
      diagnostic.code = .syntaxError ∧ diagnostic.token = some id ∧
      diagnostic.position = token.position ∧
      diagnostic.message = "syntax error: " ++ (expected ++ ", found " ++ found) := by
  obtain ⟨reading, us, htokenize, hnone, hcarried, -⟩ | ⟨reading, problem, htokenize, -⟩ :=
    tokenize_cases hfresh
  · obtain rfl : reading = read := by
      rw [hread] at htokenize
      cases htokenize
      rfl
    obtain ⟨id, token, expected, found, hgreatest, htoken, hfound, hparse⟩ :=
      hcarried.parse_furthest hshallow fun decls hdecls hspelled =>
        hderives ((derives_iff_spelled hcarried).2 ⟨decls, hdecls, hspelled⟩)
    obtain ⟨hid, rfl⟩ := Array.getElem?_eq_some_iff.1 htoken
    obtain ⟨k, hleast, hcases⟩ := Grammar.exists_offending hgreatest (hcarried.length_leaves ▸ hid)
    rw [mimicked_iff] at hcases
    rw [hcarried.map_kind_leaves] at hleast
    have hreport := parse_of_refusal hparse hid
    rw [add, hnone] at hreport
    refine ⟨k, id, _, expected, found, _, hleast, hcases, htoken, hfound, hreport, rfl, rfl, rfl,
      ?_⟩
    show String.join ["syntax error: ", expected ++ ", found " ++ found] = _
    simp [String.join]
  · rw [hread] at htokenize
    cases htokenize

/-- Prose is tokenized, and its kinds are not derived. -/
theorem parse_reports_prose :
    ∃ read diagnostic, ({ source := "This is prose\n" } : Compilation).tokenize = (true, read) ∧
      read.parse = .ok (false, { read with diagnostics := [diagnostic] }) ∧
      diagnostic.code = .syntaxError := by
  let c : Compilation := { source := "This is prose\n" }
  have hread : c.tokenize = (true, c.tokenize.2) := Prod.ext (by decide +kernel) rfl
  have hkinds : c.tokenize.2.tokens.toList.map (·.kind) =
      [.name, .name, .name, .newline, .endOfInput] := by decide +kernel
  have hderives : ¬Derives (.rule .program) (c.tokenize.2.tokens.toList.map (·.kind)) := by
    rw [hkinds]
    intro h
    simpa using Grammar.header_of_program h
  obtain ⟨-, -, -, -, -, diagnostic, -, -, -, -, hparse, hcode, -⟩ :=
    parse_reports (c := c) ⟨rfl, rfl⟩ hread (by decide +kernel) hderives
  exact ⟨_, diagnostic, hread, hparse, hcode⟩

/-- The third token of this source is the first that is not viable, but the diagnostic names the
fourth one and says that the end of the line was found where it was expected. -/
theorem parse_reports_assign :
    ∃ read, ({ source := "object A:=\n  B c\n" } : Compilation).tokenize = (true, read) ∧
      Shallow (read.tokens.toList.map (·.kind)) ∧
      ¬Derives (.rule .program) (read.tokens.toList.map (·.kind)) ∧ read.Offends 2 ∧
      read.parse.toOption.map (fun found => (found.1, found.2.diagnostics)) =
        some (false, [.make .syntaxError ⟨1, 11⟩
          (some [("detail", .text "expected end of line, found end of line")]) (some 3)]) := by
  let c : Compilation := { source := "object A:=\n  B c\n" }
  have hread : c.tokenize = (true, c.tokenize.2) := Prod.ext (by decide +kernel) rfl
  have hkinds : c.tokenize.2.tokens.toList.map (·.kind) =
      [.mark .objectWord, .name, .mark .assign, .newline, .indent, .name, .name, .newline,
        .dedent, .endOfInput] := by decide +kernel
  have hassign (more : List Kind) :
      ¬Derives (.rule .program) (.mark .objectWord :: .name :: .mark .assign :: more) := fun h => by
    simpa using Grammar.header_of_program h
  have hheader : Viable (Ebnf.rule .program).language [.mark .objectWord, .name] := by
    refine ⟨_, Grammar.fits_program_iff.2
      ⟨[⟨.nowhere, "A", [], [.attribute false ⟨.nowhere, "B", "c", none⟩], none⟩], ?_, rfl⟩⟩
    simp [Decl.Fresh, Member.Fresh]
  refine ⟨_, hread, by decide +kernel, ?_, ⟨?_, fun n hn => ?_⟩, by decide +kernel⟩
  · rw [hkinds]
    exact hassign _
  · rintro ⟨more, hmore⟩
    rw [hkinds] at hmore
    exact hassign _ hmore
  · refine Nat.le_of_not_lt fun hlt => hn (hheader.of_prefix ?_)
    rw [hkinds]
    exact List.take_prefix_take_left (j := 2) hlt

end Compilation

end EoJava
