import EoJava.Proofs.Compilation.Units
import EoJava.Proofs.Grammar.Nodes
import EoJava.Proofs.Token.Places

/-!
# Nodes of a compiled source

The tokens of a source that is parsed are the terminals of its declarations, and every node is at
the place of its own first token, where the source spells it (`parse_places`).
-/

namespace EoJava

open Grammar (Terminal Anchored Leaf Carried)

/-! ## Tokens and leaves -/

/-- A placed terminal is one of a tree, and it is where the node is that starts with it. -/
def Grammar.Anchored.At (found : Located Terminal) (a : Anchored) : Prop :=
  found.value = a.terminal ∧ ∀ position ∈ a.node?, found.position = position

/-- A token carries a terminal of a tree, and it is where the node is that starts with it. -/
def Token.Bears (table : StringTable) (token : Token) (a : Anchored) : Prop :=
  token.Carries table a.terminal ∧ ∀ position ∈ a.node?, token.position = position

namespace Grammar

/-- A leaf as a terminal at its place. -/
def Leaf.placed (leaf : Leaf) : Located Terminal :=
  ⟨leaf.position, leaf.terminal⟩

/-- The leaves of tokens are placed as the lexemes are that these store. -/
theorem placed_leavesFrom {table : StringTable} {tokens : List Token} {met : List (Located Lexeme)}
    (h : List.Forall₂ (Token.Stores table) tokens met) (index : Nat) :
    (leavesFrom index tokens (met.map (·.value.terminal))).map Leaf.placed =
      met.map Lexeme.placed := by
  induction h generalizing index with
  | nil => rfl
  | cons hstores _ ih =>
      rw [List.map_cons, leavesFrom, List.map_cons, ih, Leaf.placed, hstores.position]
      rfl

/-- The nodes of a tree are among its placed terminals, in order. -/
theorem located_sublist {placed : List (Located Terminal)} {tree : List Anchored}
    (h : List.Forall₂ Anchored.At placed tree) :
    (tree.filterMap Anchored.located?).Sublist placed := by
  induction h with
  | nil => exact .slnil
  | @cons found a placed tree hat _ ih =>
      obtain ⟨_, value⟩ := found
      obtain ⟨rfl, hposition⟩ := hat
      cases hnode : a.node? with
      | none =>
          rw [List.filterMap_cons_none (by rw [Anchored.located?, hnode]; rfl)]
          exact ih.cons _
      | some position =>
          obtain rfl := hposition position hnode
          rw [List.filterMap_cons_some (by rw [Anchored.located?, hnode]; rfl)]
          exact ih.cons_cons _

theorem isContent_of_located {tree : List Anchored} :
    ∀ node ∈ tree.filterMap Anchored.located?, node.value.kind.isContent := by
  intro node hnode
  obtain ⟨a, -, hlocated⟩ := List.mem_filterMap.1 hnode
  obtain ⟨position, hposition, rfl⟩ := Option.map_eq_some_iff.1 hlocated
  exact a.content (by rw [hposition]; rfl)

end Grammar

/-- The terminals of a source with the given declarations, with the nodes that start there. -/
def Decl.programAnchored (decls : List Decl) : List Anchored :=
  decls.flatMap anchored ++ [.inner .endOfInput]

theorem Decl.filterMap_programAnchored (decls : List Decl) :
    (programAnchored decls).filterMap Anchored.located? = nodes decls :=
  (List.filterMap_append ..).trans (List.append_nil _)

/-! ## Parsed sources -/

namespace Compilation

variable {c read parsed : Compilation} {decls : List Decl}

/-- Declarations that are parsed are those of the leaves of the tokens. -/
theorem bears_of_parse {us : List Terminal} (h : Carried c.strings c.tokens us)
    (hparse : c.parse = .ok (true, parsed)) (hdecls : parsed.declarations = some decls) :
    parsed = { c with declarations := some decls } ∧
      List.Forall₂ Leaf.Bears h.leaves (Decl.programAnchored decls) := by
  have hus : Terminal.endOfInput ∉ us := fun hmem => (h.legible _ hmem).2 rfl
  by_cases hshallow : Grammar.Shallow (c.tokens.toList.map (·.kind))
  · obtain ⟨fuel, -, ⟨found, rest, hp, hfound, -⟩ |
      ⟨id, token, expected, text, -, -, htoken, -, hrefused, -⟩⟩ := h.parse_follows hshallow
    · rw [parse_of_declarations hfound] at hparse
      cases hparse
      obtain rfl : found = decls := Option.some.inj hdecls
      refine ⟨rfl, ?_⟩
      obtain ⟨taken, hleaves, hbears⟩ :=
        Grammar.Descent.program_holds (Grammar.Descent.expression_finds fuel) hp
      obtain ⟨-, hspelled⟩ := Grammar.program_sound (Grammar.Descent.expression_reads fuel) hus
        h.map_terminal_leaves hp
      -- All leaves but the last are taken, since the declarations spell all terminals but the last.
      have htaken : taken.map (·.terminal) = found.flatMap Decl.terminals := by
        have hmap : taken.map (·.terminal) = (found.flatMap Decl.anchored).map (·.terminal) :=
          Grammar.map_eq_of_forall₂ hbears fun _ _ hbears => hbears.1
        rw [hmap, List.map_flatMap]
        exact List.flatMap_congr fun decl _ => decl.map_terminal_anchored
      have hrest : rest.map (·.terminal) = [Terminal.endOfInput] := by
        have hall := h.map_terminal_leaves
        rw [hleaves, List.map_append, htaken, ← hspelled, Decl.programTerminals] at hall
        exact List.append_cancel_left hall
      obtain ⟨last, rfl, hlast⟩ := List.map_eq_singleton_iff.1 hrest
      rw [hleaves]
      exact List.rel_append hbears (.cons (Leaf.bears_inner hlast) .nil)
    · obtain ⟨hid, -⟩ := Array.getElem?_eq_some_iff.1 htoken
      rw [parse_of_refusal hrefused hid] at hparse
      cases hparse
  · obtain ⟨id, hrefused, -, hid⟩ := Grammar.parse_of_not_shallow c.strings hshallow
    rw [parse_of_refusal hrefused hid] at hparse
    cases hparse

/-- The tokens of a source that is parsed are the terminals of its declarations, and a node of these
is where its first token is. The source spells that token there, and nodes are placed one after the
other, each before those inside it and before its later siblings. -/
theorem parse_places (hfresh : c.Fresh) (hread : c.tokenize = (true, read))
    (hparse : read.parse = .ok (true, parsed)) (hdecls : parsed.declarations = some decls) :
    List.Forall₂ (Token.Bears parsed.strings) parsed.tokens.toList (Decl.programAnchored decls) ∧
      (∀ node ∈ Decl.nodes decls, Scan.StartsAt c.source.toList node.position node.value) ∧
      (Decl.nodes decls).Pairwise fun first second => first.position.Before second.position := by
  obtain ⟨met, hsource, hstores⟩ := stores_of_tokenize hfresh hread
  obtain ⟨found, us, htokenize, -, hcarried, hus, -⟩ := tokenize_of_source hfresh hsource
  obtain rfl : found = read := congrArg Prod.snd (htokenize.symm.trans hread)
  obtain ⟨rfl, hbears⟩ := bears_of_parse hcarried hparse hdecls
  have hplaced : hcarried.leaves.map Leaf.placed = met.map Lexeme.placed := by
    rw [Carried.leaves, ← hus]
    exact Grammar.placed_leavesFrom hstores 0
  have hat : List.Forall₂ Anchored.At (met.map Lexeme.placed) (Decl.programAnchored decls) := by
    rw [← hplaced]
    exact List.forall₂_map_left_iff.2 hbears
  have hnodes := Grammar.located_sublist hat
  rw [Decl.filterMap_programAnchored] at hnodes
  have hcontent : ∀ node ∈ Decl.nodes decls, node.value.kind.isContent :=
    Grammar.isContent_of_located
  have hcovers := Scan.covers_of_source hsource
  refine ⟨?_, fun node hnode => hcovers.spelledFrom (hnodes.subset hnode) (hcontent node hnode), ?_⟩
  · refine Java.forall₂_trans (fun token found a hstores hat => ?_) hstores
      (List.forall₂_map_left_iff.1 hat)
    exact ⟨hat.1 ▸ hstores.carries, fun position hposition =>
      hstores.position.trans (hat.2 position hposition)⟩
  · have hfilter := hnodes.filter fun found => found.value.kind.isContent
    rw [List.filter_eq_self.2 hcontent] at hfilter
    exact hcovers.sorted.sublist hfilter

/-- A declaration with nodes of every sort. -/
theorem parse_places_nested :
    let c : Compilation :=
      { source := "\uFEFFobject A as B, C: # c\n  T @x := f(\"\\n\", g(-1), true)\n  T m(T p)\n" }
    ∃ read parsed decls, c.tokenize = (true, read) ∧ read.parse = .ok (true, parsed) ∧
      parsed.declarations = some decls ∧
      List.Forall₂ (Token.Bears parsed.strings) parsed.tokens.toList (Decl.programAnchored decls) ∧
      (∀ node ∈ Decl.nodes decls, Scan.StartsAt c.source.toList node.position node.value) ∧
      (Decl.nodes decls).Pairwise fun first second => first.position.Before second.position := by
  intro c
  have hread : c.tokenize = (true, c.tokenize.2) := Prod.ext (by decide +kernel) rfl
  have hdone : c.tokenize.2.parse.toOption.map
      (fun done => (done.1, done.2.declarations.isSome)) = some (true, true) := by decide +kernel
  rcases hparse : c.tokenize.2.parse with breakdown | ⟨succeeded, parsed⟩
  · rw [hparse] at hdone
    cases hdone
  · rw [hparse] at hdone
    obtain ⟨rfl, hsome⟩ : succeeded = true ∧ parsed.declarations.isSome = true := by
      simpa [Except.toOption] using hdone
    obtain ⟨decls, hdecls⟩ := Option.isSome_iff_exists.1 hsome
    obtain ⟨hbears, hstarts, hsorted⟩ := parse_places ⟨rfl, rfl⟩ hread hparse hdecls
    exact ⟨_, parsed, decls, hread, hparse, hdecls, hbears, hstarts, hsorted⟩

end Compilation

end EoJava
