import EoJava.Compilation.Stages
import EoJava.Proofs.Grammar.Parsing
import EoJava.Proofs.Token.Scanning

/-!
# Tokens of a compilation

The tokens that a compilation stores stand for the lexemes that were met, under the string table at
the end as under the one at the time (`stores_foldl`). On a fresh compilation they
are the tokens of a source, and there is a diagnostic exactly if the scan stops at a problem
(`tokenize_cases`).
-/

namespace EoJava

open Grammar (Terminal Carried)

namespace StringTable

/-- Every id that has a text keeps it. -/
def Extends (table later : StringTable) : Prop :=
  ∀ id text, table.get id = .ok text → later.get id = .ok text

theorem Extends.refl (table : StringTable) : table.Extends table :=
  fun _ _ h => h

theorem Extends.trans {first second third : StringTable} (h : first.Extends second)
    (h' : second.Extends third) : first.Extends third :=
  fun id text hget => h' id text (h id text hget)

theorem extends_intern (table : StringTable) (text : String) :
    table.Extends (table.intern text).2 :=
  fun _ _ h => get_intern_of_get text h

/-- Storing a lexeme keeps all texts. -/
theorem extends_store (table : StringTable) (found : Located Lexeme) :
    table.Extends (table.store found).2 := by
  obtain ⟨position, lexeme⟩ := found
  cases lexeme with
  | name text | string text | number text => exact table.extends_intern text
  | indent | dedent | newline | mark | endOfInput => exact Extends.refl table

/-- The token of a lexeme carries its terminal and stands at its place. -/
theorem carries_store (table : StringTable) (found : Located Lexeme) :
    (table.store found).1.Carries (table.store found).2 found.value.terminal ∧
      (table.store found).1.position = found.position := by
  obtain ⟨position, lexeme⟩ := found
  cases lexeme with
  | name text | string text | number text =>
      exact ⟨⟨rfl, fun _ h => Option.some.inj h ▸ get_intern table text⟩, rfl⟩
  | indent | dedent | newline | mark | endOfInput =>
      exact ⟨⟨rfl, fun _ h => by cases h⟩, rfl⟩

end StringTable

/-- The number of blocks open after a layout lexeme. -/
def Lexeme.blocks? : Lexeme → Option Nat
  | .indent depth | .dedent depth => some depth
  | _ => none

namespace Token

variable {table later : StringTable} {token : Token}

/-- A token carries its terminal under any larger string table. -/
theorem Carries.extend {t : Terminal} (h : token.Carries table t)
    (hextends : table.Extends later) : token.Carries later t :=
  ⟨h.kind, fun text htext => hextends _ _ (h.text text htext)⟩

/-- A token stands for a lexeme at its place. -/
structure Stores (table : StringTable) (token : Token) (found : Located Lexeme) : Prop where
  carries : token.Carries table found.value.terminal
  position : token.position = found.position
  payload : ∀ depth ∈ found.value.blocks?, token.payload = depth

theorem Stores.extend {found : Located Lexeme} (h : token.Stores table found)
    (hextends : table.Extends later) : token.Stores later found :=
  ⟨h.carries.extend hextends, h.position, h.payload⟩

end Token

/-- A lexeme is stored as its token. -/
theorem StringTable.stores_store (table : StringTable) (found : Located Lexeme) :
    (table.store found).1.Stores (table.store found).2 found := by
  obtain ⟨hcarries, hposition⟩ := table.carries_store found
  refine ⟨hcarries, hposition, fun depth hdepth => ?_⟩
  obtain ⟨position, lexeme⟩ := found
  cases lexeme with
  | indent | dedent =>
      cases hdepth
      rfl
  | name | string | number | newline | mark | endOfInput => cases hdepth

namespace Compilation

/-- Lexemes are stored as tokens, one each, and nothing else changes. -/
theorem stores_foldl (lexemes : List (Located Lexeme)) (c : Compilation) :
    ∃ (stored : List Token) (strings : StringTable),
      lexemes.foldl addLexeme c = { c with strings, tokens := c.tokens ++ stored } ∧
        c.strings.Extends strings ∧ List.Forall₂ (Token.Stores strings) stored lexemes := by
  induction lexemes generalizing c with
  | nil => exact ⟨[], c.strings, by simp, .refl _, .nil⟩
  | cons found lexemes ih =>
      obtain ⟨stored, strings, heq, hextends, hstores⟩ := ih (c.addLexeme found)
      refine ⟨(c.strings.store found).1 :: stored, strings, ?_,
        (c.strings.extends_store found).trans hextends, ?_⟩
      · rw [List.foldl_cons, heq]
        simp [addLexeme, addToken]
      · exact .cons ((c.strings.stores_store found).extend hextends) hstores

/-- Lexemes are stored as tokens that carry their terminals. Nothing else changes. -/
theorem tokens_foldl (lexemes : List (Located Lexeme)) (c : Compilation) :
    ∃ (stored : List Token) (strings : StringTable),
      lexemes.foldl addLexeme c = { c with strings, tokens := c.tokens ++ stored } ∧
        c.strings.Extends strings ∧
        List.Forall₂ (Token.Carries strings) stored (lexemes.map (·.value.terminal)) := by
  obtain ⟨stored, strings, heq, hextends, hstores⟩ := c.stores_foldl lexemes
  exact ⟨stored, strings, heq, hextends,
    List.forall₂_map_right_iff.2 (hstores.imp fun _ _ h => h.carries)⟩

/-- Nothing was made of the source yet. -/
def Fresh (c : Compilation) : Prop :=
  c.tokens = #[] ∧ c.diagnostics = []

variable {c : Compilation}

/-- A fresh compilation stores the lexemes that the scan of its source meets, whether or not the
scan stops at a problem. -/
theorem stores_tokenize (hfresh : c.Fresh) : List.Forall₂ (Token.Stores c.tokenize.2.strings)
    c.tokenize.2.tokens.toList (Scan.source c.source.toList).lexemes := by
  obtain ⟨stored, strings, heq, -, hstores⟩ :=
    c.stores_foldl (Scan.source c.source.toList).lexemes
  rw [tokenize]
  dsimp only
  split <;> simpa [heq, hfresh.1, report, add] using hstores

/-- A fresh compilation that reads its source stores its lexemes. -/
theorem stores_of_tokenize {read : Compilation} (hfresh : c.Fresh) (h : c.tokenize = (true, read)) :
    ∃ met, Scan.source c.source.toList = ⟨met, .ok ()⟩ ∧
      List.Forall₂ (Token.Stores read.strings) read.tokens.toList met := by
  have hstores := stores_tokenize hfresh
  rcases hsource : Scan.source c.source.toList with ⟨met, problem | ⟨⟩⟩
  · have hdone := congrArg Prod.fst h
    obtain ⟨stored, strings, heq, -⟩ := c.tokens_foldl met
    simp [tokenize, hsource, heq, hasErrors, errors_eq, report, add] at hdone
  · rw [h, hsource] at hstores
    exact ⟨met, rfl, hstores⟩

/-- A fresh compilation stores tokens that carry the lexemes of its source, if all of it is read. -/
theorem tokenize_of_source (hfresh : c.Fresh) {met : List (Located Lexeme)}
    (hsource : Scan.source c.source.toList = ⟨met, .ok ()⟩) :
    ∃ read us, c.tokenize = (true, read) ∧ read.diagnostics = [] ∧
      Carried read.strings read.tokens us ∧ met.map (·.value.terminal) = us ++ [.endOfInput] ∧
      read = { c with strings := read.strings, tokens := read.tokens } := by
  obtain ⟨htokens, hdiagnostics⟩ := hfresh
  obtain ⟨stored, strings, heq, -, hcarries⟩ := c.tokens_foldl met
  obtain ⟨init, position, hinit, hlegible⟩ | ⟨lexemes, problem, herror, -⟩ :=
    Scan.source_cases c.source.toList
  · rw [hsource] at hinit
    cases hinit
    refine ⟨{ c with strings, tokens := c.tokens ++ stored }, init.map (·.value.terminal), ?_,
      hdiagnostics, ⟨?_, ?_⟩, by simp [Lexeme.terminal], rfl⟩
    · simp only [tokenize, hsource, heq, hasErrors, errors_eq, hdiagnostics]
      rfl
    · simpa [htokens, Lexeme.terminal] using hcarries
    · exact List.forall_mem_map.2 hlegible
  · rw [hsource] at herror
    cases herror

/-- A fresh compilation reads its source into the tokens of a source, or it reports one lexical
problem. -/
theorem tokenize_cases (hfresh : c.Fresh) :
    (∃ read us, c.tokenize = (true, read) ∧ read.diagnostics = [] ∧
        Carried read.strings read.tokens us ∧
        read = { c with strings := read.strings, tokens := read.tokens }) ∨
      ∃ read problem, c.tokenize = (false, read) ∧
        read.diagnostics = [.ofProblem problem] ∧ problem.value.code.stage = .lex := by
  obtain ⟨init, position, hsource, -⟩ | ⟨lexemes, problem, hsource, hstage, -⟩ :=
    Scan.source_cases c.source.toList
  · obtain ⟨read, us, htokenize, hnone, hcarried, -, heq⟩ := tokenize_of_source hfresh hsource
    exact .inl ⟨read, us, htokenize, hnone, hcarried, heq⟩
  · obtain ⟨stored, strings, heq, -⟩ := c.tokens_foldl lexemes
    right
    refine ⟨{ c with strings, tokens := c.tokens ++ stored, diagnostics := [.ofProblem problem] },
      problem, ?_, rfl, hstage⟩
    simp only [tokenize, hsource, heq, hasErrors, errors_eq, report, add, hfresh.2]
    rfl

end Compilation

end EoJava
