import EoJava.Compilation.Pull
import EoJava.Proofs.Compilation.Interning

/-!
# Pulls of a scanner

A pull takes one lexeme off those that are left, and stores its text but not its token
(`after_of_le`); once none is left, the problem of the scan is reported, and nothing happens after
that (`after_of_lt`). So the pulls of any source give tokens up to some number and nothing from then
on. They are the tokens that a compilation stores, and either the last one is the end of the source
and no other, or one lexical problem is reported after the last one (`start_pulls`).
-/

namespace EoJava

/-- A token of a kind that has a text carries the id of one. -/
theorem Token.Carries.isValid {table : StringTable} {token : Token} {t : Grammar.Terminal}
    (h : token.Carries table t) (hkind : token.kind ∈ [Kind.name, .string, .number]) :
    table.isValid token.payload := by
  obtain ⟨text, htext⟩ : ∃ text, text ∈ t.text? := by
    rw [h.kind] at hkind
    cases t with
    | name text | string text | number text => exact ⟨text, rfl⟩
    | indent | dedent | newline | mark | endOfInput => simp [Grammar.Terminal.kind] at hkind
  exact StringTable.isValid_iff.2 ⟨text, h.text text htext⟩

theorem Lexeme.Legible.kind_ne {lexeme : Lexeme} (h : lexeme.Legible) :
    lexeme.terminal.kind ≠ .endOfInput := by
  cases lexeme with
  | endOfInput => exact fun _ => h.2 rfl
  | _ => exact nofun

namespace Scanner

/-! ## States -/

/-- The scanner after a number of pulls. -/
def after (s : Scanner) : Nat → Scanner
  | 0 => s
  | n + 1 => (s.after n).pull.2

/-- The token that the pull after a number of others gives, if it gives one. -/
def token? (s : Scanner) (n : Nat) : Option Token :=
  (s.after n).pull.1

variable {s : Scanner} {c : Compilation} {pending : List (Located Lexeme)}
  {problem? : Option (Located Problem)} {m n k : Nat}

theorem after_succ (s : Scanner) (n : Nat) : s.after (n + 1) = s.pull.2.after n := by
  induction n with
  | zero => rfl
  | succ n ih => rw [after, ih, after]

theorem token?_succ (s : Scanner) (n : Nat) : s.token? (n + 1) = s.pull.2.token? n := by
  rw [token?, after_succ, token?]

/-- While lexemes are left, a pull takes one of them and stores its text. -/
theorem after_of_le (c : Compilation) (problem? : Option (Located Problem))
    (h : n ≤ pending.length) : ∃ strings,
    after ⟨c, pending, problem?⟩ n = ⟨{ c with strings }, pending.drop n, problem?⟩ := by
  induction n with
  | zero => exact ⟨c.strings, rfl⟩
  | succ n ih =>
      obtain ⟨strings, hafter⟩ := ih (Nat.le_of_succ_le h)
      have hnext := List.drop_eq_getElem_cons (Nat.lt_of_succ_le h)
      rw [after, hafter, hnext]
      exact ⟨_, rfl⟩

/-- When no lexeme is left, a pull reports the problem of the scan, and no pull after it does
anything. -/
theorem after_of_lt (c : Compilation) (problem? : Option (Located Problem))
    (h : pending.length < n) : ∃ strings,
    after ⟨c, pending, problem?⟩ n =
      ⟨{ c with
        strings
        diagnostics := c.diagnostics ++ (problem?.map Diagnostic.ofProblem).toList }, [],
        none⟩ := by
  induction n with
  | zero => exact absurd h (Nat.not_lt_zero _)
  | succ n ih =>
      rw [after]
      rcases Nat.lt_succ_iff_lt_or_eq.1 h with hlt | rfl
      · obtain ⟨strings, hafter⟩ := ih hlt
        rw [hafter]
        exact ⟨strings, rfl⟩
      · obtain ⟨strings, hafter⟩ := after_of_le c problem? (Nat.le_refl pending.length)
        rw [hafter, List.drop_length]
        cases problem? with
        | none => exact ⟨strings, by simp [pull]⟩
        | some problem => exact ⟨strings, rfl⟩

/-! ## Tokens -/

/-- As many pulls give a token as there are lexemes, each the token of its lexeme. -/
theorem token?_eq (c : Compilation) (pending : List (Located Lexeme))
    (problem? : Option (Located Problem)) (n : Nat) :
    token? ⟨c, pending, problem?⟩ n = pending[n]?.map fun found =>
      ((after ⟨c, pending, problem?⟩ n).compilation.strings.store found).1 := by
  rcases Nat.lt_or_ge n pending.length with hlt | hle
  · obtain ⟨strings, hafter⟩ := after_of_le c problem? (Nat.le_of_lt hlt)
    rw [token?, hafter, List.drop_eq_getElem_cons hlt, List.getElem?_eq_getElem hlt]
    rfl
  · rw [List.getElem?_eq_none hle]
    rcases Nat.lt_or_eq_of_le hle with hlt | rfl
    · obtain ⟨strings, hafter⟩ := after_of_lt c problem? hlt
      rw [token?, hafter]
      rfl
    · obtain ⟨strings, hafter⟩ := after_of_le c problem? (Nat.le_refl pending.length)
      rw [token?, hafter, List.drop_length]
      cases problem? <;> rfl

theorem extends_pull (s : Scanner) :
    s.compilation.strings.Extends s.pull.2.compilation.strings := by
  unfold pull
  split
  · next found _ _ => exact s.compilation.strings.extends_store found
  · exact .refl _
  · exact .refl _

/-- Texts that are stored stay stored. -/
theorem extends_after (h : m ≤ n) :
    (s.after m).compilation.strings.Extends (s.after n).compilation.strings := by
  induction h with
  | refl => exact .refl _
  | step _ ih => exact ih.trans (extends_pull _)

/-- A pull leaves a table under which its token stands for its lexeme. So does any pull after. -/
theorem stores_token? {token : Token} (h : token? ⟨c, pending, problem?⟩ k = some token)
    (hlt : k < n) : ∃ found ∈ pending[k]?,
      token.Stores (after ⟨c, pending, problem?⟩ n).compilation.strings found := by
  have hsome := h
  rw [token?_eq, Option.map_eq_some_iff] at hsome
  obtain ⟨found, hfound, rfl⟩ := hsome
  obtain ⟨hk, hget⟩ := List.getElem?_eq_some_iff.1 hfound
  refine ⟨found, hfound, Token.Stores.extend ?_ (extends_after (Nat.succ_le_of_lt hlt))⟩
  obtain ⟨strings, hafter⟩ := after_of_le c problem? (Nat.le_of_lt hk)
  rw [after, hafter, List.drop_eq_getElem_cons hk, hget]
  exact strings.stores_store found

/-- The tokens that are pulled are those that a compilation stores. -/
theorem token?_eq_stored {other : Compilation} (hstrings : other.strings = c.strings)
    (pending : List (Located Lexeme)) (problem? : Option (Located Problem)) (k : Nat) :
    (pending.foldl Compilation.addLexeme other).tokens[other.tokens.size + k]? =
      token? ⟨c, pending, problem?⟩ k := by
  induction pending generalizing c other k with
  | nil =>
      rw [token?_eq, List.foldl_nil, Array.getElem?_eq_none (Nat.le_add_right _ _)]
      rfl
  | cons found pending ih =>
      rw [List.foldl_cons]
      have hsize : (other.addLexeme found).tokens.size = other.tokens.size + 1 := Array.size_push _
      cases k with
      | zero =>
          obtain ⟨stored, strings, heq, -⟩ := (other.addLexeme found).stores_foldl pending
          have hfirst : (other.addLexeme found).tokens[other.tokens.size]? =
              some (c.strings.store found).1 := by
            rw [← hstrings]
            exact Array.getElem?_push_size
          have hlt : other.tokens.size < (other.addLexeme found).tokens.toList.length := by
            rw [Array.length_toList, hsize]
            exact Nat.lt_succ_self _
          rw [heq, Nat.add_zero, ← Array.getElem?_toList, Array.toList_appendList,
            List.getElem?_append_left hlt, Array.getElem?_toList, hfirst]
          rfl
      | succ k =>
          have hlater : (other.addLexeme found).strings = (c.strings.store found).2 := by
            rw [← hstrings]
            rfl
          have hnext := ih (c := { c with strings := (c.strings.store found).2 }) hlater k
          rw [hsize, Nat.add_assoc, Nat.add_comm 1 k] at hnext
          rw [hnext, token?_succ]
          rfl

/-! ## Ends -/

/-- Nothing is reported before the last lexeme is pulled. -/
theorem diagnostics_after (c : Compilation) (pending : List (Located Lexeme))
    (problem? : Option (Located Problem)) (n : Nat) :
    (after ⟨c, pending, problem?⟩ n).compilation.diagnostics = c.diagnostics ++
      if n ≤ pending.length then [] else (problem?.map Diagnostic.ofProblem).toList := by
  split
  · next hle =>
      obtain ⟨strings, hafter⟩ := after_of_le c problem? hle
      rw [hafter, List.append_nil]
  · next hlt =>
      obtain ⟨strings, hafter⟩ :=
        after_of_lt c problem? (Nat.lt_of_not_le hlt)
      rw [hafter]

/-- No pull stores a token. -/
theorem tokens_after (s : Scanner) (n : Nat) :
    (s.after n).compilation.tokens = s.compilation.tokens := by
  induction n with
  | zero => rfl
  | succ n ih =>
      rw [← ih, after]
      unfold pull
      split <;> rfl

/-- How the pulls of a scanner end of which so many give a token. Either the last of these tokens is
the end of the source, no other is, and nothing is reported; or none of them is, and the first pull
that gives no token reports one lexical problem. -/
inductive Ends (s : Scanner) (n : Nat) : Prop where
  | read (hsome : 0 < n)
      (hlast : ∀ k token, s.token? k = some token → (token.kind = .endOfInput ↔ k + 1 = n))
      (hnone : ∀ m, (s.after m).compilation.diagnostics = [])
  | stopped (hnever : ∀ k token, s.token? k = some token → token.kind ≠ .endOfInput)
      (d : Diagnostic) (hstage : d.code.stage = .lex)
      (hone : ∀ m, (s.after m).compilation.diagnostics = if m ≤ n then [] else [d])

/-- As many pulls give a token as there are lexemes in a source. -/
theorem isSome_token?_iff (c : Compilation) (k : Nat) :
    ((start c).token? k).isSome ↔ k < (Scan.source c.source.toList).lexemes.length := by
  rw [start, token?_eq, Option.isSome_map]
  simp

/-- The pulls of a source end after its last lexeme. -/
theorem ends_start (hnone : c.diagnostics = []) :
    (start c).Ends (Scan.source c.source.toList).lexemes.length := by
  -- The kind of a token is that of the lexeme which was pulled.
  have hkind : ∀ k token, (start c).token? k = some token →
      ∃ found ∈ (Scan.source c.source.toList).lexemes[k]?,
        token.kind = found.value.terminal.kind := by
    intro k token htoken
    obtain ⟨found, hfound, hstores⟩ := stores_token? htoken (Nat.lt_succ_self k)
    exact ⟨found, hfound, hstores.carries.kind⟩
  have hdiagnostics := diagnostics_after c (Scan.source c.source.toList).lexemes (start c).problem?
  rw [hnone] at hdiagnostics
  obtain ⟨init, position, hsource, hlegible⟩ | ⟨lexemes, problem, hsource, hstage, hlegible⟩ :=
    Scan.source_cases c.source.toList
  · have hreported : (start c).problem? = none := by
      simp only [start, hsource]
    rw [hreported] at hdiagnostics
    refine .read (by simp [hsource]) (fun k token htoken => ?_) fun m => ?_
    · obtain ⟨found, hfound, hfoundKind⟩ := hkind k token htoken
      rw [hsource] at hfound ⊢
      rw [hfoundKind, List.length_append, List.length_singleton, Nat.add_right_cancel_iff]
      rw [Option.mem_def, List.getElem?_append] at hfound
      split at hfound
      · next hlt =>
          exact iff_of_false
            (Lexeme.Legible.kind_ne (hlegible found (List.mem_of_getElem? hfound)))
            (Nat.ne_of_lt hlt)
      · next hge =>
          obtain ⟨hk, rfl⟩ := List.getElem?_eq_some_iff.1 hfound
          rw [List.length_singleton] at hk
          refine iff_of_true ?_ (by omega)
          rw [List.getElem_singleton]
          rfl
    · simpa [start, hsource] using hdiagnostics m
  · have hreported : (start c).problem? = some problem := by
      simp only [start, hsource]
    rw [hreported] at hdiagnostics
    refine .stopped (fun k token htoken => ?_) (.ofProblem problem) hstage fun m => ?_
    · obtain ⟨found, hfound, hfoundKind⟩ := hkind k token htoken
      rw [hsource] at hfound
      rw [hfoundKind]
      exact Lexeme.Legible.kind_ne (hlegible found (List.mem_of_getElem? hfound))
    · simpa [start, hsource] using hdiagnostics m

end Scanner

namespace Compilation

variable {c : Compilation}

/-- The problem of a scan is reported after its tokens are stored. -/
theorem tokens_tokenize (c : Compilation) : c.tokenize.2.tokens =
    ((Scan.source c.source.toList).lexemes.foldl addLexeme c).tokens := by
  rw [tokenize]
  dsimp only
  split <;> rfl

/-- A fresh compilation reads its source if and only if the last token that it stores is the end of
the source. -/
theorem tokenize_iff (hfresh : c.Fresh) : c.tokenize.1 = true ↔
    ∃ token, c.tokenize.2.tokens.back? = some token ∧ token.kind = .endOfInput := by
  obtain ⟨init, position, hsource, -⟩ | ⟨lexemes, problem, hsource, -, hlegible⟩ :=
    Scan.source_cases c.source.toList
  · obtain ⟨read, us, hread, -, hcarried, -⟩ := tokenize_of_source hfresh hsource
    have hlast := congrArg List.getLast? hcarried.map_kind
    rw [List.map_append, List.map_singleton, List.getLast?_concat, List.getLast?_map,
      Option.map_eq_some_iff] at hlast
    rw [hread, ← Array.getLast?_toList]
    exact iff_of_true rfl hlast
  · refine iff_of_false ?_ ?_
    · obtain ⟨stored, strings, heq, -⟩ := c.tokens_foldl lexemes
      simp [tokenize, hsource, heq, hasErrors, errors_eq, report, add]
    · rintro ⟨token, hlast, hkind⟩
      have hkinds := Grammar.map_eq_of_forall₂ (stores_tokenize hfresh) fun _ _ h => h.carries.kind
      rw [← Array.getLast?_toList] at hlast
      have htoken := List.mem_map_of_mem (f := Token.kind) (List.mem_of_getLast? hlast)
      rw [hkinds, hsource, hkind] at htoken
      obtain ⟨found, hfound, hend⟩ := List.mem_map.1 htoken
      exact Lexeme.Legible.kind_ne (hlegible found hfound) hend

end Compilation

/-- The pulls of a source give tokens up to some number, and nothing from then on. They end at the
end of the source or with one lexical problem. A text is stored before the pull of its token ends
and stays stored, and no pull stores a token. The tokens that a fresh compilation stores are those
that are pulled, and it reads its source if and only if the last of them is the end of the
source. -/
theorem Scanner.start_pulls (source filename : String) :
    let c : Compilation := { source, filename }
    ∃ n, (∀ k, ((start c).token? k).isSome ↔ k < n) ∧ (start c).Ends n ∧
      (∀ k token, (start c).token? k = some token → token.kind ∈ [Kind.name, .string, .number] →
        ∀ m, k < m → ((start c).after m).compilation.strings.isValid token.payload) ∧
      (∀ m, ((start c).after m).compilation.tokens = c.tokens) ∧
      (∀ k, c.tokenize.2.tokens[k]? = (start c).token? k) ∧
      (c.tokenize.1 = true ↔
        ∃ token, c.tokenize.2.tokens.back? = some token ∧ token.kind = .endOfInput) := by
  intro c
  refine ⟨_, isSome_token?_iff c, ends_start rfl, fun k token htoken hkind m hm => ?_,
    fun m => tokens_after _ m, fun k => ?_, Compilation.tokenize_iff ⟨rfl, rfl⟩⟩
  · obtain ⟨found, -, hstores⟩ := stores_token? htoken hm
    exact hstores.carries.isValid hkind
  · have hstored := token?_eq_stored (c := c) rfl (Scan.source c.source.toList).lexemes
      (start c).problem? k
    rwa [← Compilation.tokens_tokenize, Array.size_empty, Nat.zero_add] at hstored

end EoJava
