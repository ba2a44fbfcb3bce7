import EoJava.Proofs.Compilation.Compiles
import EoJava.Proofs.Compilation.Rescanned
import EoJava.Proofs.Token.Reindented

/-!
# Sources in other widths

Columns apart, two sources that are read alike have the same tokens and the same diagnostic
(`Compilation.SameRows.tokenize`), and they compile to the same units. So only the order of the
widths of indentation counts: the lines of a source may be indented anew with one character, in
other widths of the same order (`compile_reindent`).
-/

namespace EoJava

open Grammar (Terminal)

/-- What a token is, and its line. -/
def Token.row (token : Token) : Int × Kind × Int :=
  (token.position.line, token.kind, token.payload)

/-- The code of a diagnostic, and its line. -/
def Diagnostic.row (d : Diagnostic) : Int × Code :=
  (d.position.line, d.code)

/-- A lexeme is stored as the same token wherever it is on its line. -/
theorem StringTable.store_congr {found next : Located Lexeme} (h : next.row = found.row)
    (table : StringTable) : (table.store next).2 = (table.store found).2 ∧
      (table.store next).1.row = (table.store found).1.row := by
  obtain ⟨⟨line, column⟩, lexeme⟩ := found
  obtain ⟨⟨line', column'⟩, lexeme'⟩ := next
  obtain ⟨hline, hlexeme⟩ := Prod.ext_iff.1 h
  obtain rfl : line' = line := hline
  obtain rfl : lexeme' = lexeme := hlexeme
  cases lexeme' <;> exact ⟨rfl, rfl⟩

/-- Readings that are alike yield the same terminals. -/
theorem Reading.Alike.yields {first second : Reading Unit} (h : Alike Eq first second)
    {ts : List Terminal} (hfirst : first.Yields ts ()) : second.Yields ts () := by
  obtain ⟨met, rfl, rfl⟩ := hfirst
  cases h with
  | @ok _ other _ _ hmet _ =>
      refine ⟨other, rfl, ?_⟩
      have hvalues := congrArg (List.map fun row => row.2.terminal) hmet
      rwa [List.map_map, List.map_map] at hvalues

/-- Sources that are read alike compile to the same units. -/
theorem Compiles.alike {source other : List Char} {decls : List Decl} {units : List JavaUnit}
    (h : Compiles source decls units)
    (halike : Reading.Alike Eq (Scan.source source) (Scan.source other)) :
    Compiles other decls units :=
  { h with spelled := halike.yields h.spelled }

namespace Compilation

/-- Two compilations hold the same texts, and the same tokens and diagnostics on each line. -/
structure SameRows (c other : Compilation) : Prop where
  strings : other.strings = c.strings
  tokens : other.tokens.toList.map Token.row = c.tokens.toList.map Token.row
  diagnostics : other.diagnostics.map Diagnostic.row = c.diagnostics.map Diagnostic.row

namespace SameRows

variable {c other : Compilation}

theorem addLexeme (h : c.SameRows other) {found next : Located Lexeme}
    (hrow : next.row = found.row) : (c.addLexeme found).SameRows (other.addLexeme next) := by
  obtain ⟨hstrings, htoken⟩ := c.strings.store_congr hrow
  refine ⟨?_, ?_, h.diagnostics⟩
  · rw [Compilation.addLexeme, h.strings]
    exact hstrings
  · simp [Compilation.addLexeme, addToken, h.tokens, h.strings, htoken]

theorem foldl (h : c.SameRows other) {met more : List (Located Lexeme)}
    (hmet : more.map Located.row = met.map Located.row) :
    (met.foldl Compilation.addLexeme c).SameRows (more.foldl Compilation.addLexeme other) := by
  induction met generalizing c other more with
  | nil =>
      rw [List.map_nil, List.map_eq_nil_iff] at hmet
      rwa [hmet]
  | cons found met ih =>
      rw [List.map_cons, List.map_eq_cons_iff] at hmet
      obtain ⟨next, more, rfl, hrow, hmore⟩ := hmet
      exact ih (h.addLexeme hrow) hmore

theorem report (h : c.SameRows other) {problem found : Located Problem}
    (hcode : found.value.code = problem.value.code)
    (hline : found.position.line = problem.position.line) :
    (c.report problem).SameRows (other.report found) := by
  refine ⟨h.strings, h.tokens, ?_⟩
  have hrow : (Diagnostic.ofProblem found).row = (Diagnostic.ofProblem problem).row :=
    Prod.ext hline hcode
  simp [Compilation.report, add, h.diagnostics, hrow]

theorem exists_diagnostic (h : c.SameRows other) {d : Diagnostic} (hone : c.diagnostics = [d]) :
    ∃ d', other.diagnostics = [d'] ∧ d'.position.line = d.position.line ∧ d'.code = d.code := by
  have hdiagnostics := h.diagnostics
  rw [hone, List.map_singleton, List.map_eq_singleton_iff] at hdiagnostics
  obtain ⟨d', hone', hrow⟩ := hdiagnostics
  exact ⟨d', hone', Prod.ext_iff.1 hrow⟩

theorem hasErrors (h : c.SameRows other) : other.hasErrors = c.hasErrors := by
  rw [Compilation.hasErrors, Compilation.hasErrors, errors_eq, errors_eq, ← List.isEmpty_map,
    h.diagnostics, List.isEmpty_map]

/-- Sources that are read alike have the same tokens and the same diagnostic on each line. -/
theorem tokenize (h : c.SameRows other)
    (halike : Reading.Alike Eq (Scan.source c.source.toList) (Scan.source other.source.toList)) :
    other.tokenize.1 = c.tokenize.1 ∧ c.tokenize.2.SameRows other.tokenize.2 := by
  suffices hrows : c.tokenize.2.SameRows other.tokenize.2 from
    ⟨congrArg not hrows.hasErrors, hrows⟩
  simp only [Compilation.tokenize]
  generalize Scan.source c.source.toList = first at halike
  generalize Scan.source other.source.toList = second at halike
  cases halike with
  | ok hmet _ => exact h.foldl hmet
  | error hmet hcode hline => exact (h.foldl hmet).report hcode hline

end SameRows

end Compilation

variable {source other filename : String}

/-- Sources that are read alike are refused by the scan with the same code on the same line. -/
theorem refused_alike {error : CompileError}
    (halike : Reading.Alike Eq (Scan.source source.toList) (Scan.source other.toList))
    (h : compile source filename = .error (.refused error)) (hstage : error.stage = .lex) :
    ∃ moved, compile other filename = .error (.refused moved) ∧ moved.code = error.code ∧
      moved.position.line = error.position.line := by
  have hsettles : Compilation.Settles { source, filename } (compile source filename) :=
    Compilation.run_settles ⟨rfl, rfl⟩
  rw [h] at hsettles
  cases hsettles with
  | @refused stage after d _ _ hfails hone hcode htells _ =>
      obtain rfl : stage = .lex := hcode.symm.trans (htells.stage.symm.trans hstage)
      cases hfails with
      | lex hafter =>
          let c : Compilation := { source, filename }
          let c' : Compilation := { source := other, filename }
          have hafter : c.tokenize = (false, after) := hafter
          rcases hafter' : c'.tokenize with ⟨succeeded, after'⟩
          have hsame : c.SameRows c' := ⟨rfl, rfl, rfl⟩
          obtain ⟨rfl, hrows⟩ : succeeded = false ∧ after.SameRows after' := by
            simpa [hafter, hafter'] using hsame.tokenize halike
          obtain ⟨d', hone', hline, hcode⟩ := hrows.exists_diagnostic hone
          refine ⟨_, Compilation.run_of_diagnostic (.lex hafter') hone', ?_, ?_⟩
          · exact hcode.trans htells.code.symm
          · rw [htells.position]
            exact hline

/-- A source of which the lines that start outside parentheses are indented with as many `c` as `f`
makes of their widths. A line that holds nothing stays as it is where `keep` says so. -/
def reindent (f : Nat → Nat) (c : Char) (keep : Nat → Bool) (source : String) : String :=
  "\n".intercalate ((Scan.reindentLines f c keep source.toList).map String.ofList)

variable {f : Nat → Nat} {c : Char}

/-- A source that is indented anew is read alike, unless it mixes tabs and spaces. -/
theorem alike_reindent (keep : Nat → Bool) (hmark : source.toList.head? ≠ some '\uFEFF')
    (hf : StrictMono f) (hzero : f 0 = 0) (hc : Text.isGap c)
    (huniform : Scan.Uniform source.toList) :
    Reading.Alike Eq (Scan.source source.toList)
      (Scan.source (reindent f c keep source).toList) := by
  have hlines : Text.splitLines (reindent f c keep source).toList =
      Scan.reindentLines f c keep source.toList := by
    have hunbroken := Scan.unbroken_reindentLines f hc keep source.toList
    rw [reindent, Text.splitLines_intercalate]
    · simp [Function.comp_def]
    · simp [Scan.reindentLines, Text.splitLines_ne_nil]
    · simpa using hunbroken
  refine Scan.alike_reindented hf hzero hc huniform ?_
  rw [Text.lines, Text.splitLines_dropMark, hlines, Scan.dropMark_reindentLines hf hzero hc hmark]
  exact Scan.reindented_reindentLines f hc keep hmark

/-- Let `f` be strictly increasing, with zero at zero, and let a source that does not start with a
byte order mark not be refused for mixing tabs and spaces. With the lines that start outside
parentheses indented with as many tabs, or spaces, as `f` makes of their widths, the source has the
same tokens and the same diagnostic on each line. It compiles to the same units if it compiles to
any, and if the scan refuses it, then with the same code on the same line. -/
theorem compile_reindent (filename : String) (keep : Nat → Bool)
    (hmark : source.toList.head? ≠ some '\uFEFF') (hf : StrictMono f) (hzero : f 0 = 0)
    (hc : Text.isGap c)
    (hstyle : ∀ d ∈ ({ source, filename } : Compilation).tokenize.2.diagnostics,
      d.code ∉ [Code.mixedIndentation, .inconsistentIndentation]) :
    let other := reindent f c keep source
    let read := ({ source, filename } : Compilation).tokenize
    let again := ({ source := other, filename } : Compilation).tokenize
    again.1 = read.1 ∧ read.2.SameRows again.2 ∧
      (∀ units, compile source filename = .ok units ↔ compile other filename = .ok units) ∧
      ∀ error, compile source filename = .error (.refused error) → error.stage = .lex →
        ∃ moved, compile other filename = .error (.refused moved) ∧ moved.code = error.code ∧
          moved.position.line = error.position.line := by
  intro other read again
  have huniform : Scan.Uniform source.toList := by
    intro problem hproblem
    refine hstyle (.ofProblem problem) ?_
    simp [Compilation.tokenize, hproblem, Compilation.report, Compilation.add]
  have halike := alike_reindent keep hmark hf hzero hc huniform
  have hsame : Compilation.SameRows { source, filename } { source := other, filename } :=
    ⟨rfl, rfl, rfl⟩
  obtain ⟨hread, hrows⟩ := hsame.tokenize halike
  refine ⟨hread, hrows, fun units => ?_, fun error => refused_alike halike⟩
  rw [compile_eq_ok_iff, compile_eq_ok_iff]
  exact exists_congr fun decls => ⟨fun h => h.alike halike, fun h => h.alike halike.symm⟩

/-- Tabs take the place of spaces around a call on two lines, and where a line ends no block. -/
theorem compile_reindent_tabs :
    let source := "object A as B:\n T m(T x):\n   f(\n x)\n  # c\n T @y := 1\n"
    let other :=
      "object A as B:\n\t\tT m(T x):\n\t\t\t\t\t\tf(\n x)\n\t\t\t\t# c\n\t\tT @y := 1\n"
    let dangling := "object A:\n   T @x\n  T @y\n"
    (∃ units, compile source "a.eo" = .ok units ∧ compile other "a.eo" = .ok units) ∧
      ∃ error moved, compile dangling "a.eo" = .error (.refused error) ∧
        compile "object A:\n\t\t\t\t\t\tT @x\n\t\t\t\tT @y\n" "a.eo" = .error (.refused moved) ∧
        error.code = .unmatchedUnindent ∧ error.position.line = 3 ∧
        moved.code = .unmatchedUnindent ∧ moved.position.line = 3 := by
  intro source other dangling
  let f : Nat → Nat := (2 * ·)
  have hf : StrictMono f := fun m n h => Nat.mul_lt_mul_of_pos_left h (by decide)
  have hc : Text.isGap '\t' := by decide
  constructor
  · have hmark : source.toList.head? ≠ some '\uFEFF' := by decide +kernel
    have hstyle : ∀ d ∈ ({ source, filename := "a.eo" } : Compilation).tokenize.2.diagnostics,
        d.code ∉ [Code.mixedIndentation, .inconsistentIndentation] := by decide +kernel
    have hother : reindent f '\t' (fun _ => false) source = other := by decide +kernel
    have hok : (compile source "a.eo").isOk = true := by decide +kernel
    obtain ⟨-, -, hunits, -⟩ := compile_reindent "a.eo" (fun _ => false) hmark hf rfl hc hstyle
    rw [hother] at hunits
    obtain ⟨units, hcompile⟩ := exists_units hok
    exact ⟨units, hcompile, (hunits units).1 hcompile⟩
  · have hmark : dangling.toList.head? ≠ some '\uFEFF' := by decide +kernel
    have hstyle : ∀ d ∈ ({ source := dangling, filename := "a.eo" } :
        Compilation).tokenize.2.diagnostics,
        d.code ∉ [Code.mixedIndentation, .inconsistentIndentation] := by decide +kernel
    have hother : reindent f '\t' (fun _ => true) dangling =
        "object A:\n\t\t\t\t\t\tT @x\n\t\t\t\tT @y\n" := by decide +kernel
    have hrefused : (match compile dangling "a.eo" with
        | .error (.refused error) => some (error.code, error.position.line)
        | _ => none) = some (.unmatchedUnindent, 3) := by decide +kernel
    obtain ⟨-, -, -, hmoved⟩ := compile_reindent "a.eo" (fun _ => true) hmark hf rfl hc hstyle
    rw [hother] at hmoved
    split at hrefused
    · next error herror =>
        obtain ⟨hcode, hline⟩ := Prod.ext_iff.1 (Option.some.inj hrefused)
        obtain ⟨moved, hcompile, hcode', hline'⟩ := hmoved error herror (congrArg Code.stage hcode)
        exact ⟨error, moved, herror, hcompile, hcode, hline, hcode'.trans hcode,
          hline'.trans hline⟩
    · cases hrefused

end EoJava
