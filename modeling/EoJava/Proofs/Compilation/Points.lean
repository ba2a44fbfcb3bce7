import EoJava.Proofs.Compilation.Reported
import EoJava.Proofs.Diagnostic.Picture
import EoJava.Proofs.Token.Splits

/-!
# Where errors point

Every stage looks for the place of its problem in its own way: the scan at the text, the grammar at
a token, and the later stages at a node. All of these are places of a line of the source, and no
problem is told on more than one line. So an error points into its source, and its report is a
picture of that place (`compile_points`).
-/

namespace EoJava

/-- A diagnostic is at one of certain places, and it is told on one line. -/
structure Diagnostic.Stands (Inside : Position → Prop) (d : Diagnostic) : Prop where
  inside : Inside d.position
  unbroken : d.Unbroken

theorem Located.Stands.ofProblem {Inside : Position → Prop} {problem : Located Problem}
    (h : problem.Stands Inside) : (Diagnostic.ofProblem problem).Stands Inside :=
  ⟨h.inside, Diagnostic.unbroken_make h.unbroken problem.position none⟩

namespace Compilation

variable {c read : Compilation} {d : Diagnostic}

/-- A position is where a line of a source is split in two. -/
def Inside (c : Compilation) (position : Position) : Prop :=
  ∃ before rest, position.Splits 1 (Text.lines (Text.dropMark c.source.toList)) before rest

/-- A token of a source is where its lexeme is. -/
theorem inside_of_token (hfresh : c.Fresh) (hread : c.tokenize = (true, read)) {token : Token}
    (h : token ∈ read.tokens.toList) : c.Inside token.position := by
  obtain ⟨met, hsource, hstores⟩ := stores_of_tokenize hfresh hread
  obtain ⟨found, hfound, hstored⟩ := Grammar.exists_of_forall₂ hstores h
  have hmet : found ∈ (Scan.source c.source.toList).lexemes := by
    rw [hsource]
    exact hfound
  exact hstored.position ▸ Scan.splits_of_met hmet

/-- Whatever is reported is at a place of the source. -/
theorem Reported.stands (hfresh : c.Fresh) {stage : Stage} (h : c.Reported stage d) :
    d.Stands c.Inside := by
  have hinside : ∀ found ∈ (Scan.source c.source.toList).lexemes, c.Inside found.position :=
    fun _ => Scan.splits_of_met
  cases h with
  | lex hstopped =>
      obtain ⟨hplace, hunbroken⟩ := Scan.splits_of_stopped hstopped
      exact Located.Stands.ofProblem ⟨hplace, hunbroken⟩
  | parse hread htoken hrefused =>
      obtain ⟨found, us, htokenize, -, hcarried, -⟩ | ⟨_, _, hfailed, -⟩ := tokenize_cases hfresh
      · cases htokenize.symm.trans hread
        exact ⟨inside_of_token hfresh hread htoken,
          Diagnostic.unbroken_make (hcarried.unbroken_of_parse hrefused) _ _⟩
      · cases hfailed.symm.trans hread
  | classify hplaces hdecl hblamed =>
      exact ((hplaces.spelledIn hinside hdecl).stands_of_blamed hblamed).ofProblem
  | expression hplaces hdecl hmembers he hfails =>
      exact ((hplaces.spelledIn hinside hdecl).stands_of_fails hmembers he hfails).ofProblem

end Compilation

/-! ## Compilations -/

/-- A compilation stopped at an error that points into its source: its position splits a line of the
source, at most one unit past the end of that line, and its report is a picture of that place. -/
inductive Stop.PointsInto (source filename : String) : Stop → Prop where
  | refused {error : CompileError} {before rest gutter margin blank : List Char}
      (hplace : error.position.Splits 1 (Text.lines source.toList) before rest)
      (hline : 1 ≤ error.position.line ∧ error.position.line ≤ (Text.lines source.toList).length)
      (hcolumn : 1 ≤ error.position.column ∧
        error.position.column ≤ Text.width (before ++ rest) + 1)
      (hreport : error.diagnostic.Pictured filename before rest error.report gutter margin blank) :
      PointsInto source filename (.refused error)

theorem Stop.PointsInto.of_compile {source filename : String}
    (hmark : source.toList.head? ≠ some '\uFEFF') (hname : '\n' ∉ filename.toList) {stop : Stop}
    (h : compile source filename = .error stop) : stop.PointsInto source filename := by
  let c : Compilation := { source, filename }
  have hsettles : c.Settles (compile source filename) := Compilation.run_settles ⟨rfl, rfl⟩
  rw [h] at hsettles
  cases hsettles with
  | @refused stage after d error hrun hfails hone =>
      have hended := (Compilation.run_of_failsAt hfails).symm.trans hrun
      rw [Compilation.stop_of_diagnostics hone] at hended
      cases hended
      obtain ⟨⟨before, rest, hplace⟩, hunbroken⟩ := (hfails.reported ⟨rfl, rfl⟩ hone).stands ⟨rfl, rfl⟩
      rw [Text.dropMark_of_head? hmark] at hplace
      obtain ⟨gutter, margin, blank, hpicture⟩ := Diagnostic.pictured_report hunbroken hname hplace
      obtain ⟨hline, hlines, hcolumn, hwidth⟩ := hplace.bounds
      obtain ⟨hsource, hfilename⟩ := hfails.sameSource
      have hreport : after.format d = d.report source filename := by
        rw [Compilation.format, hsource, hfilename]
      exact .refused hplace ⟨hline, hlines⟩ ⟨hcolumn, hwidth⟩ (hreport ▸ hpicture)

/-- A source that does not compile is refused with an error that points into it, if no byte order
mark stands before it. The same holds for sources given as bytes. -/
theorem compile_points {filename : String} (hname : '\n' ∉ filename.toList) :
    (∀ source : String, source.toList.head? ≠ some '\uFEFF' →
      ∀ stop, compile source filename = .error stop → stop.PointsInto source filename) ∧
    ∀ bytes, (Text.Utf8.decodeText bytes).toList.head? ≠ some '\uFEFF' →
      ∀ stop, compileBytes bytes filename = .error stop →
        stop.PointsInto (Text.Utf8.decodeText bytes) filename := by
  have hsource : ∀ source : String, source.toList.head? ≠ some '\uFEFF' →
      ∀ stop, compile source filename = .error stop → stop.PointsInto source filename :=
    fun source hmark stop h => .of_compile hmark hname h
  exact ⟨hsource, fun bytes => hsource (Text.Utf8.decodeText bytes)⟩

/-- A string that does not close is shown where it starts. -/
theorem compile_points_unterminated :
    ∃ error, compile "object A:\n  T m():\n    \"open\r\n" "a.eo" = .error (.refused error) ∧
      error.code = .unterminatedString ∧ error.position = ⟨3, 5⟩ ∧
      (Stop.refused error).PointsInto "object A:\n  T m():\n    \"open\r\n" "a.eo" := by
  have hrefused : (match compile "object A:\n  T m():\n    \"open\r\n" "a.eo" with
      | .error (.refused error) => some (error.code, error.position)
      | _ => none) = some (.unterminatedString, ⟨3, 5⟩) := by decide +kernel
  have hname : '\n' ∉ "a.eo".toList := by decide
  obtain ⟨hpoints, -⟩ := compile_points hname
  split at hrefused
  · next error herror =>
      obtain ⟨hcode, hposition⟩ := Prod.ext_iff.1 (Option.some.inj hrefused)
      exact ⟨error, herror, hcode, hposition, hpoints _ (by decide +kernel) _ herror⟩
  · cases hrefused

end EoJava
