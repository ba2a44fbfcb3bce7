import EoJava.Proofs.Compilation.Rescanned
import EoJava.Proofs.Text.Utf8

/-!
# Encodings of a source

A source compiles to the same result from its text and from its bytes, with a byte order mark before
these or without one. A mark before the text shows in the report only (`compileBytes_encode`).
-/

namespace EoJava

/-- A byte order mark at the start of a source is not scanned. -/
theorem Scan.source_mark {text : List Char} (h : text.head? ≠ some '\uFEFF') :
    Scan.source ('\uFEFF' :: text) = Scan.source text := by
  rw [source_eq_rest, source_eq_rest, Text.dropMark, if_pos rfl, Text.dropMark_of_head? h]

/-- Let a source not start with a byte order mark. Its bytes compile to what it compiles to, with
the bytes of a mark before them or without. With a mark before it, the source compiles to the same
units, or it is refused at the same stage, for the same reason and at the same place. -/
theorem compileBytes_encode (filename : String) {source : String}
    (h : source.toList.head? ≠ some '\uFEFF') :
    compileBytes (Text.Utf8.encode source) filename = compile source filename ∧
      compileBytes (0xEF :: 0xBB :: 0xBF :: Text.Utf8.encode source) filename =
        compile source filename ∧
      ((∃ units, compile source filename = .ok units ∧
          compile ("\uFEFF" ++ source) filename = .ok units) ∨
        ∃ error marked, compile source filename = .error (.refused error) ∧
          compile ("\uFEFF" ++ source) filename = .error (.refused marked) ∧
          marked.stage = error.stage ∧ marked.code = error.code ∧
          marked.reason = error.reason ∧ marked.position = error.position) := by
  refine ⟨?_, ?_, ?_⟩
  · rw [compileBytes, Text.Utf8.decodeText_encode h]
  · rw [compileBytes, Text.Utf8.decodeText_mark]
  · have hmarked : ("\uFEFF" ++ source).toList = '\uFEFF' :: source.toList := String.toList_append
    have hscan : Scan.source ("\uFEFF" ++ source).toList = Scan.source source.toList := by
      rw [hmarked, Scan.source_mark h]
    refine (compile_cases_of_scan filename hscan).imp_right ?_
    rintro ⟨d, hrefused, hrefused'⟩
    exact ⟨_, _, hrefused, hrefused', rfl, rfl, rfl, rfl⟩

/-- Characters of one to four bytes are read back where a string does not close. -/
theorem compileBytes_encode_wide :
    let source := "object A:\n  T @x := \"é€😀"
    ∃ error marked, compileBytes (Text.Utf8.encode source) "a.eo" = .error (.refused error) ∧
      compileBytes (0xEF :: 0xBB :: 0xBF :: Text.Utf8.encode source) "a.eo" =
        .error (.refused error) ∧
      compile ("\uFEFF" ++ source) "a.eo" = .error (.refused marked) ∧
      error.code = .unterminatedString ∧ error.position = ⟨2, 11⟩ ∧
      marked.code = .unterminatedString ∧ marked.position = ⟨2, 11⟩ := by
  intro source
  have hhead : source.toList.head? ≠ some '\uFEFF' := by decide +kernel
  have hrefused : (match compile source "a.eo" with
      | .error (.refused error) => some (error.code, error.position)
      | _ => none) = some (.unterminatedString, ⟨2, 11⟩) := by decide +kernel
  obtain ⟨hbytes, hmark, ⟨units, hunits, -⟩ |
    ⟨error, marked, herror, hmarked, -, hcode, -, hposition⟩⟩ := compileBytes_encode "a.eo" hhead
  · rw [hunits] at hrefused
    cases hrefused
  · rw [herror] at hrefused
    obtain ⟨herrorCode, herrorPosition⟩ := Prod.ext_iff.1 (Option.some.inj hrefused)
    exact ⟨error, marked, hbytes.trans herror, hmark.trans herror, hmarked, herrorCode,
      herrorPosition, hcode.trans herrorCode, hposition.trans herrorPosition⟩

end EoJava
