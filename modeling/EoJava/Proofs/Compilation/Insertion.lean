import EoJava.Proofs.Compilation.Moved

/-!
# Lines that hold nothing

A blank line, or one with nothing but a comment, may stand before any line of a source, also where a
block or a parenthesis is open (`compile_insertLine`). The source compiles to the same units with
it, or it is refused for the same reason, on the line where this is then.
-/

namespace EoJava

/-- A source with one more line, which is put before the line with an index. -/
def insertLine (source : String) (k : Nat) (line : String) : String :=
  let lines := (Text.splitLines source.toList).map String.ofList
  "\n".intercalate (lines.take k ++ line :: lines.drop k)

theorem splitLines_insertLine {line : String} (h : Text.Unbroken line.toList) (source : String)
    (k : Nat) : Text.splitLines (insertLine source k line).toList =
      (Text.splitLines source.toList).take k ++
        line.toList :: (Text.splitLines source.toList).drop k := by
  have hunbroken : ∀ text ∈ (Text.splitLines source.toList).map String.ofList,
      Text.Unbroken text.toList := by
    intro text htext
    obtain ⟨cs, hcs, rfl⟩ := List.mem_map.1 htext
    rw [String.toList_ofList]
    exact Text.unbroken_of_mem_splitLines hcs
  rw [insertLine, Text.splitLines_intercalate (by simp) ?_]
  · simp [Function.comp_def, List.map_take, List.map_drop]
  · intro text htext
    rcases List.mem_append.1 htext with htext | htext
    · exact hunbroken text (List.mem_of_mem_take htext)
    · rcases List.mem_cons.1 htext with rfl | htext
      · exact h
      · exact hunbroken text (List.mem_of_mem_drop htext)

/-- A line that holds nothing may be put before any line of a source that does not start with a byte
order mark. If the source compiles, it compiles to the same units with the line. Otherwise it is
refused at the same stage, with the same code and in the same column, and one line further down if
that is not before the new line. -/
theorem compile_insertLine (filename : String) {source line : String} {k : Nat}
    (hmark : source.toList.head? ≠ some '\uFEFF')
    (hk : k < (Text.splitLines source.toList).length) (hline : Text.Unbroken line.toList)
    (hnothing : Text.holdsNothing line.toList) :
    (∃ units, compile source filename = .ok units ∧
        compile (insertLine source k line) filename = .ok units) ∨
      ∃ error moved, compile source filename = .error (.refused error) ∧
        compile (insertLine source k line) filename = .error (.refused moved) ∧
        moved.stage = error.stage ∧ moved.code = error.code ∧
        moved.position.column = error.position.column ∧
        moved.position.line =
          if error.position.line ≤ k then error.position.line else error.position.line + 1 := by
  have hmoved : Scan.source (insertLine source k line).toList =
      (Scan.source source.toList).move (Scan.pushed (1 + k)) := by
    have hsource : Text.splitLines source.toList = (Text.splitLines source.toList).take k ++
        (Text.splitLines source.toList)[k] :: (Text.splitLines source.toList).drop (k + 1) := by
      rw [← List.drop_eq_getElem_cons hk, List.take_append_drop]
    have hinserted := splitLines_insertLine hline source k
    rw [List.drop_eq_getElem_cons hk] at hinserted
    have hlength : ((Text.splitLines source.toList).take k).length = k :=
      List.length_take_of_le (Nat.le_of_lt hk)
    rw [Scan.source_insert hsource hinserted hmark (Scan.holdsNothing_iff_bare.1 hnothing), hlength]
  obtain hunits | ⟨error, moved, herror, hother, hstage, hcode, hposition⟩ :=
    compile_move filename hmoved
  · exact .inl hunits
  · refine .inr ⟨error, moved, herror, hother, hstage, hcode, ?_, ?_⟩
    · rw [hposition]
      rfl
    · rw [hposition]
      exact if_congr (by omega) rfl rfl

/-- A comment is put into a call, before the argument that is refused. -/
theorem compile_insertLine_call :
    let source := "object A:\n  T @x := f(\n    g(x))\n"
    ∃ moved, compile (insertLine source 2 "\t\uFEFF# (") "a.eo" = .error (.refused moved) ∧
      moved.code = .unavailableSlot ∧ moved.position = ⟨4, 7⟩ := by
  intro source
  have hrefused : (match compile source "a.eo" with
      | .error (.refused error) => some (error.code, error.position)
      | _ => none) = some (.unavailableSlot, ⟨3, 7⟩) := by decide +kernel
  have hmark : source.toList.head? ≠ some '\uFEFF' := by decide +kernel
  have hk : 2 < (Text.splitLines source.toList).length := by decide +kernel
  have hline : Text.Unbroken "\t\uFEFF# (".toList := by decide +kernel
  have hnothing : Text.holdsNothing "\t\uFEFF# (".toList := by decide +kernel
  obtain ⟨units, hunits, -⟩ | ⟨error, moved, herror, hother, -, hcode, hcolumn, hline⟩ :=
    compile_insertLine "a.eo" hmark hk hline hnothing
  · rw [hunits] at hrefused
    cases hrefused
  · rw [herror] at hrefused
    obtain ⟨herrorCode, hposition⟩ := Prod.ext_iff.1 (Option.some.inj hrefused)
    dsimp only at herrorCode hposition
    refine ⟨moved, hother, hcode.trans herrorCode, ?_⟩
    rw [hposition] at hcolumn hline
    show (⟨moved.position.line, moved.position.column⟩ : Position) = _
    rw [hline, hcolumn]
    rfl

end EoJava
