import EoJava.Proofs.Compilation.Compiles
import EoJava.Proofs.Token.Breaks

/-!
# Line breaks inside parentheses

Where a parenthesis is open, a line of a source may be broken between two tokens, and before its
comment or its end. The source has the same tokens at other places, and it compiles to the same
units (`compile_break`).
-/

namespace EoJava

open Grammar (Terminal)

/-- A source that spells the terminals of another one compiles to the same units. -/
theorem Compiles.congr {source other : List Char} {decls : List Decl} {units : List JavaUnit}
    {met : List (Located Lexeme)} (h : Compiles source decls units)
    (hsource : Scan.source source = ⟨met, .ok ()⟩)
    (hother : (Scan.source other).Yields (met.map (·.value.terminal)) ()) :
    Compiles other decls units := by
  obtain ⟨hsame, -⟩ := h.spelled.unique ⟨met, hsource, rfl⟩
  exact { h with spelled := hsame ▸ hother }

/-- A line feed and then spaces and tabs of any kind may be put into a source that can be read,
where a parenthesis is open, between two tokens of a line or before its comment or its end. The
tokens of the new source carry the terminals of the old ones, kinds and texts alike. If the old
source compiles, the new one compiles to the same units. -/
theorem compile_break {source filename : String} {before after space : List Char}
    {read : Compilation} (hread : ({ source, filename } : Compilation).tokenize = (true, read))
    (hsource : source.toList = before ++ after)
    (hbetween : Scan.Between (Scan.terminals source.toList) (Text.endOf before).line
      (Text.lastLine before))
    (hopen : 0 < Scan.openBefore 0 (Scan.terminals source.toList) (Text.endOf before))
    (hspace : ∀ c ∈ space, Text.isGap c) :
    let broken := String.ofList (before ++ '\n' :: (space ++ after))
    (∃ (ts : List Terminal) (again : Compilation),
      ({ source := broken, filename } : Compilation).tokenize = (true, again) ∧
        List.Forall₂ (Token.Carries read.strings) read.tokens.toList ts ∧
        List.Forall₂ (Token.Carries again.strings) again.tokens.toList ts) ∧
      ∀ units, compile source filename = .ok units → compile broken filename = .ok units := by
  intro broken
  obtain ⟨met, hmet, hstores⟩ := Compilation.stores_of_tokenize ⟨rfl, rfl⟩ hread
  have hterminals : Scan.terminals source.toList = met.map Lexeme.placed := by
    rw [Scan.terminals, show Scan.source source.toList = ⟨met, .ok ()⟩ from hmet]
  rw [hterminals] at hbetween hopen
  have hmet' : Scan.source (before ++ after) = ⟨met, .ok ()⟩ := hsource ▸ hmet
  have hyields : (Scan.source broken.toList).Yields (met.map (·.value.terminal)) () := by
    rw [String.toList_ofList]
    exact Scan.yields_break hmet' hbetween hopen hspace
  refine ⟨?_, fun units hunits => ?_⟩
  · obtain ⟨more, hmore, hsame⟩ := hyields
    obtain ⟨again, _, hagain, -⟩ :=
      Compilation.tokenize_of_source (c := { source := broken, filename }) ⟨rfl, rfl⟩ hmore
    obtain ⟨found, hfound, hstores'⟩ := Compilation.stores_of_tokenize ⟨rfl, rfl⟩ hagain
    cases hmore.symm.trans hfound
    refine ⟨met.map (·.value.terminal), again, hagain, ?_, ?_⟩
    · exact List.forall₂_map_right_iff.2 (hstores.imp fun _ _ h => h.carries)
    · rw [← hsame]
      exact List.forall₂_map_right_iff.2 (hstores'.imp fun _ _ h => h.carries)
  · obtain ⟨decls, h⟩ := compile_eq_ok_iff.1 hunits
    exact compile_eq_ok_iff.2 ⟨decls, h.congr hmet hyields⟩

/-- A call is broken before its second argument, with tabs and spaces mixed. -/
theorem compile_break_call :
    let before := "object A:\n  T @x := f(b,".toList
    let after := " \"a\") # c\n".toList
    let source := "object A:\n  T @x := f(b, \"a\") # c\n"
    let broken := String.ofList (before ++ '\n' :: (" \t \t".toList ++ after))
    ∃ (ts : List Terminal) (read again : Compilation) (units : List JavaUnit),
      ({ source, filename := "a.eo" } : Compilation).tokenize = (true, read) ∧
        ({ source := broken, filename := "a.eo" } : Compilation).tokenize = (true, again) ∧
        List.Forall₂ (Token.Carries read.strings) read.tokens.toList ts ∧
        List.Forall₂ (Token.Carries again.strings) again.tokens.toList ts ∧
        compile source "a.eo" = .ok units ∧ compile broken "a.eo" = .ok units := by
  intro before after source broken
  have hsource : source.toList = before ++ after := by decide +kernel
  let c : Compilation := { source, filename := "a.eo" }
  have hread : c.tokenize = (true, c.tokenize.2) := Prod.ext (by decide +kernel) rfl
  have hbetween : Scan.Between (Scan.terminals source.toList) (Text.endOf before).line
      (Text.lastLine before) := by
    have hline : Text.lastLine before = "  T @x := f(b".toList ++ ([','] ++ []) := by decide +kernel
    have hcomma : ⟨⟨2, 14⟩, .mark .comma⟩ ∈ Scan.terminals source.toList := by decide +kernel
    exact .after hline (List.forall_mem_nil _) hcomma (by decide +kernel) (.mark .comma)
  have hopen : 0 < Scan.openBefore 0 (Scan.terminals source.toList) (Text.endOf before) := by
    decide +kernel
  have hspace : ∀ c ∈ " \t \t".toList, Text.isGap c := Text.forall_mem_of_all (by decide)
  obtain ⟨⟨ts, again, hagain, hold, hnew⟩, hcompile⟩ :=
    compile_break hread hsource hbetween hopen hspace
  have hok : (compile source "a.eo").isOk = true := by decide +kernel
  cases hunits : compile source "a.eo" with
  | error stop =>
      rw [hunits] at hok
      cases hok
  | ok units => exact ⟨ts, _, again, units, hread, hagain, hold, hnew, rfl, hcompile units hunits⟩

end EoJava
