import EoJava.Proofs.Compilation.Compiles
import EoJava.Proofs.Compilation.Errors
import EoJava.Proofs.Compilation.Reported
import EoJava.Proofs.Grammar.Relocated
import EoJava.Proofs.Java.Relocated
import EoJava.Proofs.Token.Moved

/-!
# Sources on other lines

If what is met in a source is met in another one too, on other lines, then every stage does there
what it does here. It succeeds, or it reports a problem with the same code at the place that is now
its own (`FailsAt.move`). So the sources compile to the same units, or they are refused alike
(`compile_move`).
-/

namespace EoJava

open Grammar (Anchored Carried Ebnf Leaf Shallow Terminal)

/-- A diagnostic of the same code, on the line that `f` makes of the line of the first. -/
structure Diagnostic.Moves (f : Int → Int) (d other : Diagnostic) : Prop where
  code : other.code = d.code
  position : other.position = d.position.move f

theorem Diagnostic.moves_ofProblem {f : Int → Int} {problem other : Located Problem}
    (h : other.code = problem.code.move f) :
    (Diagnostic.ofProblem problem).Moves f (.ofProblem other) := by
  obtain ⟨hposition, hcode⟩ := Located.mk.inj h
  exact ⟨hcode, hposition⟩

/-- A source at other places has its terminals there. -/
theorem Decl.programAnchored_relocated {f : Position → Position} (decls : List Decl) :
    programAnchored (decls.map (Decl.relocated f)) =
      (programAnchored decls).map (Anchored.relocate f) := by
  simp [programAnchored, List.map_flatMap, List.flatMap_map, anchored_relocated]

theorem Decl.programAnchored_placeless (decls : List Decl) :
    programAnchored (decls.map Decl.placeless) =
      (programAnchored decls).map (Anchored.relocate fun _ => .nowhere) := by
  rw [funext Decl.placeless_eq_relocated, programAnchored_relocated]

namespace Grammar.Carried

variable {table later : StringTable} {tokens others : Array Token} {us : List Terminal}

/-- Tokens with the same terminals are refused at the same one, with the same code. -/
theorem refused_alike (h : Carried table tokens us) (h' : Carried later others us)
    {refused : Refusal} (hrefused : parse table tokens = .ok (.error refused)) :
    refused.token < tokens.size ∧ ∃ problem : Problem, problem.code = refused.problem.code ∧
      parse later others = .ok (.error ⟨refused.token, problem⟩) := by
  have hkinds : tokens.toList.map (·.kind) = others.toList.map (·.kind) :=
    h.map_kind.trans h'.map_kind.symm
  by_cases hshallow : Shallow (tokens.toList.map (·.kind))
  · obtain ⟨decls, hparse, -⟩ | ⟨-, -, -, -, -, hnone⟩ := h.parse_cases hshallow
    · rw [hrefused] at hparse
      cases hparse
    · -- Either one is refused at the furthest token to which the grammar leads.
      obtain ⟨id, token, expected, found, hid, htoken, -, hparse⟩ :=
        h.parse_furthest hshallow hnone
      obtain ⟨id', token', expected', found', hid', -, -, hparse'⟩ :=
        h'.parse_furthest (hkinds ▸ hshallow) hnone
      have hplaces := places_congr (L := (Ebnf.rule .program).language) (i := 0)
        (h.map_terminal_leaves.trans h'.map_terminal_leaves.symm)
      obtain rfl : id' = id := (hplaces ▸ hid').unique hid
      cases hrefused.symm.trans hparse
      exact ⟨(Array.getElem?_eq_some_iff.1 htoken).1,
        .syntaxError (expected' ++ ", found " ++ found'), rfl, hparse'⟩
  · rw [← excessiveDepth?_iff_shallow, ← ne_eq, Option.ne_none_iff_exists'] at hshallow
    obtain ⟨id, hdepth⟩ := hshallow
    cases hrefused.symm.trans (parse_of_excessiveDepth? table hdepth).1
    rw [excessiveDepth?_congr hkinds] at hdepth
    have hlength : others.toList.length = tokens.toList.length := by
      simpa using congrArg List.length hkinds.symm
    obtain ⟨-, hlt⟩ := lt_of_excessiveDepth? hdepth
    rw [hlength] at hlt
    exact ⟨by simpa using hlt, _, rfl, (parse_of_excessiveDepth? later hdepth).1⟩

end Grammar.Carried

namespace Compilation

variable {f : Int → Int} {c other read reread parsed shaped after : Compilation}
  {us : List Terminal} {decls : List Decl} {d : Diagnostic} {stage : Stage}

/-! ## Tokens -/

/-- Nothing was made yet of two sources, and what is met in the second is what is met in the first,
on the lines that `f` makes of the lines there. -/
structure MetAlike (f : Int → Int) (c other : Compilation) : Prop where
  fresh : c.Fresh
  fresh' : other.Fresh
  moved : Scan.source other.source.toList = (Scan.source c.source.toList).move f

/-- Two compilations hold tokens with the same terminals, and those of the second are on the lines
that `f` makes of the lines of the first. Nothing is reported yet. -/
structure ReadAlike (f : Int → Int) (us : List Terminal) (read reread : Compilation) : Prop where
  first : Carried read.strings read.tokens us
  second : Carried reread.strings reread.tokens us
  positions : reread.tokens.toList.map (·.position) = read.tokens.toList.map (·.position.move f)
  clear : read.diagnostics = []
  clear' : reread.diagnostics = []

namespace MetAlike

/-- A scan that stops at a problem stops at it on other lines too. -/
theorem tokenize_refused (h : MetAlike f c other) (hafter : c.tokenize = (false, after))
    (hone : after.diagnostics = [d]) :
    ∃ after' d', other.tokenize = (false, after') ∧ after'.diagnostics = [d'] ∧ d.Moves f d' := by
  obtain ⟨problem, hstopped, hreported⟩ := problem_of_tokenize h.fresh hafter
  obtain rfl := List.singleton_inj.1 (hone.symm.trans hreported)
  have hstopped' : (Scan.source other.source.toList).outcome = .error (problem.move f) := by
    rw [h.moved, Reading.move, hstopped]
    rfl
  obtain ⟨read, us, hread, -⟩ | ⟨after', problem', hafter', -⟩ := tokenize_cases h.fresh'
  · obtain ⟨met, hmet⟩ := source_of_tokenize hread
    rw [hmet] at hstopped'
    cases hstopped'
  · obtain ⟨found, hfound, hreported'⟩ := problem_of_tokenize h.fresh' hafter'
    obtain rfl : found = problem.move f := by
      rw [hfound] at hstopped'
      exact Except.error.inj hstopped'
    exact ⟨after', _, hafter', hreported', Diagnostic.moves_ofProblem rfl⟩

/-- The tokens that are read are the same, on other lines. -/
theorem tokenize_move (h : MetAlike f c other) (hread : c.tokenize = (true, read)) :
    ∃ reread us, other.tokenize = (true, reread) ∧ ReadAlike f us read reread := by
  obtain ⟨met, hmet, hstores⟩ := stores_of_tokenize h.fresh hread
  have hmet' : Scan.source other.source.toList = ⟨met.map (Located.move f), .ok ()⟩ := by
    rw [h.moved, hmet, Reading.move_ok]
  obtain ⟨found, us, htokenize, hclear, hcarried, hus, -⟩ := tokenize_of_source h.fresh hmet
  obtain rfl : read = found := congrArg Prod.snd (hread.symm.trans htokenize)
  obtain ⟨reread, us', hreread, hclear', hcarried', hus', -⟩ := tokenize_of_source h.fresh' hmet'
  obtain ⟨met', hfound, hstores'⟩ := stores_of_tokenize h.fresh' hreread
  obtain rfl : met' = met.map (Located.move f) :=
    (Reading.mk.inj (hfound.symm.trans hmet')).1
  obtain rfl : us = us' := by
    rw [List.map_map] at hus'
    exact List.append_cancel_right (hus.symm.trans hus')
  refine ⟨reread, us, hreread, hcarried, hcarried', ?_, hclear, hclear'⟩
  calc reread.tokens.toList.map (·.position)
      = (met.map (Located.move f)).map (·.position) :=
        Grammar.map_eq_of_forall₂ hstores' fun _ _ h => h.position
    _ = met.map (·.position.move f) := List.map_map
    _ = read.tokens.toList.map (·.position.move f) :=
        (Grammar.map_eq_of_forall₂ hstores fun _ _ h => congrArg (Position.move f) h.position).symm

end MetAlike

/-! ## Declarations -/

/-- Two compilations hold the same declarations, and those of the second are on the lines that `f`
makes of the lines of the first. Nothing is reported yet. -/
structure HoldAlike (f : Int → Int) (decls : List Decl) (c other : Compilation) : Prop where
  first : c.declarations = some decls
  second : other.declarations = some (decls.map (Decl.relocated (Position.move f)))
  clear : c.diagnostics = []
  clear' : other.diagnostics = []

namespace ReadAlike

/-- Tokens that are refused are refused on other lines too. -/
theorem parse_refused (h : ReadAlike f us read reread) (hafter : read.parse = .ok (false, after))
    (hone : after.diagnostics = [d]) :
    ∃ after' d', reread.parse = .ok (false, after') ∧ after'.diagnostics = [d'] ∧ d.Moves f d' := by
  obtain ⟨⟨id, problem⟩, -, hrefused, -, -⟩ := refusal_of_parse hafter
  obtain ⟨hid, problem', hcode, hrefused'⟩ := h.first.refused_alike h.second hrefused
  have hsize : reread.tokens.size = read.tokens.size := by
    simpa using congrArg List.length h.positions
  have hid' : id < reread.tokens.size := hsize ▸ hid
  have hposition : reread.tokens[id].position = read.tokens[id].position.move f := by
    have hat := congrArg (·[id]?) h.positions
    simpa [hid, hid'] using hat
  cases hafter.symm.trans (parse_of_refusal hrefused hid)
  obtain rfl : Diagnostic.make _ _ _ _ = d := by
    simpa [add, h.clear] using hone
  refine ⟨_, _, parse_of_refusal hrefused' hid', by rw [add, h.clear']; rfl, hcode, hposition⟩

/-- The declarations that are read are the same, on other lines. -/
theorem parse_move (h : ReadAlike f us read reread) (hparsed : read.parse = .ok (true, parsed)) :
    ∃ reparsed decls, reread.parse = .ok (true, reparsed) ∧
      HoldAlike f decls parsed reparsed := by
  obtain ⟨hshallow, decls, rfl, hfresh, hspelled⟩ := declarations_of_parse h.first hparsed
  rw [h.first.map_kind, ← h.second.map_kind] at hshallow
  obtain ⟨found, hfound, hplaceless⟩ := h.second.parse_of_spelled hshallow hfresh hspelled
  have hreparsed := parse_of_declarations hfound
  obtain ⟨-, hbears⟩ := bears_of_parse h.first hparsed rfl
  obtain ⟨-, hbears'⟩ := bears_of_parse h.second hreparsed rfl
  obtain ⟨-, found', hsame, hfresh', -⟩ := declarations_of_parse h.second hreparsed
  obtain rfl : found = found' := Option.some.inj (congrArg Compilation.declarations hsame)
  suffices heq : found = decls.map (Decl.relocated (Position.move f)) by
    exact ⟨_, decls, hreparsed, rfl, congrArg some heq, h.clear, h.clear'⟩
  have hleaves : h.second.leaves = h.first.leaves.map (Leaf.relocate (Position.move f)) :=
    Grammar.leavesFrom_relocate h.positions 0 _
  have hmoved : List.Forall₂ Leaf.Bears h.second.leaves
      (Decl.programAnchored (decls.map (Decl.relocated (Position.move f)))) := by
    rw [hleaves, Decl.programAnchored_relocated]
    exact List.forall₂_map_left_iff.2
      (List.forall₂_map_right_iff.2 (hbears.imp fun _ _ hbears => hbears.relocate))
  have hsame : found.map Decl.placeless =
      (decls.map (Decl.relocated (Position.move f))).map Decl.placeless := by
    rw [hplaceless, List.map_map]
    exact List.map_congr_left fun decl _ => (decl.placeless_relocated _).symm
  have hanchored := Grammar.eq_of_bears hbears' hmoved
    (by rw [← Decl.programAnchored_placeless, hsame, Decl.programAnchored_placeless])
  exact Decl.eq_of_flatMap_anchored hfresh' hsame (List.append_cancel_right hanchored)

end ReadAlike

/-! ## Units -/

theorem classify_of_fault {fault : Located Problem}
    (h : (Shape.classify (c.declarations.getD [])).2 = some fault) :
    ∃ after, c.classify = (false, after) ∧
      after.diagnostics = c.diagnostics ++ [.ofProblem fault] := by
  rcases hshaped : Shape.classify (c.declarations.getD []) with ⟨shaped, fault?⟩
  obtain rfl : fault? = some fault := by rwa [hshaped] at h
  have hafter : c.classify =
      (false, { c with declarations := c.declarations.map fun _ => shaped }.report fault) := by
    simp only [classify, hshaped]
  exact ⟨_, hafter, rfl⟩

namespace HoldAlike

/-- The first faults of declarations have one code, each on its line. -/
theorem faults (h : HoldAlike f decls c other) :
    (Shape.classify (other.declarations.getD [])).2.map Located.code =
      (Shape.classify (c.declarations.getD [])).2.map fun fault => fault.code.move f := by
  rw [h.first, h.second, Option.getD_some, Option.getD_some]
  exact (Shape.classify_mapNodes decls).trans (Option.map_map ..)

theorem classify_refused (h : HoldAlike f decls c other) (hafter : c.classify = (false, after))
    (hone : after.diagnostics = [d]) :
    ∃ after' d', other.classify = (false, after') ∧ after'.diagnostics = [d'] ∧ d.Moves f d' := by
  obtain ⟨fault, hfault, hreported⟩ := fault_of_classify hafter
  rw [h.clear, hone] at hreported
  obtain rfl : d = .ofProblem fault := List.singleton_inj.1 hreported
  have hfaults := h.faults
  rw [hfault, Option.map_some, Option.map_eq_some_iff] at hfaults
  obtain ⟨fault', hfault', hcode⟩ := hfaults
  obtain ⟨after', hafter', hreported'⟩ := classify_of_fault hfault'
  rw [h.clear'] at hreported'
  exact ⟨after', _, hafter', hreported', Diagnostic.moves_ofProblem hcode⟩

theorem classify_move (h : HoldAlike f decls c other) (hshaped : c.classify = (true, shaped)) :
    ∃ reshaped, other.classify = (true, reshaped) ∧
      HoldAlike f (decls.map Decl.classified) shaped reshaped := by
  obtain ⟨shapes, heq⟩ | ⟨shapes, diagnostic, heq, -⟩ := classify_cases c
  swap
  · rw [hshaped] at heq
    cases heq
  obtain ⟨shapes', heq'⟩ | ⟨shapes', diagnostic, heq', -⟩ := classify_cases other
  swap
  · -- A fault on other lines would be one of the declarations where they are.
    obtain ⟨fault', hfault', -⟩ := fault_of_classify heq'
    have hfaults := h.faults
    rw [hfault', Option.map_some, eq_comm, Option.map_eq_some_iff] at hfaults
    obtain ⟨fault, hfault, -⟩ := hfaults
    obtain ⟨after, hafter, -⟩ := classify_of_fault hfault
    rw [hshaped] at hafter
    cases hafter
  obtain ⟨hdecls, -⟩ := accepted_of_classify h.first hshaped
  obtain ⟨hdecls', -⟩ := accepted_of_classify h.second heq'
  cases hshaped.symm.trans heq
  refine ⟨_, heq', hdecls, ?_, h.clear, h.clear'⟩
  rw [hdecls', List.map_map, List.map_map]
  exact congrArg some (List.map_congr_left fun decl _ => decl.classified_mapNodes)

/-- An emission that stops at a problem stops at it on other lines too. -/
theorem emit_refused (h : HoldAlike f decls c other) (hafter : c.emit = .ok (none, after))
    (hone : after.diagnostics = [d]) :
    ∃ after' d', other.emit = .ok (none, after') ∧ after'.diagnostics = [d'] ∧ d.Moves f d' := by
  obtain ⟨bound, problem, hemit, hreported, -⟩ := problem_of_emit hafter
  rw [h.clear, hone] at hreported
  obtain rfl : d = .ofProblem problem := List.singleton_inj.1 hreported
  have hemit' : Java.emit (other.declarations.getD []) =
      .ok ⟨bound.map (Decl.relocated (Position.move f)), .error (problem.move f)⟩ := by
    rw [h.first, Option.getD_some] at hemit
    rw [h.second, Option.getD_some, Java.emit_relocated, hemit]
    rfl
  refine ⟨_, .ofProblem (problem.move f), emit_of_problem hemit', ?_,
    Diagnostic.moves_ofProblem rfl⟩
  rw [report, add, h.clear', List.nil_append]

end HoldAlike

/-! ## Runs -/

/-- If a compilation fails, then so does one of a source on other lines, at the same stage, with the
same code and in the same column. -/
theorem FailsAt.move (h : c.FailsAt stage after) (hmet : MetAlike f c other)
    (hone : after.diagnostics = [d]) :
    ∃ after' d', other.FailsAt stage after' ∧ after'.diagnostics = [d'] ∧ d.Moves f d' := by
  cases h with
  | lex hafter =>
      obtain ⟨after', d', hafter', hone', hmoves⟩ := hmet.tokenize_refused hafter hone
      exact ⟨after', d', .lex hafter', hone', hmoves⟩
  | parse hread hafter =>
      obtain ⟨reread, us, hreread, hreads⟩ := hmet.tokenize_move hread
      obtain ⟨after', d', hafter', hone', hmoves⟩ := hreads.parse_refused hafter hone
      exact ⟨after', d', .parse hreread hafter', hone', hmoves⟩
  | classify hread hparsed hafter =>
      obtain ⟨reread, us, hreread, hreads⟩ := hmet.tokenize_move hread
      obtain ⟨reparsed, decls, hreparsed, hholds⟩ := hreads.parse_move hparsed
      obtain ⟨after', d', hafter', hone', hmoves⟩ := hholds.classify_refused hafter hone
      exact ⟨after', d', .classify hreread hreparsed hafter', hone', hmoves⟩
  | expression hread hparsed hshaped hafter =>
      obtain ⟨reread, us, hreread, hreads⟩ := hmet.tokenize_move hread
      obtain ⟨reparsed, decls, hreparsed, hholds⟩ := hreads.parse_move hparsed
      obtain ⟨reshaped, hreshaped, hshapes⟩ := hholds.classify_move hshaped
      obtain ⟨after', d', hafter', hone', hmoves⟩ := hshapes.emit_refused hafter hone
      exact ⟨after', d', .expression hreread hreparsed hreshaped hafter', hone', hmoves⟩

end Compilation

/-- A source in which the same is met on other lines compiles to the same units, or it is refused at
the same stage, with the same code, in the same column and on the other line. -/
theorem compile_move (filename : String) {source other : String} {f : Int → Int}
    (hmoved : Scan.source other.toList = (Scan.source source.toList).move f) :
    (∃ units, compile source filename = .ok units ∧ compile other filename = .ok units) ∨
      ∃ error moved, compile source filename = .error (.refused error) ∧
        compile other filename = .error (.refused moved) ∧ moved.stage = error.stage ∧
        moved.code = error.code ∧ moved.position = error.position.move f := by
  have hsettles : Compilation.Settles { source, filename } (compile source filename) :=
    Compilation.run_settles ⟨rfl, rfl⟩
  generalize hresult : compile source filename = result at hsettles
  cases hsettles with
  | @units after units hrun hcompletes hnone =>
      obtain ⟨decls, hcompiles⟩ := Compilation.compiles_of_completes ⟨rfl, rfl⟩ hcompletes
      have hyields := hcompiles.spelled.move (f := f)
      rw [← hmoved] at hyields
      exact .inl ⟨units, rfl, compile_eq_ok_iff.2 ⟨decls, { hcompiles with spelled := hyields }⟩⟩
  | @refused stage after d error hrun hfails hone hstage htells hreport =>
      have hmet : Compilation.MetAlike f { source, filename } { source := other, filename } :=
        ⟨⟨rfl, rfl⟩, ⟨rfl, rfl⟩, hmoved⟩
      obtain ⟨after', d', hfails', hone', hmoves⟩ := hfails.move hmet hone
      have hcompile : compile other filename = .error after'.stop :=
        congrArg Prod.snd (Compilation.run_of_failsAt hfails')
      rw [Compilation.stop_of_diagnostics hone'] at hcompile
      refine .inr ⟨error, _, rfl, hcompile, ?_, ?_, ?_⟩
      · exact (congrArg Code.stage hmoves.code).trans htells.stage.symm
      · exact hmoves.code.trans htells.code.symm
      · exact hmoves.position.trans (congrArg (Position.move f) htells.position.symm)

end EoJava
