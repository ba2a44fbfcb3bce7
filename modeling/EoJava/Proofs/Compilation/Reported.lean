import EoJava.Proofs.Compilation.Placed

/-!
# What a failure reports

A stage that fails reports one problem, and each stage has its own: what stopped the scan, what the
grammar refused, a fault of a declaration, or a failure of an expression (`FailsAt.reported`). What
is left then is still of the source that was given (`FailsAt.sameSource`).
-/

namespace EoJava

namespace Compilation

variable {c read parsed shaped after : Compilation} {d : Diagnostic} {stage : Stage}

/-! ## Stages that fail -/

/-- A scan that fails has reported the problem that stopped it. -/
theorem problem_of_tokenize (hfresh : c.Fresh) (h : c.tokenize = (false, after)) :
    ∃ problem, (Scan.source c.source.toList).outcome = .error problem ∧
      after.diagnostics = [.ofProblem problem] := by
  obtain ⟨stored, strings, heq, -⟩ :=
    c.tokens_foldl (Scan.source c.source.toList).lexemes
  cases houtcome : (Scan.source c.source.toList).outcome with
  | ok =>
      simp [tokenize, heq, houtcome, hasErrors, errors_eq, hfresh.2] at h
  | error problem =>
      simp only [tokenize, heq, houtcome, Prod.mk.injEq] at h
      obtain ⟨-, rfl⟩ := h
      exact ⟨problem, rfl, by simp [report, add, hfresh.2]⟩

/-- A reading that is refused reports the problem at a token. -/
theorem refusal_of_parse (h : c.parse = .ok (false, after)) :
    ∃ refused token, Grammar.parse c.strings c.tokens = .ok (.error refused) ∧
      token ∈ c.tokens.toList ∧
      after = c.add (.make refused.problem.code token.position refused.problem.arguments
        (some refused.token)) := by
  obtain ⟨refused | decls, hparse, h⟩ := exists_of_bind_eq_ok h
  · obtain ⟨reported, hreported, h⟩ := exists_of_bind_eq_ok h
    obtain ⟨token, htoken, hreported⟩ := exists_of_bind_eq_ok hreported
    cases hreported
    cases h
    exact ⟨refused, token, hparse, Grammar.mem_of_tokenOf htoken, rfl⟩
  · cases h

/-- A classification that fails has reported its fault. -/
theorem fault_of_classify (h : c.classify = (false, after)) :
    ∃ fault, (Shape.classify (c.declarations.getD [])).2 = some fault ∧
      after.diagnostics = c.diagnostics ++ [.ofProblem fault] := by
  rcases hshaped : Shape.classify (c.declarations.getD []) with ⟨shaped, _ | fault⟩
  · simp [classify, hshaped] at h
  · simp only [classify, hshaped] at h
    cases h
    exact ⟨fault, rfl, rfl⟩

/-- An emission that fails has reported the problem with an expression. -/
theorem problem_of_emit (h : c.emit = .ok (none, after)) :
    ∃ bound problem, Java.emit (c.declarations.getD []) = .ok ⟨bound, .error problem⟩ ∧
      after.diagnostics = c.diagnostics ++ [.ofProblem problem] ∧
      ∃ decl ∈ c.declarations.getD [], ∃ e ∈ decl.expressions, e.Fails decl.slots problem := by
  obtain ⟨node, units, hemit⟩ | ⟨node, problem, hemit, hfails⟩ :=
    Java.emit_cases (c.declarations.getD [])
  · simp only [emit, hemit, ok_bind] at h
    cases h
  · simp only [emit, hemit, ok_bind] at h
    cases h
    exact ⟨node, problem, hemit, rfl, hfails⟩

/-- What the stages of a compilation can report. -/
inductive Reported (c : Compilation) : Stage → Diagnostic → Prop where
  | lex {problem : Located Problem}
      (hstopped : (Scan.source c.source.toList).outcome = .error problem) :
      Reported c .lex (.ofProblem problem)
  | parse {read : Compilation} {refused : Grammar.Refusal} {token : Token}
      (hread : c.tokenize = (true, read)) (htoken : token ∈ read.tokens.toList)
      (hrefused : Grammar.parse read.strings read.tokens = .ok (.error refused)) :
      Reported c .parse (.make refused.problem.code token.position refused.problem.arguments
        (some refused.token))
  | classify {decls : List Decl} {decl : Decl} {fault : Located Problem} (hplaces : c.Places decls)
      (hdecl : decl ∈ decls) (hblamed : decl.Blamed fault) :
      Reported c .classify (.ofProblem fault)
  | expression {decls : List Decl} {decl : Decl} {e : Expr} {problem : Located Problem}
      (hplaces : c.Places decls) (hdecl : decl ∈ decls) (hmembers : ∀ m ∈ decl.members, m.Fresh)
      (he : e ∈ decl.expressions) (hfails : e.Fails decl.slots problem) :
      Reported c .expression (.ofProblem problem)

/-- A stage that fails reports a problem of its own. -/
theorem FailsAt.reported (hfresh : c.Fresh) (h : c.FailsAt stage after)
    (hone : after.diagnostics = [d]) : c.Reported stage d := by
  cases h with
  | lex hafter =>
      obtain ⟨problem, hstopped, hreported⟩ := problem_of_tokenize hfresh hafter
      obtain rfl := List.singleton_inj.1 (hone.symm.trans hreported)
      exact .lex hstopped
  | parse hread hafter =>
      obtain ⟨refused, token, hrefused, htoken, rfl⟩ := refusal_of_parse hafter
      obtain rfl : Diagnostic.make _ _ _ _ = d := by
        simpa [add] using congrArg List.getLast? hone
      exact .parse hread htoken hrefused
  | classify hread hparsed hafter =>
      obtain ⟨met, decls, -, -, -, -, -, rfl⟩ := declarations_of_tokenize hfresh hread hparsed
      obtain ⟨fault, hfault, hreported⟩ := fault_of_classify hafter
      obtain rfl : Diagnostic.ofProblem fault = d := by
        simpa [hreported] using congrArg List.getLast? hone
      obtain ⟨decl, hdecl, hblamed⟩ := Shape.blamed_of_classify hfault
      exact .classify (places_of_parse hfresh hread hparsed rfl) hdecl hblamed
  | expression hread hparsed hshaped hafter =>
      obtain ⟨met, decls, -, -, -, -, hdecls, rfl⟩ := declarations_of_tokenize hfresh hread hparsed
      obtain ⟨hclassified, -⟩ := accepted_of_classify rfl hshaped
      obtain ⟨-, problem, -, hreported, decl, hdecl, e, he, hfails⟩ := problem_of_emit hafter
      obtain rfl : Diagnostic.ofProblem problem = d := by
        simpa [hreported] using congrArg List.getLast? hone
      rw [hclassified, Option.getD_some] at hdecl
      -- A declaration keeps its members when it gets a kind.
      obtain ⟨decl, hmem, rfl⟩ := List.mem_map.1 hdecl
      exact .expression (places_of_parse hfresh hread hparsed rfl) hmem (hdecls decl hmem).2.2 he
        hfails

/-! ## One source -/

/-- Two compilations are of one source, under one name. -/
structure SameSource (c after : Compilation) : Prop where
  source : after.source = c.source
  filename : after.filename = c.filename

/-- Stages in turn keep the source if each of them does. -/
theorem SameSource.trans (h : c.SameSource read) (hnext : read.SameSource after) :
    c.SameSource after :=
  ⟨hnext.source.trans h.source, hnext.filename.trans h.filename⟩

/-- Reading tokens keeps the source. -/
theorem sameSource_tokenize (c : Compilation) : c.SameSource c.tokenize.2 := by
  obtain ⟨stored, strings, heq, -⟩ :=
    c.tokens_foldl (Scan.source c.source.toList).lexemes
  simp only [tokenize, heq]
  split <;> exact ⟨rfl, rfl⟩

/-- Reading tokens keeps the source, whether it succeeds or not. -/
theorem sameSource_of_tokenize {succeeded : Bool} (h : c.tokenize = (succeeded, after)) :
    c.SameSource after := by
  have hsame := c.sameSource_tokenize
  rwa [h] at hsame

/-- Parsing keeps the source. -/
theorem sameSource_of_parse {succeeded : Bool} (h : c.parse = .ok (succeeded, after)) :
    c.SameSource after := by
  cases succeeded with
  | false =>
      obtain ⟨refused, token, -, -, rfl⟩ := refusal_of_parse h
      exact ⟨rfl, rfl⟩
  | true =>
      obtain ⟨refused | decls, -, h⟩ := exists_of_bind_eq_ok h
      · obtain ⟨_, -, h⟩ := exists_of_bind_eq_ok h
        cases h
      · cases h
        exact ⟨rfl, rfl⟩

/-- Classifying keeps the source. -/
theorem sameSource_of_classify {succeeded : Bool} (h : c.classify = (succeeded, after)) :
    c.SameSource after := by
  simp only [classify] at h
  split at h <;>
  · cases h
    exact ⟨rfl, rfl⟩

/-- Emitting keeps the source. -/
theorem sameSource_of_emit {units? : Option (List JavaUnit)} (h : c.emit = .ok (units?, after)) :
    c.SameSource after := by
  obtain ⟨emitted, -, h⟩ := exists_of_bind_eq_ok h
  dsimp only at h
  split at h <;>
  · cases h
    exact ⟨rfl, rfl⟩

/-- What is left when a stage fails is still of the source that was given. -/
theorem FailsAt.sameSource (h : c.FailsAt stage after) : c.SameSource after := by
  cases h with
  | lex hafter => exact sameSource_of_tokenize hafter
  | parse hread hafter => exact (sameSource_of_tokenize hread).trans (sameSource_of_parse hafter)
  | classify hread hparsed hafter =>
      exact (sameSource_of_tokenize hread).trans
        ((sameSource_of_parse hparsed).trans (sameSource_of_classify hafter))
  | expression hread hparsed hshaped hafter =>
      exact (sameSource_of_tokenize hread).trans ((sameSource_of_parse hparsed).trans
        ((sameSource_of_classify hshaped).trans (sameSource_of_emit hafter)))

end Compilation

end EoJava
