import EoJava.Proofs.Compilation.Reported
import EoJava.Proofs.Java.IntegerLiteral

/-!
# Problems that no source has

Names and numbers of a source are told apart by the scan, and the grammar, the classification and
the expressions look at them again. All of them agree on what the scan meets. So no source has a
call without a name or an interface whose name is no identifier, and a number is refused only if it
is a whole number that no `long` holds (`compile_internal`).
-/

namespace EoJava

/-! ## Numbers -/

/-- A numeral without a literal is a whole number that no `long` holds. -/
theorem Java.whole_of_numberLiteral?_eq_none {text : String}
    (hnumeral : Text.Numeral.isNumeral text.toList) (hnone : numberLiteral? text = none) :
    '.' ∉ text.toList ∧ ¬(-2 ^ 63 ≤ Text.Numeral.intValue text.toList ∧
      Text.Numeral.intValue text.toList ≤ 2 ^ 63 - 1) := by
  have hwhole : '.' ∉ text.toList := by
    intro hpoint
    simp [numberLiteral?, hnumeral, hpoint] at hnone
  refine ⟨hwhole, ?_⟩
  obtain ⟨literal, hsome, -⟩ | ⟨-, hbeyond⟩ := numberLiteral?_cases hnumeral hwhole
  · cases hnone.symm.trans hsome
  · rwa [Bool.eq_false_iff, ne_eq, inRange_iff, longRange_eq] at hbeyond

/-- A lexeme with the terminal of a number is that number. -/
theorem Lexeme.eq_number {lexeme : Lexeme} {text : String} (h : lexeme.terminal = .number text) :
    lexeme = .number text := by
  cases lexeme <;> cases h
  rfl

/-! ## Problems of a compilation -/

namespace Compilation

variable {c after : Compilation}

/-- What a failure to compile says of a source: it tells no problem that a source cannot have, and a
number that it refuses is a whole number that no `long` holds. -/
structure Explained (c : Compilation) (d : Diagnostic) : Prop where
  nameless : d.code ≠ .namelessCall
  invalid : d.code ≠ .invalidInterface
  number : d.code = .malformedNumber → ∃ text,
    ⟨d.position, .number text⟩ ∈ (Scan.source c.source.toList).lexemes ∧ '.' ∉ text.toList ∧
      ¬(-2 ^ 63 ≤ Text.Numeral.intValue text.toList ∧
        Text.Numeral.intValue text.toList ≤ 2 ^ 63 - 1)

/-- A diagnostic of an earlier stage than that of expressions, which calls no interface invalid. -/
theorem explained_of_stage {d : Diagnostic} (hstage : d.code.stage ≠ .expression)
    (hinvalid : d.code ≠ .invalidInterface) : c.Explained d := by
  refine ⟨fun hcode => hstage ?_, hinvalid, fun hcode => absurd ?_ hstage⟩ <;>
  · rw [hcode]
    rfl

/-- No declaration of a source lists an interface whose name is no identifier. -/
theorem explained_of_blamed {decls : List Decl} (hplaces : c.Places decls) {decl : Decl}
    (hdecl : decl ∈ decls) {fault : Located Problem} (hblamed : decl.Blamed fault)
    (hstage : (Diagnostic.ofProblem fault).code.stage = .classify) :
    c.Explained (.ofProblem fault) := by
  refine explained_of_stage (by rw [hstage]; nofun) fun hcode => ?_
  have hspelled : decl.SpelledIn fun _ => True := hplaces.spelledIn (fun _ _ => trivial) hdecl
  cases hblamed with
  | invalidInterface href hname => exact hname (hspelled _ (Decl.anchored_of_reference href)).2
  | _ => cases hcode

/-- A failure of an expression of the source. -/
theorem explained_of_fails {decls : List Decl} (hplaces : c.Places decls) {decl : Decl}
    (hdecl : decl ∈ decls) (hmembers : ∀ m ∈ decl.members, m.Fresh) {e : Expr}
    (he : e ∈ decl.expressions) {problem : Located Problem} (hfails : e.Fails decl.slots problem) :
    c.Explained (.ofProblem problem) := by
  obtain ⟨a, ha, t, hlocated, hblamed⟩ := hfails.exists_anchored
  have hnode : ⟨problem.position, t⟩ ∈ Decl.nodes decls :=
    List.mem_filterMap.2 ⟨a, List.mem_flatMap.2 ⟨decl, hdecl,
      Decl.anchored_subset hmembers he ha⟩, hlocated⟩
  obtain ⟨⟨position, lexeme⟩, hmet, hplaced⟩ := List.mem_map.1 (hplaces.nodes_subset hnode)
  obtain ⟨rfl, rfl⟩ : position = problem.position ∧ lexeme.terminal = t := by
    simpa [Lexeme.placed] using hplaced
  refine ⟨fun hcode => ?_, fun hcode => ?_, fun hcode => ?_⟩
  · -- A call without a name would be spelled by an empty name, and none is scanned.
    have hlegible := Scan.legible_of_met hmet
    rw [hblamed.eq_empty hcode] at hlegible
    exact absurd hlegible (by decide +kernel)
  · -- Interfaces are not looked at when expressions are.
    have hstage := hfails.stage
    rw [show problem.value.code = .invalidInterface from hcode] at hstage
    cases hstage
  · obtain ⟨text, hnumber, hnone⟩ := hblamed.exists_number hcode
    rw [Lexeme.eq_number hnumber] at hmet
    have hnumeral := Scan.isNumeral_of_met hmet rfl
    exact ⟨text, hmet, Java.whole_of_numberLiteral?_eq_none hnumeral hnone⟩

theorem explained_of_failsAt (hfresh : c.Fresh) {stage : Stage} (h : c.FailsAt stage after)
    {d : Diagnostic} (hone : after.diagnostics = [d]) (hstage : d.code.stage = stage) :
    c.Explained d := by
  cases h.reported hfresh hone with
  | lex | parse =>
      refine explained_of_stage (by rw [hstage]; nofun) fun hcode => ?_
      rw [hcode] at hstage
      cases hstage
  | classify hplaces hdecl hblamed => exact explained_of_blamed hplaces hdecl hblamed hstage
  | expression hplaces hdecl hmembers he hfails =>
      exact explained_of_fails hplaces hdecl hmembers he hfails

end Compilation

/-- Every name that a scan meets is an identifier, and every number is a numeral; the grammar takes
both in full. So the error of a source is never about a call without a name or an interface whose
name is no identifier, and it is about a number only at a whole number that no `long` holds. -/
theorem compile_internal (source filename : String) :
    (∀ found ∈ (Scan.source source.toList).lexemes, ∀ text,
      (found.value = .name text → isIdentifier text ∧
        ∀ rest, (∀ c ∈ rest.head?, Grammar.isWordPart c = false) →
          Grammar.takeName? (text.toList ++ rest) = some (text.toList, rest)) ∧
      (found.value = .number text → Text.Numeral.isNumeral text.toList ∧
        ∀ rest, Text.Numeral.Ends rest →
          Text.Numeral.take? (text.toList ++ rest) = some (text.toList, rest))) ∧
    ∀ error, compile source filename = .error (.refused error) →
      error.code ≠ .namelessCall ∧ error.code ≠ .invalidInterface ∧
      (error.code = .malformedNumber → ∃ text,
        ⟨error.position, .number text⟩ ∈ (Scan.source source.toList).lexemes ∧
        '.' ∉ text.toList ∧ ¬(-2 ^ 63 ≤ Text.Numeral.intValue text.toList ∧
          Text.Numeral.intValue text.toList ≤ 2 ^ 63 - 1)) := by
  constructor
  · intro found hmet text
    constructor
    · intro hname
      have hidentifier := Scan.isIdentifier_of_met hmet hname
      exact ⟨hidentifier, fun rest hrest => Grammar.takeName?_append hidentifier hrest⟩
    · intro hnumber
      have hnumeral := Scan.isNumeral_of_met hmet hnumber
      exact ⟨hnumeral, fun rest hrest => Text.Numeral.take?_append hnumeral hrest⟩
  · intro error herror
    have hsettles : Compilation.Settles { source, filename } (compile source filename) :=
      Compilation.run_settles ⟨rfl, rfl⟩
    rw [herror] at hsettles
    obtain - | ⟨-, hfails, hone, hstage, htells, -⟩ := hsettles
    have hexplained := Compilation.explained_of_failsAt ⟨rfl, rfl⟩ hfails hone hstage
    rw [htells.code, htells.position]
    exact ⟨hexplained.nameless, hexplained.invalid, hexplained.number⟩

/-- The least number that is too large for a `long` is refused where it stands. -/
theorem compile_internal_beyond :
    ∃ error text, compile "object A:\n  T m():\n    9223372036854775808\n" =
        .error (.refused error) ∧ error.code = .malformedNumber ∧ error.position = ⟨3, 5⟩ ∧
      ⟨error.position, .number text⟩ ∈
        (Scan.source "object A:\n  T m():\n    9223372036854775808\n".toList).lexemes ∧
      ¬(-2 ^ 63 ≤ Text.Numeral.intValue text.toList ∧
        Text.Numeral.intValue text.toList ≤ 2 ^ 63 - 1) := by
  have hrefused : (match compile "object A:\n  T m():\n    9223372036854775808\n" with
      | .error (.refused error) => some (error.code, error.position)
      | _ => none) = some (.malformedNumber, ⟨3, 5⟩) := by decide +kernel
  obtain ⟨-, herrors⟩ := compile_internal "object A:\n  T m():\n    9223372036854775808\n" "<input>"
  split at hrefused
  · next error herror =>
      obtain ⟨hcode, hposition⟩ := Prod.ext_iff.1 (Option.some.inj hrefused)
      obtain ⟨-, -, hnumber⟩ := herrors error herror
      obtain ⟨text, hmet, -, hbeyond⟩ := hnumber hcode
      exact ⟨error, text, herror, hcode, hposition, hmet, hbeyond⟩
  · cases hrefused

end EoJava
