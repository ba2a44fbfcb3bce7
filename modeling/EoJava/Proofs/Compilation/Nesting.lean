import EoJava.Proofs.Compilation.RoundTrip
import EoJava.Proofs.Grammar.Nesting

/-!
# Which depth of calls is refused

Among the sources that the documented grammar derives, those are refused in which calls are nested
too deep, and they are refused for that. All others are parsed (`parse_nested`).
-/

namespace EoJava

open Grammar (Terminal Carried Derives Shallow)

/-! ## Calls in the default of a parameter -/

/-- Calls of `f` inside one another, around a name. -/
def Expr.nested : Nat → Expr
  | 0 => .reference .nowhere "x" none
  | depth + 1 => .call .nowhere "f" [nested depth]

/-- A declaration with one method, which has one parameter with a default. -/
def Decl.defaulting (e : Expr) : Decl where
  position := .nowhere
  name := "A"
  interfaces := []
  members := [.method ⟨.nowhere, "T", "m", [⟨.nowhere, "T", "p", some e⟩], none⟩]
  kind := none

/-- Calls can be nested to any depth. -/
theorem Expr.nesting_nested (depth : Nat) : (nested depth).nesting = depth := by
  induction depth with
  | zero => rfl
  | succ depth ih => simp [nested, nesting, nestingAll, ih]

/-- Nested calls are as they are read. -/
theorem Expr.fresh_nested (depth : Nat) : (nested depth).Fresh := by
  induction depth with
  | zero => rfl
  | succ depth ih => simpa [nested, Fresh] using ih

/-- Nested calls can be written. -/
theorem Expr.legible_nested (depth : Nat) : ∀ t ∈ (nested depth).terminals, t.Legible := by
  have hname : isIdentifier "f" := by decide +kernel
  induction depth with
  | zero => decide +kernel
  | succ depth ih =>
      simpa [nested, terminals, Grammar.commaSeparated, or_imp, forall_and,
        Grammar.Terminal.Legible] using ⟨hname, ih⟩

/-- The declaration around a default is as it is read if the default is. -/
theorem Decl.fresh_defaulting {e : Expr} (h : e.Fresh) : (defaulting e).Fresh := by
  simpa [defaulting, Fresh, Member.Fresh, Method.Fresh, Slot.Fresh] using h

/-- The declaration around a default can be written if the default can. -/
theorem Decl.legible_defaulting {e : Expr} (h : ∀ t ∈ e.terminals, t.Legible) :
    ∀ t ∈ (defaulting e).terminals, t.Legible := by
  have hdeclaration : isIdentifier "A" := by decide +kernel
  have hmethod : isIdentifier "T" ∧ isIdentifier "m" := by decide +kernel
  have hslot : isIdentifier "T" ∧ isIdentifier "p" := by decide +kernel
  simpa [defaulting, terminals, interfaceTerminals, Member.terminals, Method.terminals,
    Slot.terminals, Slot.defaultTerminals, Method.tailTerminals, Grammar.commaSeparated, or_imp,
    forall_and, Grammar.Terminal.Legible] using
    ⟨hdeclaration, hmethod.1, hmethod.2, hslot.1, hslot.2, h⟩

namespace Compilation

/-- Fresh declarations that the tokens of a compilation spell. -/
structure Spelling (c : Compilation) (decls : List Decl) : Prop where
  fresh : ∀ decl ∈ decls, decl.Fresh
  carries : List.Forall₂ (Token.Carries c.strings) c.tokens.toList (Decl.programTerminals decls)

variable {c read : Compilation} {us : List Terminal} {decls : List Decl}

/-- The tokens spell declarations exactly if the declarations are fresh and have their terminals. -/
theorem spelling_iff (h : Carried c.strings c.tokens us) : c.Spelling decls ↔
    (∀ decl ∈ decls, decl.Fresh) ∧ Decl.programTerminals decls = us ++ [.endOfInput] := by
  have hunique : Relator.RightUnique (Token.Carries c.strings) :=
    fun _ _ _ ht hu => ht.unique hu
  constructor
  · exact fun hspelling => ⟨hspelling.fresh, hunique.forall₂ hspelling.carries h.carries⟩
  · rintro ⟨hfresh, hspelled⟩
    exact ⟨hfresh, hspelled ▸ h.carries⟩

/-- Declarations that the tokens of a source spell are parsed, up to their positions, exactly if
none of them is overnested. -/
theorem parse_of_spelling (h : Carried c.strings c.tokens us) (hspelling : c.Spelling decls) :
    ((∀ decl ∈ decls, ¬decl.Overnested) ∧ ∃ found, c.Spelling found ∧
        found.map Decl.placeless = decls.map Decl.placeless ∧
        c.parse = .ok (true, { c with declarations := some found })) ∨
      (∃ decl ∈ decls, decl.Overnested) ∧ ∃ diagnostic,
        c.parse = .ok (false, c.add diagnostic) ∧ diagnostic.code = .nestingTooDeep := by
  obtain ⟨hdecls, hspelled⟩ := (spelling_iff h).1 hspelling
  have hiff := Decl.shallow_programTerminals_iff hdecls
  rw [hspelled, ← h.map_kind] at hiff
  by_cases hshallow : Shallow (c.tokens.toList.map (·.kind))
  · obtain ⟨found, hparse, hplaceless⟩ := h.parse_of_spelled hshallow hdecls hspelled
    obtain ⟨other, hother, -, hfound⟩ | ⟨id, detail, hrefused, -⟩ := h.parse_cases hshallow
    · -- Both speak of one parse, so the tree it finds is also one that the tokens spell.
      cases hparse.symm.trans hother
      exact .inl ⟨hiff.1 hshallow, found, (spelling_iff h).2 hfound, hplaceless,
        parse_of_declarations hparse⟩
    · cases hparse.symm.trans hrefused
  · obtain ⟨id, hparse, -, hid⟩ := Grammar.parse_of_not_shallow c.strings hshallow
    rw [hiff] at hshallow
    push Not at hshallow
    exact .inr ⟨hshallow, _, parse_of_refusal hparse hid, rfl⟩

/-- The tokens of a source that is derived spell declarations. If none of these is overnested they
are parsed, up to their positions. Otherwise the source is refused for its nesting. -/
theorem parse_nested (hfresh : c.Fresh) (hread : c.tokenize = (true, read))
    (hderives : Derives (.rule .program) (read.tokens.toList.map (·.kind))) :
    (∃ decls, read.Spelling decls) ∧ ∀ decls, read.Spelling decls →
      ((∀ decl ∈ decls, ¬decl.Overnested) ∧ ∃ found, read.Spelling found ∧
          found.map Decl.placeless = decls.map Decl.placeless ∧
          read.parse = .ok (true, { read with declarations := some found })) ∨
        (∃ decl ∈ decls, decl.Overnested) ∧ ∃ diagnostic,
          read.parse = .ok (false, read.add diagnostic) ∧ diagnostic.code = .nestingTooDeep := by
  obtain ⟨found, us, htokenize, -, hcarried, -⟩ | ⟨found, problem, htokenize, -⟩ :=
    tokenize_cases hfresh
  · cases hread.symm.trans htokenize
    obtain ⟨decls, hspelled⟩ := (derives_iff_spelled hcarried).1 hderives
    exact ⟨⟨decls, (spelling_iff hcarried).2 hspelled⟩, fun decls => parse_of_spelling hcarried⟩
  · cases hread.symm.trans htokenize

/-- A source with a call in the default of a parameter is derived, and it is parsed. -/
theorem parse_nested_call :
    ∃ read found, ({ source := "object A:\n  T m(T p = f(x))\n" } : Compilation).tokenize =
        (true, read) ∧ read.Spelling found ∧ (∀ decl ∈ found, ¬decl.Overnested) ∧
      read.parse = .ok (true, { read with declarations := some found }) := by
  let c : Compilation := { source := "object A:\n  T m(T p = f(x))\n" }
  have hread : c.tokenize = (true, c.tokenize.2) := Prod.ext (by decide +kernel) rfl
  have hkinds : c.tokenize.2.tokens.toList.map (·.kind) =
      (Decl.programTerminals [.defaulting (.nested 1)]).map (·.kind) := by decide +kernel
  have hderives : Derives (.rule .program) (c.tokenize.2.tokens.toList.map (·.kind)) := by
    rw [hkinds]
    exact Grammar.fits_program_iff.2
      ⟨[.defaulting (.nested 1)], by simp [Decl.fresh_defaulting, Expr.fresh_nested], rfl⟩
  obtain ⟨⟨decls, hspelling⟩, hall⟩ := parse_nested (c := c) ⟨rfl, rfl⟩ hread hderives
  have hdone : c.tokenize.2.parse.toOption.map Prod.fst = some true := by decide +kernel
  obtain ⟨-, found, hfound, -, hparse⟩ | ⟨-, diagnostic, hrefused, -⟩ := hall decls hspelling
  · -- The same holds of the tree that is found, which says how its calls are nested.
    obtain ⟨hnested, -⟩ | ⟨-, diagnostic, hrefused, -⟩ := hall found hfound
    · exact ⟨_, found, hread, hfound, hnested, hparse⟩
    · cases hparse.symm.trans hrefused
  · rw [hrefused] at hdone
    cases hdone

/-- Calls in the default of this parameter are nested as deep as is allowed, and nowhere deeper, but
the source is refused for its nesting. -/
theorem parse_nested_parameter :
    let decl : Decl := .defaulting (.nested Grammar.maxDepth)
    ∃ read diagnostic, ({ source := Decl.written [decl] } : Compilation).tokenize = (true, read) ∧
      Derives (.rule .program) (read.tokens.toList.map (·.kind)) ∧ read.Spelling [decl] ∧
      (∀ e ∈ decl.expressions, e.nesting ≤ Grammar.maxDepth) ∧
      read.parse = .ok (false, read.add diagnostic) ∧ diagnostic.code = .nestingTooDeep := by
  intro decl
  have hfresh : ∀ found ∈ [decl], found.Fresh := by
    simp [decl, Decl.fresh_defaulting, Expr.fresh_nested]
  have hlegible : ∀ found ∈ [decl], ∀ t ∈ found.terminals, t.Legible := by
    simpa [decl] using Decl.legible_defaulting (Expr.legible_nested _)
  -- The text is too long to be scanned by evaluation. What it spells follows from how it is made.
  obtain ⟨met, hmet, hsource⟩ :=
    Decl.source_written hlegible fun found hfound => (hfresh found hfound).2.1
  obtain ⟨read, us, hread, -, hcarried, hus, -⟩ :=
    tokenize_of_source (c := { source := Decl.written [decl] }) ⟨rfl, rfl⟩ hsource
  have hspelled : Decl.programTerminals [decl] = us ++ [.endOfInput] := hmet.symm.trans hus
  have hspelling : read.Spelling [decl] := (spelling_iff hcarried).2 ⟨hfresh, hspelled⟩
  have hderives := (derives_iff_spelled hcarried).2 ⟨[decl], hfresh, hspelled⟩
  have hnesting : ∀ e ∈ decl.expressions, e.nesting = Grammar.maxDepth := by
    simp [decl, Decl.expressions, Decl.defaulting, Member.values, Member.parameterDefaults,
      Expr.nesting_nested]
  obtain ⟨hnested, -⟩ | ⟨-, diagnostic, hparse, hcode⟩ := parse_of_spelling hcarried hspelling
  · refine absurd ?_ (hnested decl (by simp))
    exact .inr ⟨.nested Grammar.maxDepth, by
      simp [decl, Decl.parameterDefaults, Decl.defaulting, Member.parameterDefaults],
      Expr.nesting_nested _⟩
  · exact ⟨read, diagnostic, hread, hderives, hspelling, fun e he => (hnesting e he).le, hparse,
      hcode⟩

end Compilation

end EoJava
