import EoJava.Proofs.Token.Moved

/-!
# Readings that differ in columns

Two readings are alike if they meet the same lexemes on the same lines, and both end well, or both
are stopped for the same reason on the same line (`Reading.Alike`). Readings in sequence are alike
if their parts are (`Reading.Alike.bind`). The column where a text stands counts for nothing else, so
what is read of it is alike in any two columns (`Scan.alike_content`).
-/

namespace EoJava

open Text (isGap)

/-- A value with the line that it is on. -/
def Located.row {α : Type} (found : Located α) : Int × α :=
  (found.position.line, found.value)

namespace Reading

variable {α β γ δ : Type} {R : α → β → Prop} {S : γ → δ → Prop}

/-- Two readings meet the same lexemes on the same lines. They end with related results, or they are
stopped by problems of one code on one line. -/
inductive Alike (R : α → β → Prop) : Reading α → Reading β → Prop where
  | ok {met other : List (Located Lexeme)} {a : α} {b : β}
      (hmet : other.map Located.row = met.map Located.row) (h : R a b) :
      Alike R ⟨met, .ok a⟩ ⟨other, .ok b⟩
  | error {met other : List (Located Lexeme)} {problem found : Located Problem}
      (hmet : other.map Located.row = met.map Located.row)
      (hcode : found.value.code = problem.value.code)
      (hline : found.position.line = problem.position.line) :
      Alike R ⟨met, .error problem⟩ ⟨other, .error found⟩

namespace Alike

/-- Readings that only give results are alike if the results are. -/
theorem pure {a : α} {b : β} (h : R a b) : Alike R (Pure.pure a) (Pure.pure b) :=
  .ok rfl h

/-- A reading is like itself. -/
theorem refl (reading : Reading α) : Alike Eq reading reading := by
  rcases reading with ⟨met, problem | a⟩
  · exact .error rfl rfl rfl
  · exact .ok rfl rfl

/-- The same lexeme in another column of the line is met alike. -/
theorem emit {line column other : Int} (lexeme : Lexeme) :
    Alike (fun _ _ => True) (emit ⟨line, column⟩ lexeme) (Reading.emit ⟨line, other⟩ lexeme) :=
  .ok rfl trivial

/-- Problems with the same code on the same line are alike. -/
theorem fail {line column other : Int} {problem found : Problem} (h : found.code = problem.code) :
    Alike R (Reading.fail ⟨line, column⟩ problem) (Reading.fail ⟨line, other⟩ found) :=
  .error rfl h rfl

/-- If a reading is like another one, this one is like it. -/
theorem symm {first second : Reading α} (h : Alike Eq first second) : Alike Eq second first := by
  cases h with
  | ok hmet h => exact .ok hmet.symm h.symm
  | error hmet hcode hline => exact .error hmet.symm hcode.symm hline.symm

/-- Readings are alike if the same choice is made in both, and what is chosen is alike. -/
theorem ite {p q : Prop} [Decidable p] [Decidable q] (h : q ↔ p) {first next : Reading α}
    {second next' : Reading β} (hpos : Alike R first second) (hneg : Alike R next next') :
    Alike R (if p then first else next) (if q then second else next') := by
  by_cases hp : p
  · rwa [if_pos hp, if_pos (h.2 hp)]
  · rwa [if_neg hp, if_neg (mt h.1 hp)]

/-- Readings are alike in sequence if what follows a result is alike for any related one. -/
theorem bind {first : Reading α} {second : Reading β} {next : α → Reading γ}
    {next' : β → Reading δ} (h : Alike R first second)
    (hnext : ∀ met a b, first = ⟨met, .ok a⟩ → R a b → Alike S (next a) (next' b)) :
    Alike S (first >>= next) (second >>= next') := by
  cases h with
  | error hmet hcode hline => exact .error hmet hcode hline
  | @ok met other a b hmet h =>
      rw [ok_bind, ok_bind]
      have hlater := hnext met a b rfl h
      generalize next a = later at hlater
      generalize next' b = later' at hlater
      cases hlater with
      | ok hlater h => exact .ok (by simp [hmet, hlater]) h
      | error hlater hcode hline => exact .error (by simp [hmet, hlater]) hcode hline

end Alike

end Reading

/-! ## Lexemes in any column -/

namespace Lexing

/-- A string that is read at one offset and at another: the value and the rest are the same, or what
is wrong. -/
inductive SameString : Except StringFault (List Char × Text.Cursor) →
    Except StringFault (List Char × Text.Cursor) → Prop where
  | ok (value rest : List Char) (offset other : Nat) :
      SameString (.ok (value, ⟨rest, offset⟩)) (.ok (value, ⟨rest, other⟩))
  | unterminated : SameString (.error .unterminated) (.error .unterminated)
  | unknownEscape (offset other : Nat) (escaped : Char) :
      SameString (.error (.unknownEscape offset escaped)) (.error (.unknownEscape other escaped))

/-- Strings that are read alike are read alike with one more character. -/
theorem SameString.map {first second : Except StringFault (List Char × Text.Cursor)}
    (h : SameString first second) (c : Char) :
    SameString (first.map fun (cs, after) => (c :: cs, after))
      (second.map fun (cs, after) => (c :: cs, after)) := by
  cases h with
  | ok value rest offset other => exact .ok (c :: value) rest offset other
  | unterminated => exact .unterminated
  | unknownEscape offset other escaped => exact .unknownEscape offset other escaped

/-- How a string is read does not depend on its column. -/
theorem sameString (offset other : Nat) (text : List Char) :
    SameString (readString offset text) (readString other text) := by
  fun_induction readString offset text generalizing other with
  | case1 => exact .unterminated
  | case2 offset rest => exact .ok [] rest _ _
  | case3 => exact .unterminated
  | case4 offset c rest hescaped =>
      rw [readString.eq_4, hescaped]
      exact .unknownEscape _ _ c
  | case5 offset c rest value hescaped ih =>
      rw [readString.eq_4, hescaped]
      exact (ih (other + 2)).map value
  | case6 offset c rest hquote hend hslash ih =>
      rw [readString.eq_5 _ _ _ hquote hend hslash]
      exact (ih (other + Text.units c)).map c

/-- A lexeme that is looked for at one offset and at another: it and the rest are the same, or the
problem. -/
inductive SameNext : Except (Nat × Problem) (Lexeme × Text.Cursor) →
    Except (Nat × Problem) (Lexeme × Text.Cursor) → Prop where
  | ok (lexeme : Lexeme) (rest : List Char) (offset other : Nat) :
      SameNext (.ok (lexeme, ⟨rest, offset⟩)) (.ok (lexeme, ⟨rest, other⟩))
  | error (problem : Problem) (place other : Nat) :
      SameNext (.error (place, problem)) (.error (other, problem))

/-- Which lexeme is next does not depend on its column. -/
theorem sameNext (c : Char) (rest : List Char) (offset other : Nat) :
    SameNext (next? c rest offset) (next? c rest other) := by
  unfold next?
  dsimp only
  split
  · exact .ok _ _ _ _
  · split
    · exact .ok _ _ _ _
    · split
      · have hstring := sameString (offset + 1) (other + 1) rest
        generalize readString (offset + 1) rest = first at hstring
        generalize readString (other + 1) rest = second at hstring
        cases hstring with
        | ok value rest offset other => exact .ok _ rest offset other
        | unterminated => exact .error _ _ _
        | unknownEscape offset other escaped => exact .error _ offset other
      · split
        · exact .ok _ _ _ _
        · exact .error _ _ _

end Lexing

/-! ## Lines in any column -/

namespace Scan

/-- What is read of a text is alike in any column. -/
theorem alike_content (number : Int) (depth : Nat) (cursor : Text.Cursor) (other : Nat) :
    Reading.Alike Eq (content number depth cursor) (content number depth ⟨cursor.rest, other⟩) := by
  fun_induction content number depth cursor generalizing other with
  | case1 depth cursor hrest =>
      rw [hrest, content_nil]
      exact .pure rfl
  | case2 depth cursor c rest hrest hgap ih =>
      rw [hrest, content_cons, if_pos hgap]
      exact ih (other + 1)
  | case3 depth cursor rest hrest hgap =>
      rw [hrest, content_cons, if_neg hgap, if_pos rfl]
      exact .pure rfl
  | case4 depth cursor c rest hrest hgap hcomment lexeme after hmet ih =>
      rw [hrest, content_cons, if_neg hgap, if_neg hcomment]
      have hsame := Lexing.sameNext c rest cursor.offset other
      rw [hmet] at hsame
      generalize Lexing.next? c rest other = second at hsame
      cases hsame with
      | ok lexeme rest offset other =>
          exact (Reading.Alike.emit lexeme).bind fun _ _ _ _ _ => ih other
  | case5 depth cursor c rest hrest hgap hcomment place problem hmet =>
      rw [hrest, content_cons, if_neg hgap, if_neg hcomment]
      have hsame := Lexing.sameNext c rest cursor.offset other
      rw [hmet] at hsame
      generalize Lexing.next? c rest other = second at hsame
      cases hsame with
      | error problem place other => exact .fail rfl

/-- Spaces and tabs before a text only move it. -/
theorem content_gap {space : List Char} (hspace : ∀ c ∈ space, isGap c) (number : Int)
    (depth : Nat) (rest : List Char) (offset : Nat) :
    content number depth ⟨space ++ rest, offset⟩ =
      content number depth ⟨rest, offset + space.length⟩ := by
  induction space generalizing offset with
  | nil => rfl
  | cons c space ih =>
      obtain ⟨hc, hspace⟩ := List.forall_mem_cons.1 hspace
      rw [List.cons_append, content_cons, if_pos hc, ih hspace, List.length_cons]
      congr 2
      omega

end Scan

end EoJava
