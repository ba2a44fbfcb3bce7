import EoJava.Token.Kind
import Mathlib.Data.List.Basic

/-!
# The grammar over kinds of tokens

The documented grammar, one production for each nonterminal, as data, and what it derives.
`Derives rhs kinds` says that a right-hand side derives a sequence of kinds; the lemmas after it
take a derivation apart by the shape of its right-hand side.
-/

namespace EoJava.Grammar

/-- The names of the productions. -/
inductive Nonterminal where
  | program
  | objectDecl
  | identList
  | member
  | attribute
  | method
  | paramList
  | param
  | expr
  | literal
deriving DecidableEq, Repr

/-- The right-hand side of a production. -/
inductive Ebnf where
  | kind (k : Kind)
  | rule (n : Nonterminal)
  | seq (first second : Ebnf)
  | either (first second : Ebnf)
  | maybe (part : Ebnf)
  | star (part : Ebnf)
deriving DecidableEq, Repr

namespace Ebnf

/-- Right-hand sides in sequence. -/
instance : Append Ebnf := ⟨seq⟩

/-- A mark. -/
def mark (m : Mark) : Ebnf := kind (.mark m)

/-- One or more times. -/
def plus (part : Ebnf) : Ebnf := part ++ star part

/-- One or more times with a comma in between. -/
def commas (part : Ebnf) : Ebnf := part ++ star (mark .comma ++ part)

/-- The production of a nonterminal. -/
def production : Nonterminal → Ebnf
  | .program => star (rule .objectDecl) ++ kind .endOfInput
  | .objectDecl =>
      mark .objectWord ++ kind .name ++ maybe (mark .asWord ++ rule .identList) ++ mark .colon ++
        kind .newline ++ kind .indent ++ plus (rule .member) ++ kind .dedent
  | .identList => commas (kind .name)
  | .member => either (rule .method) (rule .attribute)
  | .attribute =>
      either
        (kind .name ++ mark .atSign ++ kind .name ++ maybe (mark .assign ++ rule .expr) ++
          kind .newline)
        (kind .name ++ kind .name ++ kind .newline)
  | .method =>
      kind .name ++ kind .name ++ mark .leftParen ++ maybe (rule .paramList) ++ mark .rightParen ++
        either
          (mark .colon ++ kind .newline ++ kind .indent ++ rule .expr ++ kind .newline ++
            kind .dedent)
          (kind .newline)
  | .paramList => commas (rule .param)
  | .param => kind .name ++ kind .name ++ maybe (mark .equals ++ rule .expr)
  | .expr =>
      either
        (kind .name ++ mark .leftParen ++ maybe (commas (rule .expr)) ++ mark .rightParen)
        (either (rule .literal) (kind .name))
  | .literal =>
      either (kind .string) (either (kind .number) (either (mark .trueWord) (mark .falseWord)))

end Ebnf

open Ebnf

/-- `Derives rhs kinds` says that `rhs` derives the sequence `kinds`. -/
inductive Derives : Ebnf → List Kind → Prop where
  | kind (k) : Derives (.kind k) [k]
  | rule {n kinds} : Derives (production n) kinds → Derives (.rule n) kinds
  | seq {first second left right} :
      Derives first left → Derives second right → Derives (.seq first second) (left ++ right)
  | first {first second kinds} : Derives first kinds → Derives (.either first second) kinds
  | second {first second kinds} : Derives second kinds → Derives (.either first second) kinds
  | absent (part) : Derives (.maybe part) []
  | present {part kinds} : Derives part kinds → Derives (.maybe part) kinds
  | done (part) : Derives (.star part) []
  | more {part left right} :
      Derives part left → Derives (.star part) right → Derives (.star part) (left ++ right)

namespace Derives

variable {a b : Ebnf} {kinds : List Kind}

/-- A kind of terminal derives itself alone. -/
@[simp]
theorem kind_iff {k : Kind} : Derives (.kind k) kinds ↔ kinds = [k] := by
  constructor
  · intro h
    cases h
    rfl
  · rintro rfl
    exact .kind k

/-- A mark derives itself alone. -/
@[simp]
theorem mark_iff {m : Mark} : Derives (mark m) kinds ↔ kinds = [.mark m] :=
  kind_iff

/-- A nonterminal derives what its production does. -/
theorem rule_iff {n : Nonterminal} : Derives (.rule n) kinds ↔ Derives (production n) kinds :=
  ⟨fun h => by cases h; assumption, .rule⟩

/-- One part after another derives what can be divided into texts of both. -/
@[simp]
theorem append_iff :
    Derives (a ++ b) kinds ↔
      ∃ left right, kinds = left ++ right ∧ Derives a left ∧ Derives b right := by
  constructor
  · intro h
    cases h with
    | seq hleft hright => exact ⟨_, _, rfl, hleft, hright⟩
  · rintro ⟨left, right, rfl, hleft, hright⟩
    exact .seq hleft hright

/-- Alternatives derive what either of them does. -/
@[simp]
theorem either_iff : Derives (.either a b) kinds ↔ Derives a kinds ∨ Derives b kinds := by
  constructor
  · intro h
    cases h with
    | first h => exact .inl h
    | second h => exact .inr h
  · rintro (h | h)
    · exact .first h
    · exact .second h

/-- What may be left out derives nothing, or what it does. -/
@[simp]
theorem maybe_iff : Derives (.maybe a) kinds ↔ kinds = [] ∨ Derives a kinds := by
  constructor
  · intro h
    cases h with
    | absent => exact .inl rfl
    | present h => exact .inr h
  · rintro (rfl | h)
    · exact .absent a
    · exact .present h

/-- A repetition derives the concatenations of what its part derives. -/
theorem star_iff :
    Derives (.star a) kinds ↔ ∃ parts : List (List Kind), kinds = parts.flatten ∧
      ∀ part ∈ parts, Derives a part := by
  constructor
  · intro h
    generalize hrhs : Ebnf.star a = rhs at h
    induction h with
    | done => exact ⟨[], rfl, by simp⟩
    | more hpart _ _ ih =>
        obtain rfl := Ebnf.star.inj hrhs
        obtain ⟨parts, rfl, hparts⟩ := ih rfl
        exact ⟨_ :: parts, rfl, List.forall_mem_cons.2 ⟨hpart, hparts⟩⟩
    | _ => cases hrhs
  · rintro ⟨parts, rfl, hparts⟩
    induction parts with
    | nil => exact .done a
    | cons part parts ih =>
        obtain ⟨hpart, hparts⟩ := List.forall_mem_cons.1 hparts
        exact .more hpart (ih hparts)

end Derives

end EoJava.Grammar
