import EoJava.Proofs.Grammar.Completeness
import EoJava.Proofs.Grammar.Language
import Mathlib.Computability.Language
import Mathlib.Order.Bounds.Basic

/-!
# Viable prefixes

Kinds are viable for a language if some text of it starts with them. `places L i leaves` are the
places to which viable kinds lead among leaves, the first of which has the index `i`. A leaf that
only starts like what is expected is a leaf of its own sort, but the grammar tells the two apart at
the end of what they share, and that lies behind the start of the leaf. So there the place after the
leaf is among the places as well (`Terminal.Mimics`).
-/

namespace EoJava.Grammar

open scoped Computability

/-! ## Languages -/

/-- The texts that a right-hand side derives. -/
def Ebnf.language (rhs : Ebnf) : Language Kind :=
  {kinds | Derives rhs kinds}

namespace Ebnf

variable (a b : Ebnf)

/-- The texts of a right-hand side are those that it derives. -/
theorem mem_language {rhs : Ebnf} {kinds : List Kind} :
    kinds ∈ rhs.language ↔ Derives rhs kinds :=
  Iff.rfl

/-- A kind of terminal derives itself alone. -/
@[simp]
theorem language_kind (k : Kind) : (kind k).language = {[k]} := by
  ext kinds
  exact Derives.kind_iff

/-- A mark derives itself alone. -/
@[simp]
theorem language_mark (m : Mark) : (mark m).language = {[.mark m]} :=
  language_kind _

/-- One part after another derives the texts of both in turn. -/
@[simp]
theorem language_append : (a ++ b).language = a.language * b.language := by
  ext kinds
  rw [mem_language, Derives.append_iff, Language.mem_mul]
  constructor
  · rintro ⟨left, right, rfl, hleft, hright⟩
    exact ⟨left, hleft, right, hright, rfl⟩
  · rintro ⟨left, hleft, right, hright, rfl⟩
    exact ⟨left, right, rfl, hleft, hright⟩

/-- Alternatives derive the texts of both. -/
@[simp]
theorem language_either : (either a b).language = a.language + b.language := by
  ext kinds
  exact Derives.either_iff

/-- What may be left out derives its texts and the empty one. -/
@[simp]
theorem language_maybe : (maybe a).language = a.language + 1 := by
  ext kinds
  exact Derives.maybe_iff.trans or_comm

/-- A repetition derives texts of its part in turn. -/
@[simp]
theorem language_star : (star a).language = a.language∗ := by
  ext kinds
  exact Derives.star_iff

/-- Items between commas derive a first text, and then commas with a text behind each. -/
@[simp]
theorem language_commas :
    (commas a).language = a.language * ({[.mark .comma]} * a.language)∗ := by
  simp [commas]

/-- A nonterminal derives what its production does. -/
theorem language_rule (n : Nonterminal) : (rule n).language = (production n).language := by
  ext kinds
  exact Derives.rule_iff

end Ebnf

/-- A language with one text has no other text. -/
@[simp]
theorem mem_singleton_iff {kinds text : List Kind} :
    text ∈ ({kinds} : Language Kind) ↔ text = kinds :=
  Iff.rfl

/-- Some text of a language starts with given kinds. -/
def Viable (L : Language Kind) (kinds : List Kind) : Prop :=
  ∃ more, kinds ++ more ∈ L

section

variable {L M : Language Kind} {kinds more : List Kind}

/-- Nothing is viable for any language that has a text. -/
theorem viable_nil (h : ∃ text, text ∈ L) : Viable L [] :=
  h

/-- Fewer of the kinds are viable as well. -/
theorem Viable.of_prefix {before : List Kind} (h : Viable L kinds) (hbefore : before <+: kinds) :
    Viable L before := by
  obtain ⟨rest, rfl⟩ := hbefore
  obtain ⟨more, hmore⟩ := h
  exact ⟨rest ++ more, by rwa [← List.append_assoc]⟩

/-- What is viable for one of two languages is viable for both together. -/
theorem viable_add : Viable (L + M) kinds ↔ Viable L kinds ∨ Viable M kinds := by
  simp only [Viable, Language.mem_add, exists_or]

/-- If two languages have texts, so has the one after the other. -/
theorem nonempty_mul (hL : ∃ text, text ∈ L) (hM : ∃ text, text ∈ M) :
    ∃ text, text ∈ L * M := by
  obtain ⟨left, hleft⟩ := hL
  obtain ⟨right, hright⟩ := hM
  exact ⟨left ++ right, Language.append_mem_mul hleft hright⟩

/-- For the language of the empty text, only nothing is viable. -/
theorem viable_one : Viable 1 kinds ↔ kinds = [] := by
  constructor
  · rintro ⟨more, hmore⟩
    exact (List.append_eq_nil_iff.1 ((Language.mem_one _).1 hmore)).1
  · rintro rfl
    exact ⟨[], rfl⟩

/-- Kinds of a concatenation end in its first part, or they go on after a text of it. -/
theorem viable_mul_cases (h : Viable (L * M) kinds) :
    Viable L kinds ∨
      ∃ text k rest, text ∈ L ∧ Viable M (k :: rest) ∧ kinds = text ++ k :: rest := by
  obtain ⟨more, left, hleft, right, hright, heq⟩ := h
  obtain ⟨rest, rfl, hrest⟩ | ⟨rest, rfl, -⟩ := List.append_eq_append_iff.1 heq
  · cases rest with
    | nil =>
        rw [List.append_nil]
        exact .inl ⟨[], by rwa [List.append_nil]⟩
    | cons k rest => exact .inr ⟨left, k, rest, hleft, ⟨more, hrest ▸ hright⟩, rfl⟩
  · exact .inl ⟨rest, hleft⟩

/-- What is viable stays so if some text can follow. -/
theorem Viable.mul_right (h : Viable L kinds) (hM : ∃ text, text ∈ M) : Viable (L * M) kinds := by
  obtain ⟨more, hmore⟩ := h
  obtain ⟨text, htext⟩ := hM
  exact ⟨more ++ text, by rw [← List.append_assoc]; exact Language.append_mem_mul hmore htext⟩

/-- Behind a whole text of the first language, what is viable for the second one is viable. -/
theorem Viable.mul_left {text : List Kind} (htext : text ∈ L) (h : Viable M kinds) :
    Viable (L * M) (text ++ kinds) := by
  obtain ⟨more, hmore⟩ := h
  exact ⟨more, by rw [List.append_assoc]; exact Language.append_mem_mul htext hmore⟩

end

/-! ## Leaves and kinds -/

/-- A terminal starts like another kind of terminal and goes on: a name like a keyword of a
declaration, and the mark for a default like a colon. -/
inductive Terminal.Mimics : Terminal → Kind → Prop
  | keyword {m : Mark} {text : String} (hm : m = .objectWord ∨ m = .asWord)
      (hstart : m.text.toList <+: text.toList) : Mimics (.name text) (.mark m)
  | colon : Mimics (.mark .assign) (.mark .colon)

/-- The kind of a leaf. -/
def Leaf.kind (leaf : Leaf) : Kind :=
  leaf.terminal.kind

/-- Leaves start with given kinds, except that the last of these may be mimicked. -/
inductive Resembles : List Kind → List Leaf → Prop
  | nil (leaves : List Leaf) : Resembles [] leaves
  | mimic {k : Kind} {leaf : Leaf} {others : List Leaf} (h : leaf.terminal.Mimics k) :
      Resembles [k] (leaf :: others)
  | cons {kinds : List Kind} {leaf : Leaf} {others : List Leaf} (h : Resembles kinds others) :
      Resembles (leaf.kind :: kinds) (leaf :: others)

namespace Resembles

variable {kinds more : List Kind} {leaves taken rest : List Leaf} {k : Kind}

/-- What resembles the leaves after some, after the kinds of these resembles all. -/
theorem append (h : Resembles kinds rest) :
    Resembles (taken.map Leaf.kind ++ kinds) (taken ++ rest) := by
  induction taken with
  | nil => exact h
  | cons leaf taken ih => exact .cons ih

/-- Only the last kind may be mimicked, so all kinds before it are those of leaves. -/
theorem split (h : Resembles (kinds ++ k :: more) leaves) :
    ∃ taken rest, leaves = taken ++ rest ∧ taken.map Leaf.kind = kinds ∧
      Resembles (k :: more) rest := by
  induction kinds generalizing leaves with
  | nil => exact ⟨[], leaves, rfl, rfl, h⟩
  | cons first kinds ih =>
      generalize hall : (first :: kinds) ++ k :: more = all at h
      cases h with
      | nil => cases hall
      | mimic =>
          obtain ⟨-, hnil⟩ := List.cons.inj hall
          simp at hnil
      | cons h =>
          obtain ⟨rfl, rfl⟩ := List.cons.inj hall
          obtain ⟨taken, rest, rfl, rfl, hrest⟩ := ih h
          exact ⟨_ :: taken, rest, rfl, rfl, hrest⟩

/-- Leaves resemble their own kinds, up to any leaf. -/
theorem take (leaves : List Leaf) (n : Nat) :
    Resembles ((leaves.map Leaf.kind).take n) leaves := by
  have h : Resembles _ (leaves.take n ++ leaves.drop n) := append (.nil _)
  rwa [List.append_nil, List.map_take, List.take_append_drop] at h

/-- Leaves resemble their own kinds up to one that starts like another kind, and then this kind. -/
theorem take_mimic {leaf : Leaf} {n : Nat} (hleaf : leaves[n]? = some leaf)
    (h : leaf.terminal.Mimics k) : Resembles ((leaves.map Leaf.kind).take n ++ [k]) leaves := by
  obtain ⟨hn, hget⟩ := List.getElem?_eq_some_iff.1 hleaf
  have hrest : Resembles _ (leaves.take n ++ leaf :: leaves.drop (n + 1)) := append (.mimic h)
  rwa [← hget, ← List.drop_eq_getElem_cons hn, List.map_take, List.take_append_drop] at hrest

/-- Kinds that resemble leaves are theirs, or theirs up to one that is mimicked. -/
theorem prefix_or_mimics (h : Resembles kinds leaves) :
    kinds <+: leaves.map Leaf.kind ∨
      ∃ n leaf k, leaves[n]? = some leaf ∧ leaf.terminal.Mimics k ∧
        kinds = (leaves.map Leaf.kind).take n ++ [k] := by
  induction h with
  | nil => exact .inl List.nil_prefix
  | @mimic k leaf others hmimics => exact .inr ⟨0, leaf, k, rfl, hmimics, rfl⟩
  | @cons kinds first others _ ih =>
      obtain hstarts | ⟨n, leaf, k, hleaf, hmimics, rfl⟩ := ih
      · exact .inl ((List.prefix_cons_inj _).2 hstarts)
      · exact .inr ⟨n + 1, leaf, k, hleaf, hmimics, rfl⟩

/-- The indices and places of leaves do not count for what resembles them. -/
theorem congr {others : List Leaf} (h : Resembles kinds leaves)
    (heq : leaves.map (·.terminal) = others.map (·.terminal)) : Resembles kinds others := by
  induction h generalizing others with
  | nil => exact .nil others
  | mimic hmimics =>
      obtain ⟨other, others, rfl, hterminal, -⟩ := List.map_eq_cons_iff.1 heq.symm
      exact .mimic (hterminal ▸ hmimics)
  | @cons kinds leaf rest _ ih =>
      obtain ⟨other, others, rfl, hterminal, hothers⟩ := List.map_eq_cons_iff.1 heq.symm
      have hkind : other.kind = leaf.kind := congrArg Terminal.kind hterminal
      exact hkind ▸ .cons (ih hothers.symm)

end Resembles

/-- The places to which viable kinds lead among leaves from the index `i` on. -/
def places (L : Language Kind) (i : Nat) (leaves : List Leaf) : Set Nat :=
  {n | ∃ kinds, Viable L kinds ∧ Resembles kinds leaves ∧ n = i + kinds.length}

section

variable {L M : Language Kind} {i n : Nat} {leaves : List Leaf}

/-- The places depend on the terminals of the leaves only. -/
theorem places_congr {others : List Leaf}
    (h : leaves.map (·.terminal) = others.map (·.terminal)) :
    places L i leaves = places L i others := by
  ext n
  constructor
  · rintro ⟨kinds, hviable, hresembles, rfl⟩
    exact ⟨kinds, hviable, hresembles.congr h, rfl⟩
  · rintro ⟨kinds, hviable, hresembles, rfl⟩
    exact ⟨kinds, hviable, hresembles.congr h.symm, rfl⟩

/-- The first place is among the places. -/
theorem start_mem_places (h : ∃ text, text ∈ L) : i ∈ places L i leaves :=
  ⟨[], viable_nil h, .nil leaves, rfl⟩

/-- The empty text leads nowhere. -/
theorem places_one : places 1 i leaves = {i} := by
  ext n
  simp only [places, viable_one, Set.mem_ofPred_eq, Set.mem_singleton_iff]
  constructor
  · rintro ⟨kinds, rfl, -, rfl⟩
    rfl
  · rintro rfl
    exact ⟨[], rfl, .nil leaves, rfl⟩

/-- The places of two languages together are those of either. -/
theorem places_add : places (L + M) i leaves = places L i leaves ∪ places M i leaves := by
  ext n
  simp only [places, viable_add, Set.mem_union, Set.mem_ofPred_eq, or_and_right, exists_or]

/-- No place lies further than the longest text. -/
theorem le_of_mem_places {limit : Nat} (hlimit : ∀ text ∈ L, text.length ≤ limit)
    (h : n ∈ places L i leaves) : n ≤ i + limit := by
  obtain ⟨kinds, ⟨more, hmore⟩, -, rfl⟩ := h
  have hle := hlimit _ hmore
  rw [List.length_append] at hle
  omega

end

/-- The leaf at an index starts like a kind that is viable there. -/
def Mimicked (L : Language Kind) (leaves : List Leaf) (n : Nat) : Prop :=
  ∃ leaf k, leaves[n]? = some leaf ∧ leaf.terminal.Mimics k ∧
    Viable L ((leaves.map Leaf.kind).take n ++ [k])

section

variable {L : Language Kind} {leaves : List Leaf} {n r : Nat}
  (hn : IsLeast {n | ¬Viable L ((leaves.map Leaf.kind).take (n + 1))} n)

include hn

/-- The leaves before the first one that is not viable are viable. -/
theorem viable_before_offending (hL : ∃ text, text ∈ L) :
    Viable L ((leaves.map Leaf.kind).take n) := by
  cases n with
  | zero => exact viable_nil hL
  | succ m => exact not_not.1 fun h => Nat.not_succ_le_self m (hn.2 h)

/-- The first leaf that is not viable is one of the leaves. -/
theorem offending_lt (hL : ∃ text, text ∈ L) : n < leaves.length := by
  have hviable := viable_before_offending hn hL
  refine Nat.lt_of_not_le fun hle => hn.1 ?_
  rw [List.take_of_length_le (by simpa)] at hviable
  rwa [List.take_of_length_le (by simpa using Nat.le_succ_of_le hle)]

/-- Viable kinds of leaves end before the first leaf that is not viable. -/
theorem length_le_offending {kinds : List Kind} (hkinds : Viable L kinds)
    (hstarts : kinds <+: leaves.map Leaf.kind) : kinds.length ≤ n := by
  refine Nat.le_of_not_lt fun hlong => hn.1 (hkinds.of_prefix ?_)
  exact List.prefix_of_prefix_length_le (List.take_prefix ..) hstarts
    (Nat.le_trans (List.length_take_le ..) hlong)

/-- A place lies no further than the first leaf that is not viable, unless that leaf is taken for
one that is. -/
theorem le_offending_or_mimicked (hr : r ∈ places L 0 leaves) :
    r ≤ n ∨ Mimicked L leaves n ∧ r = n + 1 := by
  obtain ⟨kinds, hkinds, hresembles, rfl⟩ := hr
  rw [Nat.zero_add]
  obtain hstarts | ⟨m, leaf, k, hleaf, hmimics, rfl⟩ := hresembles.prefix_or_mimics
  · exact .inl (length_le_offending hn hkinds hstarts)
  · obtain ⟨hm, -⟩ := List.getElem?_eq_some_iff.1 hleaf
    have hlength : ((leaves.map Leaf.kind).take m).length = m := by simp [Nat.le_of_lt hm]
    have hle := length_le_offending hn (hkinds.of_prefix (List.prefix_append ..))
      (List.take_prefix ..)
    rw [hlength] at hle
    rw [List.length_append, hlength, List.length_singleton]
    rcases Nat.lt_or_eq_of_le hle with hlt | rfl
    · exact .inl hlt
    · exact .inr ⟨⟨leaf, k, hleaf, hmimics, hkinds⟩, rfl⟩

/-- The furthest place is that of the first leaf that is not viable, or the place after it if the
leaf starts like one that is. -/
theorem greatest_place_cases (hr : IsGreatest (places L 0 leaves) r) :
    Mimicked L leaves n ∧ r = n + 1 ∨ ¬Mimicked L leaves n ∧ r = n := by
  obtain ⟨kinds, ⟨more, hmore⟩, -⟩ := hr.1
  have hlt := offending_lt hn ⟨_, hmore⟩
  have hlength : ((leaves.map Leaf.kind).take n).length = n := by simp [Nat.le_of_lt hlt]
  have hle : n ≤ r :=
    hr.2 ⟨_, viable_before_offending hn ⟨_, hmore⟩, .take leaves n, by rw [hlength, Nat.zero_add]⟩
  have hupper := le_offending_or_mimicked hn hr.1
  by_cases hmimicked : Mimicked L leaves n
  · obtain ⟨leaf, k, hleaf, hmimics, hkinds⟩ := hmimicked
    have hnext : n + 1 ≤ r :=
      hr.2 ⟨_, hkinds, .take_mimic hleaf hmimics, by simp [Nat.le_of_lt hlt]⟩
    exact .inl (hupper.resolve_left (Nat.not_le_of_lt hnext))
  · exact .inr ⟨hmimicked, Nat.le_antisymm (hupper.resolve_right fun h => hmimicked h.1) hle⟩

end

/-- If the furthest place is among the leaves, one of them is the first that is not viable. -/
theorem exists_offending {L : Language Kind} {leaves : List Leaf} {r : Nat}
    (hr : IsGreatest (places L 0 leaves) r) (hlt : r < leaves.length) :
    ∃ n, IsLeast {n | ¬Viable L ((leaves.map Leaf.kind).take (n + 1))} n ∧
      (Mimicked L leaves n ∧ r = n + 1 ∨ ¬Mimicked L leaves n ∧ r = n) := by
  classical
  have hex : ∃ n, ¬Viable L ((leaves.map Leaf.kind).take (n + 1)) := by
    by_contra hall
    have hviable := not_exists_not.1 hall leaves.length
    have hle := hr.2 ⟨_, hviable, .take leaves _, rfl⟩
    simp only [List.length_take, List.length_map] at hle
    omega
  have hleast : IsLeast {n | ¬Viable L ((leaves.map Leaf.kind).take (n + 1))} (Nat.find hex) :=
    ⟨Nat.find_spec hex, fun _ => Nat.find_min' hex⟩
  exact ⟨_, hleast, greatest_place_cases hleast hr⟩

/-! ## Numbered leaves -/

/-- Leaves have ascending indices from a first one on, and the end of the input is the last of
them. -/
inductive Numbered : Nat → List Leaf → Prop
  | stop {leaf : Leaf} (hend : leaf.terminal = .endOfInput) : Numbered leaf.index [leaf]
  | leaf {leaf : Leaf} {others : List Leaf} (hne : leaf.terminal ≠ .endOfInput)
      (hothers : Numbered (leaf.index + 1) others) : Numbered leaf.index (leaf :: others)

namespace Numbered

variable {i : Nat} {leaves taken rest : List Leaf} {leaf : Leaf}

/-- There is a first leaf, and it has the first index. -/
theorem exists_cons (h : Numbered i leaves) :
    ∃ leaf others, leaves = leaf :: others ∧ leaf.index = i := by
  cases h with
  | stop => exact ⟨_, _, rfl, rfl⟩
  | leaf => exact ⟨_, _, rfl, rfl⟩

/-- The first leaf has the first index. -/
theorem index_eq (h : Numbered i (leaf :: rest)) : leaf.index = i := by
  obtain ⟨_, _, heq, hindex⟩ := h.exists_cons
  obtain ⟨rfl, -⟩ := List.cons.inj heq
  exact hindex

/-- Behind the first leaf, indices go on from the next one, unless the input ends there. -/
theorem tail (h : Numbered i (leaf :: rest)) (hne : leaf.terminal ≠ .endOfInput) :
    Numbered (i + 1) rest := by
  cases h with
  | stop hend => exact absurd hend hne
  | leaf _ hothers => exact hothers

end Numbered

end EoJava.Grammar
