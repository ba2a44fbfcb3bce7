import EoJava.Proofs.Grammar.Sheet
import EoJava.Proofs.Grammar.Soundness
import Mathlib.Data.List.Forall2

/-!
# Matchers that follow a descent

A matcher follows a descent if, wherever a sheet shows leaves, both succeed or both fail, their
values are related, the text left shows the leaves left, and the furthest failure of the matcher
stands at the leaf that the descent reached. Sequence, choice and repetition keep this, so a rule of
the grammar follows its descent as soon as its parts do.
-/

namespace EoJava.Grammar

open Text (Cursor)
open Matcher (skip rule)

/-- Two values read at a cursor and at leaves correspond. The text left shows the leaves left, and
no fewer characters than leaves were taken. -/
structure Corresponds {α β : Type} (sheet : Sheet) (R : α → β → Prop) (leaves : List Leaf)
    (cursor : Cursor) (found : α × Cursor) (read : β × List Leaf) : Prop where
  value : R found.1 read.1
  shows : sheet.Shows read.2 found.2
  taken : leaves.length + found.2.rest.length ≤ cursor.rest.length + read.2.length

/-- A matcher does at a cursor what a descent does at leaves. -/
structure FollowsAt {α β : Type} (sheet : Sheet) (m : Matcher α) (p : Descent β)
    (R : α → β → Prop) (leaves : List Leaf) (cursor : Cursor) : Prop where
  result : Option.Rel (Corresponds sheet R leaves cursor) (m cursor).result (p leaves).result
  reach : sheet.index (m cursor).frontier.offset = (p leaves).reach

/-- A matcher does what a descent does, wherever the sheet shows leaves. -/
def Follows {α β : Type} (sheet : Sheet) (m : Matcher α) (p : Descent β) (R : α → β → Prop) :
    Prop :=
  ∀ leaves cursor, sheet.Shows leaves cursor → FollowsAt sheet m p R leaves cursor

/-! ## Results and frontiers -/

namespace Frontier

/-- Of two frontiers in turn, the one that is further decides the offset. -/
@[simp]
theorem offset_followedBy (earlier later : Frontier) :
    (earlier.followedBy later).offset = max earlier.offset later.offset := by
  unfold followedBy
  split_ifs
  · exact (Nat.max_eq_left (by omega)).symm
  · exact (Nat.max_eq_right (by omega)).symm
  · exact (Nat.max_eq_left (a := earlier.offset) (by omega)).symm

/-- Settling a frontier does not move it. -/
@[simp]
theorem offset_settle (frontier : Frontier) (reached : Nat) :
    (frontier.settle reached).offset = frontier.offset := by
  unfold settle
  split <;> rfl

end Frontier

namespace Matcher

variable {α β : Type} (m n : Matcher α) (next : α → Matcher β) (cursor : Cursor)

/-- Settling does not change what is read. -/
@[simp]
theorem result_settled : (m.settled cursor).result = (m cursor).result := by
  unfold settled
  rcases m cursor with ⟨_ | ⟨value, after⟩, frontier⟩ <;> rfl

/-- Settling does not change how far a matcher gets. -/
@[simp]
theorem offset_settled : (m.settled cursor).frontier.offset = (m cursor).frontier.offset := by
  unfold settled
  rcases m cursor with ⟨_ | ⟨value, after⟩, frontier⟩ <;> simp

/-- What two matchers in turn read is what the second one reads behind the first. -/
@[simp]
theorem result_bind :
    ((m >>= next) cursor).result =
      (m cursor).result.bind fun found => (next found.1 found.2).result := by
  show (bind m next cursor).result = _
  unfold bind
  rcases m cursor with ⟨_ | ⟨value, after⟩, frontier⟩ <;> rfl

/-- Two matchers in turn get as far as the one that gets further. -/
@[simp]
theorem offset_bind :
    ((m >>= next) cursor).frontier.offset =
      max (m cursor).frontier.offset
        (((m cursor).result.map fun found => (next found.1 found.2).frontier.offset).getD 0) := by
  show (bind m next cursor).frontier.offset = _
  unfold bind
  rcases m cursor with ⟨_ | ⟨value, after⟩, frontier⟩ <;> simp

/-- An alternative reads what its first side reads, or else what its second side does. -/
@[simp]
theorem result_orElse :
    ((m <|> n) cursor).result = ((m cursor).result <|> (n cursor).result) := by
  show (orElse m n cursor).result = _
  unfold orElse
  rcases m cursor with ⟨_ | found, frontier⟩ <;> rfl

/-- An alternative gets as far as the sides that are tried. -/
@[simp]
theorem offset_orElse :
    ((m <|> n) cursor).frontier.offset =
      if (m cursor).result.isSome then (m cursor).frontier.offset
      else max (m cursor).frontier.offset (n cursor).frontier.offset := by
  show (orElse m n cursor).frontier.offset = _
  unfold orElse
  rcases m cursor with ⟨_ | found, frontier⟩ <;> simp

/-- An optional part always succeeds. -/
theorem result_optional :
    (m.optional cursor).result =
      some (match (m cursor).result with
        | none => (none, cursor)
        | some (value, after) => (some value, after)) := by
  refine (result_settled _ cursor).trans ?_
  rcases m cursor with ⟨_ | ⟨value, after⟩, frontier⟩ <;> rfl

/-- An option gets as far as the matcher that may be left out. -/
theorem offset_optional : (m.optional cursor).frontier.offset = (m cursor).frontier.offset := by
  refine (offset_settled _ cursor).trans ?_
  rcases m cursor with ⟨_ | ⟨value, after⟩, frontier⟩ <;> rfl

end Matcher

namespace Descent

variable {α β : Type} (p q : Descent α) (next : α → Descent β) (leaves : List Leaf)

/-- Two descents in turn reach as far as the one that reaches further. -/
@[simp]
theorem reach_bind :
    ((p >>= next) leaves).reach =
      max (p leaves).reach
        (((p leaves).result.map fun found => (next found.1 found.2).reach).getD 0) := by
  show (bind p next leaves).reach = _
  unfold bind
  rcases p leaves with ⟨_ | ⟨value, rest⟩, reach⟩ <;> simp

/-- An alternative reaches as far as the sides that are tried. -/
@[simp]
theorem reach_orElse :
    ((p <|> q) leaves).reach =
      if (p leaves).result.isSome then (p leaves).reach
      else max (p leaves).reach (q leaves).reach := by
  show (orElse p q leaves).reach = _
  unfold orElse
  rcases p leaves with ⟨_ | found, reach⟩ <;> simp

/-- An option reaches as far as the descent that may be left out. -/
theorem reach_optional : (optional p leaves).reach = (p leaves).reach := by
  unfold optional
  rcases p leaves with ⟨_ | ⟨value, rest⟩, reach⟩ <;> rfl

end Descent

/-- The first token at or after the further of two offsets. -/
theorem Sheet.index_max (sheet : Sheet) (a b : Nat) :
    sheet.index (max a b) = max (sheet.index a) (sheet.index b) := by
  rcases Nat.le_total a b with h | h
  · rw [Nat.max_eq_right h, Nat.max_eq_right (sheet.index_mono h)]
  · rw [Nat.max_eq_left h, Nat.max_eq_left (sheet.index_mono h)]

/-! ## Sequence and choice -/

section

variable {α β γ δ : Type} {sheet : Sheet} {leaves : List Leaf} {cursor : Cursor}
variable {m : Matcher α} {p : Descent β} {R : α → β → Prop}

/-- Matcher and descent either both fail, or both succeed with what corresponds. -/
theorem FollowsAt.result_cases (h : FollowsAt sheet m p R leaves cursor) :
    ((m cursor).result = none ∧ (p leaves).result = none) ∨
      ∃ found read, (m cursor).result = some found ∧ (p leaves).result = some read ∧
        Corresponds sheet R leaves cursor found read := by
  have hresult := h.result
  generalize (m cursor).result = x at hresult
  generalize (p leaves).result = y at hresult
  cases hresult with
  | none => exact .inl ⟨rfl, rfl⟩
  | some h => exact .inr ⟨_, _, rfl, rfl, h⟩

/-- What both do where the attempt and the outcome are known. -/
theorem FollowsAt.outcome (h : FollowsAt sheet m p R leaves cursor) {x : Option (α × Cursor)}
    {frontier : Frontier} {y : Option (β × List Leaf)} {reach : Nat}
    (hm : m cursor = ⟨x, frontier⟩) (hp : p leaves = ⟨y, reach⟩) :
    Option.Rel (Corresponds sheet R leaves cursor) x y ∧ sheet.index frontier.offset = reach := by
  have hresult := h.result
  have hreach := h.reach
  rw [hm, hp] at hresult hreach
  exact ⟨hresult, hreach⟩

/-- Related values may be related in a weaker way. -/
theorem FollowsAt.imp (h : FollowsAt sheet m p R leaves cursor) {S : α → β → Prop}
    (himp : ∀ a b, R a b → S a b) : FollowsAt sheet m p S leaves cursor := by
  refine ⟨?_, h.reach⟩
  obtain ⟨hm, hp⟩ | ⟨found, read, hm, hp, hfound⟩ := h.result_cases
  · rw [hm, hp]
    exact .none
  · rw [hm, hp]
    exact .some ⟨himp _ _ hfound.value, hfound.shows, hfound.taken⟩

/-- What follows with related values follows with values that are related more loosely. -/
theorem Follows.imp (h : Follows sheet m p R) {S : α → β → Prop} (himp : ∀ a b, R a b → S a b) :
    Follows sheet m p S :=
  fun leaves cursor hshows => (h leaves cursor hshows).imp himp

/-- A value that is given without reading follows a related one. -/
theorem follows_pure {a : α} {b : β} (h : R a b) : Follows sheet (pure a) (pure b) R :=
  fun _ _ hshows => ⟨.some ⟨h, hshows, Nat.le_of_eq (Nat.add_comm ..)⟩, sheet.index_zero⟩

/-- At one place, sequences follow if the first parts do there and the second parts do everywhere.
-/
theorem FollowsAt.bind (h : FollowsAt sheet m p R leaves cursor) {n : α → Matcher γ}
    {q : β → Descent δ} {S : γ → δ → Prop} (hnext : ∀ a b, R a b → Follows sheet (n a) (q b) S) :
    FollowsAt sheet (m >>= n) (p >>= q) S leaves cursor := by
  have hreach := h.reach
  obtain ⟨hm, hp⟩ | ⟨⟨a, after⟩, ⟨b, rest⟩, hm, hp, hfirst⟩ := h.result_cases
  · exact ⟨by simp [hm, hp], by simp [hm, hp, hreach]⟩
  · have hthen := hnext a b hfirst.value rest after hfirst.shows
    refine ⟨?_, by simp [hm, hp, hreach, hthen.reach, sheet.index_max]⟩
    obtain ⟨hn, hq⟩ | ⟨found, read, hn, hq, hsecond⟩ := hthen.result_cases
    · simp [hm, hp, hn, hq]
    · simp only [Matcher.result_bind, Descent.result_bind, hm, hp, Option.bind_some, hn, hq]
      have htaken : leaves.length + after.rest.length ≤ cursor.rest.length + rest.length :=
        hfirst.taken
      have htaken' := hsecond.taken
      exact .some ⟨hsecond.value, hsecond.shows, by omega⟩

/-- Sequences follow if their parts do. -/
theorem Follows.bind (h : Follows sheet m p R) {n : α → Matcher γ} {q : β → Descent δ}
    {S : γ → δ → Prop} (hnext : ∀ a b, R a b → Follows sheet (n a) (q b) S) :
    Follows sheet (m >>= n) (p >>= q) S :=
  fun leaves cursor hshows => (h leaves cursor hshows).bind hnext

/-- A value may be made from another one without reading on. -/
theorem Follows.map (h : Follows sheet m p R) {f : α → γ} {S : γ → β → Prop}
    (hvalue : ∀ a b, R a b → S (f a) b) : Follows sheet (do let a ← m; pure (f a)) p S := by
  intro leaves cursor hshows
  have hfirst := h leaves cursor hshows
  have hclear : ∀ (c : γ) (after : Cursor), ((pure c : Matcher γ) after).frontier.offset = 0 :=
    fun _ _ => rfl
  obtain ⟨hm, hp⟩ | ⟨found, read, hm, hp, hfound⟩ := hfirst.result_cases
  · exact ⟨by simp [hm, hp], by simp [hm, hfirst.reach]⟩
  · refine ⟨?_, by simp [hm, hfirst.reach, hclear]⟩
    rw [Matcher.result_bind, hm, hp]
    exact .some ⟨hvalue _ _ hfound.value, hfound.shows, hfound.taken⟩

/-- Alternatives follow if both sides do. -/
theorem Follows.orElse (hm : Follows sheet m p R) {n : Matcher α} {q : Descent β}
    (hn : Follows sheet n q R) : Follows sheet (m <|> n) (p <|> q) R := by
  intro leaves cursor hshows
  have hfirst := hm leaves cursor hshows
  have hsecond := hn leaves cursor hshows
  obtain ⟨hm, hp⟩ | ⟨found, read, hm, hp, hfound⟩ := hfirst.result_cases
  · refine ⟨?_, by simp [hm, hp, hfirst.reach, hsecond.reach, sheet.index_max]⟩
    rw [Matcher.result_orElse, Descent.result_orElse, hm, hp]
    exact hsecond.result
  · refine ⟨?_, by simp [hm, hp, hfirst.reach]⟩
    rw [Matcher.result_orElse, Descent.result_orElse, hm, hp]
    exact .some hfound

/-- A settled matcher follows what the matcher does. -/
theorem FollowsAt.settled (h : FollowsAt sheet m p R leaves cursor) :
    FollowsAt sheet m.settled p R leaves cursor :=
  ⟨by simpa using h.result, by simpa using h.reach⟩

/-- What is read after white space is read before it. -/
theorem FollowsAt.of_skip (h : FollowsAt sheet m p R leaves (skip cursor)) :
    FollowsAt sheet (fun cursor => m (skip cursor)) p R leaves cursor := by
  refine ⟨?_, h.reach⟩
  obtain ⟨hm, hp⟩ | ⟨found, read, hm, hp, hfound⟩ := h.result_cases
  · simp [hm, hp]
  · simp only [hm, hp]
    have hlength := length_skip_le cursor
    have htaken := hfound.taken
    exact .some ⟨hfound.value, hfound.shows, by omega⟩

/-- A rule follows a descent if what it says does where no white space stands. -/
theorem follows_rule_of_skipped (h : ∀ leaves cursor, sheet.Shows leaves cursor →
    skip cursor = cursor → FollowsAt sheet m p R leaves cursor) : Follows sheet (rule m) p R :=
  fun leaves cursor hshows =>
    (h leaves (skip cursor) hshows.skip (skip_skip cursor)).settled.of_skip

/-- A rule follows what its body does. -/
theorem Follows.rule (h : Follows sheet m p R) : Follows sheet (rule m) p R :=
  follows_rule_of_skipped fun leaves cursor hshows _ => h leaves cursor hshows

/-! ## Repetition -/

/-- Options follow if their parts do. -/
theorem Follows.optional (h : Follows sheet m p R) :
    Follows sheet (Matcher.optional m) (Descent.optional p) (Option.Rel R) := by
  intro leaves cursor hshows
  have hfirst := h leaves cursor hshows
  refine ⟨?_, by rw [Matcher.offset_optional, Descent.reach_optional, hfirst.reach]⟩
  rw [Matcher.result_optional, Descent.result_optional]
  obtain ⟨hm, hp⟩ | ⟨found, read, hm, hp, hfound⟩ := hfirst.result_cases
  · rw [hm, hp]
    exact .some ⟨.none, hshows, Nat.le_of_eq (Nat.add_comm ..)⟩
  · rw [hm, hp]
    exact .some ⟨.some hfound.value, hfound.shows, hfound.taken⟩

/-- A repetition follows a repetition, if no value is read without a leaf. The induction is on the
leaves, and both stop at the same one. -/
theorem Follows.repeated (h : Follows sheet m p R) {Good : β → Prop} {spell : β → List Terminal}
    (hreads : Reads p Good spell) (hspell : ∀ b, spell b ≠ [])
    (hshows : sheet.Shows leaves cursor) :
    Corresponds sheet (List.Forall₂ R) leaves cursor
        ((Matcher.repeated m cursor).1, (Matcher.repeated m cursor).2.1)
        ((Descent.repeated p leaves).1, (Descent.repeated p leaves).2.1) ∧
      sheet.index (Matcher.repeated m cursor).2.2.offset = (Descent.repeated p leaves).2.2 := by
  fun_induction Descent.repeated p leaves generalizing cursor with
  | case1 leaves reach hfail =>
      rcases hm : m cursor with ⟨found?, frontier⟩
      obtain ⟨⟨⟩, hreach⟩ := (h leaves cursor hshows).outcome hm hfail
      rw [Matcher.repeated, hm]
      exact ⟨⟨.nil, hshows, Nat.le_of_eq (Nat.add_comm ..)⟩, hreach⟩
  | case2 leaves value rest reach hfound hlt values last later hrest ih =>
      rcases hm : m cursor with ⟨found?, frontier⟩
      obtain ⟨hresult, hreach⟩ := (h leaves cursor hshows).outcome hm hfound
      cases hresult with
      | @some found _ hfirst =>
          obtain ⟨hothers, hlater⟩ := ih hfirst.shows
          -- The descent takes a leaf, so the matcher takes a character and goes on as well.
          have htaken : leaves.length + found.2.rest.length ≤ cursor.rest.length + rest.length :=
            hfirst.taken
          have hshorter : found.2.rest.length < cursor.rest.length := by omega
          rcases hlast : Matcher.repeated m found.2 with ⟨others, after, frontier'⟩
          rw [hrest, hlast] at hothers hlater
          have htaken' : rest.length + after.rest.length ≤ found.2.rest.length + last.length :=
            hothers.taken
          rw [Matcher.repeated, hm]
          simp only [hshorter, ↓reduceIte, hlast]
          refine ⟨⟨.cons hfirst.value hothers.value, hothers.shows, ?_⟩, ?_⟩
          · show leaves.length + after.rest.length ≤ cursor.rest.length + last.length
            omega
          · rw [Frontier.offset_followedBy, sheet.index_max, hreach, hlater]
  | case3 leaves value rest reach hfound hle =>
      exact absurd ((hreads leaves value rest (by rw [hfound])).2.length_lt (hspell value)) hle

/-- Repetitions follow if their parts do and take at least one leaf. -/
theorem Follows.many (h : Follows sheet m p R) {Good : β → Prop} {spell : β → List Terminal}
    (hreads : Reads p Good spell) (hspell : ∀ b, spell b ≠ []) :
    Follows sheet (Matcher.many m) (Descent.many p) (List.Forall₂ R) := by
  intro leaves cursor hshows
  obtain ⟨hcorresponds, hreach⟩ := h.repeated hreads hspell hshows
  exact FollowsAt.settled ⟨.some hcorresponds, hreach⟩

/-- Repetitions of one or more follow if their parts do and take at least one leaf. -/
theorem Follows.many1 (h : Follows sheet m p R) {Good : β → Prop} {spell : β → List Terminal}
    (hreads : Reads p Good spell) (hspell : ∀ b, spell b ≠ []) :
    Follows sheet (Matcher.many1 m) (Descent.many1 p) (List.Forall₂ R) := by
  intro leaves cursor hshows
  obtain ⟨hcorresponds, hreach⟩ := h.repeated hreads hspell hshows
  refine FollowsAt.settled ?_
  rcases hm : Matcher.repeated m cursor with ⟨found, after, frontier⟩
  rcases hp : Descent.repeated p leaves with ⟨read, rest, reach⟩
  rw [hm, hp] at hcorresponds hreach
  cases hcorresponds.value with
  | nil => exact ⟨by simp [Descent.many1, hm, hp], by simp [Descent.many1, hm, hp, hreach]⟩
  | cons hfirst hothers =>
      exact ⟨by simpa [Descent.many1, hm, hp] using hcorresponds,
        by simp [Descent.many1, hm, hp, hreach]⟩

/-! ## Lists -/

/-- One or more items between commas follow if the items and the comma do. -/
theorem Follows.separated1 (h : Follows sheet m p R) {Good : β → Prop} {spell : β → List Terminal}
    (hreads : Reads p Good spell)
    (hcomma : Follows sheet (Matcher.spelling ",") (Descent.exactly (.mark .comma))
      fun _ _ => True) :
    Follows sheet (Matcher.separated1 m ",") (Descent.separated1 p) (List.Forall₂ R) := by
  have hitem : Follows sheet (Matcher.settled do Matcher.spelling ","; m) (Descent.commaItem p) R :=
    fun leaves cursor hshows => ((hcomma leaves cursor hshows).bind fun _ _ _ => h).settled
  refine Follows.rule (h.bind fun a b hab => ?_)
  refine (hitem.many (Descent.commaItem_reads hreads) (by simp)).bind fun found read hothers => ?_
  exact follows_pure (.cons hab hothers)

/-- Items between commas, or none, follow if the items and the comma do. -/
theorem Follows.separated (h : Follows sheet m p R) {Good : β → Prop} {spell : β → List Terminal}
    (hreads : Reads p Good spell)
    (hcomma : Follows sheet (Matcher.spelling ",") (Descent.exactly (.mark .comma))
      fun _ _ => True) :
    Follows sheet (Matcher.separated m ",") (Descent.separated p) (List.Forall₂ R) :=
  Follows.rule ((h.separated1 hreads hcomma).orElse (Follows.rule (follows_pure .nil)))

end

end EoJava.Grammar
