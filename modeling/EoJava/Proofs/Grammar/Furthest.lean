import EoJava.Proofs.Grammar.Follows
import EoJava.Proofs.Grammar.Viable

/-!
# How far a descent gets

A descent gets as far as the texts of a language do if what it takes is a text of the language and
its place, the furthest leaf that it refused or that is left, is the greatest one to which viable
kinds lead: `FurthestAt` at some leaves, and `Furthest` at all of them. Sequence, choice and
repetition keep this. A sequence has to come to the end of its first part whenever the second one
could start there, and for a choice the second part must not lead further than the first when the
first succeeds.
-/

namespace EoJava.Grammar

open scoped Computability

/-- The place that a descent came to: the furthest leaf that it refused, or if it succeeded the
first leaf left, whichever stands further on. -/
def Outcome.place {α : Type} (outcome : Outcome α) : Nat :=
  max outcome.reach
    ((outcome.result.map fun found => (found.2.head?.map Leaf.index).getD 0).getD 0)

section

variable {α : Type} {outcome : Outcome α}

theorem Outcome.place_of_none (h : outcome.result = none) : outcome.place = outcome.reach := by
  simp [place, h]

theorem Outcome.place_of_some {v : α} {rest : List Leaf} {i : Nat}
    (h : outcome.result = some (v, rest)) (hrest : Numbered i rest) :
    outcome.place = max outcome.reach i := by
  obtain ⟨next, others, rfl, rfl⟩ := hrest.exists_cons
  simp [place, h]

end

/-- What a descent takes at leaves is a text of a language, and the descent comes to the furthest
place to which the language leads. -/
structure FurthestAt {α : Type} (p : Descent α) (L : Language Kind) (i : Nat)
    (leaves : List Leaf) : Prop where
  takes : ∀ v rest, (p leaves).result = some (v, rest) →
    ∃ taken, leaves = taken ++ rest ∧ taken.map Leaf.kind ∈ L ∧ Numbered (i + taken.length) rest
  greatest : IsGreatest (places L i leaves) (p leaves).place

/-- A descent does so at all leaves up to a number of them. -/
structure Furthest {α : Type} (limit : Nat) (p : Descent α) (L : Language Kind) : Prop where
  nonempty : ∃ text, text ∈ L
  at_leaves : ∀ {i leaves}, Numbered i leaves → leaves.length ≤ limit → FurthestAt p L i leaves

/-- A descent takes every text of a language after which a leaf of the given sort stands. -/
def Completes {α : Type} (limit : Nat) (p : Descent α) (L : Language Kind)
    (next : Terminal → Prop) : Prop :=
  ∀ taken rest, (taken ++ rest).length ≤ limit → taken.map Leaf.kind ∈ L → Begins next rest →
    ∃ v, (p (taken ++ rest)).result = some (v, rest)

/-- A descent that gets as far as a language and completes a text of it whatever follows. -/
structure Fixed {α : Type} (limit : Nat) (p : Descent α) (L : Language Kind) : Prop
    extends Furthest limit p L where
  completes : Completes limit p L fun _ => True

/-- Every leaf that a text of the language can start at, if only for its first characters, is of
the given sort. -/
def Opens (L : Language Kind) (next : Terminal → Prop) : Prop :=
  ∀ k kinds, k :: kinds ∈ L → ∀ t : Terminal, t.kind = k ∨ t.Mimics k → next t

variable {α β : Type} {L M : Language Kind} {i limit : Nat} {leaves : List Leaf}

/-- Only what the descent does at the leaves matters. -/
theorem FurthestAt.congr {p q : Descent α} (hp : FurthestAt p L i leaves)
    (h : q leaves = p leaves) : FurthestAt q L i leaves :=
  ⟨h ▸ hp.takes, h ▸ hp.greatest⟩

/-- A descent whose texts are not empty leaves fewer leaves. -/
theorem FurthestAt.length_lt {p : Descent α} (hp : FurthestAt p L i leaves) (hnil : [] ∉ L) {v : α}
    {rest : List Leaf} (h : (p leaves).result = some (v, rest)) : rest.length < leaves.length := by
  obtain ⟨taken, rfl, htaken, -⟩ := hp.takes v rest h
  cases taken with
  | nil => exact absurd htaken hnil
  | cons first taken =>
      simp only [List.cons_append, List.length_cons, List.length_append]
      omega

/-! ## Sequence -/

/-- The places of a concatenation, if a text of the first part is taken that no other one shares
its end with. -/
theorem places_mul {taken rest : List Leaf} (hM : ∃ text, text ∈ M)
    (htaken : taken.map Leaf.kind ∈ L)
    (hends : ∀ before after k kinds, taken ++ rest = before ++ after →
      before.map Leaf.kind ∈ L → Viable M (k :: kinds) → Resembles (k :: kinds) after →
        after = rest) :
    places (L * M) i (taken ++ rest) =
      places L i (taken ++ rest) ∪ places M (i + taken.length) rest := by
  ext n
  constructor
  · rintro ⟨kinds, hviable, hresembles, rfl⟩
    obtain hfirst | ⟨text, k, more, htext, hmore, rfl⟩ := viable_mul_cases hviable
    · exact .inl ⟨kinds, hfirst, hresembles, rfl⟩
    · obtain ⟨before, after, heq, rfl, hafter⟩ := hresembles.split
      obtain rfl := hends before after k more heq htext hmore hafter
      obtain rfl := List.append_cancel_right heq
      exact .inr ⟨k :: more, hmore, hafter, by simp [Nat.add_assoc]⟩
  · rintro (⟨kinds, hviable, hresembles, rfl⟩ | ⟨kinds, hviable, hresembles, rfl⟩)
    · exact ⟨kinds, hviable.mul_right hM, hresembles, rfl⟩
    · exact ⟨_, hviable.mul_left htaken, hresembles.append, by simp [Nat.add_assoc]⟩

/-- A sequence comes to the place of its second part, or to the furthest leaf refused before. -/
theorem place_bind {p : Descent α} {q : α → Descent β} {v : α} {rest : List Leaf}
    (hresult : (p leaves).result = some (v, rest)) (hrest : Numbered i rest)
    (hle : i ≤ (q v rest).place) :
    ((p >>= q) leaves).place = max (p leaves).place (q v rest).place := by
  rw [Outcome.place_of_some hresult hrest]
  simp only [Outcome.place, Descent.reach_bind, Descent.result_bind, hresult, Option.map_some,
    Option.bind_some, Option.getD_some] at hle ⊢
  omega

theorem FurthestAt.bind {p : Descent α} {q : α → Descent β} (hp : FurthestAt p L i leaves)
    (hM : ∃ text, text ∈ M)
    (hq : ∀ v rest j, (p leaves).result = some (v, rest) → Numbered j rest →
      FurthestAt (q v) M j rest)
    (hends : ∀ before after k kinds, leaves = before ++ after → before.map Leaf.kind ∈ L →
      Viable M (k :: kinds) → Resembles (k :: kinds) after →
        ∃ v, (p leaves).result = some (v, after)) :
    FurthestAt (p >>= q) (L * M) i leaves := by
  cases hresult : (p leaves).result with
  | none =>
      have hplace : ((p >>= q) leaves).place = (p leaves).place := by
        simp [Outcome.place, hresult]
      refine ⟨fun v rest h => by simp [hresult] at h, ?_, ?_⟩
      · obtain ⟨kinds, hviable, hresembles, heq⟩ := hp.greatest.1
        exact ⟨kinds, hviable.mul_right hM, hresembles, hplace.trans heq⟩
      · rintro n ⟨kinds, hviable, hresembles, rfl⟩
        rw [hplace]
        obtain hfirst | ⟨text, k, more, htext, hmore, rfl⟩ := viable_mul_cases hviable
        · exact hp.greatest.2 ⟨kinds, hfirst, hresembles, rfl⟩
        · -- The second part could start after a text of the first, which would have been taken.
          obtain ⟨before, after, heq, rfl, hafter⟩ := hresembles.split
          obtain ⟨v, hv⟩ := hends before after k more heq htext hmore hafter
          rw [hresult] at hv
          cases hv
  | some found =>
      obtain ⟨v, rest⟩ := found
      obtain ⟨taken, rfl, htaken, hrest⟩ := hp.takes v rest hresult
      have hthen := hq v rest _ hresult hrest
      constructor
      · intro w last h
        rw [Descent.result_bind, hresult] at h
        obtain ⟨more, rfl, hmore, hlast⟩ := hthen.takes w last h
        refine ⟨taken ++ more, by rw [List.append_assoc], ?_, ?_⟩
        · rw [List.map_append]
          exact Language.append_mem_mul htaken hmore
        · rwa [List.length_append, ← Nat.add_assoc]
      · rw [place_bind hresult hrest (hthen.greatest.2 (start_mem_places hM)), places_mul hM htaken]
        · exact hp.greatest.union hthen.greatest
        · intro before after k kinds heq hbefore hviable hresembles
          obtain ⟨u, hu⟩ := hends before after k kinds heq hbefore hviable hresembles
          rw [hresult] at hu
          cases hu
          rfl

/-- Leaves at which a text of the language can start begin with one of the given sort. -/
theorem Opens.begins {next : Terminal → Prop} (h : Opens L next) {k : Kind} {kinds : List Kind}
    (hviable : Viable L (k :: kinds)) (hresembles : Resembles (k :: kinds) leaves) :
    Begins next leaves := by
  obtain ⟨more, hmore⟩ := hviable
  generalize hall : k :: kinds = all at hresembles
  cases hresembles with
  | nil => cases hall
  | mimic hmimics =>
      cases hall
      exact begins_cons.2 (h _ _ hmore _ (.inr hmimics))
  | cons =>
      cases hall
      exact begins_cons.2 (h _ _ hmore _ (.inl rfl))

/-- A text of the first part is completed wherever the second part could start. -/
theorem Completes.ends {p : Descent α} {next : Terminal → Prop} (h : Completes limit p L next)
    (hopens : Opens M next) (hlimit : leaves.length ≤ limit) :
    ∀ before after k kinds, leaves = before ++ after → before.map Leaf.kind ∈ L →
      Viable M (k :: kinds) → Resembles (k :: kinds) after →
        ∃ v, (p leaves).result = some (v, after) := by
  rintro before after k kinds rfl hbefore hviable hresembles
  exact h before after hlimit hbefore (hopens.begins hviable hresembles)

/-- Descents in turn get as far as their texts in turn, if the first one ends where the second one
starts. -/
theorem Furthest.bind [Nonempty α] {p : Descent α} {q : α → Descent β} {next : Terminal → Prop}
    (hp : Furthest limit p L) (hcompletes : Completes limit p L next)
    (hq : ∀ v, Furthest limit (q v) M) (hopens : Opens M next) :
    Furthest limit (p >>= q) (L * M) := by
  have hM := (hq (Classical.arbitrary α)).nonempty
  refine ⟨nonempty_mul hp.nonempty hM, fun hnumbered hlimit => ?_⟩
  have hfirst := hp.at_leaves hnumbered hlimit
  refine hfirst.bind hM (fun v rest j hresult hrest => (hq v).at_leaves hrest ?_)
    (hcompletes.ends hopens hlimit)
  obtain ⟨taken, rfl, -⟩ := hfirst.takes v rest hresult
  rw [List.length_append] at hlimit
  omega

/-- A first part that ends whatever follows. -/
theorem Fixed.bind [Nonempty α] {p : Descent α} {q : α → Descent β} (hp : Fixed limit p L)
    (hq : ∀ v, Furthest limit (q v) M) : Furthest limit (p >>= q) (L * M) :=
  hp.toFurthest.bind hp.completes hq fun _ _ _ _ _ => trivial

/-- After a first part that takes a leaf, the second part has fewer leaves to go. -/
theorem Fixed.bind_succ [Nonempty α] {p : Descent α} {q : α → Descent β}
    (hp : Fixed (limit + 1) p L) (hnil : [] ∉ L) (hq : ∀ v, Furthest limit (q v) M) :
    Furthest (limit + 1) (p >>= q) (L * M) := by
  have hM := (hq (Classical.arbitrary α)).nonempty
  refine ⟨nonempty_mul hp.nonempty hM, fun hnumbered hlimit => ?_⟩
  have hfirst := hp.at_leaves hnumbered hlimit
  refine hfirst.bind hM (fun v rest j hresult hrest => (hq v).at_leaves hrest ?_)
    (hp.completes.ends (fun _ _ _ _ _ => trivial) hlimit)
  have hlt := hfirst.length_lt hnil hresult
  omega

/-- Descents in turn take their texts in turn, if the first one takes its own whatever follows. -/
theorem Completes.bind {p : Descent α} {q : α → Descent β} {next : Terminal → Prop}
    (hp : Completes limit p L fun _ => True) (hq : ∀ v, Completes limit (q v) M next) :
    Completes limit (p >>= q) (L * M) next := by
  intro taken rest hlimit htaken hrest
  obtain ⟨left, hleft, right, hright, heq⟩ := Language.mem_mul.1 htaken
  obtain ⟨before, after, rfl, rfl, rfl⟩ := List.map_eq_append_iff.1 heq.symm
  rw [List.append_assoc] at hlimit ⊢
  obtain ⟨v, hv⟩ := hp before (after ++ rest) hlimit hleft fun _ _ => trivial
  rw [List.length_append] at hlimit
  obtain ⟨w, hw⟩ := hq v after rest (by omega) hright hrest
  exact ⟨w, by simp [hv, hw]⟩

theorem Fixed.bind_fixed [Nonempty α] {p : Descent α} {q : α → Descent β} (hp : Fixed limit p L)
    (hq : ∀ v, Fixed limit (q v) M) : Fixed limit (p >>= q) (L * M) :=
  ⟨hp.bind fun v => (hq v).toFurthest, hp.completes.bind fun v => (hq v).completes⟩

/-- A descent that takes nothing gets as far as the empty text. -/
theorem pure_furthestAt (v : α) (h : Numbered i leaves) :
    FurthestAt (pure v : Descent α) 1 i leaves := by
  constructor
  · intro w rest hresult
    cases hresult
    exact ⟨[], rfl, Language.nil_mem_one, h⟩
  · have hplace : ((pure v : Descent α) leaves).place = i :=
      (Outcome.place_of_some (Descent.result_pure v leaves) h).trans (Nat.zero_max i)
    rw [places_one, hplace]
    exact isGreatest_singleton

theorem pure_furthest (v : α) : Furthest limit (pure v : Descent α) 1 :=
  ⟨⟨[], Language.nil_mem_one⟩, fun h _ => pure_furthestAt v h⟩

/-- A value may be made from another one without reading on. -/
theorem FurthestAt.map {p : Descent α} (hp : FurthestAt p L i leaves) (f : α → β) :
    FurthestAt (do let v ← p; pure (f v)) L i leaves := by
  rw [← mul_one L]
  refine hp.bind ⟨[], Language.nil_mem_one⟩ (fun v rest j _ hrest => pure_furthestAt (f v) hrest) ?_
  intro before after k kinds _ _ hviable
  cases viable_one.1 hviable

/-- What is made of a value does not change how far a descent gets. -/
theorem Furthest.map {p : Descent α} (hp : Furthest limit p L) (f : α → β) :
    Furthest limit (do let v ← p; pure (f v)) L :=
  ⟨hp.nonempty, fun h hlimit => (hp.at_leaves h hlimit).map f⟩

theorem Fixed.map {p : Descent α} (hp : Fixed limit p L) (f : α → β) :
    Fixed limit (do let v ← p; pure (f v)) L := by
  refine ⟨hp.toFurthest.map f, fun taken rest hlimit htaken hrest => ?_⟩
  obtain ⟨v, hv⟩ := hp.completes taken rest hlimit htaken hrest
  exact ⟨f v, by simp [hv]⟩

/-! ## Choice -/

theorem FurthestAt.orElse {p q : Descent α} (hp : FurthestAt p L i leaves)
    (hq : FurthestAt q M i leaves)
    (hle : (p leaves).result.isSome → ∀ n ∈ places M i leaves, n ≤ (p leaves).place) :
    FurthestAt (p <|> q) (L + M) i leaves := by
  cases hresult : (p leaves).result with
  | none =>
      have hplace : ((p <|> q) leaves).place = max (p leaves).place (q leaves).place := by
        simp [Outcome.place, hresult, Nat.max_assoc]
      constructor
      · intro v rest h
        rw [Descent.result_orElse, hresult] at h
        obtain ⟨taken, htaken, hmem, hrest⟩ := hq.takes v rest h
        exact ⟨taken, htaken, .inr hmem, hrest⟩
      · rw [hplace, places_add]
        exact hp.greatest.union hq.greatest
  | some found =>
      have hplace : ((p <|> q) leaves).place = (p leaves).place := by
        simp [Outcome.place, hresult]
      constructor
      · intro v rest h
        rw [Descent.result_orElse, hresult] at h
        obtain ⟨taken, htaken, hmem, hrest⟩ := hp.takes v rest (hresult.trans h)
        exact ⟨taken, htaken, .inl hmem, hrest⟩
      · rw [hplace, places_add]
        refine ⟨.inl hp.greatest.1, ?_⟩
        rintro n (hn | hn)
        · exact hp.greatest.2 hn
        · exact hle (by rw [hresult]; rfl) n hn

/-- A part of a descent that may be left out. -/
theorem FurthestAt.orElse_pure {p : Descent α} (hp : FurthestAt p L i leaves) (v : α)
    (h : Numbered i leaves) : FurthestAt (p <|> pure v) (L + 1) i leaves := by
  refine hp.orElse (pure_furthestAt v h) fun _ n hn => ?_
  rw [places_one] at hn
  cases hn
  obtain ⟨kinds, -, -, heq⟩ := hp.greatest.1
  exact heq ▸ Nat.le_add_right i _

theorem Furthest.orElse_pure {p : Descent α} (hp : Furthest limit p L) (v : α) :
    Furthest limit (p <|> pure v) (L + 1) :=
  ⟨⟨[], .inr Language.nil_mem_one⟩, fun h hlimit => (hp.at_leaves h hlimit).orElse_pure v h⟩

/-- No text of the second part is longer than one of the first. -/
theorem Furthest.orElse {p q : Descent α} (length : Nat) (hp : Furthest limit p L)
    (hq : Furthest limit q M) (hfirst : ∀ text ∈ L, length ≤ text.length)
    (hsecond : ∀ text ∈ M, text.length ≤ length) : Furthest limit (p <|> q) (L + M) := by
  obtain ⟨text, htext⟩ := hp.nonempty
  refine ⟨⟨text, .inl htext⟩, fun hnumbered hlimit => ?_⟩
  have hat := hp.at_leaves hnumbered hlimit
  refine hat.orElse (hq.at_leaves hnumbered hlimit) fun hsome n hn => ?_
  obtain ⟨⟨v, rest⟩, hresult⟩ := Option.isSome_iff_exists.1 hsome
  obtain ⟨taken, rfl, hmem, hrest⟩ := hat.takes v rest hresult
  have hle := le_of_mem_places hsecond hn
  have hlength := hfirst _ hmem
  rw [List.length_map] at hlength
  rw [Outcome.place_of_some hresult hrest]
  omega

/-! ## Repetition -/

/-- An optional part is a choice of the part and nothing. -/
theorem optional_eq (p : Descent α) :
    Descent.optional p = ((do let v ← p; pure (some v)) <|> pure none) := by
  funext leaves
  show _ = Descent.orElse (Descent.bind p _) _ leaves
  unfold Descent.optional Descent.orElse Descent.bind
  rcases p leaves with ⟨_ | ⟨v, rest⟩, reach⟩ <;> simp [pure]

/-- An option gets as far as its texts and the empty one. -/
theorem Furthest.optional {p : Descent α} (hp : Furthest limit p L) :
    Furthest limit (Descent.optional p) (L + 1) := by
  rw [optional_eq]
  exact (hp.map some).orElse_pure none

/-- What a text of a repetition starts with, a text of the repeated part starts with. -/
theorem Opens.kstar {next : Terminal → Prop} (h : Opens L next) : Opens L∗ next := by
  intro k kinds hmem
  obtain ⟨parts, heq, hparts⟩ := Language.mem_kstar_iff_exists_nonempty.1 hmem
  cases parts with
  | nil => cases heq
  | cons part parts =>
      obtain ⟨hpart, hne⟩ := hparts part (by simp)
      obtain ⟨first, others, rfl⟩ := List.exists_cons_of_ne_nil hne
      obtain ⟨rfl, -⟩ := List.cons.inj heq
      exact h k others hpart

section

variable {p : Descent α}
  (hlt : ∀ v rest, (p leaves).result = some (v, rest) → rest.length < leaves.length)

include hlt

/-- A repetition is a value and a repetition, or nothing. -/
theorem many_apply :
    Descent.many p leaves =
      ((do let v ← p; let vs ← Descent.many p; pure (v :: vs)) <|> pure []) leaves := by
  show _ = Descent.orElse (Descent.bind p fun v => Descent.bind (Descent.many p) _) _ leaves
  unfold Descent.orElse Descent.bind Descent.many
  rw [Descent.repeated]
  rcases h : p leaves with ⟨_ | ⟨v, rest⟩, reach⟩
  · simp [pure]
  · simp [pure, hlt v rest (by rw [h])]

theorem many1_apply :
    Descent.many1 p leaves =
      (do let v ← p; let vs ← Descent.many p; pure (v :: vs) : Descent (List α)) leaves := by
  show _ = Descent.bind p (fun v => Descent.bind (Descent.many p) _) leaves
  unfold Descent.many1 Descent.bind Descent.many
  rw [Descent.repeated]
  rcases h : p leaves with ⟨_ | ⟨v, rest⟩, reach⟩
  · simp
  · simp [pure, hlt v rest (by rw [h])]

end

/-- The values after the first one of a repetition are a repetition as well. The induction is on
the number of leaves. -/
theorem Furthest.many {p : Descent α} {next : Terminal → Prop} (hp : Furthest limit p L)
    (hcompletes : Completes limit p L next) (hopens : Opens L next) (hnil : [] ∉ L) :
    Furthest limit (Descent.many p) L∗ := by
  refine ⟨⟨[], Language.nil_mem_kstar L⟩, fun {i leaves} hnumbered hlimit => ?_⟩
  induction hn : leaves.length using Nat.strongRecOn generalizing i leaves with
  | _ n ih =>
  have hat := hp.at_leaves hnumbered hlimit
  have hmore : FurthestAt (do let v ← p; let vs ← Descent.many p; pure (v :: vs)) (L * L∗) i
      leaves := by
    refine hat.bind ⟨[], Language.nil_mem_kstar L⟩ (fun v rest j hresult hrest => ?_)
      (hcompletes.ends hopens.kstar hlimit)
    have hlt := hat.length_lt hnil hresult
    exact (ih rest.length (by omega) hrest (by omega) rfl).map _
  have hchoice := hmore.orElse_pure [] hnumbered
  rw [add_comm, Language.one_add_self_mul_kstar_eq_kstar] at hchoice
  exact hchoice.congr (many_apply fun _ _ => hat.length_lt hnil)

/-- A repetition of one or more gets as far as its texts in turn. -/
theorem Furthest.many1 {p : Descent α} {next : Terminal → Prop} (hp : Furthest limit p L)
    (hcompletes : Completes limit p L next) (hopens : Opens L next) (hnil : [] ∉ L) :
    Furthest limit (Descent.many1 p) (L * L∗) := by
  have hmany := hp.many hcompletes hopens hnil
  refine ⟨nonempty_mul hp.nonempty hmany.nonempty, fun hnumbered hlimit => ?_⟩
  have hat := hp.at_leaves hnumbered hlimit
  have hmore := hat.bind (q := fun v => do let vs ← Descent.many p; pure (v :: vs)) hmany.nonempty
    (fun v rest j hresult hrest => ?_) (hcompletes.ends hopens.kstar hlimit)
  · exact hmore.congr (many1_apply fun _ _ => hat.length_lt hnil)
  · have hlt := hat.length_lt hnil hresult
    exact (hmany.at_leaves hrest (by omega)).map _

end EoJava.Grammar
