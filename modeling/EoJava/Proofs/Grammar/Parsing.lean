import EoJava.Proofs.Grammar.Columns
import EoJava.Proofs.Grammar.Completeness
import EoJava.Proofs.Grammar.Simulation
import Mathlib.Data.List.Infix

/-!
# Reading tokens

What the grammar does with tokens that carry the terminals of a source. It reads them as fresh
declarations that spell exactly these terminals, or it refuses them at one of the tokens, and then
no fresh declarations spell them (`parse_cases`). It always finds declarations that the terminals
spell (`parse_of_spelled`). Nothing breaks down on the way.
-/

namespace EoJava

/-- The number of parentheses open after a token of a given kind. -/
def Kind.depthAfter (depth : Nat) : Kind → Nat
  | .mark m => m.depthAfter depth
  | _ => depth

namespace Grammar

open Text (Cursor)

/-! ## Depth -/

/-- No more than the allowed number of parentheses are open at any point among tokens of given
kinds. -/
def Shallow (kinds : List Kind) : Prop :=
  ∀ before, before <+: kinds → before.foldl Kind.depthAfter 0 ≤ maxDepth

instance (kinds : List Kind) : Decidable (Shallow kinds) :=
  decidable_of_iff (∀ before ∈ kinds.inits, before.foldl Kind.depthAfter 0 ≤ maxDepth)
    (by simp only [List.mem_inits, Shallow])

/-- The tokens after a point are not too deep if no point among them is. -/
theorem excessiveDepth?_eq_none_iff {index depth : Nat} {tokens : List Token}
    (hdepth : depth ≤ maxDepth) :
    excessiveDepth? index depth tokens = none ↔
      ∀ before, before <+: tokens.map (·.kind) → before.foldl Kind.depthAfter depth ≤ maxDepth := by
  induction tokens generalizing index depth with
  | nil => simpa [excessiveDepth?] using hdepth
  | cons token tokens ih =>
      -- A token that is no mark leaves the depth as it is, so all tokens take the same step.
      have hstep : excessiveDepth? index depth (token :: tokens) =
          if maxDepth < Kind.depthAfter depth token.kind then some index
          else excessiveDepth? (index + 1) (Kind.depthAfter depth token.kind) tokens := by
        rw [excessiveDepth?]
        split
        · next m hkind => simp [Kind.depthAfter, hkind]
        · next hkind =>
            have hsame : Kind.depthAfter depth token.kind = depth := by
              unfold Kind.depthAfter
              split
              · next m hm => exact absurd hm (hkind m)
              · rfl
            rw [hsame, if_neg (by omega)]
      rw [hstep]
      simp only [List.map_cons, List.prefix_cons_iff]
      constructor
      · intro h before hbefore
        split at h
        · cases h
        · next hle =>
            rcases hbefore with rfl | ⟨rest, rfl, hrest⟩
            · exact hdepth
            · exact (ih (Nat.le_of_not_lt hle)).1 h rest hrest
      · intro h
        have hle : Kind.depthAfter depth token.kind ≤ maxDepth :=
          h [token.kind] (.inr ⟨[], rfl, List.nil_prefix⟩)
        rw [if_neg (by omega), ih hle]
        exact fun rest hrest => h (token.kind :: rest) (.inr ⟨rest, rfl, hrest⟩)

theorem excessiveDepth?_iff_shallow (tokens : List Token) :
    excessiveDepth? 0 0 tokens = none ↔ Shallow (tokens.map (·.kind)) :=
  excessiveDepth?_eq_none_iff (Nat.zero_le _)

/-- The texts and places of tokens do not count for how deep they are. -/
theorem excessiveDepth?_congr {index depth : Nat} {tokens others : List Token}
    (h : tokens.map (·.kind) = others.map (·.kind)) :
    excessiveDepth? index depth tokens = excessiveDepth? index depth others := by
  induction tokens generalizing index depth others with
  | nil =>
      obtain rfl := List.map_eq_nil_iff.1 h.symm
      rfl
  | cons token tokens ih =>
      obtain ⟨other, others, rfl, hkind, hothers⟩ := List.map_eq_cons_iff.1 h.symm
      simp only [excessiveDepth?, hkind, ih hothers.symm]

/-- The token at which too many parentheses are open is one of the tokens. -/
theorem lt_of_excessiveDepth? {index depth id : Nat} {tokens : List Token}
    (h : excessiveDepth? index depth tokens = some id) :
    index ≤ id ∧ id < index + tokens.length := by
  fun_induction excessiveDepth? index depth tokens with
  | case1 => cases h
  | case2 =>
      cases h
      simp
  | case3 index depth token tokens m hkind depth' hdeep ih =>
      have hbounds := ih h
      simp only [List.length_cons]
      omega
  | case4 index depth token tokens hkind ih =>
      have hbounds := ih h
      simp only [List.length_cons]
      omega

/-! ## Tokens of a source -/

/-- What is the same of every pair is the same of two lists. -/
theorem map_eq_of_forall₂ {α β γ : Type} {R : α → β → Prop} {f : α → γ} {g : β → γ} {as : List α}
    {bs : List β} (hall : List.Forall₂ R as bs) (h : ∀ a b, R a b → f a = g b) :
    as.map f = bs.map g := by
  have hmap : List.Forall₂ Eq (as.map f) (bs.map g) :=
    List.forall₂_map_left_iff.2 (List.forall₂_map_right_iff.2 (hall.imp h))
  rwa [List.forall₂_eq_eq_eq] at hmap

/-- Tokens carry the terminals of a source, all of them legible, up to its end. -/
structure Carried (table : StringTable) (tokens : Array Token) (us : List Terminal) : Prop where
  carries : List.Forall₂ (Token.Carries table) tokens.toList (us ++ [.endOfInput])
  legible : ∀ t ∈ us, t.Legible ∧ t ≠ .endOfInput

namespace Carried

variable {table : StringTable} {tokens : Array Token} {us : List Terminal}

theorem map_kind (h : Carried table tokens us) :
    tokens.toList.map (·.kind) = (us ++ [Terminal.endOfInput]).map Terminal.kind :=
  map_eq_of_forall₂ h.carries fun _ _ hcarries => hcarries.kind

end Carried

/-- The terminals of the leaves of tokens. -/
theorem map_terminal_leavesFrom {tokens : List Token} {ts : List Terminal}
    (h : tokens.length = ts.length) (index : Nat) :
    (leavesFrom index tokens ts).map (·.terminal) = ts := by
  induction tokens generalizing ts index with
  | nil =>
      obtain rfl := List.length_eq_zero_iff.1 h.symm
      rfl
  | cons token tokens ih =>
      cases ts with
      | nil => cases h
      | cons t ts => simp [leavesFrom, ih (Nat.succ.inj h)]

/-- A text ends with the first end of input in it. -/
theorem eq_of_append_endOfInput {us vs more : List Terminal} (hus : Terminal.endOfInput ∉ us)
    (h : vs ++ .endOfInput :: more = us ++ [.endOfInput]) : vs = us ∧ more = [] := by
  rcases List.append_eq_append_iff.1 h with ⟨ws, rfl, hws⟩ | ⟨ws, rfl, hws⟩
  · cases ws with
    | nil =>
        cases hws
        simp
    | cons w ws =>
        cases hws
        simp at hus
  · cases ws with
    | nil =>
        cases hws
        simp
    | cons w ws =>
        obtain ⟨-, hnil⟩ := List.cons.inj hws
        simp at hnil

/-- What a descent reads in the leaves of a source spells the terminals of the source. -/
theorem program_sound {value : Descent Expr} (hvalue : Reads value Expr.Fresh Expr.terminals)
    {us : List Terminal} (hus : Terminal.endOfInput ∉ us) {leaves rest : List Leaf}
    (hleaves : leaves.map (·.terminal) = us ++ [.endOfInput]) {decls : List Decl}
    (h : (Descent.program value leaves).result = some (decls, rest)) :
    (∀ decl ∈ decls, decl.Fresh) ∧ Decl.programTerminals decls = us ++ [.endOfInput] := by
  obtain ⟨hfresh, hspans, hrest⟩ := Descent.program_reads hvalue h
  have hmap := hspans.map_terminal
  cases rest with
  | nil => cases hrest
  | cons last more =>
      have hlast : last.terminal = .endOfInput := by simpa using hrest
      rw [hleaves, List.map_cons, hlast] at hmap
      obtain ⟨heq, -⟩ := eq_of_append_endOfInput hus hmap.symm
      exact ⟨hfresh, by rw [Decl.programTerminals, heq]⟩

/-- Declarations that spell the terminals of a source are found in its leaves. -/
theorem program_complete {us : List Terminal} {leaves : List Leaf} {fuel : Nat}
    (hfuel : us.length ≤ fuel) (hleaves : leaves.map (·.terminal) = us ++ [.endOfInput])
    {decls : List Decl} (hfresh : ∀ decl ∈ decls, decl.Fresh)
    (hspelled : Decl.programTerminals decls = us ++ [.endOfInput]) :
    ∃ found rest, (Descent.program (Descent.expression fuel) leaves).result = some (found, rest) ∧
      found.map Decl.placeless = decls.map Decl.placeless := by
  obtain rfl : decls.flatMap Decl.terminals = us := List.append_cancel_right hspelled
  obtain ⟨taken, last, rfl, htaken, hlast⟩ := List.map_eq_append_iff.1 hleaves
  obtain ⟨found, hfound, heq⟩ :=
    Descent.program_takes (fun e he hlength => Descent.expression_takes he hlength) hfresh hfuel
      ⟨taken, rfl, htaken⟩ (by rw [← List.head?_map, hlast]; rfl)
  exact ⟨found, last, hfound, heq⟩

/-! ## The grammar on tokens -/

namespace Carried

variable {table : StringTable} {tokens : Array Token} {us : List Terminal}

/-- The leaves of the tokens of a source. -/
def leaves (_ : Carried table tokens us) : List Leaf :=
  leavesFrom 0 tokens.toList (us ++ [.endOfInput])

theorem map_terminal_leaves (h : Carried table tokens us) :
    h.leaves.map (·.terminal) = us ++ [.endOfInput] :=
  map_terminal_leavesFrom h.carries.length_eq 0

/-- Tokens of a source can be printed, and they are a sheet that shows their leaves. -/
theorem exists_sheet (h : Carried table tokens us) :
    ∃ (printed : Printed)
      (hlaid : Laid 0 (us ++ [.endOfInput]) printed.text printed.starts.toList),
      print table tokens.toList = .ok printed ∧
        (printed.sheet table tokens hlaid.sorted).Shows h.leaves (.start printed.text) := by
  obtain ⟨text, starts, hprint, hlaid⟩ := printFrom_laid h.carries 1 0
  refine ⟨⟨text, starts.toArray⟩, hlaid, ?_, ?_⟩
  · show (printFrom table 1 0 tokens.toList >>= _) = _
    rw [hprint]
    rfl
  · -- At the start of the text no token lies behind.
    have hbehind : Behind tokens ⟨text, starts.toArray⟩ 0 [] tokens.toList [] starts :=
      ⟨rfl, rfl, rfl, List.forall_mem_nil _⟩
    exact shows_of_laid hlaid.sorted h.legible hlaid h.carries hbehind (List.forall_mem_nil _) rfl

/-- What the grammar does on the printed tokens of a source is what the descent does on their
leaves. What it builds is not broken, and where it stops is the token that the descent reached. -/
theorem attempt_cases (h : Carried table tokens us) :
    ∃ (printed : Printed) (fuel : Nat),
      Laid 0 (us ++ [.endOfInput]) printed.text printed.starts.toList ∧
      print table tokens.toList = .ok printed ∧ us.length < fuel ∧
      (((printed.attempt (anchorsOf table tokens printed)).result = none ∧
          (Descent.program (Descent.expression fuel) h.leaves).result = none ∧
          printed.tokenAt (printed.attempt (anchorsOf table tokens printed)).frontier.offset =
            (Descent.program (Descent.expression fuel) h.leaves).reach) ∨
        ∃ decls after rest,
          (printed.attempt (anchorsOf table tokens printed)).result = some (.ok decls, after) ∧
          (Descent.program (Descent.expression fuel) h.leaves).result = some (decls, rest)) := by
  obtain ⟨printed, hlaid, hprint, hshows⟩ := h.exists_sheet
  let sheet := printed.sheet table tokens hlaid.sorted
  have hfollows := program_follows sheet (expression_follows sheet (printed.text.length + 1))
    (Descent.expression_reads _) _ _ hshows
  have hlength := hlaid.length_le
  rw [List.length_append] at hlength
  refine ⟨printed, printed.text.length + 1, hlaid, hprint,
    Nat.lt_succ_of_lt (Nat.lt_of_succ_le hlength), ?_⟩
  obtain ⟨hm, hp⟩ | ⟨⟨built, after⟩, ⟨decls, rest⟩, hm, hp, hbuilds, -, -⟩ :=
    hfollows.result_cases
  · exact .inl ⟨hm, hp, hfollows.reach⟩
  · obtain rfl : built = .ok decls := hbuilds
    exact .inr ⟨decls, after, rest, hm, hp⟩

/-- Every token of a source can be described. -/
theorem exists_describe (h : Carried table tokens us) {id : Nat} (hid : id < tokens.size) :
    ∃ text, tokenOf tokens id = .ok tokens[id] ∧ tokens[id].describe table = .ok text := by
  have hlength : id < tokens.toList.length := by simpa
  obtain ⟨text, htext⟩ :=
    (h.carries.get hlength (h.carries.length_eq ▸ hlength)).exists_describe
  exact ⟨text, by simp [tokenOf, hid], by simpa using htext⟩

/-- A refusal names the token at its frontier, which is one of the tokens, and ends with the
description of it. -/
theorem exists_refusal (h : Carried table tokens us) {printed : Printed}
    (hlaid : Laid 0 (us ++ [.endOfInput]) printed.text printed.starts.toList)
    (frontier : Frontier) :
    ∃ token expected found, tokens[printed.tokenAt frontier.offset]? = some token ∧
      token.describe table = .ok found ∧
      refusal table tokens printed frontier =
        .ok ⟨printed.tokenAt frontier.offset, .syntaxError (expected ++ ", found " ++ found)⟩ := by
  have hsize : printed.starts.size = tokens.size := by
    rw [← Array.length_toList, hlaid.length_eq, ← h.carries.length_eq, Array.length_toList]
  have hpos : 0 < printed.starts.size := by
    rw [← Array.length_toList, hlaid.length_eq, List.length_append]
    exact Nat.succ_pos _
  have hlegible : ∀ t ∈ us ++ [.endOfInput], t.Legible :=
    List.forall_mem_append.2 ⟨fun t ht => (h.legible t ht).1, by simp [Terminal.Legible]⟩
  have hid := hsize ▸ tokenAt_lt hlaid.sorted hpos frontier.offset
  obtain ⟨found, htoken, hfound⟩ := h.exists_describe hid
  refine ⟨tokens[printed.tokenAt frontier.offset], frontier.describe, found,
    Array.getElem?_eq_getElem hid, hfound, ?_⟩
  simp only [refusal, tokenAt_offsetOf hlaid hlegible, htoken, hfound, ok_bind]
  rfl

/-- Tokens of a source are read as the descent reads their leaves, or they are refused at the token
that it reached. -/
theorem parse_follows (h : Carried table tokens us)
    (hshallow : Shallow (tokens.toList.map (·.kind))) :
    ∃ fuel, us.length < fuel ∧
      ((∃ decls rest, (Descent.program (Descent.expression fuel) h.leaves).result =
            some (decls, rest) ∧
          parse table tokens = .ok (.ok decls) ∧ accepts table tokens = .ok true) ∨
        ∃ id token expected found,
          (Descent.program (Descent.expression fuel) h.leaves).result = none ∧
          (Descent.program (Descent.expression fuel) h.leaves).reach = id ∧
          tokens[id]? = some token ∧ token.describe table = .ok found ∧
          parse table tokens = .ok (.error ⟨id, .syntaxError (expected ++ ", found " ++ found)⟩) ∧
          accepts table tokens = .ok false) := by
  have hdepth := (excessiveDepth?_iff_shallow tokens.toList).2 hshallow
  obtain ⟨printed, fuel, hlaid, hprint, hfuel, hcases⟩ := h.attempt_cases
  refine ⟨fuel, hfuel, ?_⟩
  obtain ⟨hm, hp, hreach⟩ | ⟨decls, after, rest, hm, hp⟩ := hcases
  · right
    obtain ⟨token, expected, found, htoken, hfound, hrefusal⟩ := h.exists_refusal hlaid
      (printed.attempt (anchorsOf table tokens printed)).frontier
    refine ⟨_, token, expected, found, hp, hreach.symm, htoken, hfound, ?_, ?_⟩
    · simp only [parse, hdepth, hprint, ok_bind, hm, hrefusal]
      rfl
    · simp only [accepts, hdepth, hprint, ok_bind, hm]
      rfl
  · left
    refine ⟨decls, rest, hp, ?_, ?_⟩
    · simp only [parse, hdepth, hprint, ok_bind, hm]
      rfl
    · simp only [accepts, hdepth, hprint, ok_bind, hm]
      rfl

/-- Tokens of a source are read as fresh declarations that spell their terminals, or they are
refused at one of them and no fresh declarations spell them. -/
theorem parse_cases (h : Carried table tokens us)
    (hshallow : Shallow (tokens.toList.map (·.kind))) :
    (∃ decls, parse table tokens = .ok (.ok decls) ∧ accepts table tokens = .ok true ∧
        (∀ decl ∈ decls, decl.Fresh) ∧ Decl.programTerminals decls = us ++ [.endOfInput]) ∨
      ∃ id detail, parse table tokens = .ok (.error ⟨id, .syntaxError detail⟩) ∧
        accepts table tokens = .ok false ∧ id < tokens.size ∧
        ∀ decls : List Decl, (∀ decl ∈ decls, decl.Fresh) →
          Decl.programTerminals decls ≠ us ++ [.endOfInput] := by
  have hus : Terminal.endOfInput ∉ us := fun hmem => (h.legible _ hmem).2 rfl
  -- A refusal is complete and a reading is sound, because both are those of the descent.
  obtain ⟨fuel, hfuel, ⟨decls, rest, hp, hparse, haccepts⟩ |
    ⟨id, token, expected, found, hp, -, htoken, -, hparse, haccepts⟩⟩ := h.parse_follows hshallow
  · obtain ⟨hfresh, hspelled⟩ :=
      program_sound (Descent.expression_reads fuel) hus h.map_terminal_leaves hp
    exact .inl ⟨decls, hparse, haccepts, hfresh, hspelled⟩
  · obtain ⟨hid, -⟩ := Array.getElem?_eq_some_iff.1 htoken
    refine .inr ⟨id, _, hparse, haccepts, hid, fun decls hfresh hspelled => ?_⟩
    obtain ⟨read, rest, hread, -⟩ :=
      program_complete (Nat.le_of_lt hfuel) h.map_terminal_leaves hfresh hspelled
    rw [hp] at hread
    cases hread

/-- Fresh declarations that the terminals of a source spell are read from its tokens. -/
theorem parse_of_spelled (h : Carried table tokens us)
    (hshallow : Shallow (tokens.toList.map (·.kind))) {decls : List Decl}
    (hfresh : ∀ decl ∈ decls, decl.Fresh)
    (hspelled : Decl.programTerminals decls = us ++ [.endOfInput]) :
    ∃ found, parse table tokens = .ok (.ok found) ∧
      found.map Decl.placeless = decls.map Decl.placeless := by
  obtain ⟨fuel, hfuel, hcases⟩ := h.parse_follows hshallow
  obtain ⟨found, rest, hfound, heq⟩ :=
    program_complete (Nat.le_of_lt hfuel) h.map_terminal_leaves hfresh hspelled
  obtain ⟨read, after, hp, hparse, -⟩ | ⟨id, token, expected, text, hp, -⟩ := hcases
  · rw [hp] at hfound
    cases hfound
    exact ⟨found, hparse, heq⟩
  · rw [hp] at hfound
    cases hfound

end Carried

/-- Tokens are refused at the first one at which too many parentheses are open. -/
theorem parse_of_excessiveDepth? (table : StringTable) {tokens : Array Token} {id : Nat}
    (h : excessiveDepth? 0 0 tokens.toList = some id) :
    parse table tokens = .ok (.error ⟨id, .nestingTooDeep maxDepth⟩) ∧
      accepts table tokens = .ok false := by
  constructor
  · simp only [parse, h]
    rfl
  · simp only [accepts, h]
    rfl

/-- Tokens with too many parentheses open are refused at one of them. -/
theorem parse_of_not_shallow (table : StringTable) {tokens : Array Token}
    (h : ¬Shallow (tokens.toList.map (·.kind))) :
    ∃ id, parse table tokens = .ok (.error ⟨id, .nestingTooDeep maxDepth⟩) ∧
      accepts table tokens = .ok false ∧ id < tokens.size := by
  rw [← excessiveDepth?_iff_shallow, ← ne_eq, Option.ne_none_iff_exists'] at h
  obtain ⟨id, hdepth⟩ := h
  obtain ⟨-, hlt⟩ := lt_of_excessiveDepth? hdepth
  obtain ⟨hparse, haccepts⟩ := parse_of_excessiveDepth? table hdepth
  exact ⟨id, hparse, haccepts, by simpa using hlt⟩

end Grammar

end EoJava
