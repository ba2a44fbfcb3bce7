import EoJava.Proofs.Grammar.Parsing
import EoJava.Proofs.Source.Spelled

/-!
# Nesting

How deep calls are nested in a tree, compared with the number of parentheses that are open among its
terminals. Every call opens one, and so do the parameters of a method around their defaults
(`shallow_programTerminals_iff`).
-/

namespace EoJava

open Grammar (Terminal commaSeparated maxDepth Shallow)

/-! ## Nested calls -/

namespace Expr

mutual

/-- How deep calls are nested in an expression. -/
def nesting : Expr → Nat
  | .literal .. | .reference .. => 0
  | .call _ _ args => nestingAll args + 1

/-- How deep calls are nested in arguments. -/
def nestingAll : List Expr → Nat
  | [] => 0
  | arg :: args => max arg.nesting (nestingAll args)

end

end Expr

/-- Calls of a declaration are nested deeper than is allowed, or as deep as is allowed in the
default of a parameter. -/
def Decl.Overnested (decl : Decl) : Prop :=
  (∃ e ∈ decl.expressions, maxDepth < e.nesting) ∨
    ∃ e ∈ decl.parameterDefaults, e.nesting = maxDepth

/-- No declaration is overnested if its values stay within the limit, and its parameter defaults
within one less, as the list of parameters is in parentheses itself. -/
theorem Decl.not_overnested_iff {decl : Decl} : ¬decl.Overnested ↔ ∀ m ∈ decl.members,
    (∀ e ∈ m.values, e.nesting ≤ maxDepth) ∧ ∀ e ∈ m.parameterDefaults, e.nesting < maxDepth := by
  simp only [Overnested, expressions, parameterDefaults, List.mem_flatMap, List.mem_append, not_or,
    not_exists, not_and, Nat.not_lt]
  constructor
  · rintro ⟨hall, hdefaults⟩ m hm
    refine ⟨fun e he => hall e ⟨m, hm, .inl he⟩, fun e he => ?_⟩
    exact Nat.lt_of_le_of_ne (hall e ⟨m, hm, .inr he⟩) (hdefaults e ⟨m, hm, he⟩)
  · intro h
    constructor
    · rintro e ⟨m, hm, he | he⟩
      · exact (h m hm).1 e he
      · exact ((h m hm).2 e he).le
    · rintro e ⟨m, hm, he⟩
      exact ((h m hm).2 e he).ne

/-! ## Open parentheses -/

namespace Scan

/-- At no point of the terminals are more than `limit` parentheses open, if `depth` are open
before. -/
def Within (limit depth : Nat) (ts : List Terminal) : Prop :=
  ∀ before, before <+: ts → openAfter depth before ≤ limit

variable {limit depth : Nat}

/-- The kinds of terminals say all about the parentheses that are open. -/
theorem shallow_iff_within {ts : List Terminal} :
    Shallow (ts.map (·.kind)) ↔ Within maxDepth 0 ts := by
  constructor
  · exact fun h before hbefore => h _ (hbefore.map _)
  · intro h kinds hkinds
    obtain ⟨before, hbefore, rfl⟩ := List.prefix_map_iff.1 hkinds
    exact h before hbefore

/-- No terminals stay within a limit that is not passed yet. -/
theorem within_nil : Within limit depth [] ↔ depth ≤ limit := by
  simp [Within]

/-- Terminals stay within a limit if what is open before each of them does. -/
theorem within_cons {t : Terminal} {ts : List Terminal} : Within limit depth (t :: ts) ↔
    depth ≤ limit ∧ Within limit (Kind.depthAfter depth t.kind) ts := by
  simp only [Within, List.prefix_cons_iff]
  constructor
  · intro h
    exact ⟨h [] (.inl rfl), fun before hbefore => h (t :: before) (.inr ⟨before, rfl, hbefore⟩)⟩
  · rintro ⟨hdepth, h⟩ _ (rfl | ⟨before, rfl, hbefore⟩)
    · exact hdepth
    · exact h before hbefore

/-- What stays within a limit starts within it. -/
theorem Within.le {ts : List Terminal} (h : Within limit depth ts) : depth ≤ limit :=
  h [] List.nil_prefix

/-- Terminals in turn stay within a limit if both parts do. -/
theorem within_append {ts us : List Terminal} : Within limit depth (ts ++ us) ↔
    Within limit depth ts ∧ Within limit (openAfter depth ts) us := by
  induction ts generalizing depth with
  | nil => simpa [within_nil] using fun h => Within.le h
  | cons t ts ih => rw [List.cons_append, within_cons, ih, within_cons, and_assoc, openAfter_cons]

/-- A terminal that opens and closes nothing does not count. -/
theorem within_flat {t : Terminal} {ts : List Terminal}
    (h : Kind.depthAfter depth t.kind = depth) :
    Within limit depth (t :: ts) ↔ Within limit depth ts := by
  rw [within_cons, h, and_iff_right_of_imp Within.le]

theorem within_name {name : String} {ts : List Terminal} :
    Within limit depth (.name name :: ts) ↔ Within limit depth ts :=
  within_flat rfl

/-- An opening parenthesis takes one level. -/
theorem within_leftParen {ts : List Terminal} :
    Within limit depth (.mark .leftParen :: ts) ↔ Within limit (depth + 1) ts := by
  -- The bound before the parenthesis follows from the one after it.
  rw [within_cons, and_iff_right_of_imp]
  · rfl
  · exact fun h => Nat.le_of_succ_le h.le

/-- A closing parenthesis gives one level back. -/
theorem within_rightParen {ts : List Terminal} :
    Within limit (depth + 1) (.mark .rightParen :: ts) ↔
      depth + 1 ≤ limit ∧ Within limit depth ts :=
  within_cons

/-- Parts that close what they open stay within the limit exactly if each of them does. -/
theorem within_flatMap {α : Type} {f : α → List Terminal} {parts : List α}
    (hclosed : ∀ part ∈ parts, ∀ depth, openAfter depth (f part) = depth) :
    Within limit depth (parts.flatMap f) ↔
      depth ≤ limit ∧ ∀ part ∈ parts, Within limit depth (f part) := by
  induction parts with
  | nil => simp [within_nil]
  | cons part parts ih =>
      obtain ⟨hpart, hparts⟩ := List.forall_mem_cons.1 hclosed
      rw [List.flatMap_cons, within_append, hpart, ih hparts, List.forall_mem_cons, and_left_comm]

/-- Items between commas stay within a limit if each item does. -/
theorem within_commaSeparated {tss : List (List Terminal)}
    (hclosed : ∀ ts ∈ tss, ∀ depth, openAfter depth ts = depth) :
    Within limit depth (commaSeparated tss) ↔
      depth ≤ limit ∧ ∀ ts ∈ tss, Within limit depth ts := by
  cases tss with
  | nil => simp [commaSeparated, within_nil]
  | cons ts others =>
      obtain ⟨hts, hothers⟩ := List.forall_mem_cons.1 hclosed
      have hcomma : ∀ other : List Terminal,
          Within limit depth (.mark .comma :: other) ↔ Within limit depth other :=
        fun _ => within_flat rfl
      have hclosed' : ∀ other ∈ others, ∀ depth,
          openAfter depth (.mark .comma :: other) = depth := fun other hother depth => by
        rw [openAfter_cons]
        exact hothers other hother depth
      rw [commaSeparated, within_append, hts, within_flatMap hclosed', List.forall_mem_cons,
        and_left_comm]
      simp only [hcomma]

end Scan

open Scan (Within openAfter)

variable {limit : Nat}

namespace Expr

mutual

/-- An expression opens as many parentheses as its calls are nested deep. -/
theorem within_terminals (e : Expr) (depth : Nat) :
    Within limit depth e.terminals ↔ depth + e.nesting ≤ limit := by
  cases e with
  | literal position value =>
      have hflat : Kind.depthAfter depth value.terminal.kind = depth := by
        rcases value with _ | _ | (_ | _) <;> rfl
      exact (Scan.within_flat hflat).trans Scan.within_nil
  | reference position name binding => exact (Scan.within_flat rfl).trans Scan.within_nil
  | call position name args =>
      have hclosed := Written.openAfter_commaSeparated (openAfter_arguments args) (depth + 1)
      rw [terminals, Scan.within_name, Scan.within_leftParen, Scan.within_append, hclosed,
        Scan.within_commaSeparated (openAfter_arguments args), within_arguments args,
        Scan.within_rightParen, Scan.within_nil, nesting]
      omega

/-- Arguments stay within a limit by the deepest nesting among them. -/
theorem within_arguments (args : List Expr) (depth : Nat) :
    (depth ≤ limit ∧ ∀ ts ∈ argumentTerminals args, Within limit depth ts) ↔
      depth + nestingAll args ≤ limit := by
  cases args with
  | nil => simp [argumentTerminals, nestingAll]
  | cons arg args =>
      rw [argumentTerminals, List.forall_mem_cons, and_left_comm, within_arguments args,
        within_terminals arg, nestingAll]
      omega

end

end Expr

variable {depth : Nat}

/-- A default takes as many levels as its calls are nested deep. -/
theorem Slot.within_default {announced : Mark}
    (hannounced : announced = .assign ∨ announced = .equals) (slot : Slot) :
    Within limit depth (slot.defaultTerminals announced) ↔
      depth ≤ limit ∧ ∀ e ∈ slot.default?, depth + e.nesting ≤ limit := by
  unfold defaultTerminals
  cases slot.default? with
  | none => simp [Scan.within_nil]
  | some e =>
      have hmark : Kind.depthAfter depth (Terminal.mark announced).kind = depth := by
        rcases hannounced with rfl | rfl <;> rfl
      rw [Scan.within_flat hmark, e.within_terminals]
      simp only [Option.mem_some_iff, forall_eq']
      omega

/-- A slot takes as many levels as the calls in its default are nested deep. -/
theorem Slot.within_terminals (slot : Slot) : Within limit depth slot.terminals ↔
    depth ≤ limit ∧ ∀ e ∈ slot.default?, depth + e.nesting ≤ limit := by
  rw [terminals, Scan.within_name, Scan.within_name, slot.within_default (.inr rfl)]

namespace Method

/-- The parameters of a method stand in parentheses, and so do their defaults. -/
theorem within_header (m : Method) : Within limit depth m.headerTerminals ↔
    depth < limit ∧ ∀ e ∈ m.parameters.filterMap (·.default?), depth + e.nesting < limit := by
  have hslots : ∀ ts ∈ m.parameters.map Slot.terminals, ∀ depth, openAfter depth ts = depth :=
    List.forall_mem_map.2 fun slot _ => slot.openAfter_terminals
  have hclosed := Written.openAfter_commaSeparated hslots (depth + 1)
  have hdefaults : (∀ ts ∈ m.parameters.map Slot.terminals, Within limit (depth + 1) ts) ↔
      ∀ slot ∈ m.parameters, depth + 1 ≤ limit ∧
        ∀ e ∈ slot.default?, depth + 1 + e.nesting ≤ limit := by
    simp only [List.forall_mem_map, Slot.within_terminals]
  rw [headerTerminals, Scan.within_name, Scan.within_name, Scan.within_leftParen,
    Scan.within_append, hclosed, Scan.within_commaSeparated hslots,
    Scan.within_rightParen, Scan.within_nil, hdefaults]
  -- Without parameters there is no default to bound the depth, so it has a bound of its own.
  constructor
  · rintro ⟨⟨hdepth, h⟩, -⟩
    refine ⟨hdepth, fun e he => ?_⟩
    obtain ⟨slot, hslot, hdefault⟩ := List.mem_filterMap.1 he
    have := (h slot hslot).2 e hdefault
    omega
  · rintro ⟨hdepth, h⟩
    refine ⟨⟨hdepth, fun slot hslot => ⟨hdepth, fun e he => ?_⟩⟩, hdepth, hdepth.le⟩
    have := h e (List.mem_filterMap.2 ⟨slot, hslot, he⟩)
    omega

/-- The end of a method takes as many levels as the calls in its body are nested deep. -/
theorem within_tail (body : Option Expr) : Within limit depth (tailTerminals body) ↔
    depth ≤ limit ∧ ∀ e ∈ body, depth + e.nesting ≤ limit := by
  cases body with
  | none =>
      have hnewline : Within limit depth [.newline] ↔ depth ≤ limit :=
        (Scan.within_flat rfl).trans Scan.within_nil
      simpa [tailTerminals] using hnewline
  | some e =>
      have hopened : Within limit depth (tailTerminals (some e)) ↔
          Within limit depth (e.terminals ++ [.newline, .dedent]) :=
        (Scan.within_flat rfl).trans ((Scan.within_flat rfl).trans (Scan.within_flat rfl))
      have hclosed : Within limit depth [.newline, .dedent] ↔ depth ≤ limit :=
        (Scan.within_flat rfl).trans ((Scan.within_flat rfl).trans Scan.within_nil)
      rw [hopened, Scan.within_append, e.within_terminals, e.openAfter_terminals, hclosed]
      simp only [Option.mem_some_iff, forall_eq']
      omega

theorem within_terminals (m : Method) : Within limit depth m.terminals ↔
    depth < limit ∧ (∀ e ∈ m.body, depth + e.nesting ≤ limit) ∧
      ∀ e ∈ m.parameters.filterMap (·.default?), depth + e.nesting < limit := by
  rw [terminals_eq, Scan.within_append, m.openAfter_header, within_header, within_tail]
  constructor
  · rintro ⟨⟨hdepth, hdefaults⟩, -, hbody⟩
    exact ⟨hdepth, hbody, hdefaults⟩
  · rintro ⟨hdepth, hbody, hdefaults⟩
    exact ⟨⟨hdepth, hdefaults⟩, hdepth.le, hbody⟩

end Method

/-- The parentheses of a member stay within a limit exactly if its calls do, where the defaults of
parameters have one parenthesis more around them. -/
theorem Member.within_terminals {m : Member} (hfresh : m.Fresh) (hlimit : 0 < limit) :
    Within limit 0 m.terminals ↔
      (∀ e ∈ m.values, e.nesting ≤ limit) ∧ ∀ e ∈ m.parameterDefaults, e.nesting < limit := by
  have hended : Within limit 0 [.newline] :=
    (Scan.within_flat rfl).2 (Scan.within_nil.2 hlimit.le)
  rcases m with ⟨_ | _, slot⟩ | m
  · have hnone : slot.default? = none := hfresh
    rw [terminals, Scan.within_name, Scan.within_name]
    simp [values, parameterDefaults, hnone, hended]
  · have hmark {ts : List Terminal} :
        Within limit 0 (.mark .atSign :: ts) ↔ Within limit 0 ts :=
      Scan.within_flat rfl
    have hclosed := slot.openAfter_default (.inl rfl) 0
    rw [terminals, Scan.within_name, hmark, Scan.within_name, Scan.within_append, hclosed,
      slot.within_default (.inl rfl)]
    simp [values, parameterDefaults, hended]
  · rw [terminals, m.within_terminals]
    simp [values, parameterDefaults, hlimit]

namespace Decl

/-- A list of interfaces takes no level. -/
theorem within_interfaces (refs : List (Located String)) :
    Within limit depth (interfaceTerminals refs) ↔ depth ≤ limit := by
  cases refs with
  | nil => exact Scan.within_nil
  | cons ref refs =>
      have hclosed : ∀ ts ∈ (ref :: refs).map fun ref => [Terminal.name ref.value],
          ∀ depth, openAfter depth ts = depth :=
        List.forall_mem_map.2 fun _ _ _ => rfl
      have hnames : ∀ ts ∈ (ref :: refs).map fun ref => [Terminal.name ref.value],
          Within limit depth ts ↔ depth ≤ limit :=
        List.forall_mem_map.2 fun _ _ => Scan.within_name.trans Scan.within_nil
      refine (Scan.within_flat rfl).trans ((Scan.within_commaSeparated hclosed).trans ?_)
      exact and_iff_left_of_imp fun hdepth ts hts => (hnames ts hts).2 hdepth

/-- The parentheses of a declaration are those of its members. -/
theorem within_terminals (decl : Decl) : Within limit 0 decl.terminals ↔
    ∀ m ∈ decl.members, Within limit 0 m.terminals := by
  have hclosed : ∀ m ∈ decl.members, ∀ depth, openAfter depth m.terminals = depth :=
    fun m _ => m.openAfter_terminals
  have hheader {ts : List Terminal} :
      Within limit 0 (.mark .objectWord :: .name decl.name :: ts) ↔ Within limit 0 ts :=
    (Scan.within_flat rfl).trans Scan.within_name
  have hopened {ts : List Terminal} :
      Within limit 0 (.mark .colon :: .newline :: .indent :: ts) ↔ Within limit 0 ts :=
    (Scan.within_flat rfl).trans ((Scan.within_flat rfl).trans (Scan.within_flat rfl))
  have hended : Within limit 0 [.dedent] :=
    (Scan.within_flat rfl).2 (Scan.within_nil.2 (Nat.zero_le _))
  rw [terminals, hheader, Scan.within_append, within_interfaces, openAfter_interfaces, hopened,
    Scan.within_append, Written.openAfter_flatMap hclosed, Scan.within_flatMap hclosed]
  simp [hended]

/-- Few enough parentheses are open among the terminals of declarations exactly if none of them is
overnested. -/
theorem shallow_programTerminals_iff {decls : List Decl} (hfresh : ∀ decl ∈ decls, decl.Fresh) :
    Shallow ((programTerminals decls).map (·.kind)) ↔ ∀ decl ∈ decls, ¬decl.Overnested := by
  have hended : Within maxDepth 0 [.endOfInput] :=
    (Scan.within_flat rfl).2 (Scan.within_nil.2 (Nat.zero_le _))
  have hclosed := fun (decl : Decl) (_ : decl ∈ decls) => decl.openAfter_terminals
  -- No declaration leaves a parenthesis open, so each is counted on its own.
  rw [Scan.shallow_iff_within, programTerminals, Scan.within_append,
    Written.openAfter_flatMap hclosed, Scan.within_flatMap hclosed, and_iff_left hended,
    and_iff_right (Nat.zero_le _)]
  refine forall₂_congr fun decl hdecl => ?_
  rw [within_terminals, not_overnested_iff]
  exact forall₂_congr fun m hm => Member.within_terminals ((hfresh decl hdecl).2.2 m hm) (by decide)

end Decl

end EoJava
