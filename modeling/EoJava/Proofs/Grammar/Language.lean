import EoJava.Proofs.Grammar.Ebnf
import EoJava.Proofs.Grammar.Terminal

/-!
# The language of the grammar

`Fits rhs terminals` says that a right-hand side derives the kinds of some terminals. The terminals
that fit a nonterminal are those that spell a tree of its sort: `fits_expr_iff` for expressions, up
to `fits_program_iff` for the declarations of a whole source.
-/

namespace EoJava.Grammar

open Ebnf

/-- A right-hand side derives the kinds of terminals. -/
def Fits (rhs : Ebnf) (ts : List Terminal) : Prop :=
  Derives rhs (ts.map Terminal.kind)

variable {a b : Ebnf} {ts : List Terminal}

@[simp]
theorem fits_append_iff :
    Fits (a ++ b) ts ↔ ∃ left right, ts = left ++ right ∧ Fits a left ∧ Fits b right := by
  simp only [Fits, Derives.append_iff]
  constructor
  · rintro ⟨left, right, heq, hleft, hright⟩
    obtain ⟨us, vs, rfl, rfl, rfl⟩ := List.map_eq_append_iff.1 heq
    exact ⟨us, vs, rfl, hleft, hright⟩
  · rintro ⟨left, right, rfl, hleft, hright⟩
    exact ⟨_, _, List.map_append, hleft, hright⟩

theorem Fits.append {left right : List Terminal} (hleft : Fits a left) (hright : Fits b right) :
    Fits (a ++ b) (left ++ right) :=
  fits_append_iff.2 ⟨left, right, rfl, hleft, hright⟩

@[simp]
theorem fits_either_iff : Fits (.either a b) ts ↔ Fits a ts ∨ Fits b ts :=
  Derives.either_iff

@[simp]
theorem fits_maybe_iff : Fits (.maybe a) ts ↔ ts = [] ∨ Fits a ts := by
  simp [Fits]

theorem fits_rule_iff {n : Nonterminal} : Fits (.rule n) ts ↔ Fits (production n) ts :=
  Derives.rule_iff

/-- Terminals that fit a repetition fall into parts that fit what is repeated. -/
theorem fits_star_iff :
    Fits (.star a) ts ↔ ∃ parts : List (List Terminal), ts = parts.flatten ∧
      ∀ part ∈ parts, Fits a part := by
  simp only [Fits, Derives.star_iff]
  constructor
  · rintro ⟨parts, heq, hparts⟩
    induction parts generalizing ts with
    | nil => exact ⟨[], by simpa using heq, by simp⟩
    | cons part parts ih =>
        obtain ⟨us, vs, rfl, rfl, hrest⟩ := List.map_eq_append_iff.1 heq
        obtain ⟨hpart, hparts⟩ := List.forall_mem_cons.1 hparts
        obtain ⟨found, rfl, hfound⟩ := ih hrest hparts
        exact ⟨us :: found, rfl, List.forall_mem_cons.2 ⟨hpart, hfound⟩⟩
  · rintro ⟨parts, rfl, hparts⟩
    exact ⟨parts.map (List.map Terminal.kind), by simp [List.map_flatten], by simpa using hparts⟩

theorem fits_kind_iff {k : Kind} : Fits (.kind k) ts ↔ ∃ t, ts = [t] ∧ t.kind = k := by
  simp [Fits, List.map_eq_singleton_iff, eq_comm]

@[simp]
theorem fits_mark_iff {m : Mark} : Fits (mark m) ts ↔ ts = [.mark m] := by
  rw [mark, fits_kind_iff]
  constructor
  · rintro ⟨t, rfl, ht⟩
    cases t <;> simp_all [Terminal.kind]
  · rintro rfl
    exact ⟨_, rfl, rfl⟩

@[simp]
theorem fits_name_iff : Fits (.kind .name) ts ↔ ∃ text, ts = [.name text] := by
  rw [fits_kind_iff]
  constructor
  · rintro ⟨t, rfl, ht⟩
    cases t <;> simp_all [Terminal.kind]
  · rintro ⟨text, rfl⟩
    exact ⟨_, rfl, rfl⟩

theorem Fits.mark (m : Mark) : Fits (.mark m) [.mark m] :=
  fits_mark_iff.2 rfl

theorem Fits.name (text : String) : Fits (.kind .name) [.name text] :=
  fits_name_iff.2 ⟨text, rfl⟩

/-- A terminal without a text is the only one of its kind. -/
theorem fits_kind_iff_of_text?_eq_none {t : Terminal} (ht : t.text? = none) :
    Fits (.kind t.kind) ts ↔ ts = [t] := by
  rw [fits_kind_iff]
  constructor
  · rintro ⟨u, rfl, hu⟩
    cases t <;> cases u <;> simp_all [Terminal.kind, Terminal.text?]
  · rintro rfl
    exact ⟨_, rfl, rfl⟩

@[simp]
theorem fits_newline_iff : Fits (.kind .newline) ts ↔ ts = [.newline] :=
  fits_kind_iff_of_text?_eq_none (t := .newline) rfl

@[simp]
theorem fits_indent_iff : Fits (.kind .indent) ts ↔ ts = [.indent] :=
  fits_kind_iff_of_text?_eq_none (t := .indent) rfl

@[simp]
theorem fits_dedent_iff : Fits (.kind .dedent) ts ↔ ts = [.dedent] :=
  fits_kind_iff_of_text?_eq_none (t := .dedent) rfl

@[simp]
theorem fits_endOfInput_iff : Fits (.kind .endOfInput) ts ↔ ts = [.endOfInput] :=
  fits_kind_iff_of_text?_eq_none (t := .endOfInput) rfl

/-! ## Lists with commas -/

/-- What is spelled for a part is no longer than what is spelled for all parts. -/
theorem length_le_flatMap {α : Type} {spell : α → List Terminal} {parts : List α} {part : α}
    (h : part ∈ parts) : (spell part).length ≤ (parts.flatMap spell).length := by
  rw [List.flatMap_def]
  exact (List.sublist_flatten_of_mem (List.mem_map_of_mem h)).length_le

/-- An item is no longer than the list it stands in. -/
theorem length_le_commaSeparated {items : List (List Terminal)} {item : List Terminal}
    (h : item ∈ items) : item.length ≤ (commaSeparated items).length := by
  cases items with
  | nil => simp at h
  | cons first others =>
      simp only [commaSeparated, List.length_append]
      rcases List.mem_cons.1 h with rfl | h
      · omega
      · have hle : (Terminal.mark .comma :: item).length ≤
            (others.flatMap (.mark .comma :: ·)).length := length_le_flatMap h
        rw [List.length_cons] at hle
        omega

theorem fits_commas_iff :
    Fits (commas a) ts ↔ ∃ items, items ≠ [] ∧ ts = commaSeparated items ∧
      ∀ item ∈ items, Fits a item := by
  simp only [commas, fits_append_iff, fits_star_iff, fits_mark_iff]
  constructor
  · rintro ⟨first, _, rfl, hfirst, parts, rfl, hparts⟩
    have hothers : ∃ others : List (List Terminal), parts = others.map (.mark .comma :: ·) ∧
        ∀ other ∈ others, Fits a other := by
      induction parts with
      | nil => exact ⟨[], rfl, by simp⟩
      | cons part parts ih =>
          obtain ⟨⟨_, other, rfl, rfl, hother⟩, hrest⟩ := List.forall_mem_cons.1 hparts
          obtain ⟨others, rfl, hothers⟩ := ih hrest
          exact ⟨other :: others, rfl, List.forall_mem_cons.2 ⟨hother, hothers⟩⟩
    obtain ⟨others, rfl, hothers⟩ := hothers
    exact ⟨first :: others, by simp, by simp [commaSeparated, List.flatMap_def],
      List.forall_mem_cons.2 ⟨hfirst, hothers⟩⟩
  · rintro ⟨items, hne, rfl, hitems⟩
    cases items with
    | nil => contradiction
    | cons first others =>
        obtain ⟨hfirst, hothers⟩ := List.forall_mem_cons.1 hitems
        refine ⟨first, _, rfl, hfirst, others.map (.mark .comma :: ·), List.flatMap_def .., ?_⟩
        simp only [List.mem_map, forall_exists_index, and_imp, forall_apply_eq_imp_iff₂]
        exact fun other hmem => ⟨_, other, rfl, rfl, hothers other hmem⟩

variable {α : Type} {Good : α → Prop} {spell : α → List Terminal}

/-- If each of some texts spells a good tree, then together they spell a list of good trees. -/
theorem exists_map_spell_iff {items : List (List Terminal)} :
    (∀ item ∈ items, ∃ v, Good v ∧ spell v = item) ↔
      ∃ vs : List α, (∀ v ∈ vs, Good v) ∧ vs.map spell = items := by
  constructor
  · intro h
    induction items with
    | nil => exact ⟨[], by simp, rfl⟩
    | cons item items ih =>
        obtain ⟨⟨v, hv, rfl⟩, hitems⟩ := List.forall_mem_cons.1 h
        obtain ⟨vs, hvs, rfl⟩ := ih hitems
        exact ⟨v :: vs, List.forall_mem_cons.2 ⟨hv, hvs⟩, rfl⟩
  · rintro ⟨vs, hvs, rfl⟩ item hitem
    obtain ⟨v, hmem, rfl⟩ := List.mem_map.1 hitem
    exact ⟨v, hvs v hmem, rfl⟩

/-- A list with commas fits if its items do, and then they spell a list of good trees. -/
theorem fits_commas_iff_spell
    (h : ∀ us : List Terminal, us.length ≤ ts.length → (Fits a us ↔ ∃ v, Good v ∧ spell v = us)) :
    Fits (commas a) ts ↔ ∃ vs : List α, vs ≠ [] ∧ (∀ v ∈ vs, Good v) ∧
      ts = commaSeparated (vs.map spell) := by
  rw [fits_commas_iff]
  constructor
  · rintro ⟨items, hne, rfl, hitems⟩
    obtain ⟨vs, hvs, rfl⟩ := exists_map_spell_iff.1 fun item hitem =>
      (h item (length_le_commaSeparated hitem)).1 (hitems item hitem)
    exact ⟨vs, by simpa using hne, hvs, rfl⟩
  · rintro ⟨vs, hne, hvs, rfl⟩
    refine ⟨vs.map spell, by simpa using hne, rfl, fun item hitem => ?_⟩
    have hspelled := exists_map_spell_iff.2 ⟨vs, hvs, rfl⟩ item hitem
    exact (h item (length_le_commaSeparated hitem)).2 hspelled

/-! ## Trees -/

theorem fits_literal_iff : Fits (.rule .literal) ts ↔ ∃ v : Literal, ts = [v.terminal] := by
  rw [fits_rule_iff]
  simp only [production, fits_either_iff, fits_mark_iff, fits_kind_iff]
  constructor
  · rintro (⟨t, rfl, ht⟩ | ⟨t, rfl, ht⟩ | rfl | rfl)
    · cases t with
      | string value => exact ⟨.string value, rfl⟩
      | _ => cases ht
    · cases t with
      | number text => exact ⟨.number text, rfl⟩
      | _ => cases ht
    · exact ⟨.boolean true, rfl⟩
    · exact ⟨.boolean false, rfl⟩
  · rintro ⟨value | text | value, rfl⟩
    · exact .inl ⟨_, rfl, rfl⟩
    · exact .inr (.inl ⟨_, rfl, rfl⟩)
    · cases value <;> simp [Literal.terminal]

/-- A list with commas that may be missing. -/
theorem fits_maybe_commas_iff
    (h : ∀ us : List Terminal, us.length ≤ ts.length → (Fits a us ↔ ∃ v, Good v ∧ spell v = us)) :
    Fits (.maybe (commas a)) ts ↔ ∃ vs : List α, (∀ v ∈ vs, Good v) ∧
      ts = commaSeparated (vs.map spell) := by
  rw [fits_maybe_iff, fits_commas_iff_spell h]
  constructor
  · rintro (rfl | ⟨vs, -, hvs⟩)
    · exact ⟨[], by simp, rfl⟩
    · exact ⟨vs, hvs⟩
  · rintro ⟨vs, hvs⟩
    by_cases hne : vs = []
    · subst hne
      exact .inl hvs.2
    · exact .inr ⟨vs, hne, hvs⟩

/-- The terminals that fit an expression are those that spell one. -/
theorem fits_expr_iff : Fits (.rule .expr) ts ↔ ∃ e : Expr, e.Fresh ∧ e.terminals = ts := by
  -- The arguments of a call are shorter than the call, so the induction is on the length.
  induction hn : ts.length using Nat.strongRecOn generalizing ts with
  | _ n ih =>
  have hargs {us : List Terminal} (hlt : us.length < n) :
      Fits (.maybe (commas (.rule .expr))) us ↔ ∃ args : List Expr, (∀ e ∈ args, e.Fresh) ∧
        us = commaSeparated (args.map Expr.terminals) :=
    fits_maybe_commas_iff fun vs hle => ih vs.length (by omega) rfl
  rw [fits_rule_iff, production, fits_either_iff, fits_either_iff, fits_literal_iff, fits_name_iff]
  constructor
  · rintro (hcall | ⟨v, rfl⟩ | ⟨name, rfl⟩)
    · simp only [fits_append_iff, fits_mark_iff, fits_name_iff] at hcall
      obtain ⟨_, _, rfl, ⟨_, us, rfl, ⟨_, _, rfl, ⟨name, rfl⟩, rfl⟩, hus⟩, rfl⟩ := hcall
      simp only [List.length_append, List.length_cons] at hn
      obtain ⟨args, hfresh, rfl⟩ := (hargs (by omega)).1 hus
      exact ⟨.call .nowhere name args, by simpa [Expr.Fresh] using hfresh, by simp [Expr.terminals]⟩
    · exact ⟨.literal .nowhere v, trivial, rfl⟩
    · exact ⟨.reference .nowhere name none, rfl, rfl⟩
  · rintro ⟨e, hfresh, rfl⟩
    cases e with
    | literal position v => exact .inr (.inl ⟨v, rfl⟩)
    | reference position name binding => exact .inr (.inr ⟨name, rfl⟩)
    | call position name args =>
        simp only [Expr.Fresh, Expr.allFresh_iff] at hfresh
        simp only [Expr.terminals, Expr.argumentTerminals_eq_map, List.length_cons,
          List.length_append] at hn
        have hcall := (((Fits.name name).append (.mark .leftParen)).append
          ((hargs (by omega)).2 ⟨args, hfresh, rfl⟩)).append (.mark .rightParen)
        exact .inl (by simpa [Expr.terminals] using hcall)

/-- A default after the mark that announces it, if there is one. -/
theorem fits_default_iff {announced : Mark} :
    Fits (.maybe (mark announced ++ .rule .expr)) ts ↔
      ∃ default? : Option Expr, (∀ e ∈ default?, e.Fresh) ∧
        ts = (default?.map (Terminal.mark announced :: ·.terminals)).getD [] := by
  rw [fits_maybe_iff]
  constructor
  · rintro (rfl | h)
    · exact ⟨none, by simp, rfl⟩
    · simp only [fits_append_iff, fits_mark_iff, fits_expr_iff] at h
      obtain ⟨_, _, rfl, rfl, e, hfresh, rfl⟩ := h
      exact ⟨some e, by simpa using hfresh, rfl⟩
  · rintro ⟨_ | e, hfresh, rfl⟩
    · exact .inl rfl
    · exact .inr ((Fits.mark announced).append (fits_expr_iff.2 ⟨e, hfresh e rfl, rfl⟩))

/-- The terminals that fit a parameter are those that spell one. -/
theorem fits_param_iff :
    Fits (.rule .param) ts ↔ ∃ slot : Slot, slot.Fresh ∧ slot.terminals = ts := by
  rw [fits_rule_iff, production]
  constructor
  · intro h
    simp only [fits_append_iff, fits_name_iff, fits_default_iff] at h
    obtain ⟨_, _, rfl, ⟨_, _, rfl, ⟨typeName, rfl⟩, ⟨name, rfl⟩⟩, default?, hfresh, rfl⟩ := h
    exact ⟨⟨.nowhere, typeName, name, default?⟩, hfresh,
      by simp [Slot.terminals, Slot.defaultTerminals_eq]⟩
  · rintro ⟨slot, hfresh, rfl⟩
    have hdefault : Fits (.maybe (mark .equals ++ .rule .expr)) (slot.defaultTerminals .equals) :=
      fits_default_iff.2 ⟨slot.default?, hfresh, slot.defaultTerminals_eq _⟩
    have h := ((Fits.name slot.typeName).append (.name slot.name)).append hdefault
    simpa [Slot.terminals] using h

/-- The end of a method: its body in a block, or just the line end. -/
theorem fits_methodTail_iff :
    Fits (.either (mark .colon ++ .kind .newline ++ .kind .indent ++ .rule .expr ++
      .kind .newline ++ .kind .dedent) (.kind .newline)) ts ↔
      ∃ body : Option Expr, (∀ e ∈ body, e.Fresh) ∧ Method.tailTerminals body = ts := by
  rw [fits_either_iff, fits_newline_iff]
  constructor
  · rintro (h | rfl)
    · simp only [fits_append_iff, fits_mark_iff, fits_newline_iff, fits_indent_iff, fits_dedent_iff,
        fits_expr_iff] at h
      obtain ⟨_, _, rfl, ⟨_, _, rfl, ⟨_, _, rfl, ⟨_, _, rfl, ⟨_, _, rfl, rfl, rfl⟩, rfl⟩,
        e, hfresh, rfl⟩, rfl⟩, rfl⟩ := h
      exact ⟨some e, by simpa using hfresh, by simp [Method.tailTerminals]⟩
    · exact ⟨none, by simp, rfl⟩
  · rintro ⟨_ | e, hfresh, rfl⟩
    · exact .inr rfl
    · have h := (((((Fits.mark .colon).append (fits_newline_iff.2 rfl)).append
        (fits_indent_iff.2 rfl)).append (fits_expr_iff.2 ⟨e, hfresh e rfl, rfl⟩)).append
          (fits_newline_iff.2 rfl)).append (fits_dedent_iff.2 rfl)
      exact .inl (by simpa [Method.tailTerminals] using h)

/-- The terminals that fit a method are those that spell one. -/
theorem fits_method_iff : Fits (.rule .method) ts ↔ ∃ m : Method, m.Fresh ∧ m.terminals = ts := by
  have hparams (us : List Terminal) : Fits (.maybe (.rule .paramList)) us ↔
      ∃ slots : List Slot, (∀ slot ∈ slots, slot.Fresh) ∧
        us = commaSeparated (slots.map Slot.terminals) := by
    rw [fits_maybe_iff, fits_rule_iff, production, ← fits_maybe_iff]
    exact fits_maybe_commas_iff fun vs _ => fits_param_iff
  rw [fits_rule_iff, production]
  constructor
  · intro h
    simp only [fits_append_iff, fits_mark_iff, fits_name_iff, hparams, fits_methodTail_iff] at h
    obtain ⟨_, _, rfl, ⟨_, _, rfl, ⟨_, _, rfl, ⟨_, _, rfl, ⟨_, _, rfl, ⟨returnType, rfl⟩,
      ⟨name, rfl⟩⟩, rfl⟩, slots, hslots, rfl⟩, rfl⟩, body, hbody, rfl⟩ := h
    exact ⟨⟨.nowhere, returnType, name, slots, body⟩, ⟨hslots, hbody⟩, by simp [Method.terminals]⟩
  · rintro ⟨m, ⟨hslots, hbody⟩, rfl⟩
    have h := (((((Fits.name m.returnType).append (.name m.name)).append (.mark .leftParen)).append
      ((hparams _).2 ⟨m.parameters, hslots, rfl⟩)).append (.mark .rightParen)).append
        (fits_methodTail_iff.2 ⟨m.body, hbody, rfl⟩)
    simpa [Method.terminals] using h

/-- The terminals that fit a member are those that spell one. -/
theorem fits_member_iff : Fits (.rule .member) ts ↔ ∃ m : Member, m.Fresh ∧ m.terminals = ts := by
  rw [fits_rule_iff, production, fits_either_iff, fits_method_iff, fits_rule_iff, production,
    fits_either_iff]
  constructor
  · rintro (⟨m, hfresh, rfl⟩ | h | h)
    · exact ⟨.method m, hfresh, rfl⟩
    · simp only [fits_append_iff, fits_mark_iff, fits_name_iff, fits_newline_iff,
        fits_default_iff] at h
      obtain ⟨_, _, rfl, ⟨_, _, rfl, ⟨_, _, rfl, ⟨_, _, rfl, ⟨typeName, rfl⟩, rfl⟩, ⟨name, rfl⟩⟩,
        default?, hfresh, rfl⟩, rfl⟩ := h
      exact ⟨.attribute true ⟨.nowhere, typeName, name, default?⟩, hfresh, by
        simp [Member.terminals, Slot.defaultTerminals_eq]⟩
    · simp only [fits_append_iff, fits_name_iff, fits_newline_iff] at h
      obtain ⟨_, _, rfl, ⟨_, _, rfl, ⟨typeName, rfl⟩, ⟨name, rfl⟩⟩, rfl⟩ := h
      exact ⟨.attribute false ⟨.nowhere, typeName, name, none⟩, rfl, rfl⟩
  · rintro ⟨⟨_ | _, slot⟩ | m, hfresh, rfl⟩
    · exact .inr (.inr (((Fits.name slot.typeName).append (.name slot.name)).append
        (fits_newline_iff.2 rfl)))
    · have hdefault : Fits (.maybe (mark .assign ++ .rule .expr)) (slot.defaultTerminals .assign) :=
        fits_default_iff.2 ⟨slot.default?, hfresh, slot.defaultTerminals_eq _⟩
      have hslot := ((Fits.name slot.typeName).append (.mark .atSign)).append (.name slot.name)
      have h := (hslot.append hdefault).append (fits_newline_iff.2 rfl)
      exact .inr (.inl (by simpa [Member.terminals] using h))
    · exact .inl ⟨m, hfresh, rfl⟩

/-- The clause that lists interfaces, if there is one. -/
theorem fits_interfaces_iff :
    Fits (.maybe (mark .asWord ++ .rule .identList)) ts ↔
      ∃ names : List String, Decl.interfaceTerminals (names.map (⟨.nowhere, ·⟩)) = ts := by
  have hnames (us : List Terminal) : Fits (.rule .identList) us ↔
      ∃ names : List String, names ≠ [] ∧ (∀ _ ∈ names, True) ∧
        us = commaSeparated (names.map fun name => [.name name]) := by
    rw [fits_rule_iff, production]
    exact fits_commas_iff_spell fun vs _ => by simp [eq_comm]
  rw [fits_maybe_iff]
  constructor
  · rintro (rfl | h)
    · exact ⟨[], rfl⟩
    · simp only [fits_append_iff, fits_mark_iff, hnames] at h
      obtain ⟨_, _, rfl, rfl, names, hne, -, rfl⟩ := h
      cases names with
      | nil => contradiction
      | cons name names =>
          exact ⟨name :: names, by simp [Decl.interfaceTerminals, Function.comp_def]⟩
  · rintro ⟨_ | ⟨name, names⟩, rfl⟩
    · exact .inl rfl
    · have h := (Fits.mark .asWord).append ((hnames _).2 ⟨name :: names, by simp, by simp, rfl⟩)
      exact .inr (by simpa [Decl.interfaceTerminals, Function.comp_def] using h)

/-- One or more members. -/
theorem fits_members_iff :
    Fits (plus (.rule .member)) ts ↔ ∃ ms : List Member, ms ≠ [] ∧ (∀ m ∈ ms, m.Fresh) ∧
      ms.flatMap Member.terminals = ts := by
  simp only [plus, fits_append_iff, fits_star_iff, fits_member_iff, exists_map_spell_iff]
  constructor
  · rintro ⟨_, _, rfl, ⟨first, hfirst, rfl⟩, _, rfl, others, hothers, rfl⟩
    exact ⟨first :: others, by simp, List.forall_mem_cons.2 ⟨hfirst, hothers⟩, by
      simp [List.flatMap_def]⟩
  · rintro ⟨_ | ⟨first, others⟩, hne, hfresh, rfl⟩
    · contradiction
    · obtain ⟨hfirst, hothers⟩ := List.forall_mem_cons.1 hfresh
      exact ⟨_, _, List.flatMap_cons, ⟨first, hfirst, rfl⟩, _, List.flatMap_def .., others,
        hothers, rfl⟩

/-- The terminals that fit a declaration are those that spell one. -/
theorem fits_objectDecl_iff :
    Fits (.rule .objectDecl) ts ↔ ∃ decl : Decl, decl.Fresh ∧ decl.terminals = ts := by
  rw [fits_rule_iff, production]
  constructor
  · intro h
    simp only [fits_append_iff, fits_mark_iff, fits_name_iff, fits_newline_iff, fits_indent_iff,
      fits_dedent_iff, fits_interfaces_iff, fits_members_iff] at h
    obtain ⟨_, _, rfl, ⟨_, _, rfl, ⟨_, _, rfl, ⟨_, _, rfl, ⟨_, _, rfl, ⟨_, _, rfl, ⟨_, _, rfl, rfl,
      ⟨name, rfl⟩⟩, names, rfl⟩, rfl⟩, rfl⟩, rfl⟩, ms, hne, hfresh, rfl⟩, rfl⟩ := h
    exact ⟨⟨.nowhere, name, names.map (⟨.nowhere, ·⟩), ms, none⟩, ⟨rfl, hne, hfresh⟩, by
      simp [Decl.terminals]⟩
  · rintro ⟨decl, ⟨-, hne, hfresh⟩, rfl⟩
    have hinterfaces : Fits (.maybe (mark .asWord ++ .rule .identList))
        (Decl.interfaceTerminals decl.interfaces) := by
      refine fits_interfaces_iff.2 ⟨decl.interfaces.map (·.value), ?_⟩
      cases decl.interfaces <;> simp [Decl.interfaceTerminals, Function.comp_def]
    have h := (((((((Fits.mark .objectWord).append (.name decl.name)).append hinterfaces).append
      (.mark .colon)).append (fits_newline_iff.2 rfl)).append (fits_indent_iff.2 rfl)).append
        (fits_members_iff.2 ⟨decl.members, hne, hfresh, rfl⟩)).append (fits_dedent_iff.2 rfl)
    simpa [Decl.terminals] using h

/-- The terminals that fit a program are those that spell declarations up to the end of input. -/
theorem fits_program_iff :
    Fits (.rule .program) ts ↔ ∃ decls : List Decl, (∀ decl ∈ decls, decl.Fresh) ∧
      Decl.programTerminals decls = ts := by
  rw [fits_rule_iff, production]
  simp only [fits_append_iff, fits_star_iff, fits_objectDecl_iff, exists_map_spell_iff,
    fits_endOfInput_iff]
  constructor
  · rintro ⟨_, _, rfl, ⟨_, rfl, decls, hfresh, rfl⟩, rfl⟩
    exact ⟨decls, hfresh, by simp [Decl.programTerminals, List.flatMap_def]⟩
  · rintro ⟨decls, hfresh, rfl⟩
    exact ⟨_, _, rfl, ⟨_, List.flatMap_def .., decls, hfresh, rfl⟩, rfl⟩

end EoJava.Grammar
