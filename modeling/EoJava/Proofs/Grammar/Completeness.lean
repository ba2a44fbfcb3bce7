import EoJava.Proofs.Grammar.Soundness
import EoJava.Proofs.Grammar.Language

/-!
# What a descent finds

`Takes p spell erase next v` says that a descent takes the terminals that spell `v` and gives a
value that differs from `v` only in what `erase` forgets, provided that the leaf after them is one
of `next`. Every fresh expression, member and declaration is taken, so a source that spells fresh
declarations is read as those declarations (`program_takes`).
-/

namespace EoJava.Grammar

/-- The first leaf, if there is one, has a terminal of the given sort. -/
def Begins (next : Terminal → Prop) (leaves : List Leaf) : Prop :=
  ∀ first ∈ leaves.head?, next first.terminal

/-- The first of some leaves decides how they begin. -/
@[simp]
theorem begins_cons {next : Terminal → Prop} {first : Leaf} {others : List Leaf} :
    Begins next (first :: others) ↔ next first.terminal := by
  simp [Begins]

/-- Leaves that begin in one way begin in any looser way. -/
theorem Begins.imp {next after : Terminal → Prop} {leaves : List Leaf} (h : Begins next leaves)
    (himp : ∀ t, next t → after t) : Begins after leaves :=
  fun first hfirst => himp _ (h first hfirst)

/-- Leaves that start with terminals begin with the first of them. -/
theorem Spans.begins {next : Terminal → Prop} {leaves rest : List Leaf} {ts : List Terminal}
    (h : Spans leaves ts rest) (hfirst : ∀ t ∈ ts.head?, next t) (hrest : Begins next rest) :
    Begins next leaves := by
  cases ts with
  | nil => exact Spans.nil_iff.1 h ▸ hrest
  | cons t ts =>
      obtain ⟨first, others, rfl, rfl, -⟩ := Spans.cons_iff.1 h
      exact begins_cons.2 (hfirst _ rfl)

/-- The descent takes the spelling of a value, if a leaf of the given sort follows, and gives the
value back up to what is erased. -/
def Takes {α β : Type} (p : Descent α) (spell : α → List Terminal) (erase : α → β)
    (next : Terminal → Prop) (v : α) : Prop :=
  ∀ leaves rest, Spans leaves (spell v) rest → Begins next rest →
    ∃ w, (p leaves).result = some (w, rest) ∧ erase w = erase v

/-- The descent refuses leaves that begin in a given way. -/
def Refuses {α : Type} (p : Descent α) (next : Terminal → Prop) : Prop :=
  ∀ leaves, Begins next leaves → (p leaves).result = none

namespace Descent

variable {α β : Type} {p : Descent α} {spell : α → List Terminal} {erase : α → β}
variable {next : Terminal → Prop}

/-! ## Single leaves -/

/-- A terminal that is asked for is read where it stands and nowhere else. -/
@[simp]
theorem result_exactly_cons (t : Terminal) (first : Leaf) (others : List Leaf) :
    (exactly t (first :: others)).result =
      if first.terminal = t then some ((), others) else none := by
  unfold exactly
  split <;> simp [*]

/-- A name is read where one stands and nowhere else. -/
@[simp]
theorem result_name_cons (first : Leaf) (others : List Leaf) :
    (name (first :: others)).result =
      match first.terminal with
      | .name text => some (⟨first.position, text⟩, others)
      | _ => none := by
  unfold name
  cases h : first.terminal <;> simp [h]

/-- A literal is read where a terminal with a value stands and nowhere else. -/
@[simp]
theorem result_literal_cons (first : Leaf) (others : List Leaf) :
    (literal (first :: others)).result =
      first.terminal.literal?.map fun value => (.literal first.position value, others) := by
  simp only [literal, literalOf, result_orElse, result_leaf_cons]
  rcases first.terminal with _ | _ | _ | m | _ | _ | _ | _
  case mark => cases m <;> rfl
  all_goals rfl

/-- The literal of a terminal is the one that it spells. -/
theorem literal?_terminal (value : Literal) : value.terminal.literal? = some value := by
  rcases value with _ | _ | _ | _ <;> rfl

/-- A terminal that is asked for is refused where another one stands. -/
theorem exactly_refuses (t : Terminal) : Refuses (exactly t) (· ≠ t) := by
  rintro (_ | ⟨first, others⟩) h
  · rfl
  · simpa using h

/-- A name is refused where none stands. -/
theorem name_refuses : Refuses name (∀ text, · ≠ .name text) := by
  rintro (_ | ⟨first, others⟩) h
  · rfl
  · rw [result_name_cons]
    split
    · next text ht => exact absurd ht (begins_cons.1 h text)
    · rfl

/-- A descent refuses what the descent that it starts with refuses. -/
theorem bind_refuses (h : Refuses p next) (others : α → Descent β) :
    Refuses (p >>= others) next := by
  intro leaves hleaves
  simp [h leaves hleaves]

/-- An alternative is refused where both sides are. -/
theorem orElse_refuses {q : Descent α} (hp : Refuses p next) (hq : Refuses q next) :
    Refuses (p <|> q) next := by
  intro leaves hleaves
  simp [hp leaves hleaves, hq leaves hleaves]

/-! ## Repetitions and lists -/

/-- A repetition takes all its items and stops before what no item starts with. -/
theorem repeated_takes {vs : List α} (hvs : ∀ v ∈ vs, Takes p spell erase next v)
    (hspell : ∀ v ∈ vs, spell v ≠ []) (hfirst : ∀ v ∈ vs, ∀ t ∈ (spell v).head?, next t)
    {leaves rest : List Leaf} (hspans : Spans leaves (vs.flatMap spell) rest)
    (hrest : Begins next rest) (hstop : (p rest).result = none) :
    ∃ ws reach, repeated p leaves = (ws, rest, reach) ∧ ws.map erase = vs.map erase := by
  induction vs generalizing leaves with
  | nil =>
      obtain rfl := Spans.nil_iff.1 hspans
      refine ⟨[], (p leaves).reach, ?_, rfl⟩
      rw [repeated]
      rcases h : p leaves with ⟨_ | found, reach⟩
      · rfl
      · simp [h] at hstop
  | cons v vs ih =>
      obtain ⟨hv, hvs⟩ := List.forall_mem_cons.1 hvs
      obtain ⟨hne, hspell⟩ := List.forall_mem_cons.1 hspell
      obtain ⟨-, hfirst⟩ := List.forall_mem_cons.1 hfirst
      rw [List.flatMap_cons] at hspans
      obtain ⟨middle, hhead, htail⟩ := Spans.append_iff.1 hspans
      -- What follows an item is the start of the next one, or what follows all of them.
      have hmiddle : Begins next middle := by
        refine htail.begins (fun t ht => ?_) hrest
        cases vs with
        | nil => simp at ht
        | cons u us =>
            rw [List.flatMap_cons, List.head?_append_of_ne_nil _ (hspell u (by simp))] at ht
            exact hfirst u (by simp) t ht
      obtain ⟨w, hw, herase⟩ := hv leaves middle hhead hmiddle
      obtain ⟨ws, reach, hws, herases⟩ := ih hvs hspell hfirst htail
      rcases h : p leaves with ⟨result, first⟩
      rw [h] at hw
      subst hw
      refine ⟨w :: ws, max first reach, ?_, by simp [herase, herases]⟩
      rw [repeated, h]
      simp only [hhead.length_lt hne, ↓reduceIte, hws]

/-- What is read again and again takes all that was spelled, up to where it is refused. -/
theorem many_takes {vs : List α} (hvs : ∀ v ∈ vs, Takes p spell erase next v)
    (hspell : ∀ v ∈ vs, spell v ≠ []) (hfirst : ∀ v ∈ vs, ∀ t ∈ (spell v).head?, next t)
    {leaves rest : List Leaf} (hspans : Spans leaves (vs.flatMap spell) rest)
    (hrest : Begins next rest) (hstop : (p rest).result = none) :
    ∃ ws, (many p leaves).result = some (ws, rest) ∧ ws.map erase = vs.map erase := by
  obtain ⟨ws, reach, hws, herase⟩ := repeated_takes hvs hspell hfirst hspans hrest hstop
  exact ⟨ws, by simp [many, hws], herase⟩

/-- What is read once or more takes all that was spelled, if that is something. -/
theorem many1_takes {vs : List α} (hne : vs ≠ []) (hvs : ∀ v ∈ vs, Takes p spell erase next v)
    (hspell : ∀ v ∈ vs, spell v ≠ []) (hfirst : ∀ v ∈ vs, ∀ t ∈ (spell v).head?, next t)
    {leaves rest : List Leaf} (hspans : Spans leaves (vs.flatMap spell) rest)
    (hrest : Begins next rest) (hstop : (p rest).result = none) :
    ∃ ws, (many1 p leaves).result = some (ws, rest) ∧ ws.map erase = vs.map erase := by
  obtain ⟨ws, reach, hws, herase⟩ := repeated_takes hvs hspell hfirst hspans hrest hstop
  refine ⟨ws, ?_, herase⟩
  cases ws with
  | nil => exact absurd (List.map_eq_nil_iff.1 herase.symm) hne
  | cons w ws => simp [many1, hws]

/-- An item with the comma before it is taken if the item is. -/
theorem commaItem_takes {v : α} (hv : Takes p spell erase next v) :
    Takes (commaItem p) (fun v => .mark .comma :: spell v) erase next v := by
  intro leaves rest hspans hrest
  obtain ⟨first, others, rfl, hcomma, hspans⟩ := Spans.cons_iff.1 hspans
  obtain ⟨w, hw, herase⟩ := hv others rest hspans hrest
  exact ⟨w, by simp [commaItem, hcomma, hw], herase⟩

/-- Items with commas are taken up to a leaf that is no comma. -/
theorem separated1_takes {vs : List α} (hne : vs ≠ [])
    (hvs : ∀ v ∈ vs, Takes p spell erase next v) (hcomma : next (.mark .comma)) :
    Takes (separated1 p) (fun vs => commaSeparated (vs.map spell)) (List.map erase)
      (fun t => next t ∧ t ≠ .mark .comma) vs := by
  intro leaves rest hspans hrest
  obtain ⟨v, vs, rfl⟩ := List.exists_cons_of_ne_nil hne
  obtain ⟨hv, hvs⟩ := List.forall_mem_cons.1 hvs
  simp only [List.map_cons, commaSeparated, List.flatMap_map] at hspans
  obtain ⟨middle, hhead, htail⟩ := Spans.append_iff.1 hspans
  have hmiddle : Begins next middle := by
    refine htail.begins (fun t ht => ?_) (hrest.imp fun t ht => ht.1)
    cases vs with
    | nil => simp at ht
    | cons u us =>
        cases ht
        exact hcomma
  obtain ⟨w, hw, herase⟩ := hv leaves middle hhead hmiddle
  have hstop : (commaItem p rest).result = none :=
    bind_refuses (exactly_refuses _) _ rest (hrest.imp fun t ht => ht.2)
  obtain ⟨ws, hws, herases⟩ := many_takes (fun u hu => commaItem_takes (hvs u hu)) (by simp)
    (by simpa using fun _ _ => hcomma) htail (hrest.imp fun t ht => ht.1) hstop
  exact ⟨w :: ws, by simp [separated1, hw, hws], by simp [herase, herases]⟩

/-- A list without items is taken if no item can start there. -/
theorem separated_takes {vs : List α} (hvs : ∀ v ∈ vs, Takes p spell erase next v)
    (hcomma : next (.mark .comma)) {close : Terminal} (hclose : next close)
    (hne : close ≠ .mark .comma) (hrefuses : Refuses p (· = close)) :
    Takes (separated p) (fun vs => commaSeparated (vs.map spell)) (List.map erase)
      (· = close) vs := by
  intro leaves rest hspans hrest
  cases vs with
  | nil =>
      obtain rfl := Spans.nil_iff.1 hspans
      have hfirst : (separated1 p leaves).result = none :=
        bind_refuses hrefuses _ leaves hrest
      exact ⟨[], by simp [separated, hfirst], rfl⟩
  | cons v vs =>
      obtain ⟨ws, hws, herase⟩ := separated1_takes (by simp) hvs hcomma leaves rest hspans
        (hrest.imp fun t ht => by
          subst ht
          exact ⟨hclose, hne⟩)
      exact ⟨ws, by simp [separated, hws], herase⟩

/-! ## Expressions -/

/-- A leaf that starts no expression is refused. -/
theorem expression_refuses (fuel : Nat) :
    Refuses (expression fuel) fun t => (∀ text, t ≠ .name text) ∧ t.literal? = none := by
  cases fuel with
  | zero => exact fun _ _ => rfl
  | succ fuel =>
      have hname : Refuses name fun t => (∀ text, t ≠ .name text) ∧ t.literal? = none :=
        fun leaves h => name_refuses leaves (h.imp fun _ ht => ht.1)
      refine orElse_refuses (bind_refuses hname _) (orElse_refuses ?_ (bind_refuses hname _))
      rintro (_ | ⟨first, others⟩) h
      · rfl
      · simp [(begins_cons.1 h).2]

/-- A literal is taken whatever follows. -/
theorem literal_takes (position : Position) (value : Literal) :
    Takes literal Expr.terminals Expr.placeless (fun _ => True) (.literal position value) := by
  intro leaves rest hspans _
  obtain ⟨first, _, rfl, hfirst, hspans⟩ := Spans.cons_iff.1 hspans
  obtain rfl := Spans.nil_iff.1 hspans
  exact ⟨.literal first.position value, by simp [hfirst, literal?_terminal], rfl⟩

/-- A call is taken if its arguments are. -/
theorem call_takes {argument : Descent Expr} {args : List Expr}
    (hargs : ∀ arg ∈ args, Takes argument Expr.terminals Expr.placeless (· ≠ .mark .leftParen) arg)
    (hrefuses : Refuses argument (· = .mark .rightParen)) (position : Position) (name : String) :
    Takes (call argument) Expr.terminals Expr.placeless (fun _ => True)
      (.call position name args) := by
  intro leaves rest hspans _
  simp only [Expr.terminals, Expr.argumentTerminals_eq_map] at hspans
  obtain ⟨first, _, rfl, hname, hspans⟩ := Spans.cons_iff.1 hspans
  obtain ⟨second, _, rfl, hopen, hspans⟩ := Spans.cons_iff.1 hspans
  obtain ⟨middle, hlist, hspans⟩ := Spans.append_iff.1 hspans
  obtain ⟨last, _, rfl, hclose, hspans⟩ := Spans.cons_iff.1 hspans
  obtain rfl := Spans.nil_iff.1 hspans
  obtain ⟨found, hfound, heq⟩ :=
    separated_takes hargs (by simp) (by simp) (by simp) hrefuses _ _ hlist (by simp [hclose])
  exact ⟨.call first.position name found, by simp [call, hname, hopen, hfound, hclose],
    by simp [Expr.placeless, heq]⟩

/-- A call is not tried on a literal, and it gives up on a name without a parenthesis. -/
theorem call_refuses (argument : Descent Expr) {e : Expr} (he : ∀ position name args,
    e ≠ .call position name args) {leaves rest : List Leaf} (hspans : Spans leaves e.terminals rest)
    (hrest : Begins (· ≠ .mark .leftParen) rest) : (call argument leaves).result = none := by
  cases e with
  | call position name args => exact absurd rfl (he position name args)
  | literal position value =>
      obtain ⟨first, others, rfl, hfirst, -⟩ := Spans.cons_iff.1 hspans
      refine bind_refuses name_refuses _ _ (begins_cons.2 fun text ht => ?_)
      rw [hfirst] at ht
      rcases value with _ | _ | _ | _ <;> cases ht
  | reference position text binding =>
      obtain ⟨first, others, rfl, hfirst, hspans⟩ := Spans.cons_iff.1 hspans
      obtain rfl := Spans.nil_iff.1 hspans
      simp [call, hfirst, exactly_refuses _ _ hrest]

/-- An expression is taken if no parenthesis follows. Calls nest no deeper than they have
terminals. -/
theorem expression_takes {e : Expr} (hfresh : e.Fresh) {fuel : Nat}
    (hfuel : e.terminals.length ≤ fuel) :
    Takes (expression fuel) Expr.terminals Expr.placeless (· ≠ .mark .leftParen) e := by
  induction fuel generalizing e with
  | zero => exact absurd (List.length_eq_zero_iff.1 (Nat.le_zero.1 hfuel)) e.terminals_ne_nil
  | succ fuel ih =>
      intro leaves rest hspans hrest
      -- A call is tried first, so for the other sorts it has to be refused before they are found.
      cases e with
      | call position name args =>
          have hargs : ∀ arg ∈ args, Takes (expression fuel) Expr.terminals Expr.placeless
              (· ≠ .mark .leftParen) arg := by
            intro arg harg
            refine ih ((Expr.allFresh_iff args).1 hfresh arg harg) ?_
            have hle := length_le_commaSeparated (List.mem_map_of_mem (f := Expr.terminals) harg)
            simp only [Expr.terminals, Expr.argumentTerminals_eq_map, List.length_cons,
              List.length_append] at hfuel
            omega
          have hrefuses : Refuses (expression fuel) (· = .mark .rightParen) :=
            fun others hothers => expression_refuses fuel others (hothers.imp (by
              rintro t rfl
              exact ⟨by simp, rfl⟩))
          obtain ⟨found, hfound, heq⟩ :=
            call_takes hargs hrefuses position name leaves rest hspans (hrest.imp (by simp))
          exact ⟨found, by simp [expression, hfound], heq⟩
      | literal position value =>
          have hcall := call_refuses (expression fuel) (by simp) hspans hrest
          obtain ⟨found, hfound, heq⟩ :=
            literal_takes position value leaves rest hspans (hrest.imp (by simp))
          exact ⟨found, by simp [expression, hcall, hfound], heq⟩
      | reference position text binding =>
          have hcall := call_refuses (expression fuel) (by simp) hspans hrest
          obtain ⟨first, others, rfl, hfirst, hspans⟩ := Spans.cons_iff.1 hspans
          obtain rfl := Spans.nil_iff.1 hspans
          refine ⟨.reference first.position text none, ?_, ?_⟩
          · simp [expression, reference, hcall, hfirst, Terminal.literal?]
          · cases hfresh
            rfl

/-! ## Members -/

/-- What may be left out is taken if it was spelled, and is seen to be left out otherwise. -/
theorem optional_takes {after : Terminal → Prop} {v? : Option α}
    (hv : ∀ v ∈ v?, Takes p spell erase next v) (hrefuses : Refuses p after) :
    Takes (optional p) (fun v? => (v?.map spell).getD []) (Option.map erase)
      (fun t => next t ∧ after t) v? := by
  intro leaves rest hspans hrest
  cases v? with
  | none =>
      obtain rfl := Spans.nil_iff.1 hspans
      have hnone := hrefuses leaves (hrest.imp fun _ ht => ht.2)
      exact ⟨none, by simp [result_optional, hnone], rfl⟩
  | some v =>
      obtain ⟨w, hw, herase⟩ := hv v rfl leaves rest hspans (hrest.imp fun _ ht => ht.1)
      exact ⟨some w, by simp [result_optional, hw], by simp [herase]⟩

/-- An attribute that is only announced is taken, whatever follows it. -/
theorem announced_takes {slot : Slot} (hfresh : slot.default? = none) :
    Takes announced Member.terminals Member.placeless (fun _ => True) (.attribute false slot) := by
  intro leaves rest hspans _
  obtain ⟨first, _, rfl, hfirst, hspans⟩ := Spans.cons_iff.1 hspans
  obtain ⟨second, _, rfl, hsecond, hspans⟩ := Spans.cons_iff.1 hspans
  obtain ⟨last, _, rfl, hlast, hspans⟩ := Spans.cons_iff.1 hspans
  obtain rfl := Spans.nil_iff.1 hspans
  refine ⟨.attribute false { slot with position := first.position }, ?_, ?_⟩
  · simp [announced, typedName, hfirst, hsecond, hlast, hfresh]
  · rfl

/-- A member starts with a name. -/
theorem member_refuses (value : Descent Expr) :
    Refuses (member value) fun t => ∀ text, t ≠ .name text :=
  orElse_refuses (bind_refuses (bind_refuses name_refuses _) _)
    (orElse_refuses (bind_refuses name_refuses _) (bind_refuses (bind_refuses name_refuses _) _))

/-- A name is taken, whatever follows it. -/
theorem name_takes (found : Located String) :
    Takes name (fun found => [.name found.value]) Located.placeless (fun _ => True) found := by
  intro leaves rest hspans _
  obtain ⟨first, _, rfl, hfirst, hspans⟩ := Spans.cons_iff.1 hspans
  obtain rfl := Spans.nil_iff.1 hspans
  exact ⟨⟨first.position, found.value⟩, by simp [hfirst], rfl⟩

/-- A keyword is refused where another terminal stands. -/
theorem keyword_refuses (m : Mark) : Refuses (keyword m) (· ≠ .mark m) := by
  intro leaves hleaves
  rw [result_keyword]
  exact exactly_refuses _ leaves hleaves

/-- The interfaces of a declaration are taken, and nothing at all if it has none. -/
theorem interfaces_takes (refs : List (Located String)) {leaves rest : List Leaf}
    (hspans : Spans leaves (Decl.interfaceTerminals refs) rest)
    (hrest : Begins (fun t => t ≠ .mark .comma ∧ t ≠ .mark .asWord) rest) :
    ∃ listed, (optional interfaces leaves).result = some (listed, rest) ∧
      (listed.getD []).map Located.placeless = refs.map Located.placeless := by
  rw [result_optional]
  cases refs with
  | nil =>
      obtain rfl := Spans.nil_iff.1 hspans
      have hnone : (interfaces leaves).result = none :=
        bind_refuses (keyword_refuses _) _ leaves (hrest.imp fun _ ht => ht.2)
      exact ⟨none, by simp [hnone], rfl⟩
  | cons ref refs =>
      obtain ⟨first, others, rfl, hfirst, hspans⟩ := Spans.cons_iff.1 hspans
      obtain ⟨found, hfound, heq⟩ :=
        separated1_takes (by simp : ref :: refs ≠ []) (fun ref _ => name_takes ref) trivial _ _
          hspans (hrest.imp fun _ ht => ⟨trivial, ht.1⟩)
      exact ⟨some found, by simp [interfaces, result_keyword, hfirst, hfound], heq⟩

section

variable {value : Descent Expr} {limit : Nat}
variable (hvalue : ∀ e : Expr, e.Fresh → e.terminals.length ≤ limit →
  Takes value Expr.terminals Expr.placeless (· ≠ .mark .leftParen) e)

include hvalue

/-- A default is taken if nothing follows that would continue it or announce one. -/
theorem default_takes (announced : Mark) {slot : Slot} (hfresh : slot.Fresh)
    (hlimit : (slot.defaultTerminals announced).length ≤ limit) :
    Takes (optional (default announced value))
      (fun e? => (e?.map (Terminal.mark announced :: ·.terminals)).getD [])
      (Option.map Expr.placeless)
      (fun t => t ≠ .mark .leftParen ∧ t ≠ .mark announced) slot.default? := by
  refine optional_takes (fun e he leaves rest hspans hrest => ?_)
    (bind_refuses (exactly_refuses _) _)
  obtain ⟨first, others, rfl, hfirst, hspans⟩ := Spans.cons_iff.1 hspans
  have hlength : e.terminals.length ≤ limit := by
    rw [Slot.defaultTerminals_eq, he] at hlimit
    exact Nat.le_of_succ_le hlimit
  obtain ⟨found, hfound, heq⟩ := hvalue e (hfresh e he) hlength others rest hspans hrest
  exact ⟨found, by simp [default, hfirst, hfound], heq⟩

/-- A parameter is taken if nothing follows that would continue it. -/
theorem parameter_takes {slot : Slot} (hfresh : slot.Fresh)
    (hlimit : slot.terminals.length ≤ limit) :
    Takes (parameter value) Slot.terminals Slot.placeless
      (fun t => t ≠ .mark .leftParen ∧ t ≠ .mark .equals) slot := by
  intro leaves rest hspans hrest
  obtain ⟨first, _, rfl, hfirst, hspans⟩ := Spans.cons_iff.1 hspans
  obtain ⟨second, _, rfl, hsecond, hspans⟩ := Spans.cons_iff.1 hspans
  rw [Slot.defaultTerminals_eq] at hspans
  have hlength : (slot.defaultTerminals .equals).length ≤ limit := by
    simp only [Slot.terminals, List.length_cons] at hlimit
    omega
  obtain ⟨found?, hfound, heq⟩ := default_takes hvalue .equals hfresh hlength _ _ hspans hrest
  refine ⟨{ slot with position := first.position, default? := found? }, ?_, ?_⟩
  · simp [parameter, typedName, hfirst, hsecond, hfound]
  · simp [Slot.placeless, heq]

/-- The end of a method is taken, whatever follows it. -/
theorem methodTail_takes {body : Option Expr} (hfresh : ∀ e ∈ body, e.Fresh)
    (hlimit : (Method.tailTerminals body).length ≤ limit) :
    Takes (methodTail value) Method.tailTerminals (Option.map Expr.placeless) (fun _ => True)
      body := by
  intro leaves rest hspans _
  cases body with
  | none =>
      obtain ⟨first, _, rfl, hfirst, hspans⟩ := Spans.cons_iff.1 hspans
      obtain rfl := Spans.nil_iff.1 hspans
      exact ⟨none, by simp [methodTail, methodBody, noBody, result_colonLine, hfirst], rfl⟩
  | some e =>
      obtain ⟨colon, _, rfl, hcolon, hspans⟩ := Spans.cons_iff.1 hspans
      obtain ⟨newline, _, rfl, hnewline, hspans⟩ := Spans.cons_iff.1 hspans
      obtain ⟨indent, _, rfl, hindent, hspans⟩ := Spans.cons_iff.1 hspans
      obtain ⟨middle, hbody, hspans⟩ := Spans.append_iff.1 hspans
      obtain ⟨lineEnd, _, rfl, hlineEnd, hspans⟩ := Spans.cons_iff.1 hspans
      obtain ⟨dedent, _, rfl, hdedent, hspans⟩ := Spans.cons_iff.1 hspans
      obtain rfl := Spans.nil_iff.1 hspans
      have hlength : e.terminals.length ≤ limit := by
        simp only [Method.tailTerminals, List.length_cons, List.length_append] at hlimit
        omega
      obtain ⟨found, hfound, heq⟩ := hvalue e (hfresh e rfl) hlength _ _ hbody (by simp [hlineEnd])
      refine ⟨some found, ?_, by simp [heq]⟩
      simp [methodTail, methodBody, result_colonLine, hcolon, hnewline, hindent, hfound, hlineEnd,
        hdedent]

/-- A method is taken, whatever follows it. -/
theorem method_takes {m : Method} (hfresh : m.Fresh) (hlimit : m.terminals.length ≤ limit) :
    Takes (method value) Member.terminals Member.placeless (fun _ => True) (.method m) := by
  intro leaves rest hspans _
  obtain ⟨first, _, rfl, hfirst, hspans⟩ := Spans.cons_iff.1 hspans
  obtain ⟨second, _, rfl, hsecond, hspans⟩ := Spans.cons_iff.1 hspans
  obtain ⟨left, _, rfl, hopen, hspans⟩ := Spans.cons_iff.1 hspans
  obtain ⟨middle, hlist, hspans⟩ := Spans.append_iff.1 hspans
  obtain ⟨right, _, rfl, hclose, htail⟩ := Spans.cons_iff.1 hspans
  simp only [Method.terminals, List.length_cons, List.length_append] at hlimit
  have hslots : ∀ slot ∈ m.parameters, Takes (parameter value) Slot.terminals Slot.placeless
      (fun t => t ≠ .mark .leftParen ∧ t ≠ .mark .equals) slot := by
    intro slot hslot
    have hle := length_le_commaSeparated (List.mem_map_of_mem (f := Slot.terminals) hslot)
    exact parameter_takes hvalue (hfresh.1 slot hslot) (by omega)
  have hrefuses : Refuses (parameter value) (· = .mark .rightParen) :=
    bind_refuses (bind_refuses (fun others hothers => name_refuses others (hothers.imp (by
      rintro t rfl
      simp))) _) _
  obtain ⟨slots, hslots, heqs⟩ :=
    separated_takes hslots (by simp) (by simp) (by simp) hrefuses _ _ hlist (by simp [hclose])
  obtain ⟨body, hbody, heq⟩ :=
    methodTail_takes hvalue hfresh.2 (by omega) _ _ htail (fun _ _ => trivial)
  refine ⟨.method { m with position := first.position, parameters := slots, body }, ?_, ?_⟩
  · simp [method, typedName, hfirst, hsecond, hopen, hslots, hclose, hbody]
  · simp [Member.placeless, Method.placeless, heqs, heq]

/-- A stored attribute is taken, whatever follows it. -/
theorem stored_takes {slot : Slot} (hfresh : slot.Fresh)
    (hlimit : (slot.defaultTerminals .assign).length ≤ limit) :
    Takes (stored value) Member.terminals Member.placeless (fun _ => True)
      (.attribute true slot) := by
  intro leaves rest hspans _
  obtain ⟨first, _, rfl, hfirst, hspans⟩ := Spans.cons_iff.1 hspans
  obtain ⟨second, _, rfl, hsecond, hspans⟩ := Spans.cons_iff.1 hspans
  obtain ⟨third, _, rfl, hthird, hspans⟩ := Spans.cons_iff.1 hspans
  obtain ⟨middle, hdefault, hspans⟩ := Spans.append_iff.1 hspans
  obtain ⟨last, _, rfl, hlast, hspans⟩ := Spans.cons_iff.1 hspans
  obtain rfl := Spans.nil_iff.1 hspans
  rw [Slot.defaultTerminals_eq] at hdefault
  obtain ⟨found?, hfound, heq⟩ :=
    default_takes hvalue .assign hfresh hlimit _ _ hdefault (by simp [hlast])
  refine ⟨.attribute true { slot with position := first.position, default? := found? }, ?_, ?_⟩
  · simp [stored, hfirst, hsecond, hthird, hfound, hlast]
  · simp [Member.placeless, Slot.placeless, heq]

/-- No method is found where an attribute stands, and no stored attribute where one is only
announced. -/
theorem member_takes {m : Member} (hfresh : m.Fresh) (hlimit : m.terminals.length ≤ limit) :
    Takes (member value) Member.terminals Member.placeless (fun _ => True) m := by
  intro leaves rest hspans hrest
  rcases m with ⟨_ | _, slot⟩ | m
  · obtain ⟨found, hfound, heq⟩ := announced_takes hfresh leaves rest hspans hrest
    obtain ⟨first, _, rfl, hfirst, hspans⟩ := Spans.cons_iff.1 hspans
    obtain ⟨second, _, rfl, hsecond, hspans⟩ := Spans.cons_iff.1 hspans
    obtain ⟨third, others, rfl, hthird, -⟩ := Spans.cons_iff.1 hspans
    have hmethod : (method value (first :: second :: third :: others)).result = none := by
      simp [method, typedName, hfirst, hsecond, hthird]
    have hstored : (stored value (first :: second :: third :: others)).result = none := by
      simp [stored, hfirst, hsecond]
    exact ⟨found, by simp [member, hmethod, hstored, hfound], heq⟩
  · have hlength : (slot.defaultTerminals .assign).length ≤ limit := by
      simp only [Member.terminals, List.length_cons, List.length_append] at hlimit
      omega
    obtain ⟨found, hfound, heq⟩ := stored_takes hvalue hfresh hlength leaves rest hspans hrest
    obtain ⟨first, _, rfl, hfirst, hspans⟩ := Spans.cons_iff.1 hspans
    obtain ⟨second, others, rfl, hsecond, -⟩ := Spans.cons_iff.1 hspans
    have hmethod : (method value (first :: second :: others)).result = none := by
      simp [method, typedName, hfirst, hsecond]
    exact ⟨found, by simp [member, hmethod, hfound], heq⟩
  · obtain ⟨found, hfound, heq⟩ := method_takes hvalue hfresh hlimit leaves rest hspans hrest
    exact ⟨found, by simp [member, hfound], heq⟩

/-! ## Declarations -/

/-- A declaration is taken, whatever follows it. -/
theorem declaration_takes {decl : Decl} (hfresh : decl.Fresh)
    (hlimit : decl.terminals.length ≤ limit) :
    Takes (declaration value) Decl.terminals Decl.placeless (fun _ => True) decl := by
  intro leaves rest hspans _
  obtain ⟨hkind, hne, hfresh⟩ := hfresh
  obtain ⟨first, _, rfl, hfirst, hspans⟩ := Spans.cons_iff.1 hspans
  obtain ⟨second, _, rfl, hsecond, hspans⟩ := Spans.cons_iff.1 hspans
  obtain ⟨middle, hlisted, hspans⟩ := Spans.append_iff.1 hspans
  obtain ⟨colon, _, rfl, hcolon, hspans⟩ := Spans.cons_iff.1 hspans
  obtain ⟨newline, _, rfl, hnewline, hspans⟩ := Spans.cons_iff.1 hspans
  obtain ⟨indent, _, rfl, hindent, hspans⟩ := Spans.cons_iff.1 hspans
  obtain ⟨block, hblock, hspans⟩ := Spans.append_iff.1 hspans
  obtain ⟨dedent, _, rfl, hdedent, hspans⟩ := Spans.cons_iff.1 hspans
  obtain rfl := Spans.nil_iff.1 hspans
  have hmembers : ∀ m ∈ decl.members, Takes (member value) Member.terminals Member.placeless
      (fun _ => True) m := by
    intro m hm
    refine member_takes hvalue (hfresh m hm) ?_
    have hle : m.terminals.length ≤ (decl.members.flatMap Member.terminals).length :=
      length_le_flatMap hm
    simp only [Decl.terminals, List.length_cons, List.length_append] at hlimit
    omega
  obtain ⟨listed, hfound, heq⟩ := interfaces_takes _ hlisted (by simp [hcolon])
  obtain ⟨members, hread, heqs⟩ := many1_takes hne hmembers (fun m _ => m.terminals_ne_nil)
    (fun _ _ _ _ => trivial) hblock (fun _ _ => trivial)
    (member_refuses value _ (by simp [hdedent]))
  refine ⟨{ decl with
    position := first.position, interfaces := listed.getD [], members, kind := none }, ?_, ?_⟩
  · simp [declaration, result_keyword, result_colonLine, hfirst, hsecond, hfound, hcolon, hnewline,
      hindent, hread, hdedent]
  · simp [Decl.placeless, heq, heqs, hkind]

/-- A source that spells fresh declarations is read as those declarations. -/
theorem program_takes {decls : List Decl} (hfresh : ∀ decl ∈ decls, decl.Fresh)
    (hlimit : (decls.flatMap Decl.terminals).length ≤ limit) {leaves rest : List Leaf}
    (hspans : Spans leaves (decls.flatMap Decl.terminals) rest)
    (hrest : rest.head?.map (·.terminal) = some .endOfInput) :
    ∃ found, (program value leaves).result = some (found, rest) ∧
      found.map Decl.placeless = decls.map Decl.placeless := by
  obtain ⟨first, others, rfl⟩ : ∃ first others, rest = first :: others := by
    cases rest with
    | nil => cases hrest
    | cons first others => exact ⟨first, others, rfl⟩
  have hfirst : first.terminal = .endOfInput := by simpa using hrest
  have hdecls : ∀ decl ∈ decls, Takes (declaration value) Decl.terminals Decl.placeless
      (fun _ => True) decl := by
    intro decl hdecl
    exact declaration_takes hvalue (hfresh decl hdecl)
      (Nat.le_trans (length_le_flatMap hdecl) hlimit)
  -- The end of the input starts no declaration, so the repetition stops there.
  have hstop : (declaration value (first :: others)).result = none := by
    simp [declaration, result_keyword, hfirst]
  obtain ⟨found, hfound, heq⟩ := many_takes hdecls (by simp [Decl.terminals])
    (fun _ _ _ _ => trivial) hspans (fun _ _ => trivial) hstop
  exact ⟨found, by simp [program, endOfInput, hfound, hfirst], heq⟩

end

end Descent

end EoJava.Grammar
