import EoJava.Proofs.Token.Tiling

/-!
# Open blocks

What is open after a part of a scan can be told from the lexemes alone: an indent opens a block as
wide as its line, a dedent closes the innermost one. A scan keeps this in step with its layout, so
every depth that it reports is the number of blocks open (`counts_of_source`), and layout is met
outside parentheses only, but for the blocks that the end of the source closes
(`outside_of_source`).
-/

namespace EoJava

/-- The lexeme is layout or the end of a line. -/
def Lexeme.isLayout : Lexeme → Bool
  | .indent _ | .dedent _ | .newline => true
  | _ => false

/-! ## Nested widths -/

namespace Layout

/-- The levels of open blocks get wider inwards. -/
def Nested (widths : List Nat) : Prop :=
  (levels widths).Pairwise (· < ·)

/-- The block that was opened last is the last of the levels. -/
theorem levels_cons (width : Nat) (widths : List Nat) :
    levels (width :: widths) = levels widths ++ [width] := by
  simp [levels]

/-- Where no block is open, blocks are nested. -/
theorem nested_nil : Nested [] :=
  List.pairwise_singleton ..

/-- No level is wider than the innermost block. -/
theorem Nested.le_top {widths : List Nat} (h : Nested widths) : ∀ level ∈ levels widths,
    level ≤ top widths := by
  intro level hlevel
  cases widths with
  | nil => exact Nat.le_of_eq (List.mem_singleton.1 hlevel)
  | cons width widths =>
      rw [Nested, levels_cons] at h
      rw [levels_cons] at hlevel
      rcases List.mem_append.1 hlevel with hlevel | hlevel
      · exact Nat.le_of_lt ((List.pairwise_append.1 h).2.2 level hlevel width (by simp))
      · exact Nat.le_of_eq (List.mem_singleton.1 hlevel)

/-- The width of the innermost block is one of the levels. -/
theorem top_mem_levels (widths : List Nat) : top widths ∈ levels widths := by
  cases widths <;> simp [levels, top]

/-- A block is inside the others if it is wider than the innermost one. -/
theorem nested_cons_iff {width : Nat} {widths : List Nat} :
    Nested (width :: widths) ↔ top widths < width ∧ Nested widths := by
  rw [Nested, levels_cons, List.pairwise_append]
  constructor
  · rintro ⟨hnested, -, hlt⟩
    exact ⟨hlt _ (top_mem_levels widths) width (by simp), hnested⟩
  · rintro ⟨hlt, hnested⟩
    refine ⟨hnested, List.pairwise_singleton .., fun level hlevel other hother => ?_⟩
    rw [List.mem_singleton.1 hother]
    exact Nat.lt_of_le_of_lt (Nested.le_top hnested level hlevel) hlt

end Layout

/-! ## What is open -/

namespace Scan

/-- The number of tabs and spaces that a line starts with, by the number of the line. -/
def widthAt (texts : List (List Char)) (line : Int) : Nat :=
  (texts[(line - 1).toNat]?.map Text.indentWidth).getD 0

/-- What is open after a part of a scan: the widths of the blocks, innermost first, and the number
of parentheses. -/
structure Opened where
  widths : List Nat := []
  parens : Nat := 0
deriving DecidableEq, Repr

namespace Opened

/-- What a layout says is open. -/
def of (layout : Layout) : Opened :=
  ⟨layout.widths, layout.depth⟩

/-- What is open has the widths of the layout. -/
@[simp]
theorem widths_of (layout : Layout) : (of layout).widths = layout.widths :=
  rfl

/-- What is open after one more lexeme. -/
def step (texts : List (List Char)) (s : Opened) (found : Located Lexeme) : Opened :=
  match found.value with
  | .indent _ => { s with widths := widthAt texts found.position.line :: s.widths }
  | .dedent _ => { s with widths := s.widths.tail }
  | lexeme => { s with parens := lexeme.depthAfter s.parens }

/-- What is open after lexemes. -/
def after (texts : List (List Char)) (s : Opened) (met : List (Located Lexeme)) : Opened :=
  met.foldl (step texts) s

variable {texts : List (List Char)}

/-- Without lexemes, nothing is opened or closed. -/
@[simp]
theorem after_nil (s : Opened) : s.after texts [] = s :=
  rfl

/-- The first lexeme opens or closes something before the others do. -/
@[simp]
theorem after_cons (s : Opened) (found : Located Lexeme) (met : List (Located Lexeme)) :
    s.after texts (found :: met) = (s.step texts found).after texts met :=
  rfl

/-- Lexemes open and close from the first to the last. -/
@[simp]
theorem after_append (s : Opened) (met more : List (Located Lexeme)) :
    s.after texts (met ++ more) = (s.after texts met).after texts more :=
  List.foldl_append

/-- A lexeme with content opens and closes no block. -/
theorem step_content (s : Opened) {found : Located Lexeme}
    (h : found.value.terminal.kind.isContent) :
    s.step texts found = ⟨s.widths, found.value.depthAfter s.parens⟩ := by
  obtain ⟨position, lexeme⟩ := found
  cases lexeme with
  | indent | dedent | newline | endOfInput => cases h
  | mark | name | string | number => rfl

end Opened

/-! ## Conditions on every lexeme -/

/-- The depth of a layout lexeme is the number of blocks open after it, and a block that is closed
was open. -/
def Counts (s : Opened) : Lexeme → Prop
  | .indent depth => depth = s.widths.length + 1
  | .dedent depth => s.widths.length = depth + 1
  | _ => True

/-- Layout is met outside parentheses. -/
def Outside (s : Opened) (lexeme : Lexeme) : Prop :=
  lexeme.isLayout → s.parens = 0

section

variable {texts : List (List Char)} {P Q : Opened → Lexeme → Prop}

/-- Every lexeme has a property in what is open before it. -/
def Along (texts : List (List Char)) (P : Opened → Lexeme → Prop) :
    Opened → List (Located Lexeme) → Prop
  | _, [] => True
  | s, found :: met => P s found.value ∧ Along texts P (s.step texts found) met

/-- Lexemes in turn have a property in what is open exactly if both parts do. -/
theorem along_append {s : Opened} {met more : List (Located Lexeme)} :
    Along texts P s (met ++ more) ↔
      Along texts P s met ∧ Along texts P (s.after texts met) more := by
  induction met generalizing s with
  | nil => simp [Along]
  | cons found met ih => simp [Along, ih, and_assoc]

/-- A property that all lexemes have gives any looser one. -/
theorem Along.imp (hsub : ∀ s lexeme, P s lexeme → Q s lexeme) {s : Opened}
    {met : List (Located Lexeme)} (h : Along texts P s met) : Along texts Q s met := by
  induction met generalizing s with
  | nil => trivial
  | cons found met ih => exact ⟨hsub _ _ h.1, ih h.2⟩

/-- A lexeme has the property in what is open after those before it. -/
theorem Along.at {s : Opened} {before after : List (Located Lexeme)} {found : Located Lexeme}
    (h : Along texts P s (before ++ found :: after)) : P (s.after texts before) found.value :=
  (along_append.1 h).2.1

/-! ## Readings -/

/-- A reading that starts with something open meets only lexemes with a property, and if it ends
well, its result fits what is open then. -/
structure Keeps {α : Type} (texts : List (List Char)) (P : Opened → Lexeme → Prop) (s : Opened)
    (reading : Reading α) (post : α → Opened → Prop) : Prop where
  along : Along texts P s reading.lexemes
  ends : ∀ a, reading.outcome = .ok a → post a (s.after texts reading.lexemes)

variable {α β : Type} {s : Opened} {post : α → Opened → Prop} {last : β → Opened → Prop}

/-- A reading that meets nothing keeps what is open. -/
theorem keeps_pure {a : α} (h : post a s) : Keeps texts P s (pure a) post :=
  ⟨trivial, fun _ heq => by cases heq; exact h⟩

/-- A reading that meets one lexeme keeps what this one allows. -/
theorem keeps_emit {position : Position} {lexeme : Lexeme} {R : Unit → Opened → Prop}
    (hlexeme : P s lexeme) (h : R () (s.step texts ⟨position, lexeme⟩)) :
    Keeps texts P s (Reading.emit position lexeme) R :=
  ⟨⟨hlexeme, trivial⟩, fun _ _ => h⟩

/-- A reading that fails meets nothing more. -/
theorem keeps_fail (position : Position) (problem : Problem) :
    Keeps texts P s (Reading.fail position problem) post :=
  ⟨trivial, nofun⟩

/-- Two readings in turn keep what each of them does. -/
theorem Keeps.bind {first : Reading α} {next : α → Reading β} (hfirst : Keeps texts P s first post)
    (hnext : ∀ a t, post a t → Keeps texts P t (next a) last) :
    Keeps texts P s (first >>= next) last := by
  obtain ⟨earlier, problem | a⟩ := first
  · exact ⟨hfirst.along, nofun⟩
  · have hlater := hnext a _ (hfirst.ends a rfl)
    exact ⟨along_append.2 ⟨hfirst.along, hlater.along⟩, fun b hb => by
      rw [Reading.ok_bind]
      exact Opened.after_append s earlier _ ▸ hlater.ends b hb⟩

end

/-! ## Layout -/

/-- Layout counts, and it is met outside parentheses. -/
def Legal (s : Opened) (lexeme : Lexeme) : Prop :=
  Counts s lexeme ∧ Outside s lexeme

/-- A lexeme that is content is met in any state. -/
theorem legal_content {s : Opened} {lexeme : Lexeme} (h : lexeme.terminal.kind.isContent) :
    Legal s lexeme := by
  cases lexeme with
  | indent | dedent | newline | endOfInput => cases h
  | mark | name | string | number => exact ⟨trivial, nofun⟩

variable {texts : List (List Char)} {number : Int}

/-- Blocks are closed one by one. -/
theorem keeps_close (width : Nat) {widths : List Nat} (h : Layout.Nested widths) :
    Keeps texts Legal ⟨widths, 0⟩ (Layout.close number width widths)
      fun remaining t => t = ⟨remaining, 0⟩ ∧ Layout.Nested remaining := by
  induction widths with
  | nil => exact keeps_pure ⟨rfl, h⟩
  | cons top widths ih =>
      rw [Layout.close]
      split
      · refine (keeps_emit (R := fun _ t => t = ⟨widths, 0⟩) ⟨rfl, fun _ => rfl⟩ rfl).bind ?_
        rintro _ _ rfl
        exact ih (Layout.nested_cons_iff.1 h).2
      · exact keeps_pure ⟨rfl, h⟩

/-- The width of a line opens a block or closes some. -/
theorem keeps_readWidth {widths : List Nat} (h : Layout.Nested widths) :
    Keeps texts Legal ⟨widths, 0⟩ (Layout.readWidth number (widthAt texts number) widths)
      fun found t => t = ⟨found, 0⟩ ∧ Layout.Nested found := by
  unfold Layout.readWidth
  split
  · next hlt =>
      refine (keeps_emit (R := fun _ t => t = ⟨widthAt texts number :: widths, 0⟩)
        ⟨rfl, fun _ => rfl⟩ rfl).bind ?_
      rintro _ _ rfl
      exact keeps_pure ⟨rfl, Layout.nested_cons_iff.2 ⟨hlt, h⟩⟩
  · refine (keeps_close _ h).bind fun remaining t ht => ?_
    split
    · exact keeps_pure ht
    · exact keeps_fail _ _

/-- Reading the style of a line opens and closes nothing. -/
theorem keeps_readStyle (layout : Layout) (space : List Char) (s : Opened) :
    Keeps texts Legal s (layout.readStyle number space) fun _ t => t = s := by
  unfold Layout.readStyle
  split
  · exact keeps_pure rfl
  · split
    · exact keeps_fail _ _
    · split
      · exact keeps_pure rfl
      · split
        · exact keeps_pure rfl
        · exact keeps_fail _ _

/-- A line that starts outside parentheses leaves the layout with what is open. -/
theorem keeps_enter {layout : Layout} {text : List Char}
    (hwidth : widthAt texts number = Text.indentWidth text) (hdepth : layout.depth = 0)
    (h : Layout.Nested layout.widths) :
    Keeps texts Legal (.of layout) (layout.enter number text)
      fun next t => t = .of next ∧ Layout.Nested next.widths := by
  refine (keeps_readStyle layout _ _).bind ?_
  rintro style _ rfl
  rw [Opened.of, hdepth, ← hwidth]
  exact (keeps_readWidth h).bind fun widths t ht => keeps_pure ht

/-! ## Lines -/

/-- Lexemes with content change the open parentheses only. -/
theorem keeps_content (widths : List Nat) (depth : Nat) (cursor : Text.Cursor) :
    Keeps texts Legal ⟨widths, depth⟩ (content number depth cursor)
      fun last t => t = ⟨widths, last⟩ := by
  fun_induction content number depth cursor with
  | case1 => exact keeps_pure rfl
  | case2 depth cursor c rest hrest hgap ih => exact ih
  | case3 => exact keeps_pure rfl
  | case4 depth cursor c rest hrest hgap hcomment lexeme after hmet ih =>
      have hcontent := Lexing.isContent_of_next? hmet
      refine (keeps_emit (R := fun _ t => t = ⟨widths, lexeme.depthAfter depth⟩)
        (legal_content hcontent) (Opened.step_content _ hcontent)).bind ?_
      rintro _ _ rfl
      exact ih
  | case5 => exact keeps_fail _ _

/-- A line is read outside parentheses to its end if it has one. -/
theorem keeps_settled (text : List Char) {layout : Layout} (h : Layout.Nested layout.widths) :
    Keeps texts Legal (.of layout) (settled number text layout)
      fun next t => t = .of next ∧ Layout.Nested next.widths := by
  rw [settled_eq]
  refine (keeps_content layout.widths layout.depth _).bind ?_
  rintro depth _ rfl
  by_cases hdepth : depth = 0
  · rw [if_pos hdepth]
    exact ⟨⟨⟨trivial, fun _ => hdepth⟩, trivial⟩, fun _ heq => by cases heq; exact ⟨rfl, h⟩⟩
  · rw [if_neg hdepth]
    exact ⟨trivial, fun _ heq => by cases heq; exact ⟨rfl, h⟩⟩

/-- A line leaves the layout with what is open. -/
theorem keeps_line {layout : Layout} {text : List Char}
    (hwidth : widthAt texts number = Text.indentWidth text) (h : Layout.Nested layout.widths) :
    Keeps texts Legal (.of layout) (line number layout text)
      fun next t => t = .of next ∧ Layout.Nested next.widths := by
  cases hbare : Text.holdsNothing text with
  | true =>
      rw [line_of_bare number layout hbare]
      exact keeps_pure ⟨rfl, h⟩
  | false =>
      by_cases hdepth : layout.depth = 0
      · rw [line_of_outside number hbare hdepth]
        refine (keeps_enter hwidth hdepth h).bind ?_
        rintro next _ ⟨rfl, hnested⟩
        exact keeps_settled text hnested
      · rw [line_of_inside number hbare hdepth]
        exact keeps_settled text h

/-- The width of a line is that of its indentation. -/
theorem widthAt_append (done : List (List Char)) (text : List Char) (more : List (List Char)) :
    widthAt (done ++ text :: more) (1 + done.length) = Text.indentWidth text := by
  rw [widthAt, show (1 + (done.length : Int) - 1).toNat = done.length by omega]
  simp

/-- A run of lines of a source leaves the layout with what is open. -/
theorem keeps_run {done more : List (List Char)} (htexts : done ++ more <+: texts)
    (hnumber : number = 1 + done.length) {layout : Layout} (h : Layout.Nested layout.widths) :
    Keeps texts Legal (.of layout) (lines number layout more)
      fun last t => t = .of last.2 ∧ Layout.Nested last.2.widths := by
  induction more generalizing done number layout with
  | nil => exact keeps_pure ⟨rfl, h⟩
  | cons text more ih =>
      have hwidth : widthAt texts number = Text.indentWidth text := by
        obtain ⟨rest, rfl⟩ := htexts
        rw [hnumber, List.append_assoc, List.cons_append, widthAt_append]
      refine (keeps_line hwidth h).bind ?_
      rintro next _ ⟨rfl, hnested⟩
      have hmore : (done ++ [text]) ++ more <+: texts := by simpa using htexts
      refine ih hmore ?_ hnested
      rw [hnumber, List.length_append, List.length_singleton]
      omega

/-- The first lines of a source leave the layout with what is open. -/
theorem keeps_lines {first : List (List Char)} (h : first <+: texts) :
    Keeps texts Legal {} (lines 1 {} first)
      fun last t => t = .of last.2 ∧ Layout.Nested last.2.widths := by
  have hstart : Layout.Nested ({} : Layout).widths := Layout.nested_nil
  exact keeps_run (show [] ++ first <+: texts from h) (by simp) hstart

/-- The blocks that are open are closed at the end of a source. -/
theorem keeps_closeAll (widths : List Nat) (parens : Nat) :
    Keeps texts Counts ⟨widths, parens⟩ (closeAll number widths) fun _ t => t = ⟨[], parens⟩ := by
  induction widths with
  | nil => exact keeps_pure rfl
  | cons width widths ih =>
      refine (keeps_emit (R := fun _ t => t = ⟨widths, parens⟩) rfl rfl).bind ?_
      rintro _ _ rfl
      exact ih

/-! ## Sources -/

/-- The number of indents among lexemes less that of dedents. -/
def blocks (met : List (Located Lexeme)) : Int :=
  (met.countP fun found => found.value.kind == .indent) -
    met.countP fun found => found.value.kind == .dedent

/-- The number of blocks open after lexemes that count is that of indents less dedents. -/
theorem length_after {s : Opened} {met : List (Located Lexeme)} (h : Along texts Counts s met) :
    ((s.after texts met).widths.length : Int) = s.widths.length + blocks met := by
  induction met generalizing s with
  | nil => simp [blocks]
  | cons found met ih =>
      obtain ⟨position, lexeme⟩ := found
      have hlater := ih h.2
      have hfound := h.1
      cases lexeme with
      | indent depth =>
          simp only [Opened.after_cons, blocks, List.countP_cons, Lexeme.kind, Opened.step,
            List.length_cons] at hlater ⊢
          simp only [beq_self_eq_true, (by decide : (Kind.indent == Kind.dedent) = false), if_true,
            Bool.false_eq_true, if_false]
          omega
      | dedent depth =>
          have hlength : s.widths.tail.length + 1 = s.widths.length := by
            rw [List.length_tail]
            have hopen : s.widths.length = depth + 1 := hfound
            omega
          simp only [Opened.after_cons, blocks, List.countP_cons, Lexeme.kind, Opened.step]
            at hlater ⊢
          simp only [beq_self_eq_true, (by decide : (Kind.dedent == Kind.indent) = false), if_true,
            Bool.false_eq_true, if_false]
          omega
      | newline | mark | name | string | number | endOfInput => exact hlater

/-- The parentheses open after lexemes are those open after their terminals. -/
theorem parens_after (s : Opened) (met : List (Located Lexeme)) :
    (s.after texts met).parens = openAfter s.parens (met.map (·.value.terminal)) := by
  induction met generalizing s with
  | nil => rfl
  | cons found met ih =>
      obtain ⟨position, lexeme⟩ := found
      rw [Opened.after_cons, ih, List.map_cons, openAfter_cons, lexeme.depthAfter_terminal]
      cases lexeme <;> rfl

/-- What closes the open blocks at the end of a source, and the end of it. -/
def Closing (met : List (Located Lexeme)) : Prop :=
  ∃ dedents position, met = dedents ++ [⟨position, .endOfInput⟩] ∧
    ∀ found ∈ dedents, found.value.kind = .dedent

/-- Lexemes are laid out in blocks: at no point are more blocks closed than were opened, the depth
of a layout lexeme is the number of blocks open after it, and layout is met outside parentheses, but
for the dedents that close a source. -/
structure Laid (met : List (Located Lexeme)) : Prop where
  nonneg : ∀ before, before <+: met → 0 ≤ blocks before
  counts : ∀ before found after (depth : Nat), met = before ++ found :: after →
    found.value = .indent depth ∨ found.value = .dedent depth → depth = blocks (before ++ [found])
  outside : ∀ before found after, met = before ++ found :: after → found.value.isLayout →
    openAfter 0 (before.map (·.value.terminal)) = 0 ∨ found.value.kind = .dedent ∧ Closing after

/-- At the end of a source the open blocks are closed, and there is no problem. -/
theorem close_source (last : Int) (widths : List Nat) :
    (closeAll last widths >>= fun _ => Reading.emit ⟨last, 1⟩ .endOfInput) =
      ⟨(closeAll last widths).lexemes ++ [⟨⟨last, 1⟩, .endOfInput⟩], .ok ()⟩ := by
  rcases hclose : closeAll last widths with ⟨closing, outcome⟩
  have hdone := outcome_closeAll last widths
  rw [hclose] at hdone
  obtain rfl : outcome = .ok () := hdone
  rfl

/-- A source is read as its lines, and if these end well, its open blocks are closed. -/
theorem source_eq_lines (text : List Char) :
    (∃ met problem, lines 1 {} (Text.lines (Text.dropMark text)) = ⟨met, .error problem⟩ ∧
        source text = ⟨met, .error problem⟩) ∨
      ∃ met last layout, lines 1 {} (Text.lines (Text.dropMark text)) = ⟨met, .ok (last, layout)⟩ ∧
        source text = ⟨met ++ ((closeAll last layout.widths).lexemes ++ [⟨⟨last, 1⟩, .endOfInput⟩]),
          .ok ()⟩ := by
  rcases hlines : lines 1 {} (Text.lines (Text.dropMark text)) with ⟨met, problem | ⟨last, layout⟩⟩
  · refine .inl ⟨met, problem, rfl, ?_⟩
    rw [source, hlines]
    rfl
  · refine .inr ⟨met, last, layout, rfl, ?_⟩
    rw [source, hlines, Reading.ok_bind]
    exact congrArg (Reading.after met) (close_source last layout.widths)

/-- Lexemes that count, with layout outside parentheses up to where the source is closed, are laid
out in blocks. -/
theorem laid_of_counts {met : List (Located Lexeme)} (hcounts : Along texts Counts {} met)
    (houtside : ∀ before found after, met = before ++ found :: after → found.value.isLayout →
      (Opened.after texts {} before).parens = 0 ∨ found.value.kind = .dedent ∧ Closing after) :
    Laid met where
  nonneg before hbefore := by
    obtain ⟨after, rfl⟩ := hbefore
    have hlength := length_after (along_append.1 hcounts).1
    simp only [List.length_nil] at hlength
    omega
  counts before found after depth hmet hfound := by
    subst hmet
    have hat := hcounts.at
    rw [show before ++ found :: after = (before ++ [found]) ++ after by simp] at hcounts
    have hlength := length_after (along_append.1 hcounts).1
    obtain ⟨position, lexeme⟩ := found
    simp only [Opened.after_append, Opened.after_cons, Opened.after_nil] at hlength
    rcases hfound with rfl | rfl
    · have hdepth : depth = (Opened.after texts {} before).widths.length + 1 := hat
      simp only [Opened.step, List.length_cons, List.length_nil] at hlength
      omega
    · have hdepth : (Opened.after texts {} before).widths.length = depth + 1 := hat
      simp only [Opened.step, List.length_tail, List.length_nil] at hlength
      omega
  outside before found after hmet hlayout := by
    have hopen := houtside before found after hmet hlayout
    rwa [parens_after] at hopen

/-- Layout among what closes a source is a dedent, and what follows it closes the source. -/
theorem closing_of_append {dedents rest after : List (Located Lexeme)} {position : Position}
    {found : Located Lexeme} (hdedents : ∀ found ∈ dedents, found.value.kind = .dedent)
    (h : dedents ++ [⟨position, .endOfInput⟩] = rest ++ found :: after)
    (hlayout : found.value.isLayout) : found.value.kind = .dedent ∧ Closing after := by
  rcases List.append_eq_append_iff.1 h with ⟨more, -, hmore⟩ | ⟨more, rfl, hmore⟩
  · cases more with
    | nil =>
        cases hmore
        cases hlayout
    | cons other more => simp at hmore
  · cases more with
    | nil =>
        cases hmore
        cases hlayout
    | cons other more =>
        cases hmore
        refine ⟨hdedents _ (by simp), more, position, rfl, fun found hfound => hdedents _ ?_⟩
        simp [hfound]

/-- The lexemes of any source are laid out in blocks, also if the scan stops at a problem. -/
theorem laid_source (text : List Char) : Laid (source text).lexemes := by
  have hkeeps := keeps_lines (List.prefix_refl (Text.lines (Text.dropMark text)))
  obtain ⟨met, problem, hlines, hsource⟩ | ⟨met, last, layout, hlines, hsource⟩ :=
    source_eq_lines text
  · rw [hlines] at hkeeps
    rw [hsource]
    refine laid_of_counts (hkeeps.along.imp fun _ _ h => h.1)
      fun before found after heq hlayout => ?_
    have halong := hkeeps.along
    rw [show met = before ++ found :: after from heq] at halong
    exact .inl (halong.at.2 hlayout)
  · rw [hlines] at hkeeps
    obtain ⟨hopen, -⟩ := hkeeps.ends _ rfl
    have hclosing : Keeps (Text.lines (Text.dropMark text)) Counts (.of layout)
        (closeAll last layout.widths) fun _ t => t = ⟨[], layout.depth⟩ := keeps_closeAll _ _
    have hdedents : ∀ found ∈ (closeAll last layout.widths).lexemes,
        found.value.kind = .dedent := by
      intro found hfound
      obtain ⟨depth, rfl⟩ :=
        (within_closeAll (Q := fun _ => True) last layout.widths).lexemes found hfound
      rfl
    rw [hsource]
    refine laid_of_counts (along_append.2 ⟨hkeeps.along.imp fun _ _ h => h.1, ?_⟩) ?_
    · rw [hopen]
      exact along_append.2 ⟨hclosing.along, trivial, trivial⟩
    · intro before found after heq hlayout
      -- The lexeme is one of the lines, or one of those that close the source.
      rcases List.append_eq_append_iff.1 heq with ⟨rest, -, hrest⟩ | ⟨rest, rfl, hrest⟩
      · exact .inr (closing_of_append hdedents hrest hlayout)
      · cases rest with
        | nil =>
            have hclosed : _ = [] ++ found :: after := hrest.symm
            exact .inr (closing_of_append hdedents hclosed hlayout)
        | cons other rest =>
            cases hrest
            exact .inl (hkeeps.along.at.2 hlayout)

/-- A source that is read to its end closes all blocks before its end. -/
theorem balanced_source {text : List Char} {met : List (Located Lexeme)}
    (h : source text = ⟨met, .ok ()⟩) :
    ∃ init position, met = init ++ [⟨position, .endOfInput⟩] ∧ blocks init = 0 := by
  have hkeeps := keeps_lines (List.prefix_refl (Text.lines (Text.dropMark text)))
  obtain ⟨_, _, _, hsource⟩ | ⟨earlier, last, layout, hlines, hsource⟩ := source_eq_lines text
  · rw [h] at hsource
    cases hsource
  · rw [h] at hsource
    cases hsource
    rw [hlines] at hkeeps
    obtain ⟨hopen, -⟩ := hkeeps.ends _ rfl
    have hclosing : Keeps (Text.lines (Text.dropMark text)) Counts (.of layout)
        (closeAll last layout.widths) fun _ t => t = ⟨[], layout.depth⟩ := keeps_closeAll _ _
    have hend := hclosing.ends () (outcome_closeAll _ _)
    refine ⟨earlier ++ (closeAll last layout.widths).lexemes, ⟨last, 1⟩, by simp, ?_⟩
    have hall : Along (Text.lines (Text.dropMark text)) Counts {}
        (earlier ++ (closeAll last layout.widths).lexemes) :=
      along_append.2 ⟨hkeeps.along.imp fun _ _ h => h.1, hopen ▸ hclosing.along⟩
    have hlength := length_after hall
    rw [Opened.after_append, hopen, hend] at hlength
    simpa using hlength.symm

end Scan

end EoJava
