import EoJava.Proofs.Token.Moved

/-!
# Sources one after the other

What is met on a line does not depend on its number, and it depends on the style of the file only
in that another style is refused. So if two sources are read to their ends, and the first ends with
a line feed, the lexemes of both are met when they are read as one (`yields_source_append`): the
blocks that the first leaves open are closed by the first line of the second, as they would have
been by its end.
-/

namespace EoJava

open Grammar (Terminal)
open Text (isGap IndentStyle)

/-! ## Lines of two texts -/

namespace Text

/-- The lines of a text that is empty or ends with a line feed come before those of what follows. -/
theorem exists_lines_append {text : List Char} (h : text = [] ∨ text.getLast? = some '\n') :
    ∃ texts, ∀ more : List Char, more.head? ≠ some '\uFEFF' →
      lines (dropMark (text ++ more)) = texts ++ lines (dropMark more) := by
  rcases h with rfl | h
  · exact ⟨[], fun more _ => rfl⟩
  · obtain ⟨front, rfl⟩ := List.getLast?_eq_some_iff.1 h
    refine ⟨lines (dropMark front), fun more hmore => ?_⟩
    rw [List.append_assoc, List.singleton_append, dropMark_lineFeed, dropMark_of_head? hmore, lines,
      splitLines_lineFeed, List.map_append]
    rfl

end Text

/-! ## What a reading yields -/

namespace Reading

variable {α β : Type} {ts : List Terminal} {a : α} {b : β}

/-- A reading ends well with a result, and these are the terminals of what it meets. -/
def Yields (reading : Reading α) (ts : List Terminal) (a : α) : Prop :=
  ∃ met, reading = ⟨met, .ok a⟩ ∧ met.map (·.value.terminal) = ts

/-- A reading that meets nothing ends well with its own result. -/
theorem yields_pure_iff {other : α} :
    (pure other : Reading α).Yields ts a ↔ ts = [] ∧ other = a := by
  constructor
  · rintro ⟨met, hmet, rfl⟩
    obtain ⟨rfl, rfl⟩ := eq_pure_iff.1 hmet
    exact ⟨rfl, rfl⟩
  · rintro ⟨rfl, rfl⟩
    exact ⟨[], rfl, rfl⟩

/-- Nothing is met by a reading that only gives a result. -/
theorem yields_pure (a : α) : (pure a : Reading α).Yields [] a :=
  yields_pure_iff.2 ⟨rfl, rfl⟩

/-- A reading that meets one lexeme has its terminal. -/
theorem yields_emit (position : Position) (lexeme : Lexeme) :
    (emit position lexeme).Yields [lexeme.terminal] () :=
  ⟨_, rfl, rfl⟩

/-- A reading that fails does not end well. -/
theorem not_yields_fail (position : Position) (problem : Problem) :
    ¬ (fail position problem : Reading α).Yields ts a := by
  rintro ⟨met, hmet, -⟩
  cases hmet

/-- Readings in sequence yield the terminals of each. -/
theorem yields_bind_iff {first : Reading α} {next : α → Reading β} : (first >>= next).Yields ts b ↔
    ∃ a us vs, first.Yields us a ∧ (next a).Yields vs b ∧ ts = us ++ vs := by
  constructor
  · rintro ⟨met, hmet, rfl⟩
    obtain ⟨a, earlier, later, hfirst, hnext, rfl⟩ := bind_eq_ok_iff.1 hmet
    exact ⟨a, _, _, ⟨earlier, hfirst, rfl⟩, ⟨later, hnext, rfl⟩, List.map_append⟩
  · rintro ⟨a, _, _, ⟨earlier, hfirst, rfl⟩, ⟨later, hnext, rfl⟩, rfl⟩
    exact ⟨_, bind_eq_ok_iff.2 ⟨a, earlier, later, hfirst, hnext, rfl⟩, List.map_append⟩

/-- A reading that ends well does so in one way. -/
theorem Yields.unique {reading : Reading α} {us : List Terminal} {a' : α} (h : reading.Yields ts a)
    (h' : reading.Yields us a') : ts = us ∧ a = a' := by
  obtain ⟨met, hmet, rfl⟩ := h
  obtain ⟨met', hmet', rfl⟩ := h'
  cases hmet.symm.trans hmet'
  exact ⟨rfl, rfl⟩

/-- What a reading yields does not depend on places. -/
theorem Yields.move {reading : Reading α} {f : Int → Int} (h : reading.Yields ts a) :
    (reading.move f).Yields ts a := by
  obtain ⟨met, rfl, rfl⟩ := h
  exact ⟨_, rfl, by simp⟩

/-- If two readings end well in turn, the terminals of the second follow those of the first. -/
theorem Yields.bind {first : Reading α} {next : α → Reading β} {us : List Terminal}
    (hfirst : first.Yields ts a) (hnext : (next a).Yields us b) :
    (first >>= next).Yields (ts ++ us) b :=
  yields_bind_iff.2 ⟨a, ts, us, hfirst, hnext, rfl⟩

end Reading

/-! ## Layout -/

namespace Layout

open Reading (yields_pure yields_emit yields_pure_iff yields_bind_iff not_yields_fail)

variable {number other : Int} {ts : List Terminal} {widths next : List Nat} {space text : List Char}

/-- The blocks that a line opens or closes do not depend on its number. -/
theorem readWidth_number (other : Int) {width : Nat}
    (h : (readWidth number width widths).Yields ts next) :
    (readWidth other width widths).Yields ts next := by
  rw [← move_readWidth (f := fun _ => other) number]
  exact h.move

/-- All blocks are closed by a line without indentation. -/
theorem readWidth_zero (number : Int) (h : Nested widths) :
    (readWidth number 0 widths).Yields (List.replicate widths.length .dedent) [] := by
  have hclose : (close number 0 widths).Yields (List.replicate widths.length .dedent) [] := by
    induction widths with
    | nil => exact yields_pure _
    | cons width widths ih =>
        obtain ⟨hlt, hnested⟩ := nested_cons_iff.1 h
        rw [close, if_pos (Nat.zero_lt_of_lt hlt)]
        exact (yields_emit _ _).bind (ih hnested)
  rw [readWidth, if_neg (Nat.not_lt_zero _)]
  exact yields_bind_iff.2 ⟨[], _, [], hclose, yields_pure _, (List.append_nil _).symm⟩

/-- Whitespace is accepted if there is none, or if all of it is of one style, which is that of the
file if one is set. No lexeme is met. -/
theorem yields_readStyle_iff {layout : Layout} {found : Option IndentStyle} :
    (layout.readStyle number space).Yields ts found ↔ ts = [] ∧
      (space.head?.bind IndentStyle.ofChar? = none ∧ found = layout.style ∨
        ∃ style, space.head?.bind IndentStyle.ofChar? = some style ∧
          firstForeign? style space = none ∧ found = some style ∧
            ∀ expected ∈ layout.style, style = expected) := by
  unfold readStyle
  cases space.head?.bind IndentStyle.ofChar? with
  | none => simp [yields_pure_iff, eq_comm]
  | some style =>
      cases hforeign : firstForeign? style space with
      | some offset => simp [not_yields_fail, hforeign]
      | none =>
          cases hlayout : layout.style with
          | none => simp [yields_pure_iff, hforeign, eq_comm]
          | some expected =>
              by_cases hsame : style = expected
              · subst hsame
                simp [yields_pure_iff, hforeign, eq_comm]
              · simp [not_yields_fail, hforeign, hsame]

/-- The layout where a line is read in a joined source, and where it is read alone: the same is
open, and a style that is set where it is read alone is that of the joined source. -/
structure Like (joined alone : Layout) : Prop where
  widths : joined.widths = alone.widths
  depth : joined.depth = alone.depth
  style : ∀ style ∈ alone.style, joined.style = some style

/-- The style that is set in a joined source is not another one than is set alone. -/
def Agree (joined alone : Option IndentStyle) : Prop :=
  ∀ style ∈ joined, ∀ style' ∈ alone, style = style'

/-- Whitespace that is accepted where a line is read alone is accepted in the joined source. -/
theorem readStyle_joined (number : Int) {joined alone : Layout} {found : Option IndentStyle}
    (hstyle : ∀ style ∈ alone.style, joined.style = some style)
    (h : (alone.readStyle other space).Yields ts found) (hagree : Agree joined.style found) :
    ∃ style, (joined.readStyle number space).Yields ts style ∧ (∀ s ∈ found, style = some s) ∧
      (style = joined.style ∨ style = found) := by
  obtain ⟨rfl, ⟨hnone, rfl⟩ | ⟨style, hsome, hforeign, rfl, -⟩⟩ := yields_readStyle_iff.1 h
  · exact ⟨_, yields_readStyle_iff.2 ⟨rfl, .inl ⟨hnone, rfl⟩⟩, hstyle, .inl rfl⟩
  · have hjoined : ∀ expected ∈ joined.style, style = expected := fun expected hexpected =>
      (hagree expected hexpected style rfl).symm
    exact ⟨_, yields_readStyle_iff.2 ⟨rfl, .inr ⟨style, hsome, hforeign, rfl, hjoined⟩⟩,
      fun s hs => hs, .inr rfl⟩

/-- A style that is set stays the style. -/
theorem style_of_readStyle_of_some {layout : Layout} {found : Option IndentStyle}
    {style : IndentStyle} (hstyle : layout.style = some style)
    (h : (layout.readStyle number space).Yields ts found) : found = some style := by
  obtain ⟨-, ⟨-, rfl⟩ | ⟨other, -, -, rfl, hsame⟩⟩ := yields_readStyle_iff.1 h
  · exact hstyle
  · rw [hsame style hstyle]

/-- A line that settles the layout where it is read alone settles it in the joined source. -/
theorem enter_joined (number : Int) {joined alone entered : Layout} (hlike : Like joined alone)
    (h : (alone.enter other text).Yields ts entered) (hagree : Agree joined.style entered.style) :
    ∃ next, (joined.enter number text).Yields ts next ∧ Like next entered ∧
      (next.style = joined.style ∨ next.style = entered.style) := by
  obtain ⟨found, us, vs, hstyle, hrest, rfl⟩ := yields_bind_iff.1 h
  obtain ⟨widths, vs, ws, hwidths, hpure, rfl⟩ := yields_bind_iff.1 hrest
  obtain ⟨rfl, rfl⟩ := yields_pure_iff.1 hpure
  obtain ⟨style, hjoined, hsame, hcases⟩ := readStyle_joined number hlike.style hstyle hagree
  refine ⟨{ joined with style, widths }, ?_, ⟨rfl, hlike.depth, hsame⟩, hcases⟩
  have hwidth := readWidth_number number hwidths
  rw [← hlike.widths] at hwidth
  exact hjoined.bind (hwidth.bind (yields_pure _))

/-- A line does not change a style that is set. -/
theorem style_of_enter_of_some {layout entered : Layout} {style : IndentStyle}
    (hstyle : layout.style = some style) (h : (layout.enter number text).Yields ts entered) :
    entered.style = some style := by
  obtain ⟨found, us, vs, hfound, hrest, rfl⟩ := yields_bind_iff.1 h
  obtain ⟨widths, vs, ws, hwidths, hpure, rfl⟩ := yields_bind_iff.1 hrest
  obtain ⟨-, rfl⟩ := yields_pure_iff.1 hpure
  exact style_of_readStyle_of_some hstyle hfound

end Layout

namespace Scan

open Reading (yields_pure yields_emit yields_pure_iff yields_bind_iff not_yields_fail)
open Layout (Like Agree)

variable {number other : Int} {ts : List Terminal} {text : List Char}
  {joined alone next : Layout}

/-! ## Lines -/

/-- The terminals on a line do not depend on its number. -/
theorem content_number (other : Int) {depth final : Nat} {cursor : Text.Cursor}
    (h : (content number depth cursor).Yields ts final) :
    (content other depth cursor).Yields ts final := by
  rw [← move_content (f := fun _ => other) number]
  exact h.move

/-- A line whose layout is settled is read the same in the joined source. -/
theorem settled_joined (number : Int) (hlike : Like joined alone)
    (h : (settled other text alone).Yields ts next) :
    ∃ depth, (settled number text joined).Yields ts { joined with depth } ∧
      next = { alone with depth } := by
  rw [settled_eq] at h
  obtain ⟨depth, us, vs, hcontent, ⟨met, hend, rfl⟩, rfl⟩ := yields_bind_iff.1 h
  cases hend
  refine ⟨depth, ?_, rfl⟩
  rw [settled_eq, hlike.depth]
  refine (content_number number hcontent).bind ⟨_, rfl, ?_⟩
  split <;> rfl

/-- A line that is read alone is read in the joined source. -/
theorem line_joined (number : Int) (hlike : Like joined alone)
    (h : (line other alone text).Yields ts next) (hagree : Agree joined.style next.style) :
    ∃ found, (line number joined text).Yields ts found ∧ Like found next ∧
      (found.style = joined.style ∨ found.style = next.style) := by
  cases hbare : Text.holdsNothing text with
  | true =>
      rw [line_of_bare other alone hbare] at h
      obtain ⟨rfl, rfl⟩ := yields_pure_iff.1 h
      rw [line_of_bare number joined hbare]
      exact ⟨joined, yields_pure _, hlike, .inl rfl⟩
  | false =>
      by_cases hdepth : alone.depth = 0
      · rw [line_of_outside other hbare hdepth] at h
        obtain ⟨entered, us, vs, henter, hsettled, rfl⟩ := yields_bind_iff.1 h
        have hstyle : next.style = entered.style := by
          obtain ⟨_, hmet, -⟩ := hsettled
          exact style_of_settled hmet
        obtain ⟨start, hstart, hlike', hcases⟩ :=
          Layout.enter_joined number hlike henter (hstyle ▸ hagree)
        obtain ⟨depth, hread, rfl⟩ := settled_joined number hlike' hsettled
        rw [line_of_outside number hbare (hlike.depth.trans hdepth)]
        exact ⟨_, hstart.bind hread, ⟨hlike'.widths, rfl, hlike'.style⟩, hcases⟩
      · rw [line_of_inside other hbare hdepth] at h
        obtain ⟨depth, hread, rfl⟩ := settled_joined number hlike h
        rw [line_of_inside number hbare (hlike.depth ▸ hdepth)]
        exact ⟨_, hread, ⟨hlike.widths, rfl, hlike.style⟩, .inl rfl⟩

/-- A style that is set stays set. -/
theorem style_of_line_of_some {layout : Layout} {style : IndentStyle}
    (hstyle : layout.style = some style) (h : (line number layout text).Yields ts next) :
    next.style = some style := by
  cases hbare : Text.holdsNothing text with
  | true =>
      rw [line_of_bare number layout hbare] at h
      exact (yields_pure_iff.1 h).2 ▸ hstyle
  | false =>
      by_cases hdepth : layout.depth = 0
      · rw [line_of_outside number hbare hdepth] at h
        obtain ⟨entered, us, vs, henter, ⟨_, hsettled, -⟩, rfl⟩ := yields_bind_iff.1 h
        exact (style_of_settled hsettled).trans (Layout.style_of_enter_of_some hstyle henter)
      · rw [line_of_inside number hbare hdepth] at h
        obtain ⟨_, hsettled, -⟩ := h
        exact (style_of_settled hsettled).trans hstyle

/-- Lines do not change a style that is set. -/
theorem style_of_lines_of_some {layout : Layout} {style : IndentStyle} {texts : List (List Char)}
    {last : Int × Layout} (hstyle : layout.style = some style)
    (h : (lines number layout texts).Yields ts last) : last.2.style = some style := by
  induction texts generalizing number layout ts with
  | nil => exact (yields_pure_iff.1 h).2 ▸ hstyle
  | cons text texts ih =>
      obtain ⟨next, us, vs, hline, hlines, rfl⟩ := yields_bind_iff.1 h
      exact ih (style_of_line_of_some hstyle hline) hlines

/-- Lines that are read alone are read in the joined source. -/
theorem lines_joined (number : Int) {texts : List (List Char)} {last : Int × Layout}
    (hlike : Like joined alone) (h : (lines other alone texts).Yields ts last)
    (hagree : Agree joined.style last.2.style) :
    ∃ final, (lines number joined texts).Yields ts final ∧ Like final.2 last.2 := by
  induction texts generalizing number other joined alone ts with
  | nil =>
      obtain ⟨rfl, rfl⟩ := yields_pure_iff.1 h
      exact ⟨_, yields_pure _, hlike⟩
  | cons text texts ih =>
      obtain ⟨next, us, vs, hline, hlines, rfl⟩ := yields_bind_iff.1 h
      obtain ⟨found, hfound, hlike', hcases⟩ := line_joined number hlike hline
        fun style hstyle style' hstyle' =>
          hagree style hstyle style' (style_of_lines_of_some hstyle' hlines)
      -- The style after the line is the one before it, or one that the line sets alone as well,
      -- and that is still set at the end.
      have hagree' : Agree found.style last.2.style := fun style hstyle style' hstyle' => by
        rcases hcases with hcase | hcase
        · exact hagree style (hcase ▸ hstyle) style' hstyle'
        · have hlast := style_of_lines_of_some (hcase ▸ hstyle) hlines
          exact Option.some.inj (hlast.symm.trans hstyle')
      obtain ⟨final, hfinal, hlast⟩ := ih (number + 1) hlike' hlines hagree'
      exact ⟨final, hfound.bind hfinal, hlast⟩

/-! ## The end of a source -/

/-- Every open block is closed by one dedent. -/
theorem yields_closeAll (number : Int) (widths : List Nat) :
    (closeAll number widths).Yields (List.replicate widths.length .dedent) () := by
  induction widths with
  | nil => exact yields_pure _
  | cons width widths ih => exact (yields_emit _ _).bind ih

/-- The terminals that end a source with blocks open. -/
def ending (layout : Layout) : List Terminal :=
  List.replicate layout.widths.length .dedent ++ [.endOfInput]

/-- The end of a source closes its blocks and is the last of its terminals. -/
theorem yields_ending (last : Int × Layout) : (closeAll last.1 last.2.widths >>= fun _ =>
    Reading.emit ⟨last.1, 1⟩ .endOfInput).Yields (ending last.2) () :=
  (yields_closeAll _ _).bind (yields_emit _ _)

/-- The rest of a source is its lines and then its end. -/
theorem yields_rest_iff {layout : Layout} {texts : List (List Char)} :
    (rest number layout texts).Yields ts () ↔
      ∃ us last, (lines number layout texts).Yields us last ∧ ts = us ++ ending last.2 := by
  constructor
  · intro h
    obtain ⟨last, us, vs, hlines, hend, rfl⟩ := yields_bind_iff.1 h
    exact ⟨us, last, hlines, congrArg (us ++ ·) (hend.unique (yields_ending last)).1⟩
  · rintro ⟨us, last, hlines, rfl⟩
    exact hlines.bind (yields_ending last)

/-- What is read alone is read in the joined source. -/
theorem rest_joined (number : Int) {texts : List (List Char)} {last : Int × Layout}
    (hlike : Like joined alone) (h : (lines other alone texts).Yields ts last)
    (hagree : Agree joined.style last.2.style) :
    (rest number joined texts).Yields (ts ++ ending last.2) () := by
  obtain ⟨final, hfinal, hwidths, -⟩ := lines_joined number hlike h hagree
  refine yields_rest_iff.2 ⟨ts, final, hfinal, ?_⟩
  rw [ending, ending, hwidths]

/-! ## Where two sources meet -/

/-- A line that opens a block when none is open starts with an indent. -/
theorem head?_of_indented {layout : Layout} (hbare : Text.holdsNothing text = false)
    (hdepth : layout.depth = 0) (hwidths : layout.widths = []) (hwidth : 0 < Text.indentWidth text)
    (h : (line number layout text).Yields ts next) : ts.head? = some .indent := by
  rw [line_of_outside number hbare hdepth, Layout.enter, bind_assoc] at h
  obtain ⟨style, us, vs, hstyle, hrest, rfl⟩ := yields_bind_iff.1 h
  obtain ⟨rfl, -⟩ := Layout.yields_readStyle_iff.1 hstyle
  rw [hwidths, Layout.readWidth, Layout.top, if_pos hwidth, bind_assoc, bind_assoc] at hrest
  obtain ⟨_, us, vs, ⟨_, ⟨⟩, rfl⟩, -, rfl⟩ := yields_bind_iff.1 hrest
  rfl

/-- A line without indentation closes all blocks, and is otherwise read as if none were open. -/
theorem line_closing {style : Option IndentStyle} {widths : List Nat}
    (hnested : Layout.Nested widths) (hbare : Text.holdsNothing text = false)
    (hwidth : Text.indentWidth text = 0)
    (h : (line number ⟨style, [], 0⟩ text).Yields ts next) :
    (line number ⟨style, widths, 0⟩ text).Yields
      (List.replicate widths.length .dedent ++ ts) next := by
  have hspace : text.takeWhile isGap = [] := List.length_eq_zero_iff.1 hwidth
  have hstyle : ∀ layout : Layout, layout.readStyle number [] = pure layout.style := fun _ => rfl
  rw [line_of_outside number hbare rfl, Layout.enter, hspace, hstyle, pure_bind, hwidth,
    bind_assoc] at h ⊢
  obtain ⟨left, us, vs, hleft, hsettled, rfl⟩ := yields_bind_iff.1 h
  obtain ⟨rfl, rfl⟩ := hleft.unique (Layout.readWidth_zero number Layout.nested_nil)
  exact (Layout.readWidth_zero number hnested).bind hsettled

/-- What follows where blocks are open closes all of them first, unless it starts with an indent,
and is otherwise read as if none were open. -/
theorem rest_closing {style : Option IndentStyle} {widths : List Nat} {texts : List (List Char)}
    (hnested : Layout.Nested widths) (h : (rest number ⟨style, [], 0⟩ texts).Yields ts ())
    (hstart : ts.head? ≠ some .indent) :
    (rest number ⟨style, widths, 0⟩ texts).Yields
      (List.replicate widths.length .dedent ++ ts) () := by
  induction texts generalizing number ts with
  | nil =>
      obtain ⟨us, last, hlines, rfl⟩ := yields_rest_iff.1 h
      obtain ⟨rfl, rfl⟩ := yields_pure_iff.1 hlines
      exact yields_rest_iff.2 ⟨[], _, yields_pure _, rfl⟩
  | cons text texts ih =>
      rw [rest_cons] at h ⊢
      cases hbare : Text.holdsNothing text with
      | true =>
          -- A line that holds nothing leaves the blocks open for the next.
          rw [line_of_bare _ _ hbare, pure_bind] at h ⊢
          exact ih h hstart
      | false =>
          obtain ⟨next, us, vs, hline, hrest, rfl⟩ := yields_bind_iff.1 h
          rcases Nat.eq_zero_or_pos (Text.indentWidth text) with hwidth | hwidth
          · rw [← List.append_assoc]
            exact (line_closing hnested hbare hwidth hline).bind hrest
          · have hindent := head?_of_indented hbare rfl rfl hwidth hline
            exact absurd (by rw [List.head?_append, hindent]; rfl) hstart

/-- A source is indented with a style if one of its lines that settle the layout is. -/
def IndentsWith (source : List Char) (style : IndentStyle) : Prop :=
  ∃ i text, Governs (Text.lines (Text.dropMark source)) (Scan.source source).lexemes i text ∧
    (Text.indentation? text).bind IndentStyle.ofChar? = some style

/-- A source that is indented with a style has a line that is. -/
theorem IndentsWith.exists_line {source : List Char} {style : IndentStyle}
    (h : IndentsWith source style) : ∃ text ∈ Text.lines (Text.dropMark source),
      (Text.indentation? text).bind IndentStyle.ofChar? = some style := by
  obtain ⟨i, text, hgoverns, htext⟩ := h
  exact ⟨text, List.mem_of_getElem? hgoverns.get, htext⟩

/-- The style that is set after lines of a source that is read to its end is one it is indented
with. -/
theorem indentsWith_of_lines {source : List Char} {i : Nat} {us : List Terminal}
    {last : Int × Layout} (hsource : (Scan.source source).Yields ts ())
    (h : (lines 1 {} ((Text.lines (Text.dropMark source)).take i)).Yields us last) :
    ∀ style ∈ last.2.style, IndentsWith source style := by
  intro style hstyle
  obtain ⟨met, hmet, -⟩ := hsource
  obtain ⟨earlier, hread, -⟩ := h
  obtain ⟨j, text, -, hgoverns, hfound⟩ :=
    exists_governs hread (fun problem hproblem => by rw [hmet] at hproblem; cases hproblem) style
      hstyle
  exact ⟨j, text, hgoverns, hfound⟩

/-- The lines of a source leave open what its terminals leave open. -/
theorem opened_of_lines {texts : List (List Char)} {last : Int × Layout}
    (h : (lines 1 {} texts).Yields ts last) :
    last.2.depth = openAfter 0 ts ∧ Layout.Nested last.2.widths := by
  obtain ⟨met, hread, rfl⟩ := h
  have hkeeps := keeps_lines (List.prefix_refl texts)
  rw [hread] at hkeeps
  obtain ⟨hopen, hnested⟩ := hkeeps.ends _ rfl
  refine ⟨?_, hnested⟩
  have hparens : (Opened.after texts {} met).parens = _ := parens_after {} met
  rwa [hopen] at hparens

/-- The end of a block closes no parenthesis. -/
theorem openAfter_dedents (depth n : Nat) : openAfter depth (List.replicate n .dedent) = depth := by
  induction n with
  | zero => rfl
  | succ n ih => exact ih

/-- If two sources are read to their ends, so are both as one source, and the end of the first is
the only thing not met. The first must end with a line feed and leave no parenthesis open, the
second must not start with a byte order mark or an indent, and they must not be indented
differently. -/
theorem yields_source_append {first more : List Char} {us : List Terminal}
    (hended : first = [] ∨ first.getLast? = some '\n') (hmark : more.head? ≠ some '\uFEFF')
    (hfirst : (source first).Yields (ts ++ [.endOfInput]) ()) (hmore : (source more).Yields us ())
    (hclosed : openAfter 0 ts = 0) (hstart : us.head? ≠ some .indent)
    (hstyle : ∀ a b, IndentsWith first a → IndentsWith more b → a = b) :
    (source (first ++ more)).Yields (ts ++ us) () := by
  obtain ⟨texts, hlines⟩ := Text.exists_lines_append hended
  have halone : Text.lines (Text.dropMark first) = texts ++ [[]] := by
    rw [← List.append_nil first]
    exact hlines [] (by simp)
  -- The first source is its lines, and an empty line, where its blocks are closed.
  have hread := hfirst
  rw [source_eq_rest, halone, rest_append] at hread
  obtain ⟨⟨final, style, widths, depth⟩, vs, ws, hinit, hend, heq⟩ := yields_bind_iff.1 hread
  obtain rfl : ws = ending ⟨style, widths, depth⟩ := by
    rw [rest_end] at hend
    exact (hend.unique (yields_ending (_, ⟨style, widths, depth⟩))).1
  rw [ending, ← List.append_assoc] at heq
  obtain rfl := List.append_cancel_right heq
  obtain ⟨hdepth, hnested⟩ := opened_of_lines hinit
  rw [openAfter_append, openAfter_dedents, ← hdepth] at hclosed
  obtain rfl : depth = 0 := hclosed
  -- The second is read after it as it is read alone, once the blocks are closed.
  obtain ⟨os, last, hall, rfl⟩ := yields_rest_iff.1 hmore
  have hagree : Layout.Agree style last.2.style := fun a ha b hb =>
    hstyle a b
      (indentsWith_of_lines hfirst (i := texts.length) (by simpa [halone] using hinit) a ha)
      (indentsWith_of_lines hmore (i := _) (by rwa [List.take_length]) b hb)
  have hlike : Like ⟨style, [], 0⟩ {} := ⟨rfl, rfl, fun _ h => by cases h⟩
  have hjoined := rest_joined (final + 1) hlike hall hagree
  rw [source_eq_rest, hlines more hmark, rest_append, List.append_assoc]
  exact hinit.bind (rest_closing hnested hjoined hstart)

end Scan

end EoJava
