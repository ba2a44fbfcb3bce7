import EoJava.Proofs.Token.Blocks

/-!
# The offside rule

A line that is not bare and starts outside parentheses is compared with the blocks that are open
there. If it is indented like the lines before it, a line wider than the innermost block opens one,
and any other line closes exactly the blocks that are wider; it is a problem if no block or level of
its width is left (`offside_line`).
-/

namespace EoJava

open Text (isGap IndentStyle)

/-! ## Widths -/

namespace Layout

variable {number : Int} {width : Nat} {widths : List Nat}

/-- The blocks that are at most as wide as a line are closed by no width beyond it. -/
theorem filter_of_le_top (h : Nested widths) (hle : top widths ≤ width) :
    widths.filter (· ≤ width) = widths := by
  refine List.filter_eq_self.2 fun level hlevel => decide_eq_true ?_
  have hmem : level ∈ levels widths := by simp [levels, hlevel]
  exact Nat.le_trans (h.le_top level hmem) hle

theorem countP_of_le_top (h : Nested widths) (hle : top widths ≤ width) :
    widths.countP (width < ·) = 0 := by
  refine List.countP_eq_zero.2 fun level hlevel => ?_
  have hmem : level ∈ levels widths := by simp [levels, hlevel]
  simpa using Nat.le_trans (h.le_top level hmem) hle

/-- The blocks that are wider than a line are the innermost ones. -/
theorem filter_eq_drop (width : Nat) (h : Nested widths) :
    widths.filter (· ≤ width) = widths.drop (widths.countP (width < ·)) := by
  induction widths with
  | nil => rfl
  | cons level widths ih =>
      by_cases hle : level ≤ width
      · rw [filter_of_le_top h hle, countP_of_le_top h hle, List.drop_zero]
      · rw [List.filter_cons_of_neg (by simpa using hle),
          List.countP_cons_of_pos (by simpa using hle), List.drop_succ_cons,
          ih (nested_cons_iff.1 h).2]

/-- Exactly the wider blocks are closed. -/
theorem close_eq (number : Int) (width : Nat) (h : Nested widths) : ∃ met,
    close number width widths = ⟨met, .ok (widths.filter (· ≤ width))⟩ ∧
      met.map (·.value.kind) = List.replicate (widths.countP (width < ·)) .dedent := by
  induction widths with
  | nil => exact ⟨[], rfl, rfl⟩
  | cons level widths ih =>
      obtain ⟨hlt, hnested⟩ := nested_cons_iff.1 h
      rw [close]
      split
      · next hwidth =>
          obtain ⟨met, hclose, hmet⟩ := ih hnested
          refine ⟨⟨⟨number, 1⟩, .dedent widths.length⟩ :: met, ?_, ?_⟩
          · rw [Reading.emit_bind, hclose, List.filter_cons_of_neg (by simpa using hwidth)]
            rfl
          · rw [List.map_cons, hmet, List.countP_cons_of_pos (by simpa using hwidth)]
            rfl
      · next hwidth =>
          refine ⟨[], ?_, ?_⟩
          · rw [filter_of_le_top h (Nat.le_of_not_lt hwidth)]
            rfl
          · rw [countP_of_le_top h (Nat.le_of_not_lt hwidth)]
            rfl

/-- The innermost level that is left is as wide as the line if there is such a level. -/
theorem top_filter_iff (h : Nested widths) :
    width = top (widths.filter (· ≤ width)) ↔ width ∈ levels widths := by
  induction widths with
  | nil => simp [top, levels]
  | cons level widths ih =>
      obtain ⟨hlt, hnested⟩ := nested_cons_iff.1 h
      by_cases hle : level ≤ width
      · rw [filter_of_le_top h hle, top]
        constructor
        · rintro rfl
          exact top_mem_levels (width :: widths)
        · exact fun hmem => Nat.le_antisymm (h.le_top width hmem) hle
      · rw [List.filter_cons_of_neg (by simpa using hle), ih hnested, levels_cons]
        have hne : width ≠ level := fun heq => hle (Nat.le_of_eq heq.symm)
        simp [hne]

/-- A line opens a block, or it closes the wider ones and is refused if no level of its width is
left. -/
theorem readWidth_eq (number : Int) (width : Nat) (h : Nested widths) : ∃ met,
    (met.map (·.value.kind) = if top widths < width then [.indent]
      else List.replicate (widths.countP (width < ·)) .dedent) ∧
    readWidth number width widths = ⟨met,
      if top widths < width then .ok (width :: widths)
      else if width ∈ levels widths then .ok (widths.filter (· ≤ width))
      else .error ⟨⟨number, width + 1⟩, .unmatchedUnindent width (levels widths)⟩⟩ := by
  unfold readWidth
  by_cases hlt : top widths < width
  · simp only [if_pos hlt]
    exact ⟨_, rfl, rfl⟩
  · obtain ⟨met, hclose, hmet⟩ := close_eq number width h
    simp only [if_neg hlt, hclose, Reading.ok_bind, top_filter_iff h]
    refine ⟨met, hmet, ?_⟩
    by_cases hmem : width ∈ levels widths
    · simp only [if_pos hmem]
      exact Reading.after_pure met _
    · simp [hmem, Reading.after, Reading.fail]

end Layout

/-! ## Styles -/

/-- The character that a line is indented with, if it is indented. -/
def Text.indentation? (text : List Char) : Option Char :=
  (text.takeWhile isGap).head?

namespace Layout

variable {layout next : Layout} {number : Int} {text space : List Char}
  {met : List (Located Lexeme)}

/-- Leading whitespace that repeats one character of the style of the file is accepted. -/
theorem readStyle_of_uniform (number : Int) (huniform : ∀ c ∈ space, space.head? = some c)
    (hstyle : ∀ style ∈ layout.style, ∀ c ∈ space.head?, IndentStyle.ofChar? c = some style) :
    ∃ style, layout.readStyle number space = pure style := by
  unfold readStyle
  cases hfound : space.head?.bind IndentStyle.ofChar? with
  | none => exact ⟨_, rfl⟩
  | some found =>
      obtain ⟨c, hhead, hc⟩ := Option.bind_eq_some_iff.1 hfound
      have hforeign : firstForeign? found space = none := by
        refine List.findIdx?_eq_none_iff.2 fun d hd => ?_
        obtain rfl : c = d := Option.some.inj (hhead.symm.trans (huniform d hd))
        simp [hc]
      simp only [hforeign]
      cases hlayout : layout.style with
      | none => exact ⟨_, rfl⟩
      | some style =>
          obtain rfl : found = style :=
            Option.some.inj (hc.symm.trans (hstyle style hlayout c hhead))
          simp only [if_pos]
          exact ⟨_, rfl⟩

/-- The style of the file stays as it is or is that of the line. -/
theorem style_of_readStyle {style : Option IndentStyle}
    (h : layout.readStyle number space = ⟨met, .ok style⟩) :
    style = layout.style ∨ style = space.head?.bind IndentStyle.ofChar? := by
  unfold readStyle at h
  split at h
  · exact .inl (Reading.eq_pure_iff.1 h).2.symm
  · next found hfound =>
      split at h
      · cases h
      · split at h
        · exact .inr ((Reading.eq_pure_iff.1 h).2.symm.trans hfound.symm)
        · next expected hexpected =>
            split at h
            · exact .inl ((Reading.eq_pure_iff.1 h).2.symm.trans hexpected.symm)
            · cases h

theorem style_of_enter (h : layout.enter number text = ⟨met, .ok next⟩) :
    next.style = layout.style ∨
      next.style = (Text.indentation? text).bind IndentStyle.ofChar? := by
  obtain ⟨style, _, _, hstyle, hrest, -⟩ := Reading.bind_eq_ok_iff.1 h
  obtain ⟨widths, _, _, -, hnext, -⟩ := Reading.bind_eq_ok_iff.1 hrest
  obtain ⟨-, rfl⟩ := Reading.eq_pure_iff.1 hnext
  exact style_of_readStyle hstyle

end Layout

namespace Scan

variable {number : Int} {layout next : Layout} {text : List Char} {met : List (Located Lexeme)}

theorem style_of_settled (h : settled number text layout = ⟨met, .ok next⟩) :
    next.style = layout.style := by
  rw [settled_eq] at h
  obtain ⟨depth, _, _, -, hend, -⟩ := Reading.bind_eq_ok_iff.1 h
  cases hend
  rfl

/-- Only a line that settles the layout may set the style of the file. -/
theorem style_of_line (h : line number layout text = ⟨met, .ok next⟩) :
    next.style = layout.style ∨ ¬ Bare text ∧ layout.depth = 0 ∧
      next.style = (Text.indentation? text).bind IndentStyle.ofChar? := by
  cases hbare : Text.holdsNothing text with
  | true =>
      rw [line_of_bare number layout hbare] at h
      exact .inl (congrArg Layout.style (Reading.eq_pure_iff.1 h).2.symm)
  | false =>
      by_cases hdepth : layout.depth = 0
      · rw [line_of_outside number hbare hdepth] at h
        obtain ⟨entered, _, _, henter, hsettled, -⟩ := Reading.bind_eq_ok_iff.1 h
        rw [style_of_settled hsettled]
        exact (Layout.style_of_enter henter).imp_right fun hstyle =>
          ⟨holdsNothing_eq_false_iff.1 hbare, hdepth, hstyle⟩
      · rw [line_of_inside number hbare hdepth] at h
        exact .inl (style_of_settled h)

/-! ## Runs of lines -/

/-- Lines are read one run after the other. -/
theorem lines_append (number : Int) (layout : Layout) (first more : List (List Char)) :
    lines number layout (first ++ more) =
      lines number layout first >>= fun last => lines (last.1 + 1) last.2 more := by
  induction first generalizing number layout with
  | nil =>
      rw [List.nil_append, lines, pure_bind]
      simp
  | cons text first ih =>
      rw [List.cons_append, lines, lines, bind_assoc]
      exact bind_congr fun layout => ih (number + 1) layout

theorem rest_append (number : Int) (layout : Layout) (first more : List (List Char)) :
    rest number layout (first ++ more) =
      lines number layout first >>= fun last => rest (last.1 + 1) last.2 more := by
  rw [rest, lines_append, bind_assoc]
  rfl

theorem lines_singleton (number : Int) (layout : Layout) (text : List Char) :
    lines number layout [text] = line number layout text >>= fun next => pure (number, next) := by
  rw [lines]
  refine bind_congr fun next => ?_
  rw [lines]
  simp

/-- The style of the file is that of a line that settles the layout. -/
theorem style_of_lines {first : List (List Char)} {last : Int × Layout}
    (h : lines 1 {} first = ⟨met, .ok last⟩) : ∀ style ∈ last.2.style,
    ∃ (j : Nat) (text : List Char) (earlier : List (Located Lexeme)) (before : Int × Layout),
      first[j]? = some text ∧ ¬ Bare text ∧ lines 1 {} (first.take j) = ⟨earlier, .ok before⟩ ∧
        before.2.depth = 0 ∧ (Text.indentation? text).bind IndentStyle.ofChar? = some style := by
  induction first using List.reverseRecOn generalizing met last with
  | nil =>
      obtain ⟨-, rfl⟩ := Reading.eq_pure_iff.1 h
      exact fun _ hstyle => by cases hstyle
  | append_singleton first text ih =>
      intro style hstyle
      rw [lines_append] at h
      obtain ⟨before, earlier, _, hfirst, hlast, -⟩ := Reading.bind_eq_ok_iff.1 h
      rw [lines_singleton] at hlast
      obtain ⟨next, _, _, hline, hnext, -⟩ := Reading.bind_eq_ok_iff.1 hlast
      obtain ⟨-, rfl⟩ := Reading.eq_pure_iff.1 hnext
      rcases style_of_line hline with hsame | ⟨hbare, hdepth, hfound⟩
      · obtain ⟨j, other, sooner, start, hother, hbare, hsooner, hdepth, hfound⟩ :=
          ih hfirst style (hsame ▸ hstyle)
        obtain ⟨hj, -⟩ := List.getElem?_eq_some_iff.1 hother
        refine ⟨j, other, sooner, start, ?_, hbare, ?_, hdepth, hfound⟩
        · rw [List.getElem?_append_left hj, hother]
        · rwa [List.take_append_of_le_length (Nat.le_of_lt hj)]
      · refine ⟨first.length, text, earlier, before, by simp, hbare, by simpa using hfirst, hdepth,
          ?_⟩
        rw [← hfound]
        exact hstyle

/-! ## Where a line starts -/

/-- What is open where a line starts, given all lexemes of its source. -/
def openedAt (texts : List (List Char)) (met : List (Located Lexeme)) (line : Int) : Opened :=
  .after texts {} (met.filter fun found => found.position.line < line)

/-- A line settles the layout: it is not bare, and it starts outside parentheses. -/
structure Governs (texts : List (List Char)) (met : List (Located Lexeme)) (i : Nat)
    (text : List Char) : Prop where
  get : texts[i]? = some text
  visible : ¬ Bare text
  outside : (openedAt texts met (1 + i)).parens = 0

/-- The scan of a source comes to a line, with a layout and lexemes met earlier. -/
structure Reaches (source : List Char) (i : Nat) (text : List Char)
    (earlier : List (Located Lexeme)) (layout : Layout) (more : List (List Char)) : Prop where
  read : lines 1 {} ((Text.lines (Text.dropMark source)).take i) = ⟨earlier, .ok (i, layout)⟩
  source_eq : Scan.source source = (rest (1 + i) layout (text :: more)).after earlier
  nested : Layout.Nested layout.widths
  opened : openedAt (Text.lines (Text.dropMark source)) (Scan.source source).lexemes (1 + i) =
    .of layout
  later : (Scan.source source).lexemes.filter (fun found => 1 + (i : Int) ≤ found.position.line) =
    (rest (1 + i) layout (text :: more)).lexemes

/-- The scan comes to a line if it reads the lines before it. -/
theorem reaches_of_read {source text : List Char} {i : Nat} {last : Int × Layout}
    {earlier : List (Located Lexeme)}
    (hget : (Text.lines (Text.dropMark source))[i]? = some text)
    (hread : lines 1 {} ((Text.lines (Text.dropMark source)).take i) = ⟨earlier, .ok last⟩) :
    ∃ more, Reaches source i text earlier last.2 more := by
  let texts := Text.lines (Text.dropMark source)
  obtain ⟨hi, hline⟩ := List.getElem?_eq_some_iff.1 hget
  have hsplit : texts = texts.take i ++ text :: texts.drop (i + 1) := by
    rw [← hline, List.getElem_cons_drop, List.take_append_drop]
  have hlength : (texts.take i).length = i := List.length_take_of_le (Nat.le_of_lt hi)
  have hsource : Scan.source source = lines 1 {} (texts.take i) >>= fun last =>
      rest (last.1 + 1) last.2 (text :: texts.drop (i + 1)) := by
    rw [source_eq_rest, ← rest_append, ← hsplit]
  have hon := on_lines 1 {} (texts.take i)
  have hkeeps := keeps_lines (List.take_prefix i texts)
  obtain ⟨last, layout⟩ := last
  have hlast : last = 1 + (texts.take i).length - 1 := last_of_lines hread
  obtain rfl : last = i := by omega
  rw [hread] at hsource hon hkeeps
  rw [Reading.ok_bind, Int.add_comm] at hsource
  obtain ⟨hopened, hnested⟩ := hkeeps.ends _ rfl
  have hrest := (on_rest (1 + i) layout text (texts.drop (i + 1))).lexemes
  have hlt : ∀ found ∈ earlier, found.position.line < 1 + i := by
    intro found hfound
    have := (hon.lexemes found hfound).2
    omega
  refine ⟨texts.drop (i + 1), hread, hsource, hnested, ?_, ?_⟩
  · rw [openedAt, hsource, Reading.after, List.filter_append,
      List.filter_eq_self.2 (by simpa using hlt),
      List.filter_eq_nil_iff.2 (by simpa using hrest), List.append_nil]
    exact hopened
  · rw [hsource, Reading.after, List.filter_append, List.filter_eq_nil_iff.2 (by simpa using hlt),
      List.filter_eq_self.2 (by simpa using hrest), List.nil_append]

/-- The scan comes to a line if it finds no problem on an earlier one. -/
theorem exists_reaches {source text : List Char} {i : Nat}
    (hget : (Text.lines (Text.dropMark source))[i]? = some text)
    (hreached : ∀ problem, (Scan.source source).outcome = .error problem →
      1 + (i : Int) ≤ problem.position.line) :
    ∃ earlier layout more, Reaches source i text earlier layout more := by
  let texts := Text.lines (Text.dropMark source)
  obtain ⟨hi, -⟩ := List.getElem?_eq_some_iff.1 hget
  have hlength : (texts.take i).length = i := List.length_take_of_le (Nat.le_of_lt hi)
  have hsource : Scan.source source = lines 1 {} (texts.take i) >>= fun last =>
      rest (last.1 + 1) last.2 (texts.drop i) := by
    rw [source_eq_rest, ← rest_append, List.take_append_drop]
  have hon := on_lines 1 {} (texts.take i)
  rcases hread : lines 1 {} (texts.take i) with ⟨earlier, problem | last⟩
  · rw [hread] at hsource hon
    have hle := hreached problem (by rw [hsource]; rfl)
    have hlt := (hon.problem problem rfl).2
    omega
  · obtain ⟨more, hreaches⟩ := reaches_of_read hget hread
    exact ⟨earlier, last.2, more, hreaches⟩

/-- A line is indented like its source: with one character only, which every line before it is
indented with that settles the layout. -/
structure Alike (texts : List (List Char)) (met : List (Located Lexeme)) (i : Nat)
    (text : List Char) : Prop where
  uniform : ∀ c ∈ text.takeWhile isGap, Text.indentation? text = some c
  earlier : ∀ j other, j < i → Governs texts met j other →
    ∀ c ∈ Text.indentation? other, ∀ d ∈ Text.indentation? text, c = d

/-- The style that is set after lines of a source is that of one of them, which settles the
layout. -/
theorem exists_governs {source : List Char} {i : Nat} {earlier : List (Located Lexeme)}
    {last : Int × Layout}
    (h : lines 1 {} ((Text.lines (Text.dropMark source)).take i) = ⟨earlier, .ok last⟩)
    (hreached : ∀ problem, (Scan.source source).outcome = .error problem →
      (i : Int) ≤ problem.position.line) :
    ∀ style ∈ last.2.style, ∃ j text, j < i ∧
      Governs (Text.lines (Text.dropMark source)) (Scan.source source).lexemes j text ∧
        (Text.indentation? text).bind IndentStyle.ofChar? = some style := by
  intro style hstyle
  obtain ⟨j, text, sooner, before, htext, hbare, hsooner, hdepth, hfound⟩ :=
    style_of_lines h style hstyle
  obtain ⟨hj, -⟩ := List.getElem?_eq_some_iff.1 htext
  have hji : j < i := Nat.lt_of_lt_of_le hj (List.length_take_le ..)
  rw [List.getElem?_take_of_lt hji] at htext
  rw [List.take_take, Nat.min_eq_left (Nat.le_of_lt hji)] at hsooner
  obtain ⟨_, start, _, hstart⟩ := exists_reaches htext fun problem hproblem => by
    have := hreached problem hproblem
    omega
  cases hsooner.symm.trans hstart.read
  exact ⟨j, text, hji, ⟨htext, hbare, by rw [hstart.opened]; exact hdepth⟩, hfound⟩

/-- Where a line starts that is indented like its source, the style of the file is its own or not
set. -/
theorem Reaches.style {source text : List Char} {i : Nat} {earlier : List (Located Lexeme)}
    {layout : Layout} {more : List (List Char)} (h : Reaches source i text earlier layout more)
    (halike : Alike (Text.lines (Text.dropMark source)) (Scan.source source).lexemes i text)
    (hreached : ∀ problem, (Scan.source source).outcome = .error problem →
      1 + (i : Int) ≤ problem.position.line) :
    ∀ style ∈ layout.style, ∀ c ∈ Text.indentation? text, IndentStyle.ofChar? c = some style := by
  intro style hstyle c hc
  obtain ⟨j, other, hji, hgoverns, hfound⟩ := exists_governs h.read (fun problem hproblem => by
    have := hreached problem hproblem
    omega) style hstyle
  obtain ⟨d, hd, hdstyle⟩ := Option.bind_eq_some_iff.1 hfound
  rw [← halike.earlier j other hji hgoverns d hd c hc]
  exact hdstyle

/-! ## The first lexeme of a line -/

/-- A reading stops at once, or the first lexeme that it meets has content. -/
def StartsContent {α : Type} (reading : Reading α) : Prop :=
  (∃ problem, reading = ⟨[], .error problem⟩) ∨ ∃ found met outcome,
    reading = ⟨found :: met, outcome⟩ ∧ found.value.terminal.kind.isContent

theorem StartsContent.bind {α β : Type} {first : Reading α} (h : StartsContent first)
    (next : α → Reading β) : StartsContent (first >>= next) := by
  obtain ⟨problem, rfl⟩ | ⟨found, met, problem | a, rfl, hcontent⟩ := h
  · exact .inl ⟨problem, rfl⟩
  · exact .inr ⟨found, met, .error problem, rfl, hcontent⟩
  · exact .inr ⟨found, _, _, rfl, hcontent⟩

/-- A line that is not bare starts with a lexeme that has content, or it cannot be read. -/
theorem startsContent_content (number : Int) (depth : Nat) {cursor : Text.Cursor}
    (h : ¬ Bare cursor.rest) : StartsContent (content number depth cursor) := by
  fun_induction content number depth cursor with
  | case1 depth cursor hrest => exact absurd ⟨[], [], hrest, List.forall_mem_nil _, .inl rfl⟩ h
  | case2 depth cursor c rest hrest hgap ih =>
      refine ih fun hbare => h ?_
      obtain ⟨blanks, others, hothers, hblanks, hend⟩ := hbare
      refine ⟨c :: blanks, others, ?_, ?_, hend⟩
      · rw [hrest, show rest = blanks ++ others from hothers]
        rfl
      · exact List.forall_mem_cons.2 ⟨Text.isBlank_of_isGap hgap, hblanks⟩
  | case3 depth cursor rest hrest => exact absurd ⟨[], _, hrest, List.forall_mem_nil _, .inr rfl⟩ h
  | case4 depth cursor c rest hrest hgap hcomment lexeme after hmet ih =>
      exact .inr ⟨_, _, _, rfl, Lexing.isContent_of_next? hmet⟩
  | case5 => exact .inl ⟨_, rfl⟩

theorem startsContent_settled (number : Int) (layout : Layout) {text : List Char}
    (h : ¬ Bare text) : StartsContent (settled number text layout) := by
  rw [settled_eq]
  exact (startsContent_content number layout.depth h).bind _

/-- What is wrong with the lexemes of a line is not its indentation. -/
theorem code_of_content {number : Int} {depth : Nat} {cursor : Text.Cursor}
    {problem : Located Problem} (h : (content number depth cursor).outcome = .error problem) :
    problem.value.code ≠ .unmatchedUnindent := by
  fun_induction content number depth cursor with
  | case1 | case3 => cases h
  | case2 depth cursor c rest hrest hgap ih => exact ih h
  | case4 depth cursor c rest hrest hgap hcomment lexeme after hmet ih => exact ih h
  | case5 depth cursor c rest hrest hgap hcomment offset found hmet =>
      cases h
      simp only [Lexing.next?] at hmet
      split at hmet
      · cases hmet
      · split at hmet
        · cases hmet
        · split at hmet
          · split at hmet <;> cases hmet <;> simp [Problem.code]
          · split at hmet <;> cases hmet
            simp [Problem.code]

theorem code_of_settled {number : Int} {layout : Layout} {text : List Char}
    {problem : Located Problem} (h : (settled number text layout).outcome = .error problem) :
    problem.value.code ≠ .unmatchedUnindent := by
  rw [settled_eq] at h
  rcases hcontent : content number layout.depth (.start text) with ⟨met, other | depth⟩
  · rw [hcontent] at h
    cases h
    exact code_of_content (by rw [hcontent])
  · rw [hcontent] at h
    cases h

/-! ## The layout of a line -/

/-- The lexeme opens or closes a block. -/
def isBlock (found : Located Lexeme) : Bool :=
  found.value.kind == .indent || found.value.kind == .dedent

/-- The indents and dedents that a line starts with, given all lexemes of its source. -/
def layoutOn (met : List (Located Lexeme)) (line : Int) : List (Located Lexeme) :=
  (met.filter fun found => line ≤ found.position.line).takeWhile isBlock

/-- The indents and dedents before a reading that starts with content are all there are. -/
theorem takeWhile_isBlock {α : Type} {met : List (Located Lexeme)}
    {outcome : Except (Located Problem) α} {β : Type} {next : α → Reading β}
    (hmet : ∀ found ∈ met, isBlock found) (hnext : ∀ a, StartsContent (next a)) :
    ((⟨met, outcome⟩ : Reading α) >>= next).lexemes.takeWhile isBlock = met := by
  cases outcome with
  | error problem => exact List.takeWhile_eq_self_iff.2 hmet
  | ok a =>
      rw [Reading.ok_bind, Reading.after, List.takeWhile_append_of_pos hmet]
      obtain ⟨problem, hstop⟩ | ⟨found, later, result, hfirst, hcontent⟩ := hnext a
      · rw [hstop, List.takeWhile_nil, List.append_nil]
      · have hblock : isBlock found = false := by
          obtain ⟨position, lexeme⟩ := found
          cases lexeme with
          | indent | dedent | newline | endOfInput => cases hcontent
          | mark | name | string | number => rfl
        rw [hfirst, List.takeWhile_cons_of_neg (by simp [hblock]), List.append_nil]

/-- Dedents close the innermost blocks. -/
theorem after_dedents {texts : List (List Char)} {met : List (Located Lexeme)} {n : Nat}
    (h : met.map (·.value.kind) = List.replicate n .dedent) (s : Opened) :
    (s.after texts met).widths = s.widths.drop n := by
  induction n generalizing met s with
  | zero =>
      rw [List.map_eq_nil_iff.1 h]
      rfl
  | succ n ih =>
      obtain ⟨⟨position, lexeme⟩, met, rfl, hkind, hmet⟩ := List.map_eq_cons_iff.1 h
      rw [Opened.after_cons, ih hmet]
      cases lexeme with
      | dedent depth => simp [Opened.step]
      | indent | newline | mark | name | string | number | endOfInput => cases hkind

/-- An indent opens a block as wide as its line. -/
theorem after_indent {texts : List (List Char)} {met : List (Located Lexeme)} {line : Int}
    (h : met.map (·.value.kind) = [.indent]) (hline : ∀ found ∈ met, found.position.line = line)
    (s : Opened) : (s.after texts met).widths = widthAt texts line :: s.widths := by
  obtain ⟨⟨position, lexeme⟩, rfl, hkind⟩ := List.map_eq_singleton_iff.1 h
  cases lexeme with
  | indent depth =>
      rw [← hline _ (List.mem_singleton_self _)]
      rfl
  | dedent | newline | mark | name | string | number | endOfInput => cases hkind

/-- What comes of a line with accepted whitespace and of the lines after it, once its width is
settled. -/
def restAfter (number : Int) (text : List Char) (more : List (List Char)) (layout : Layout) :
    Reading Unit :=
  settled number text layout >>= fun next => rest (number + 1) next more

/-- A line that settles the layout with accepted whitespace is read by its width. -/
theorem rest_of_readStyle {number : Int} {layout : Layout} {text : List Char}
    {more : List (List Char)} {style : Option IndentStyle} (hbare : ¬ Bare text)
    (hdepth : layout.depth = 0)
    (hstyle : layout.readStyle number (text.takeWhile isGap) = pure style) :
    rest number layout (text :: more) =
      Layout.readWidth number (Text.indentWidth text) layout.widths >>= fun widths =>
        restAfter number text more { layout with style, widths } := by
  rw [rest_cons, line_of_outside number (holdsNothing_eq_false_iff.2 hbare) hdepth, Layout.enter,
    hstyle, pure_bind, bind_assoc, bind_assoc]
  rfl

/-- No line after a settled width is refused for its width on the same line. -/
theorem code_of_restAfter {number : Int} {text : List Char} {more : List (List Char)}
    {layout : Layout} {problem : Located Problem}
    (h : (restAfter number text more layout).outcome = .error problem)
    (hline : problem.position.line = number) : problem.value.code ≠ .unmatchedUnindent := by
  rw [restAfter] at h
  rcases hsettled : settled number text layout with ⟨met, other | next⟩
  · rw [hsettled] at h
    cases h
    exact code_of_settled (by rw [hsettled])
  · rw [hsettled, Reading.ok_bind] at h
    cases more with
    | nil =>
        have hend : rest (number + 1) next [] = _ := close_source (number + 1 - 1) next.widths
        rw [hend] at h
        cases h
    | cons other more =>
        have hle := (on_rest (number + 1) next other more).problem problem h
        omega

/-- The offside rule for a line, of which it is known whether it is refused for its width. The
levels of the open blocks get wider inwards. If the line is indented like its source, it opens one
block if it is wider than the innermost one, and closes exactly the wider blocks otherwise; and it
is refused if and only if it is less wide than the innermost block and as wide as no level. -/
structure Offside (texts : List (List Char)) (met : List (Located Lexeme)) (i : Nat)
    (text : List Char) (refused : Prop) : Prop where
  nested : (Layout.levels (openedAt texts met (1 + i)).widths).Pairwise (· < ·)
  layout : Alike texts met i text → (layoutOn met (1 + i)).map (·.value.kind) =
    if Layout.top (openedAt texts met (1 + i)).widths < Text.indentWidth text then [.indent]
    else List.replicate ((openedAt texts met (1 + i)).widths.countP (Text.indentWidth text < ·))
      .dedent
  opened : Alike texts met i text →
    ((openedAt texts met (1 + i)).after texts (layoutOn met (1 + i))).widths =
      if Layout.top (openedAt texts met (1 + i)).widths < Text.indentWidth text then
        Text.indentWidth text :: (openedAt texts met (1 + i)).widths
      else (openedAt texts met (1 + i)).widths.filter (· ≤ Text.indentWidth text)
  refused_iff : Alike texts met i text →
    (refused ↔ Text.indentWidth text < Layout.top (openedAt texts met (1 + i)).widths ∧
      Text.indentWidth text ∉ Layout.levels (openedAt texts met (1 + i)).widths)

/-- A line may be said to be refused in other words. -/
theorem Offside.congr {texts : List (List Char)} {met : List (Located Lexeme)} {i : Nat}
    {text : List Char} {refused other : Prop} (h : Offside texts met i text refused)
    (heq : refused ↔ other) : Offside texts met i text other :=
  ⟨h.nested, h.layout, h.opened, fun halike => heq.symm.trans (h.refused_iff halike)⟩

/-- What a line does to the open blocks: it opens one, or it closes the wider ones. -/
theorem widths_after_layout {texts : List (List Char)} {i : Nat} {text : List Char}
    {widths : List Nat} {met : List (Located Lexeme)} (hget : texts[i]? = some text)
    (hnested : Layout.Nested widths) (hline : ∀ found ∈ met, found.position.line = 1 + i)
    (hkinds : met.map (·.value.kind) = if Layout.top widths < Text.indentWidth text then [.indent]
      else List.replicate (widths.countP (Text.indentWidth text < ·)) .dedent)
    {s : Opened} (hwidths : s.widths = widths) :
    (s.after texts met).widths =
      if Layout.top widths < Text.indentWidth text then Text.indentWidth text :: widths
      else widths.filter (· ≤ Text.indentWidth text) := by
  by_cases hlt : Layout.top widths < Text.indentWidth text
  · rw [if_pos hlt] at hkinds ⊢
    have hat : widthAt texts (1 + i) = Text.indentWidth text := by
      rw [widthAt, show (1 + (i : Int) - 1).toNat = i by omega, hget]
      rfl
    rw [after_indent hkinds hline, hat, hwidths]
  · rw [if_neg hlt] at hkinds ⊢
    rw [after_dedents hkinds, Layout.filter_eq_drop _ hnested, hwidths]

/-- A line is refused for its width exactly if it is less wide than the innermost block and as wide
as no level, given that nothing that comes after its width is refused for this on the same line. -/
theorem refused_of_width {number : Int} {width : Nat} {widths : List Nat}
    (hnested : Layout.Nested widths) {next : List Nat → Reading Unit}
    (hnext : ∀ widths problem, (next widths).outcome = .error problem →
      problem.position.line = number → problem.value.code ≠ .unmatchedUnindent) :
    (∃ problem, (Layout.readWidth number width widths >>= next).outcome = .error problem ∧
        problem.value.code = .unmatchedUnindent ∧ problem.position.line = number) ↔
      width < Layout.top widths ∧ width ∉ Layout.levels widths := by
  have haccepted : ∀ widths, ¬ ∃ problem, (next widths).outcome = .error problem ∧
      problem.value.code = .unmatchedUnindent ∧ problem.position.line = number := by
    rintro widths ⟨problem, hproblem, hcode, hline⟩
    exact hnext widths problem hproblem hline hcode
  obtain ⟨met, -, hwidth⟩ := Layout.readWidth_eq number width hnested
  rw [hwidth]
  -- Only a line that is less wide than the innermost block can meet no level.
  by_cases hlt : Layout.top widths < width
  · simp only [if_pos hlt, Reading.ok_bind]
    exact iff_of_false (haccepted _) fun h => Nat.lt_asymm hlt h.1
  · simp only [if_neg hlt]
    by_cases hmem : width ∈ Layout.levels widths
    · simp only [if_pos hmem, Reading.ok_bind]
      exact iff_of_false (haccepted _) fun h => h.2 hmem
    · simp only [if_neg hmem]
      refine iff_of_true ⟨_, rfl, rfl, rfl⟩ ⟨?_, hmem⟩
      refine Nat.lt_of_le_of_ne (Nat.le_of_not_lt hlt) fun heq => hmem ?_
      rw [heq]
      exact Layout.top_mem_levels widths

/-- Where a line that settles the layout has accepted whitespace, the scan goes on by its width. -/
theorem Reaches.source_eq_width {source text : List Char} {i : Nat}
    {earlier : List (Located Lexeme)} {layout : Layout} {more : List (List Char)}
    (h : Reaches source i text earlier layout more)
    (hgoverns : Governs (Text.lines (Text.dropMark source)) (Scan.source source).lexemes i text)
    (hreached : ∀ problem, (Scan.source source).outcome = .error problem →
      1 + (i : Int) ≤ problem.position.line)
    (halike : Alike (Text.lines (Text.dropMark source)) (Scan.source source).lexemes i text) :
    ∃ style, rest (1 + i) layout (text :: more) =
      Layout.readWidth (1 + i) (Text.indentWidth text) layout.widths >>= fun widths =>
        restAfter (1 + i) text more { layout with style, widths } := by
  have hdepth : layout.depth = 0 := by
    have houtside := hgoverns.outside
    rwa [h.opened] at houtside
  obtain ⟨style, hstyle⟩ := Layout.readStyle_of_uniform (1 + (i : Int)) halike.uniform
    (h.style halike hreached)
  exact ⟨style, rest_of_readStyle hgoverns.visible hdepth hstyle⟩

/-- A line that is indented like its source settles the layout by its width. -/
theorem Reaches.settles {source text : List Char} {i : Nat} {earlier : List (Located Lexeme)}
    {layout : Layout} {more : List (List Char)} (h : Reaches source i text earlier layout more)
    (hgoverns : Governs (Text.lines (Text.dropMark source)) (Scan.source source).lexemes i text)
    (hreached : ∀ problem, (Scan.source source).outcome = .error problem →
      1 + (i : Int) ≤ problem.position.line)
    (halike : Alike (Text.lines (Text.dropMark source)) (Scan.source source).lexemes i text) :
    let texts := Text.lines (Text.dropMark source)
    let met := (Scan.source source).lexemes
    let width := Text.indentWidth text
    (layoutOn met (1 + i)).map (·.value.kind) =
        (if Layout.top layout.widths < width then [.indent]
        else List.replicate (layout.widths.countP (width < ·)) .dedent) ∧
      ((Opened.of layout).after texts (layoutOn met (1 + i))).widths =
        (if Layout.top layout.widths < width then width :: layout.widths
        else layout.widths.filter (· ≤ width)) ∧
      ((∃ problem, (Scan.source source).outcome = .error problem ∧
          problem.value.code = .unmatchedUnindent ∧ problem.position.line = 1 + i) ↔
        width < Layout.top layout.widths ∧ width ∉ Layout.levels layout.widths) := by
  intro texts met width
  obtain ⟨style, hrest⟩ := h.source_eq_width hgoverns hreached halike
  obtain ⟨found, hkinds, hwidth⟩ := Layout.readWidth_eq (1 + (i : Int)) width h.nested
  have hon : ∀ found ∈ (Layout.readWidth (1 + i) width layout.widths).lexemes,
      found.position.line = 1 + i := by
    intro found hfound
    cases (Layout.within_readWidth (1 + i) width layout.widths).lexemes found hfound <;> rfl
  rw [hwidth] at hon
  -- What the line starts with is what its width makes of the open blocks.
  have hlayout : layoutOn met (1 + i) = found := by
    have hblocks : ∀ lexeme ∈ found, isBlock lexeme := by
      intro lexeme hlexeme
      have hkind : lexeme.value.kind ∈ found.map (·.value.kind) := List.mem_map_of_mem hlexeme
      rw [hkinds] at hkind
      split at hkind
      · simp [isBlock, List.mem_singleton.1 hkind]
      · simp [isBlock, List.eq_of_mem_replicate hkind]
    rw [layoutOn, h.later, hrest, hwidth]
    exact takeWhile_isBlock hblocks fun widths =>
      (startsContent_settled _ _ hgoverns.visible).bind _
  have houtcome : (Scan.source source).outcome = (rest (1 + i) layout (text :: more)).outcome := by
    rw [h.source_eq]
    rfl
  rw [hlayout, houtcome, hrest]
  exact ⟨hkinds, widths_after_layout hgoverns.get h.nested hon hkinds (Opened.widths_of layout),
    refused_of_width h.nested fun widths problem => code_of_restAfter⟩

/-- A line that settles the layout follows the offside rule if the scan comes to it. -/
theorem offside_line {source text : List Char} {i : Nat}
    (hgoverns : Governs (Text.lines (Text.dropMark source)) (Scan.source source).lexemes i text)
    (hreached : ∀ problem, (Scan.source source).outcome = .error problem →
      1 + (i : Int) ≤ problem.position.line) :
    Offside (Text.lines (Text.dropMark source)) (Scan.source source).lexemes i text
      (∃ problem, (Scan.source source).outcome = .error problem ∧
        problem.value.code = .unmatchedUnindent ∧ problem.position.line = 1 + i) := by
  obtain ⟨earlier, layout, more, hreaches⟩ := exists_reaches hgoverns.get hreached
  have hsettles := hreaches.settles hgoverns hreached
  refine ⟨?_, fun halike => ?_, fun halike => ?_, fun halike => ?_⟩
  · rw [hreaches.opened]
    exact hreaches.nested
  · rw [hreaches.opened]
    exact (hsettles halike).1
  · rw [hreaches.opened]
    exact (hsettles halike).2.1
  · rw [hreaches.opened]
    exact (hsettles halike).2.2

end Scan

end EoJava
