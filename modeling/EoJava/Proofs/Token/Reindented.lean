import EoJava.Proofs.Token.Alike
import Mathlib.Order.Monotone.Basic

/-!
# Indentation in other widths

Let a function be strictly increasing, with zero at zero. If the widths of open blocks are replaced
by its values, and the width of a line too, then the line opens and closes the same blocks
(`Layout.alike_readWidth`). So the same lexemes are met in a source whose lines are indented anew
with one character in these widths, if the source does not mix tabs and spaces
(`Scan.alike_reindented`).
-/

namespace EoJava

open Text (isGap IndentStyle)

variable {f : Nat → Nat} {c : Char}

/-! ## Leading whitespace -/

namespace Text

/-- A line with so many of one character in place of its leading whitespace. -/
def indentWith (c : Char) (width : Nat) (line : List Char) : List Char :=
  List.replicate width c ++ line.dropWhile isGap

variable {space rest : List Char}

theorem indentWidth_run (hspace : ∀ d ∈ space, isGap d)
    (hrest : ∀ d ∈ rest.head?, isGap d = false) :
    indentWidth (space ++ rest) = space.length := by
  rw [indentWidth, takeWhile_run hspace hrest]

/-- Tabs and spaces before a line do not count for whether it holds something. -/
theorem holdsNothing_gap (hspace : ∀ d ∈ space, isGap d) (rest : List Char) :
    holdsNothing (space ++ rest) = holdsNothing rest := by
  rw [holdsNothing, holdsNothing,
    List.dropWhile_append_of_pos fun d hd => isBlank_of_isGap (hspace d hd)]

/-- The leading whitespace of a line does not end with a carriage return. -/
theorem dropReturn_gap (hspace : ∀ d ∈ space, isGap d) (rest : List Char) :
    dropReturn (space ++ rest) = space ++ dropReturn rest := by
  cases rest with
  | nil =>
      have hlast : space.getLast? ≠ some '\r' := fun hlast =>
        absurd (hspace '\r' (List.mem_of_getLast? hlast)) (by decide)
      rw [List.append_nil, dropReturn_of_getLast? hlast]
      exact (List.append_nil space).symm
  | cons d rest => exact dropReturn_append space (List.cons_ne_nil d rest)

/-- A line that is not indented stays as it is if nothing is put before it. -/
theorem indentWith_zero {line : List Char} (h : indentWidth line = 0) :
    indentWith c 0 line = line := by
  have hsplit : line.takeWhile isGap ++ line.dropWhile isGap = line :=
    List.takeWhile_append_dropWhile
  rwa [List.length_eq_zero_iff.1 h] at hsplit

theorem isGap_of_mem_replicate (hc : isGap c) (width : Nat) :
    ∀ d ∈ List.replicate width c, isGap d := by
  intro d hd
  rw [List.eq_of_mem_replicate hd]
  exact hc

end Text

/-! ## Layout -/

namespace Layout

variable {layout other : Layout} {number : Int} {space rest : List Char}

/-- Two layouts have the same blocks and parentheses open, the blocks of the second in other widths.
If the style of the second is set, then it is that of a character. -/
structure Scaled (f : Nat → Nat) (c : Char) (layout other : Layout) : Prop where
  style : ∀ style ∈ other.style, IndentStyle.ofChar? c = some style
  widths : other.widths = layout.widths.map f
  depth : other.depth = layout.depth

theorem top_map (hzero : f 0 = 0) (widths : List Nat) : top (widths.map f) = f (top widths) := by
  cases widths with
  | nil => exact hzero.symm
  | cons width widths => rfl

/-- The same blocks are closed in other widths. -/
theorem alike_close (hf : StrictMono f) (number : Int) (width : Nat) (widths : List Nat) :
    Reading.Alike (fun remaining others => others = remaining.map f)
      (close number width widths) (close number (f width) (widths.map f)) := by
  induction widths with
  | nil => exact .pure rfl
  | cons top widths ih =>
      rw [List.map_cons, close, close, List.length_map]
      exact .ite hf.lt_iff_lt ((Reading.Alike.emit _).bind fun _ _ _ _ _ => ih) (.pure rfl)

/-- A line opens and closes the same blocks in other widths, or it is refused in both. -/
theorem alike_readWidth (hf : StrictMono f) (hzero : f 0 = 0) (number : Int) (width : Nat)
    (widths : List Nat) :
    Reading.Alike (fun next others => others = next.map f)
      (readWidth number width widths) (readWidth number (f width) (widths.map f)) := by
  rw [readWidth, readWidth, top_map hzero, List.length_map]
  refine .ite hf.lt_iff_lt ((Reading.Alike.emit _).bind fun _ _ _ _ _ => .pure rfl) ?_
  refine (alike_close hf number width widths).bind fun _ remaining _ _ hremaining => ?_
  rw [hremaining, top_map hzero]
  exact .ite hf.injective.eq_iff (.pure rfl) (.fail rfl)

/-- Leading whitespace is accepted, or its characters are wrong. -/
theorem readStyle_cases (layout : Layout) (number : Int) (space : List Char) :
    (∃ style, layout.readStyle number space = pure style) ∨
      ∃ problem : Located Problem, layout.readStyle number space = ⟨[], .error problem⟩ ∧
        problem.value.code ∈ [Code.mixedIndentation, .inconsistentIndentation] := by
  unfold readStyle
  split
  · exact .inl ⟨_, rfl⟩
  · split
    · exact .inr ⟨_, rfl, by simp [Problem.code]⟩
    · split
      · exact .inl ⟨_, rfl⟩
      · split
        · exact .inl ⟨_, rfl⟩
        · exact .inr ⟨_, rfl, by simp [Problem.code]⟩

/-- Leading whitespace of one character is accepted where this is the style of the file, and the
style is still that of the character. -/
theorem readStyle_replicate (hstyle : ∀ style ∈ layout.style, IndentStyle.ofChar? c = some style)
    (number : Int) (width : Nat) :
    ∃ style, layout.readStyle number (List.replicate width c) = pure style ∧
      ∀ found ∈ style, IndentStyle.ofChar? c = some found := by
  have hhead : ∀ d ∈ (List.replicate width c).head?, d = c := fun d hd =>
    List.eq_of_mem_replicate (List.mem_of_head? hd)
  have huniform : ∀ d ∈ List.replicate width c, (List.replicate width c).head? = some d := by
    intro d hd
    obtain rfl := List.eq_of_mem_replicate hd
    cases width with
    | zero => cases hd
    | succ width => rfl
  have hread : ∃ style, layout.readStyle number (List.replicate width c) = pure style :=
    readStyle_of_uniform number huniform fun style hfound d hd => hhead d hd ▸ hstyle style hfound
  obtain ⟨style, hread⟩ := hread
  refine ⟨style, hread, fun found hfound => ?_⟩
  rcases style_of_readStyle hread with heq | heq
  · exact hstyle found (heq ▸ hfound)
  · rw [heq, Option.mem_def, Option.bind_eq_some_iff] at hfound
    obtain ⟨d, hd, hfound⟩ := hfound
    rwa [hhead d hd] at hfound

/-- A line settles the layout in the same way in other widths. -/
theorem alike_enter (hf : StrictMono f) (hzero : f 0 = 0) (hc : isGap c)
    (h : Scaled f c layout other) (hspace : ∀ d ∈ space, isGap d)
    (hrest : ∀ d ∈ rest.head?, isGap d = false)
    (hread : ∃ style, layout.readStyle number space = pure style) :
    Reading.Alike (Scaled f c) (layout.enter number (space ++ rest))
      (other.enter number (List.replicate (f space.length) c ++ rest)) := by
  have hgaps := Text.isGap_of_mem_replicate hc (f space.length)
  obtain ⟨style, hread⟩ := hread
  obtain ⟨style', hread', hstyle⟩ := readStyle_replicate h.style number (f space.length)
  rw [enter, enter, Text.takeWhile_run hspace hrest, Text.takeWhile_run hgaps hrest,
    Text.indentWidth_run hspace hrest, Text.indentWidth_run hgaps hrest, List.length_replicate,
    hread, hread', pure_bind, pure_bind, h.widths]
  exact (alike_readWidth hf hzero number space.length layout.widths).bind fun _ _ _ _ hwidths =>
    .pure ⟨hstyle, hwidths, h.depth⟩

end Layout

/-! ## Lines of a source -/

namespace Scan

variable {layout other : Layout} {i : Nat}
  {text line' first second space rest source : List Char} {others : List (List Char)}

/-- What may stand in place of a line, given how many parentheses are open where it starts: the rest
of the line after as many `c` as `f` makes of its width, or the line as it is, if a parenthesis is
open there or the line is bare. -/
inductive Reindents (f : Nat → Nat) (c : Char) (depth : Nat) : List Char → List Char → Prop where
  | anew {space rest : List Char} (hspace : ∀ d ∈ space, isGap d)
      (hrest : ∀ d ∈ rest.head?, isGap d = false) :
      Reindents f c depth (space ++ rest) (List.replicate (f space.length) c ++ rest)
  | inside (text : List Char) (h : depth ≠ 0) : Reindents f c depth text text
  | bare {text : List Char} (h : Bare text) : Reindents f c depth text text

/-- What is read of a line whose layout is settled does not depend on its indentation. -/
theorem alike_settled (h : Layout.Scaled f c layout other) (number : Int)
    (hfirst : ∀ d ∈ first, isGap d) (hsecond : ∀ d ∈ second, isGap d) (rest : List Char) :
    Reading.Alike (Layout.Scaled f c) (settled number (first ++ rest) layout)
      (settled number (second ++ rest) other) := by
  rw [settled_eq, settled_eq, h.depth, Text.Cursor.start, Text.Cursor.start, content_gap hfirst,
    content_gap hsecond]
  refine (alike_content number layout.depth ⟨rest, 0 + first.length⟩ _).bind ?_
  rintro _ depth _ - rfl
  refine .ok ?_ ⟨h.style, h.widths, rfl⟩
  split <;> rfl

/-- A line that starts inside parentheses is read alike whatever it is indented with. -/
theorem alike_inside (h : Layout.Scaled f c layout other) (number : Int) (hdepth : layout.depth ≠ 0)
    (hfirst : ∀ d ∈ first, isGap d) (hsecond : ∀ d ∈ second, isGap d) (rest : List Char) :
    Reading.Alike (Layout.Scaled f c) (line number layout (first ++ rest))
      (line number other (second ++ rest)) := by
  have hsame : Text.holdsNothing (second ++ rest) = Text.holdsNothing (first ++ rest) := by
    rw [Text.holdsNothing_gap hsecond, Text.holdsNothing_gap hfirst]
  cases hbare : Text.holdsNothing (first ++ rest) with
  | true =>
      rw [line_of_bare _ _ hbare, line_of_bare _ _ (hsame.trans hbare)]
      exact .pure h
  | false =>
      rw [line_of_inside _ hbare hdepth, line_of_inside _ (hsame.trans hbare) (h.depth ▸ hdepth)]
      exact alike_settled h number hfirst hsecond rest

/-- A line that starts outside parentheses is read alike in other widths. -/
theorem alike_outside (hf : StrictMono f) (hzero : f 0 = 0) (hc : isGap c)
    (h : Layout.Scaled f c layout other) (number : Int) (hdepth : layout.depth = 0)
    (hspace : ∀ d ∈ space, isGap d) (hrest : ∀ d ∈ rest.head?, isGap d = false)
    (hread : ¬ Bare (space ++ rest) →
      ∃ style, layout.readStyle number ((space ++ rest).takeWhile isGap) = pure style) :
    Reading.Alike (Layout.Scaled f c) (line number layout (space ++ rest))
      (line number other (List.replicate (f space.length) c ++ rest)) := by
  have hgaps := Text.isGap_of_mem_replicate hc (f space.length)
  have hsame : Text.holdsNothing (List.replicate (f space.length) c ++ rest) =
      Text.holdsNothing (space ++ rest) := by
    rw [Text.holdsNothing_gap hgaps, Text.holdsNothing_gap hspace]
  cases hbare : Text.holdsNothing (space ++ rest) with
  | true =>
      rw [line_of_bare _ _ hbare, line_of_bare _ _ (hsame.trans hbare)]
      exact .pure h
  | false =>
      have hread := hread (holdsNothing_eq_false_iff.1 hbare)
      rw [Text.takeWhile_run hspace hrest] at hread
      rw [line_of_outside _ hbare hdepth,
        line_of_outside _ (hsame.trans hbare) (h.depth.trans hdepth)]
      exact (Layout.alike_enter hf hzero hc h hspace hrest hread).bind
        fun _ _ _ _ h => alike_settled h number hspace hgaps rest

/-- A line is read alike in other widths. -/
theorem alike_line (hf : StrictMono f) (hzero : f 0 = 0) (hc : isGap c)
    (h : Layout.Scaled f c layout other) (number : Int)
    (hread : ¬ Bare text → layout.depth = 0 →
      ∃ style, layout.readStyle number (text.takeWhile isGap) = pure style)
    (hline : Reindents f c layout.depth text line') :
    Reading.Alike (Layout.Scaled f c) (line number layout text) (line number other line') := by
  cases hline with
  | bare hbare =>
      have hholds := holdsNothing_iff_bare.2 hbare
      rw [line_of_bare _ _ hholds, line_of_bare _ _ hholds]
      exact .pure h
  | inside text hdepth =>
      exact alike_inside h number hdepth (List.forall_mem_nil _) (List.forall_mem_nil _) text
  | @anew space rest hspace hrest =>
      by_cases hdepth : layout.depth = 0
      · exact alike_outside hf hzero hc h number hdepth hspace hrest fun hbare =>
          hread hbare hdepth
      · exact alike_inside h number hdepth hspace
          (Text.isGap_of_mem_replicate hc (f space.length)) rest

/-! ## Sources -/

/-- The scan of a source does not stop at a line for the characters that it is indented with. -/
def Uniform (source : List Char) : Prop :=
  ∀ problem, (Scan.source source).outcome = .error problem →
    problem.value.code ∉ [Code.mixedIndentation, .inconsistentIndentation]

/-- The number of parentheses that are open where a line of a source starts. -/
def parensAt (source : List Char) (i : Nat) : Nat :=
  (openedAt (Text.lines (Text.dropMark source)) (Scan.source source).lexemes (1 + i)).parens

/-- Each line of a source may have the other one with its index in its place. -/
structure Reindented (f : Nat → Nat) (c : Char) (source : List Char) (others : List (List Char)) :
    Prop where
  length : others.length = (Text.lines (Text.dropMark source)).length
  line : ∀ (i : Nat) (hi : i < (Text.lines (Text.dropMark source)).length),
    Reindents f c (parensAt source i) (Text.lines (Text.dropMark source))[i] others[i]

/-- Where the scan comes to a line that settles the layout, leading whitespace is accepted. -/
theorem Reaches.readStyle {earlier : List (Located Lexeme)} {more : List (List Char)}
    (h : Reaches source i text earlier layout more) (huniform : Uniform source)
    (hbare : ¬ Bare text) (hdepth : layout.depth = 0) :
    ∃ style, layout.readStyle (1 + i) (text.takeWhile isGap) = pure style := by
  refine (layout.readStyle_cases _ _).resolve_right ?_
  rintro ⟨problem, hread, hcode⟩
  refine huniform problem ?_ hcode
  rw [h.source_eq, rest_cons, line_of_outside _ (holdsNothing_eq_false_iff.2 hbare) hdepth,
    Layout.enter, hread]
  rfl

/-- The lines of a source are read alike in other widths, as far as the scan comes. -/
theorem alike_lines (hf : StrictMono f) (hzero : f 0 = 0) (hc : isGap c) (huniform : Uniform source)
    (h : Reindented f c source others) (hi : i ≤ (Text.lines (Text.dropMark source)).length) :
    Reading.Alike (fun last other => other.1 = last.1 ∧ Layout.Scaled f c last.2 other.2)
      (lines 1 {} ((Text.lines (Text.dropMark source)).take i)) (lines 1 {} (others.take i)) := by
  induction i with
  | zero => exact .pure ⟨rfl, nofun, rfl, rfl⟩
  | succ i ih =>
      have hline := h.line i hi
      rw [List.take_succ_eq_append_getElem hi,
        List.take_succ_eq_append_getElem (h.length ▸ hi : i < others.length), lines_append,
        lines_append]
      refine (ih (Nat.le_of_succ_le hi)).bind ?_
      rintro met ⟨last, layout⟩ ⟨number, scaled⟩ hfirst ⟨rfl, hscaled⟩
      obtain ⟨more, hreaches⟩ := reaches_of_read (List.getElem?_eq_getElem hi) hfirst
      cases hfirst.symm.trans hreaches.read
      rw [parensAt, hreaches.opened] at hline
      dsimp only
      rw [lines_singleton, lines_singleton, Int.add_comm]
      exact (alike_line hf hzero hc hscaled _ (hreaches.readStyle huniform) hline).bind
        fun _ _ _ _ hnext => .pure ⟨rfl, hnext⟩

theorem closeAll_map (number : Int) (widths : List Nat) :
    closeAll number (widths.map f) = closeAll number widths := by
  induction widths with
  | nil => rfl
  | cons width widths ih => rw [List.map_cons, closeAll, closeAll, List.length_map, ih]

/-- A source is read alike in other widths, unless it mixes tabs and spaces. -/
theorem alike_reindented {other : List Char} (hf : StrictMono f) (hzero : f 0 = 0) (hc : isGap c)
    (huniform : Uniform source)
    (h : Reindented f c source (Text.lines (Text.dropMark other))) :
    Reading.Alike Eq (Scan.source source) (Scan.source other) := by
  have hlines := alike_lines hf hzero hc huniform h (Nat.le_refl _)
  rw [List.take_length, ← h.length, List.take_length] at hlines
  rw [source_eq_rest, source_eq_rest, Scan.rest, Scan.rest]
  refine hlines.bind ?_
  rintro _ ⟨last, layout⟩ ⟨number, scaled⟩ - ⟨rfl, hscaled⟩
  dsimp only
  rw [hscaled.widths, closeAll_map]
  exact .refl _

/-! ## Sources that are indented anew -/

/-- The lines of a source, of which those that start outside parentheses are indented with as many
`c` as `f` makes of their widths. A line that holds nothing stays as it is where `keep` says so. -/
def reindentLines (f : Nat → Nat) (c : Char) (keep : Nat → Bool) (source : List Char) :
    List (List Char) :=
  (Text.splitLines source).mapIdx fun i line =>
    if parensAt source i = 0 ∧ ¬ (Text.holdsNothing line ∧ keep i) then
      Text.indentWith c (f (Text.indentWidth line)) line
    else line

variable {keep : Nat → Bool}

theorem unbroken_reindentLines (f : Nat → Nat) (hc : isGap c) (keep : Nat → Bool)
    (source : List Char) : ∀ line ∈ reindentLines f c keep source, Text.Unbroken line := by
  intro line hline
  obtain ⟨i, hi, rfl⟩ := List.mem_mapIdx.1 hline
  have hunbroken := Text.unbroken_of_mem_splitLines (List.getElem_mem hi)
  split
  · refine Text.unbroken_append.2 ⟨fun hmem => ?_, fun hmem => hunbroken ?_⟩
    · exact absurd (Text.isGap_of_mem_replicate hc _ _ hmem) (by decide)
    · exact (List.dropWhile_suffix isGap).mem hmem
  · exact hunbroken

/-- A line that is indented anew, without its end, may stand in place of the line without its
end. -/
theorem Reindents.indentWith (hc : isGap c) (depth : Nat) (line : List Char) :
    Reindents f c depth (Text.dropReturn line)
      (Text.dropReturn (Text.indentWith c (f (Text.indentWidth line)) line)) := by
  have hspace : ∀ d ∈ line.takeWhile isGap, isGap d := fun d hd => List.mem_takeWhile_imp hd
  have hgaps := Text.isGap_of_mem_replicate hc (f (Text.indentWidth line))
  have hsplit := Text.dropReturn_gap hspace (line.dropWhile isGap)
  rw [List.takeWhile_append_dropWhile] at hsplit
  rw [hsplit, Text.indentWith, Text.dropReturn_gap hgaps]
  refine .anew hspace fun d hd => ?_
  have hhead := List.head?_dropWhile_not isGap line
  rw [Text.mem_head?_of_dropReturn hd] at hhead
  exact hhead

/-- No byte order mark comes to the start of a source. -/
theorem dropMark_reindentLines (hf : StrictMono f) (hzero : f 0 = 0) (hc : isGap c)
    (hmark : source.head? ≠ some '\uFEFF') :
    (reindentLines f c keep source).modifyHead Text.dropMark = reindentLines f c keep source := by
  obtain ⟨line, lines, hlines⟩ := List.exists_cons_of_ne_nil (Text.splitLines_ne_nil source)
  have hfirst : Text.dropMark line = line := by
    have hsame := Text.splitLines_dropMark source
    rw [Text.dropMark_of_head? hmark, hlines] at hsame
    exact (List.cons.inj hsame).1.symm
  rw [reindentLines, hlines, List.mapIdx_cons, List.modifyHead_cons]
  congr 1
  split
  · cases hwidth : f (Text.indentWidth line) with
    | zero =>
        have hnone : Text.indentWidth line = 0 := hf.injective (hwidth.trans hzero.symm)
        rw [Text.indentWith_zero hnone, hfirst]
    | succ width =>
        refine Text.dropMark_of_head? fun hhead => ?_
        obtain rfl : c = '\uFEFF' := Option.some.inj hhead
        exact absurd hc (by decide)
  · exact hfirst

/-- The lines of a source that are indented anew, without their ends, may stand in place of its
lines. -/
theorem reindented_reindentLines (f : Nat → Nat) (hc : isGap c) (keep : Nat → Bool)
    (hmark : source.head? ≠ some '\uFEFF') :
    Reindented f c source ((reindentLines f c keep source).map Text.dropReturn) := by
  have htexts : Text.lines (Text.dropMark source) =
      (Text.splitLines source).map Text.dropReturn := by
    rw [Text.dropMark_of_head? hmark, Text.lines]
  refine ⟨by simp [htexts, reindentLines], fun i hi => ?_⟩
  simp only [reindentLines, List.getElem_map, List.getElem_mapIdx]
  split
  · simp only [htexts, List.getElem_map]
    exact .indentWith hc _ _
  · next hkept =>
      simp only [htexts, List.getElem_map]
      by_cases hparens : parensAt source i = 0
      · have hholds := (not_not.1 fun h => hkept ⟨hparens, h⟩).1
        exact .bare (holdsNothing_iff_bare.1 hholds).dropReturn
      · exact .inside _ hparens

end Scan

end EoJava
