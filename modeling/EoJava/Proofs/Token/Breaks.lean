import EoJava.Proofs.Token.Tiled

/-!
# Line breaks inside parentheses

A line that starts inside parentheses is its terminals, whatever it is indented with, and if it also
ends inside them, there is nothing at its end (`Scan.inside_of_tiles`). So where a parenthesis is
open and no terminal and no comment is cut, a line may be broken, and the same terminals are met
(`Scan.yields_break`).
-/

namespace EoJava

open Grammar (Terminal)
open Text (isGap isBlank)

/-! ## Places -/

namespace Text

/-- The last line of a text that a source starts with. -/
def lastLine (text : List Char) : List Char :=
  (splitLines (dropMark text)).getLastD []

/-- The place where a text ends that a source starts with: what follows it stands there. -/
def endOf (text : List Char) : Position :=
  ⟨(splitLines (dropMark text)).length, width (lastLine text) + 1⟩

end Text

namespace Scan

/-- The terminals of a source, each at its place. -/
def terminals (source : List Char) : List (Located Terminal) :=
  (Scan.source source).lexemes.map Lexeme.placed

/-- The number of parentheses open at a place, of which so many are open at the start. -/
def openBefore (depth : Nat) (placed : List (Located Terminal)) (place : Position) : Nat :=
  openAfter depth ((placed.filter (·.position.Before place)).map (·.value))

/-- The first part of a line ends between terminals of the line, or before its comment or its end:
it is blank, or a terminal that is placed there is spelled at its end, with nothing after it but
spaces and tabs. -/
inductive Between (placed : List (Located Terminal)) (line : Int) (first : List Char) : Prop where
  | start (hfirst : ∀ c ∈ first, isBlank c)
  | after {front spelled gap : List Char} {found : Located Terminal}
      (hfirst : first = front ++ (spelled ++ gap)) (hgap : ∀ c ∈ gap, isGap c)
      (hfound : found ∈ placed) (hposition : found.position = ⟨line, Text.width front + 1⟩)
      (hspelled : found.value.SpelledBy spelled)

/-! ## Open parentheses -/

section

variable {placed more : List (Located Terminal)} {place : Position}

/-- Terminals without content count for no parentheses. -/
theorem openAfter_congr {p q : Located Terminal → Bool}
    (h : ∀ found ∈ placed, found.value.kind.isContent → p found = q found) (depth : Nat) :
    openAfter depth ((placed.filter p).map (·.value)) =
      openAfter depth ((placed.filter q).map (·.value)) := by
  induction placed generalizing depth with
  | nil => rfl
  | cons found placed ih =>
      obtain ⟨hfound, hplaced⟩ := List.forall_mem_cons.1 h
      cases hcontent : found.value.kind.isContent with
      | true =>
          rw [List.filter_cons, List.filter_cons, hfound hcontent]
          split
          · exact ih hplaced _
          · exact ih hplaced _
      | false =>
          have hflat : Kind.depthAfter depth found.value.kind = depth := by
            cases hkind : found.value.kind with
            | mark m => simp [hkind, Kind.isContent] at hcontent
            | _ => rfl
          have hskip (r : Located Terminal → Bool) :
              openAfter depth (((found :: placed).filter r).map (·.value)) =
                openAfter depth ((placed.filter r).map (·.value)) := by
            rw [List.filter_cons]
            split
            · rw [List.map_cons, openAfter_cons, hflat]
            · rfl
          rw [hskip, hskip]
          exact ih hplaced depth

theorem openBefore_append (depth : Nat) : openBefore depth (placed ++ more) place =
    openBefore (openBefore depth placed place) more place := by
  simp [openBefore]

/-- All that is placed before a place counts there. -/
theorem openBefore_of_before
    (h : ∀ found ∈ placed, found.value.kind.isContent → found.position.Before place) (depth : Nat) :
    openBefore depth placed place = openAfter depth (placed.map (·.value)) := by
  have hall := openAfter_congr (q := fun _ => true)
    (fun found hfound hcontent => decide_eq_true (h found hfound hcontent)) depth
  rwa [List.filter_true] at hall

/-- Nothing that is placed elsewhere counts. -/
theorem openBefore_of_not_before
    (h : ∀ found ∈ placed, found.value.kind.isContent → ¬ found.position.Before place)
    (depth : Nat) : openBefore depth placed place = depth := by
  have hnone := openAfter_congr (q := fun _ => false)
    (fun found hfound hcontent => decide_eq_false (h found hfound hcontent)) depth
  rwa [List.filter_false] at hnone

theorem openBefore_contentOn {line : Int} (hline : ∀ found ∈ placed, found.position.line = line)
    (depth : Nat) :
    openBefore depth placed place = openBefore depth (contentOn line placed) place := by
  rw [openBefore, openBefore, contentOn, List.filter_filter]
  refine openAfter_congr (fun found hfound hcontent => ?_) depth
  simp [hcontent, hline found hfound]

/-- Terminals that cover a text are placed before its end. -/
theorem Tiles.before {line : Int} {offset : Nat} {text : List Char}
    (h : Tiles line offset text placed) : ∀ found ∈ placed,
    found.position.Before ⟨line, (offset + Text.width text : Nat) + 1⟩ := by
  intro found hfound
  have hleft := h.column_le found hfound
  refine .inr ⟨(h.content_line found hfound).2, ?_⟩
  show found.position.column < ((offset + Text.width text : Nat) : Int) + 1
  omega

/-- Terminals that cover a text are not placed before its start. -/
theorem Tiles.not_before {line : Int} {offset : Nat} {text : List Char}
    (h : Tiles line offset text placed) : ∀ found ∈ placed,
    ¬ found.position.Before ⟨line, offset + 1⟩ := by
  intro found hfound
  have hline := (h.content_line found hfound).2
  have hright := h.sorted.1 found hfound
  rintro (hlt | ⟨-, hlt⟩)
  · exact absurd hline (Int.ne_of_lt hlt)
  · have hcolumn : found.position.column < (offset : Int) + 1 := hlt
    omega

end

/-! ## Lines inside parentheses -/

section

variable {number other : Int} {layout next : Layout} {text first rest space : List Char}
  {ts : List Terminal} {placed earlier later : List (Located Terminal)}

/-- The end of a line is met if it is outside parentheses. -/
def lineEnd (depth : Nat) : List Terminal :=
  if depth = 0 then [.newline] else []

/-- A line whose layout is settled is the terminals that tile it. -/
theorem settled_of_tiles (h : Tiles number 0 text placed) (layout : Layout) :
    (settled number text layout).Yields
      (placed.map (·.value) ++ lineEnd (openAfter layout.depth (placed.map (·.value))))
      { layout with depth := openAfter layout.depth (placed.map (·.value)) } := by
  rw [settled_eq]
  refine (content_of_tiles h layout.depth).bind ⟨_, rfl, ?_⟩
  rw [lineEnd]
  split <;> rfl

/-- A line that starts inside parentheses is the terminals that tile it. -/
theorem inside_of_tiles (h : Tiles number 0 text placed) (hdepth : layout.depth ≠ 0) :
    (line number layout text).Yields
      (placed.map (·.value) ++ lineEnd (openAfter layout.depth (placed.map (·.value))))
      { layout with depth := openAfter layout.depth (placed.map (·.value)) } := by
  cases hbare : Text.holdsNothing text with
  | true =>
      obtain rfl := h.bare_iff.1 (holdsNothing_iff_bare.1 hbare)
      rw [line_of_bare _ _ hbare, List.map_nil, openAfter_nil, lineEnd, if_neg hdepth]
      exact Reading.yields_pure layout
  | false =>
      rw [line_of_inside _ hbare hdepth]
      exact settled_of_tiles h layout

/-- Blank characters at the front of a line do not count for whether it holds something. -/
theorem bare_append_iff (hfirst : ∀ c ∈ first, isBlank c) :
    Bare (first ++ rest) ↔ Bare rest := by
  rw [← holdsNothing_iff_bare, ← holdsNothing_iff_bare, Text.holdsNothing, Text.holdsNothing,
    List.dropWhile_append_of_pos hfirst]

/-- What the layout is settled by is before the first character that counts. -/
theorem enter_append (hfirst : ¬ Bare first) (number : Int) (layout : Layout) (rest : List Char) :
    layout.enter number (first ++ rest) = layout.enter number first := by
  have hspace : (first ++ rest).takeWhile isGap = first.takeWhile isGap := by
    rw [List.takeWhile_append, if_neg]
    intro hlength
    have hall : first.takeWhile isGap = first := (List.takeWhile_prefix _).eq_of_length hlength
    refine hfirst ⟨first, [], (List.append_nil first).symm, fun c hc => ?_, .inl rfl⟩
    rw [← hall] at hc
    exact Text.isBlank_of_isGap (List.mem_takeWhile_imp hc)
  rw [Layout.enter, Layout.enter, Text.indentWidth, hspace]
  rfl

theorem depth_of_enter {entered : Layout} (h : (layout.enter number text).Yields ts entered) :
    entered.depth = layout.depth := by
  obtain ⟨_, _, _, -, hrest, -⟩ := Reading.yields_bind_iff.1 h
  obtain ⟨_, _, _, -, hpure, -⟩ := Reading.yields_bind_iff.1 hrest
  obtain ⟨-, rfl⟩ := Reading.yields_pure_iff.1 hpure
  rfl

/-- A line may be broken after blank characters. -/
theorem line_break_start (hfirst : ∀ c ∈ first, isBlank c) (hspace : ∀ c ∈ space, isGap c)
    (hdepth : layout.depth ≠ 0) (h : (line number layout (first ++ rest)).Yields ts next) :
    (line other layout (space ++ rest)).Yields ts next := by
  have hspace' : ∀ c ∈ space, isBlank c := fun c hc => Text.isBlank_of_isGap (hspace c hc)
  by_cases hbare : Bare (first ++ rest)
  · have hbare' : Bare (space ++ rest) :=
      (bare_append_iff hspace').2 ((bare_append_iff hfirst).1 hbare)
    rw [line_of_bare _ _ (holdsNothing_iff_bare.2 hbare)] at h
    rwa [line_of_bare _ _ (holdsNothing_iff_bare.2 hbare')]
  · obtain ⟨met, hmet, -⟩ := id h
    have htiles := (tiles_of_line hmet).2 hbare
    obtain ⟨moved, hmoved, hvalues⟩ := (htiles.drop_blanks hfirst).move other (0 + space.length)
    have hread := inside_of_tiles htiles hdepth
    obtain ⟨rfl, rfl⟩ := h.unique hread
    rw [← hvalues]
    exact inside_of_tiles (hmoved.append_gap hspace) hdepth

/-- A line may be broken after a terminal if a parenthesis is open there. -/
theorem line_break_after (hwhole : Tiles number 0 (first ++ rest) (earlier ++ later))
    (hne : earlier ≠ []) (hfirst : Tiles number 0 first earlier)
    (hrest : Tiles number (Text.width first) rest later) (hspace : ∀ c ∈ space, isGap c)
    (hopen : openAfter layout.depth (earlier.map (·.value)) ≠ 0)
    (h : (line number layout (first ++ rest)).Yields ts next) :
    (line number layout first >>= fun entered => line other entered (space ++ rest)).Yields
      ts next := by
  obtain ⟨moved, hmoved, hvalues⟩ := hrest.move other (0 + space.length)
  -- Once the layout is settled, the two lines give what the one gives.
  have hsettled : ∀ {start : Layout} {us : List Terminal}, start.depth = layout.depth →
      (settled number (first ++ rest) start).Yields us next →
        (settled number first start >>= fun entered => line other entered (space ++ rest)).Yields
          us next := by
    intro start us hdepth hread
    rw [← hdepth] at hopen
    obtain ⟨rfl, rfl⟩ := hread.unique (settled_of_tiles hwhole start)
    have hearlier := settled_of_tiles hfirst start
    rw [lineEnd, if_neg hopen, List.append_nil] at hearlier
    rw [List.map_append, openAfter_append, List.append_assoc, ← hvalues]
    refine hearlier.bind ?_
    exact inside_of_tiles (hmoved.append_gap hspace) hopen
  have hbare : Text.holdsNothing (first ++ rest) = false :=
    holdsNothing_eq_false_iff.2 fun hbare =>
      hne (List.append_eq_nil_iff.1 (hwhole.bare_iff.1 hbare)).1
  have hbare' : ¬ Bare first := fun hbare => hne (hfirst.bare_iff.1 hbare)
  have hbare'' : Text.holdsNothing first = false := holdsNothing_eq_false_iff.2 hbare'
  by_cases hdepth : layout.depth = 0
  · rw [line_of_outside _ hbare hdepth, enter_append hbare'] at h
    rw [line_of_outside _ hbare'' hdepth, bind_assoc]
    obtain ⟨entered, us, vs, henter, hread, rfl⟩ := Reading.yields_bind_iff.1 h
    exact henter.bind (hsettled (depth_of_enter henter) hread)
  · rw [line_of_inside _ hbare hdepth] at h
    rw [line_of_inside _ hbare'' hdepth]
    exact hsettled rfl h

/-- A line may be broken between its terminals if a parenthesis is open there. -/
theorem line_break {met : List (Located Lexeme)}
    (h : line number layout (first ++ rest) = ⟨met, .ok next⟩)
    (hbetween : Between (met.map Lexeme.placed) number first) (hspace : ∀ c ∈ space, isGap c)
    (hopen : 0 < openBefore layout.depth (met.map Lexeme.placed)
      ⟨number, Text.width first + 1⟩) :
    (line number layout first >>= fun entered => line other entered (space ++ rest)).Yields
      (met.map (·.value.terminal)) next := by
  have hyields : (line number layout (first ++ rest)).Yields (met.map (·.value.terminal)) next :=
    ⟨met, h, rfl⟩
  obtain ⟨hnone, htiles⟩ := tiles_of_line h
  have hline : ∀ found ∈ met.map Lexeme.placed, found.position.line = number := by
    have hwithin := (within_line number layout (first ++ rest)).lexemes
    rw [h] at hwithin
    exact List.forall_mem_map.2 fun found hfound => (hwithin found hfound).line
  have hon {found : Located Terminal} (hfound : found ∈ met.map Lexeme.placed)
      (hcontent : found.value.kind.isContent) :
      found ∈ contentOn number (met.map Lexeme.placed) :=
    List.mem_filter.2 ⟨hfound, by simp [hcontent, hline found hfound]⟩
  have hvisible {found : Located Terminal} (hfound : found ∈ met.map Lexeme.placed) :
      ¬ Bare (first ++ rest) := fun hbare => by
    rw [hnone hbare] at hfound
    cases hfound
  cases hbetween with
  | start hfirst =>
      have hdepth : layout.depth ≠ 0 := by
        refine Nat.ne_of_gt ?_
        rwa [openBefore_of_not_before] at hopen
        intro found hfound hcontent
        have hrest := (htiles (hvisible hfound)).drop_blanks hfirst
        rw [Nat.zero_add] at hrest
        exact hrest.not_before found (hon hfound hcontent)
      have hbare : Bare first := ⟨first, [], (List.append_nil first).symm, hfirst, .inl rfl⟩
      rw [line_of_bare _ _ (holdsNothing_iff_bare.2 hbare), pure_bind]
      exact line_break_start hfirst hspace hdepth hyields
  | @after front spelled gap found hfirst hgap hfound hposition hspelled =>
      have hwhole := htiles (hvisible hfound)
      have hcolumn : found.position.column = (0 : Nat) + Text.width front + 1 := by
        simp [hposition]
      rw [hfirst] at hwhole
      obtain ⟨earlier, later, heq, hne, hearlier, hlater⟩ :=
        hwhole.divide (hon hfound hspelled.isContent) hcolumn hspelled hgap
      rw [← hfirst] at hwhole hearlier hlater
      rw [Nat.zero_add] at hlater
      -- Exactly the earlier terminals are placed before the break.
      have hcount : openBefore layout.depth (met.map Lexeme.placed) ⟨number, Text.width first + 1⟩ =
          openAfter layout.depth (earlier.map (·.value)) := by
        have hbefore := hearlier.before
        rw [Nat.zero_add] at hbefore
        rw [openBefore_contentOn hline, heq, openBefore_append,
          openBefore_of_not_before fun found hfound _ => hlater.not_before found hfound,
          openBefore_of_before fun found hfound _ => hbefore found hfound]
      rw [heq] at hwhole
      exact line_break_after hwhole hne hearlier hlater hspace
        (hcount ▸ Nat.ne_of_gt hopen) hyields

end

/-! ## Sources -/

section

variable {number other : Int} {layout : Layout} {ts : List Terminal}
  {before texts : List (List Char)} {first rest' space : List Char}

/-- The number of a line does not count for what is read from it on. -/
theorem rest_number (other : Int) (h : (rest number layout texts).Yields ts ()) :
    (rest other layout texts).Yields ts () := by
  cases texts with
  | nil =>
      rw [rest_nil] at h ⊢
      obtain ⟨rfl, -⟩ := h.unique (yields_ending (number - 1, layout))
      exact yields_ending (other - 1, layout)
  | cons text texts =>
      have hmoved : Reading.move (· + (other - number)) (rest number layout (text :: texts)) =
          rest (number + (other - number)) layout (text :: texts) :=
        move_rest (fun _ _ => rfl) layout text texts
      rw [Int.add_comm, Int.sub_add_cancel] at hmoved
      exact hmoved ▸ h.move

/-- What has content in the rest of a source is not on an earlier line. -/
theorem le_line_of_rest (number : Int) (layout : Layout) (texts : List (List Char)) :
    ∀ found ∈ (rest number layout texts).lexemes.map Lexeme.placed,
      found.value.kind.isContent → number ≤ found.position.line := by
  refine List.forall_mem_map.2 fun found hfound hcontent => ?_
  cases texts with
  | nil =>
      have hclosing : (rest number layout []).Within (·.value.terminal.kind.isContent = false)
          fun _ => True := by
        rw [rest_nil]
        refine Reading.Within.bind ?_ fun _ => Reading.within_emit rfl
        refine (within_closeAll (number - 1) layout.widths).imp ?_ fun _ h => h
        rintro found ⟨depth, rfl⟩
        rfl
      rw [Lexeme.placed, hclosing.lexemes found hfound] at hcontent
      cases hcontent
  | cons text texts => exact (on_rest number layout text texts).lexemes found hfound

/-- Where a line of a source is broken inside parentheses, the same terminals are read. -/
theorem rest_break {before texts : List (List Char)} {first more space : List Char}
    {met : List (Located Lexeme)}
    (h : rest 1 {} (before ++ (first ++ more) :: texts) = ⟨met, .ok ()⟩)
    (hbetween : Between (met.map Lexeme.placed) (before.length + 1) first)
    (hopen : 0 < openBefore 0 (met.map Lexeme.placed) ⟨before.length + 1, Text.width first + 1⟩)
    (hspace : ∀ c ∈ space, isGap c) :
    (rest 1 {} (before ++ first :: (space ++ more) :: texts)).Yields
      (met.map (·.value.terminal)) () := by
  rw [rest_append] at h ⊢
  obtain ⟨⟨last, start⟩, earlier, others, hearlier, hothers, rfl⟩ := Reading.bind_eq_ok_iff.1 h
  rw [rest_cons] at hothers
  obtain ⟨next, met, later, hline, hlater, rfl⟩ := Reading.bind_eq_ok_iff.1 hothers
  have hlast := last_of_lines hearlier
  obtain rfl : last = before.length := by omega
  -- What was met earlier is before the line, and what is met later is after it.
  have hbefore : ∀ found ∈ earlier.map Lexeme.placed,
      found.position.line < before.length + 1 := by
    have hon := (on_lines 1 {} before).lexemes
    rw [hearlier] at hon
    refine List.forall_mem_map.2 fun found hfound => ?_
    have := (hon found hfound).2
    show found.position.line < _
    omega
  have hafter : ∀ found ∈ later.map Lexeme.placed, found.value.kind.isContent →
      (before.length : Int) + 1 < found.position.line := by
    have hon := le_line_of_rest (before.length + 1 + 1) next texts
    rw [hlater] at hon
    exact fun found hfound hcontent => Int.lt_iff_add_one_le.2 (hon found hfound hcontent)
  have hyields : (lines 1 {} before).Yields (earlier.map (·.value.terminal))
      ((before.length : Int), start) := ⟨earlier, hearlier, rfl⟩
  have hdepth : start.depth = openAfter 0 ((earlier.map Lexeme.placed).map (·.value)) := by
    rw [List.map_map]
    exact (opened_of_lines hyields).1
  rw [List.map_append, List.map_append, openBefore_append, openBefore_append,
    openBefore_of_before fun found hfound _ => .inl (hbefore found hfound), ← hdepth,
    openBefore_of_not_before] at hopen
  · have hhere : Between (met.map Lexeme.placed) (before.length + 1) first := by
      cases hbetween with
      | start hfirst => exact .start hfirst
      | after hfirst hgap hfound hposition hspelled =>
          refine .after hfirst hgap ?_ hposition hspelled
          rw [List.map_append, List.map_append] at hfound
          rcases List.mem_append.1 hfound with hfound | hfound
          · have hlt := hbefore _ hfound
            rw [hposition] at hlt
            exact absurd rfl (Int.ne_of_lt hlt)
          · rcases List.mem_append.1 hfound with hfound | hfound
            · exact hfound
            · have hlt := hafter _ hfound hspelled.isContent
              rw [hposition] at hlt
              exact absurd rfl (Int.ne_of_lt hlt)
    rw [List.map_append, List.map_append]
    refine hyields.bind ?_
    have hrest : (rest (before.length + 1 + 1) next texts).Yields
        (later.map (·.value.terminal)) () := ⟨later, hlater, rfl⟩
    simp only [rest_cons]
    rw [← bind_assoc]
    refine (line_break hline hhere hspace hopen).bind ?_
    exact rest_number _ hrest
  · rintro found hfound hcontent (hlt | ⟨heq, -⟩)
    · exact absurd (hafter found hfound hcontent) (Int.not_lt.2 (Int.le_of_lt hlt))
    · exact absurd heq.symm (Int.ne_of_lt (hafter found hfound hcontent))

end

/-! ## Texts -/

/-- A carriage return at the end of a line counts for nothing before a break. -/
theorem Between.line_dropReturn {placed : List (Located Terminal)} {own : Int} {first : List Char}
    (h : Between placed own first) (number : Int) (layout : Layout) :
    line number layout (Text.dropReturn first) = line number layout first := by
  cases h with
  | start hfirst =>
      have hblank : ∀ text ⊆ first, Text.holdsNothing text := fun text htext =>
        holdsNothing_iff_bare.2
          ⟨text, [], (List.append_nil text).symm, fun c hc => hfirst c (htext hc), .inl rfl⟩
      rw [line_of_bare _ _ (hblank _ (Text.dropReturn_subset first)),
        line_of_bare _ _ (hblank _ (List.Subset.refl first))]
  | @after front spelled gap found hfirst hgap hfound hposition hspelled =>
      rw [Text.dropReturn_of_getLast?]
      rw [hfirst]
      rcases List.eq_nil_or_concat gap with rfl | ⟨init, c, rfl⟩
      · have hne : spelled ≠ [] := by
          obtain ⟨c, cs, rfl, -⟩ := hspelled.startsVisible
          exact List.cons_ne_nil c cs
        rw [List.append_nil, List.getLast?_append_of_ne_nil front hne]
        exact hspelled.getLast?_ne
      · rw [List.concat_eq_append, ← List.append_assoc, ← List.append_assoc, List.getLast?_concat]
        rintro ⟨⟩
        exact absurd (hgap '\r' (by simp)) (by decide)

theorem rest_congr {text other : List Char}
    (h : ∀ number layout, line number layout text = line number layout other) (number : Int)
    (layout : Layout) (before texts : List (List Char)) :
    rest number layout (before ++ text :: texts) =
      rest number layout (before ++ other :: texts) := by
  simp only [rest_append, rest_cons, h]

/-- Nothing is placed before the start of a source. -/
theorem openBefore_start {source : List Char} {met : List (Located Lexeme)}
    (h : Scan.source source = ⟨met, .ok ()⟩) :
    openBefore 0 (met.map Lexeme.placed) ⟨1, 1⟩ = 0 := by
  refine openBefore_of_not_before (fun found hfound hcontent => ?_) 0
  obtain ⟨i, before, _, _, -, hposition, -⟩ := (covers_of_source h).spelledFrom hfound hcontent
  rw [hposition]
  rintro (hlt | ⟨-, hlt⟩)
  · have hline : (1 : Int) + i < 1 := hlt
    omega
  · have hcolumn : (Text.width before : Int) + 1 < 1 := hlt
    omega

/-- Where a source is broken inside parentheses, between terminals of a line or before its comment
or its end, the same terminals are read. Spaces and tabs may follow the line feed. -/
theorem yields_break {before after space : List Char} {met : List (Located Lexeme)}
    (h : source (before ++ after) = ⟨met, .ok ()⟩)
    (hbetween : Between (met.map Lexeme.placed) (Text.endOf before).line (Text.lastLine before))
    (hopen : 0 < openBefore 0 (met.map Lexeme.placed) (Text.endOf before))
    (hspace : ∀ c ∈ space, isGap c) :
    (source (before ++ '\n' :: (space ++ after))).Yields (met.map (·.value.terminal)) () := by
  have hne : before ≠ [] := by
    rintro rfl
    exact absurd (openBefore_start h) (Nat.ne_of_gt hopen)
  have hunbroken : Text.Unbroken space := fun hmem => absurd (hspace _ hmem) (by decide)
  obtain ⟨init, last, next, others, hbefore, hafter, hwhole⟩ :=
    Text.exists_splitLines_append (Text.dropMark before) after
  have hlast : Text.lastLine before = last := by simp [Text.lastLine, hbefore]
  have hend : Text.endOf before = ⟨init.length + 1, Text.width last + 1⟩ := by
    simp [Text.endOf, hbefore, hlast]
  rw [hend, hlast] at hbetween
  rw [hend] at hopen
  -- The lines of both texts, but for carriage returns at the end of the broken one.
  have hlines : Text.lines (Text.dropMark (before ++ after)) = init.map Text.dropReturn ++
      Text.dropReturn (last ++ next) :: others.map Text.dropReturn := by
    rw [Text.dropMark_append _ hne, Text.lines, hwhole, List.map_append, List.map_cons]
  have hbroken : Text.lines (Text.dropMark (before ++ '\n' :: (space ++ after))) =
      init.map Text.dropReturn ++ Text.dropReturn last :: Text.dropReturn (space ++ next) ::
        others.map Text.dropReturn := by
    rw [Text.dropMark_lineFeed, Text.lines, Text.splitLines_lineFeed, hbefore,
      Text.splitLines_unbroken_append hunbroken hafter]
    simp
  have hfirst : ∀ number layout, line number layout (Text.dropReturn (last ++ next)) =
      line number layout (last ++ Text.dropReturn next) := by
    intro number layout
    cases next with
    | nil =>
        rw [List.append_nil]
        exact (hbetween.line_dropReturn number layout).trans (by rw [Text.dropReturn]; simp)
    | cons c next => rw [Text.dropReturn_append _ (List.cons_ne_nil c next)]
  have hsecond : Text.dropReturn (space ++ next) = space ++ Text.dropReturn next := by
    cases next with
    | nil =>
        refine Text.dropReturn_of_getLast? fun hreturn => ?_
        rw [List.append_nil] at hreturn
        exact absurd (hspace _ (List.mem_of_getLast? hreturn)) (by decide)
    | cons c next => exact Text.dropReturn_append _ (List.cons_ne_nil c next)
  rw [source_eq_rest, hlines, rest_congr hfirst] at h
  rw [source_eq_rest, hbroken, rest_congr hbetween.line_dropReturn, hsecond]
  refine rest_break h ?_ ?_ hspace
  · simpa using hbetween
  · simpa using hopen

end Scan

end EoJava
