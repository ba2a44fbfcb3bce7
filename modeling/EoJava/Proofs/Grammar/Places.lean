import EoJava.Proofs.Grammar.Columns

/-!
# Places in a text

An offset in a text has a place: the line and the column that are found by counting the line feeds
among the units before it (`placeOf`). The place leads back to the offset (`offsetOf_placeOf`), also
if the offset stands inside a character. At the end of a character of a text without carriage
returns it is the place that a failure is reported at (`lineColumn_eq`).
-/

namespace EoJava

namespace Text

/-- The 16-bit units of a character: its own number, or a pair of surrogates. -/
def codeUnits (c : Char) : List Nat :=
  if c.toNat < 0x10000 then [c.toNat]
  else [0xD800 + (c.toNat - 0x10000) / 0x400, 0xDC00 + (c.toNat - 0x10000) % 0x400]

/-- The unit of a line feed. -/
def feed : Nat := '\n'.toNat

theorem length_codeUnits (c : Char) : (codeUnits c).length = units c := by
  unfold codeUnits units
  split <;> rfl

theorem length_flatMap_codeUnits (text : List Char) :
    (text.flatMap codeUnits).length = width text := by
  induction text with
  | nil => rfl
  | cons c cs ih => rw [List.flatMap_cons, List.length_append, ih, length_codeUnits, width_cons]

/-- Only a line feed has the unit of one. -/
theorem feed_mem_codeUnits {c : Char} : feed ∈ codeUnits c ↔ c = '\n' := by
  constructor
  · intro h
    have hfeed : feed = 10 := rfl
    unfold codeUnits at h
    split at h
    · exact Char.toNat_inj.1 (List.mem_singleton.1 h).symm
    · simp only [hfeed, List.mem_cons, List.not_mem_nil, or_false] at h
      omega
  · rintro rfl
    decide

theorem codeUnits_feed : codeUnits '\n' = [feed] :=
  rfl

/-- The units before the end of a part of a text are those of the part. -/
theorem take_flatMap_codeUnits (first rest : List Char) :
    ((first ++ rest).flatMap codeUnits).take (width first) = first.flatMap codeUnits := by
  rw [List.flatMap_append, ← length_flatMap_codeUnits, List.take_left]

end Text

namespace Grammar

open Text (codeUnits feed)

/-- The number of units after the last line feed. -/
def unitsOfLine (before : List Nat) : Nat :=
  (before.reverse.takeWhile (· ≠ feed)).length

/-- The line and column of an offset in a text, both from one: the line feeds before it are counted,
and the units after the last of them. -/
def placeOf (offset : Nat) (text : List Char) : Nat × Nat :=
  let before := (text.flatMap codeUnits).take offset
  (before.count feed + 1, unitsOfLine before + 1)

/-! ## Units of a line -/

theorem unitsOfLine_of_notMem {before : List Nat} (h : feed ∉ before) :
    unitsOfLine before = before.length := by
  have hall : ∀ unit ∈ before.reverse, unit ≠ feed := by
    intro unit hunit hfeed
    exact h (hfeed ▸ List.mem_reverse.1 hunit)
  rw [unitsOfLine, List.takeWhile_eq_self_iff.2 (by simpa using hall), List.length_reverse]

/-- Nothing counts that stands before a line feed. -/
theorem unitsOfLine_append {more : List Nat} (h : feed ∈ more) (before : List Nat) :
    unitsOfLine (before ++ more) = unitsOfLine more := by
  have hstops : (more.reverse.takeWhile (· ≠ feed)).length ≠ more.reverse.length := by
    intro hlength
    have hall := (List.takeWhile_prefix (· ≠ feed)).eq_of_length hlength
    have hfeed := List.takeWhile_eq_self_iff.1 hall feed (List.mem_reverse.2 h)
    simp at hfeed
  rw [unitsOfLine, List.reverse_append, List.takeWhile_append, if_neg hstops]
  rfl

/-- Neither does the line feed. -/
theorem unitsOfLine_cons (more : List Nat) : unitsOfLine (feed :: more) = unitsOfLine more := by
  by_cases h : feed ∈ more
  · exact unitsOfLine_append h [feed]
  · have hall : ∀ unit ∈ more.reverse, decide (unit ≠ feed) := by
      intro unit hunit
      have hne : unit ≠ feed := fun hfeed => h (hfeed ▸ List.mem_reverse.1 hunit)
      simpa using hne
    rw [unitsOfLine_of_notMem h, unitsOfLine, List.reverse_cons, List.takeWhile_append_of_pos hall]
    simp

/-! ## There and back -/

variable {text : List Char} {offset : Nat}

/-- Before the first line feed, the line that a text goes on with is at its start. -/
theorem lineStart_of_notMem (hfeed : feed ∉ (text.flatMap codeUnits).take offset)
    (h : offset ≤ Text.width text) (start place : Nat) :
    lineStart.go (((text.flatMap codeUnits).take offset).count feed + 1) start place text +
      unitsOfLine ((text.flatMap codeUnits).take offset) = start + offset := by
  rw [List.count_eq_zero_of_not_mem hfeed, lineStart_of_le (Nat.le_refl 1),
    unitsOfLine_of_notMem hfeed, List.length_take, Text.length_flatMap_codeUnits,
    Nat.min_eq_left h]

/-- After a line feed, it does not matter where the line starts that a text goes on with, only where
the text starts. The induction is on the text. -/
theorem lineStart_of_mem (hfeed : feed ∈ (text.flatMap codeUnits).take offset)
    (h : offset ≤ Text.width text) (start place : Nat) :
    lineStart.go (((text.flatMap codeUnits).take offset).count feed + 1) start place text +
      unitsOfLine ((text.flatMap codeUnits).take offset) = place + offset := by
  induction text generalizing offset start place with
  | nil => simp at hfeed
  | cons c cs ih =>
      rw [Text.width_cons] at h
      by_cases hc : c = '\n'
      · subst hc
        have hunits : Text.units '\n' = 1 := rfl
        obtain _ | offset := offset
        · simp at hfeed
        have hle : offset ≤ Text.width cs := by omega
        rw [List.flatMap_cons, Text.codeUnits_feed, List.singleton_append, List.take_succ_cons,
          List.count_cons_self, unitsOfLine_cons, lineStart.go, if_neg (by omega), if_pos rfl,
          hunits, Nat.add_sub_cancel]
        by_cases hmore : feed ∈ (cs.flatMap codeUnits).take offset
        · rw [ih hmore hle]
          omega
        · rw [lineStart_of_notMem hmore hle]
          omega
      · have hnone : feed ∉ codeUnits c := fun hmem => hc (Text.feed_mem_codeUnits.1 hmem)
        have hsplit : ((c :: cs).flatMap codeUnits).take offset =
            (codeUnits c).take offset ++ (cs.flatMap codeUnits).take (offset - Text.units c) := by
          rw [List.flatMap_cons, List.take_append, Text.length_codeUnits]
        have hmore : feed ∈ (cs.flatMap codeUnits).take (offset - Text.units c) := by
          rw [hsplit] at hfeed
          exact (List.mem_append.1 hfeed).resolve_left fun hmem => hnone (List.mem_of_mem_take hmem)
        have hlt : Text.units c < offset := by
          by_contra hle
          rw [Nat.sub_eq_zero_of_le (Nat.le_of_not_lt hle), List.take_zero] at hmore
          cases hmore
        have hcount : ((codeUnits c).take offset).count feed = 0 :=
          List.count_eq_zero_of_not_mem fun hmem => hnone (List.mem_of_mem_take hmem)
        have hpos : 0 < ((cs.flatMap codeUnits).take (offset - Text.units c)).count feed :=
          List.count_pos_iff.2 hmore
        rw [hsplit, List.count_append, hcount, Nat.zero_add, unitsOfLine_append hmore,
          lineStart.go, if_neg (by omega), if_neg hc, ih hmore (by omega)]
        omega

/-- The place of an offset leads back to it. -/
theorem offsetOf_placeOf (h : offset ≤ Text.width text) :
    offsetOf text (placeOf offset text) = offset := by
  simp only [offsetOf, placeOf, lineStart, ← Nat.add_assoc, Nat.add_sub_cancel]
  by_cases hfeed : feed ∈ (text.flatMap codeUnits).take offset
  · rw [lineStart_of_mem hfeed h, Nat.zero_add]
  · rw [lineStart_of_notMem hfeed h, Nat.zero_add]

example : placeOf 3 "a\n😀b".toList = (2, 2) ∧ offsetOf "a\n😀b".toList (2, 2) = 3 := by decide

/-! ## Ends of characters -/

/-- Reading to the end of a part of a text counts its line feeds, and the units after the last of
them, or all if there is none. -/
theorem lineColumn_append {first : List Char} (rest : List Char) (hreturn : '\r' ∉ first)
    (line column : Nat) :
    lineColumn.go (Text.width first) line column (first ++ rest) =
      (line + (first.flatMap codeUnits).count feed,
        if feed ∈ first.flatMap codeUnits then unitsOfLine (first.flatMap codeUnits) + 1
        else column + Text.width first) := by
  induction first generalizing line column with
  | nil => cases rest <;> simp [lineColumn.go]
  | cons c cs ih =>
      have hc : c ≠ '\r' := fun h => hreturn (by simp [h])
      have hcs : '\r' ∉ cs := fun h => hreturn (List.mem_cons_of_mem c h)
      have hpos := Text.units_pos c
      have hoffset : Text.units c + Text.width cs ≠ 0 := by omega
      rw [List.cons_append, Text.width_cons, lineColumn.go, if_neg hoffset, Nat.add_sub_cancel_left]
      by_cases hfeed : c = '\n'
      · subst hfeed
        rw [if_pos rfl, ih hcs, List.flatMap_cons, Text.codeUnits_feed, List.singleton_append,
          List.count_cons_self, unitsOfLine_cons, if_pos List.mem_cons_self]
        refine Prod.ext (by dsimp only; omega) ?_
        by_cases hmore : feed ∈ cs.flatMap codeUnits
        · rw [if_pos hmore]
        · rw [if_neg hmore, unitsOfLine_of_notMem hmore, Text.length_flatMap_codeUnits]
          exact Nat.add_comm ..
      · have hnone : feed ∉ codeUnits c := fun hmem => hfeed (Text.feed_mem_codeUnits.1 hmem)
        rw [if_neg hfeed, if_neg hc, ih hcs, List.flatMap_cons, List.count_append,
          List.count_eq_zero_of_not_mem hnone, Nat.zero_add]
        refine Prod.ext rfl ?_
        by_cases hmore : feed ∈ cs.flatMap codeUnits
        · rw [if_pos hmore, if_pos (List.mem_append_right _ hmore), unitsOfLine_append hmore]
        · rw [if_neg hmore, if_neg (by simp [hnone, hmore]), Nat.add_assoc]

/-- In a text without carriage returns, the end of a part of it is at its place. -/
theorem lineColumn_eq {first rest : List Char} (hreturn : '\r' ∉ first) :
    lineColumn (Text.width first) (first ++ rest) = placeOf (Text.width first) (first ++ rest) := by
  simp only [lineColumn, placeOf, lineColumn_append rest hreturn, Text.take_flatMap_codeUnits]
  refine Prod.ext (Nat.add_comm ..) ?_
  by_cases hfeed : feed ∈ first.flatMap codeUnits
  · rw [if_pos hfeed]
  · rw [if_neg hfeed, unitsOfLine_of_notMem hfeed, Text.length_flatMap_codeUnits]
    exact Nat.add_comm ..

end Grammar

end EoJava
