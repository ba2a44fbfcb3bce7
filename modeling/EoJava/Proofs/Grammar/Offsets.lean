import EoJava.Proofs.Grammar.Places

/-!
# Offsets of printed tokens

Tokens that never go back a line are printed on their lines: at the offset of a token its text and a
space follow, and before it there is a line feed for each line before its own
(`stands_of_printFrom`). The search for a token gives the first one whose offset is not before the
place searched for, or the last one if there is none (`tokenAt_eq_findIdx?`).
-/

namespace EoJava.Grammar

/-! ## Printed tokens -/

/-- A token stands in a printed text that starts at an offset and on a line: its own text, which is
on one line, and a space follow the offset of the token, and as many line feeds are before it as
there are lines up to the line of the token. -/
def Stands (table : StringTable) (line : Int) (offset : Nat) (text : List Char) (token : Token)
    (start : Nat) : Prop :=
  ∃ before shown after, text = before ++ (shown ++ ' ' :: after) ∧
    token.print table = .ok shown ∧ '\n' ∉ shown ∧ '\r' ∉ shown ∧
    offset + Text.width before = start ∧ line + before.count '\n' = token.position.line

variable {table : StringTable} {line : Int} {offset : Nat} {text : List Char} {token : Token}
  {start : Nat}

/-- A token that stands in the rest of a text stands in the text. -/
theorem Stands.append {first : List Char}
    (h : Stands table (line + first.count '\n') (offset + Text.width first) text token start) :
    Stands table line offset (first ++ text) token start := by
  obtain ⟨before, shown, after, rfl, hshown, hfeed, hreturn, hstart, hline⟩ := h
  refine ⟨first ++ before, shown, after, by simp, hshown, hfeed, hreturn, ?_, ?_⟩
  · rw [Text.width_append, ← Nat.add_assoc]
    exact hstart
  · rw [List.count_append]
    push_cast
    omega

theorem feed_not_mem_print {t : Terminal} (ht : t.Legible) : '\n' ∉ t.print :=
  fun hmem => absurd (printable_print ht _ hmem) (by decide)

/-- Tokens that never go back a line stand in the text that is printed, each at its offset. -/
theorem stands_of_printFrom {tokens : List Token} {ts : List Terminal} {starts : List Nat}
    (hcarries : List.Forall₂ (Token.Carries table) tokens ts) (hlegible : ∀ t ∈ ts, t.Legible)
    (hlines : (line :: tokens.map (·.position.line)).Pairwise (· ≤ ·))
    (h : printFrom table line offset tokens = .ok (text, starts)) :
    List.Forall₂ (Stands table line offset text) tokens starts := by
  induction hcarries generalizing line offset text starts with
  | nil =>
      cases h
      exact .nil
  | @cons token t tokens ts hfirst _ ih =>
      obtain ⟨ht, hts⟩ := List.forall_mem_cons.1 hlegible
      obtain ⟨hle, hlines⟩ := List.pairwise_cons.1 hlines
      have hle : line ≤ token.position.line := hle _ (by simp)
      simp only [printFrom, hfirst.print_eq, ok_bind, Int.max_eq_right hle,
        List.length_replicate] at h
      obtain ⟨⟨more, others⟩, hmore, h⟩ := exists_of_bind_eq_ok h
      cases h
      have hreach : line + ((token.position.line - line).toNat : Int) = token.position.line := by
        omega
      refine .cons ?_ ?_
      · refine ⟨List.replicate (token.position.line - line).toNat '\n', t.print, more, by simp,
          hfirst.print_eq, feed_not_mem_print ht, return_not_mem_print ht, ?_, ?_⟩
        · rw [width_feeds]
        · rw [List.count_replicate_self]
          exact hreach
      · -- The other tokens stand behind the line feeds, the first token and its space.
        have hcount : (List.replicate (token.position.line - line).toNat '\n' ++
            (t.print ++ [' '])).count '\n' = (token.position.line - line).toNat := by
          rw [List.count_append, List.count_append, List.count_replicate_self,
            List.count_eq_zero_of_not_mem (feed_not_mem_print ht)]
          rfl
        have hwidth : Text.width (List.replicate (token.position.line - line).toNat '\n' ++
            (t.print ++ [' '])) =
              (token.position.line - line).toNat + (Text.width t.print + 1) := by
          rw [Text.width_append, Text.width_append, width_feeds]
          rfl
        have htext : List.replicate (token.position.line - line).toNat '\n' ++ t.print ++
            ' ' :: more = (List.replicate (token.position.line - line).toNat '\n' ++
              (t.print ++ [' '])) ++ more := by
          simp
        rw [htext]
        refine (ih hts hlines hmore).imp fun other start hother => Stands.append ?_
        rw [hcount, hwidth, hreach, ← Nat.add_assoc, ← Nat.add_assoc]
        exact hother

/-! ## The search for a token -/

variable {printed : Printed}

/-- The search gives the first token that does not start before the offset, or the last token. -/
theorem tokenAt_eq_findIdx? (hsorted : printed.starts.toList.Pairwise (· < ·)) (offset : Nat) :
    printed.tokenAt offset = (printed.starts.toList.findIdx? (offset ≤ ·)).getD
      (printed.starts.size - 1) := by
  have hget : ∀ i (h : i < printed.starts.toList.length),
      printed.starts.getD i 0 = printed.starts.toList[i] := by
    intro i h
    simp [Array.getD, Array.length_toList ▸ h]
  cases hfind : printed.starts.toList.findIdx? (offset ≤ ·) with
  | some i =>
      obtain ⟨hlt, hat, hbefore⟩ := List.findIdx?_eq_some_iff_getElem.1 hfind
      have hsize : i < printed.starts.size := by simpa using hlt
      rw [Option.getD_some]
      refine lowerBound_eq (by omega) (getD_mono hsorted) (fun j hj => ?_) fun _ => ?_
      · rw [hget j (by omega)]
        simpa using hbefore j hj
      · rw [hget i hlt]
        simpa using hat
  | none =>
      refine lowerBound_eq (Nat.le_refl _) (getD_mono hsorted) (fun j hj => ?_) fun hlt => ?_
      · have hj : j < printed.starts.toList.length := by
          rw [Array.length_toList]
          exact Nat.lt_of_lt_of_le hj (Nat.sub_le _ 1)
        have hnone := List.findIdx?_eq_none_iff.1 hfind _ (List.getElem_mem hj)
        rw [hget j hj]
        simpa using hnone
      · exact absurd hlt (Nat.lt_irrefl _)

/-- The offset of a token leads back to it. -/
theorem tokenAt_start (hsorted : printed.starts.toList.Pairwise (· < ·)) {i start : Nat}
    (h : printed.starts[i]? = some start) : printed.tokenAt start = i := by
  rw [← Array.getElem?_toList] at h
  obtain ⟨hlt, rfl⟩ := List.getElem?_eq_some_iff.1 h
  have hfind : printed.starts.toList.findIdx? (printed.starts.toList[i] ≤ ·) = some i := by
    refine List.findIdx?_eq_some_iff_getElem.2 ⟨hlt, by simp, fun j hj => ?_⟩
    have hless := List.pairwise_iff_getElem.1 hsorted j i (by omega) hlt hj
    simpa using hless
  rw [tokenAt_eq_findIdx? hsorted, hfind]
  rfl

/-! ## Printed text -/

/-- The offsets of printed tokens are exact. Each token has one, they ascend, and each token stands
at its own. The search leads from the offset of a token back to it, and from any offset to the first
token that does not start before it, or to the last token. Line and column lead back to any offset
up to the end of the text, and at the end of a character they are those that a failure is reported
with. -/
structure Printed.Exact (printed : Printed) (table : StringTable) (tokens : Array Token) :
    Prop where
  size : printed.starts.size = tokens.size
  ascending : printed.starts.toList.Pairwise (· < ·)
  stands : ∀ (i : Nat) (token : Token) (start : Nat), tokens[i]? = some token →
    printed.starts[i]? = some start → Stands table 1 0 printed.text token start
  tokenAt_start : ∀ i start : Nat, printed.starts[i]? = some start → printed.tokenAt start = i
  tokenAt : ∀ offset, printed.tokenAt offset =
    (printed.starts.toList.findIdx? (offset ≤ ·)).getD (tokens.size - 1)
  offsetOf : ∀ offset ≤ Text.width printed.text,
    offsetOf printed.text (placeOf offset printed.text) = offset
  lineColumn : ∀ first rest, printed.text = first ++ rest →
    lineColumn (Text.width first) printed.text = placeOf (Text.width first) printed.text

/-- Tokens of legible terminals that never go back a line are printed with exact offsets. -/
theorem exists_exact {tokens : Array Token} {ts : List Terminal}
    (hcarries : List.Forall₂ (Token.Carries table) tokens.toList ts)
    (hlegible : ∀ t ∈ ts, t.Legible)
    (hlines : (1 :: tokens.toList.map (·.position.line)).Pairwise (· ≤ ·)) :
    ∃ printed, print table tokens.toList = .ok printed ∧ printed.Exact table tokens := by
  obtain ⟨text, starts, hprint, hlaid⟩ := printFrom_laid hcarries 1 0
  have hstands := stands_of_printFrom hcarries hlegible hlines hprint
  have hsize : tokens.size = starts.length := hstands.length_eq
  have hsorted := hlaid.sorted
  have hreturn := hlaid.return_not_mem hlegible
  refine ⟨⟨text, starts.toArray⟩, by rw [print, hprint]; rfl, ?_⟩
  constructor
  · exact hsize.symm
  · exact hsorted
  · intro i token start htoken hstart
    rw [← Array.getElem?_toList] at htoken hstart
    exact rel_of_getElem? hstands htoken hstart
  · intro i start hstart
    exact Grammar.tokenAt_start hsorted hstart
  · intro offset
    rw [hsize]
    exact tokenAt_eq_findIdx? hsorted offset
  · intro offset hle
    exact offsetOf_placeOf hle
  · rintro first rest rfl
    exact lineColumn_eq fun hmem => hreturn (List.mem_append_left _ hmem)

end EoJava.Grammar
