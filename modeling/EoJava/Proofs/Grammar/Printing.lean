import EoJava.Grammar.Parsing
import EoJava.Proofs.Grammar.Sheet
import Mathlib.Data.List.Forall2

/-!
# Printed tokens are a sheet

Tokens that carry legible terminals are printed one after another (`print_eq`), their offsets
ascend, and the search for the first token at or after an offset finds it (`lowerBound_eq`). So the
printed text of a source that ends with its end is a sheet that shows the leaves of its tokens
(`shows_start`).
-/

namespace EoJava

open Grammar (Terminal)

/-- A token carries a terminal: its kind, and the text that its payload stands for. -/
structure Token.Carries (table : StringTable) (token : Token) (t : Terminal) : Prop where
  kind : token.kind = t.kind
  text : ∀ text ∈ t.text?, token.payloadText table = .ok text

/-- A token is printed as its terminal. -/
theorem Token.Carries.print_eq {table : StringTable} {token : Token} {t : Terminal}
    (h : token.Carries table t) : token.print table = .ok t.print := by
  obtain ⟨hkind, htext⟩ := h
  unfold Token.print
  rw [hkind]
  cases t with
  | indent | dedent | newline | mark | endOfInput => rfl
  | name text | number text | string text =>
      simp only [Terminal.kind, htext text rfl]
      rfl

/-- A token that carries a terminal can be described. -/
theorem Token.Carries.exists_describe {table : StringTable} {token : Token} {t : Terminal}
    (h : token.Carries table t) : ∃ text, token.describe table = .ok text := by
  obtain ⟨hkind, htext⟩ := h
  unfold Token.describe
  rw [hkind]
  cases t with
  | indent | dedent | newline | mark | endOfInput | string => exact ⟨_, rfl⟩
  | name text | number text =>
      simp only [Terminal.kind, htext text rfl]
      exact ⟨_, rfl⟩

/-- A token carries one terminal at most. -/
theorem Token.Carries.unique {table : StringTable} {token : Token} {t u : Terminal}
    (ht : token.Carries table t) (hu : token.Carries table u) : t = u := by
  have hkind : t.kind = u.kind := ht.kind.symm.trans hu.kind
  have htext : ∀ a ∈ t.text?, ∀ b ∈ u.text?, a = b := fun a ha b hb =>
    Except.ok.inj ((ht.text a ha).symm.trans (hu.text b hb))
  cases t <;> cases u <;> simp_all [Terminal.kind, Terminal.text?]

namespace Grammar

open Text (Cursor)
open Matcher (skip)

/-! ## The first token at or after an offset -/

/-- What stands before the bound is less than the target, and the bound is not. -/
theorem lowerBound_spec {starts : Array Nat} (target : Nat) {low high : Nat} (hle : low ≤ high)
    (hsorted : ∀ i j, i ≤ j → j < high → starts.getD i 0 ≤ starts.getD j 0) :
    low ≤ lowerBound starts target low high ∧ lowerBound starts target low high ≤ high ∧
      (∀ i, low ≤ i → i < lowerBound starts target low high → starts.getD i 0 < target) ∧
      (lowerBound starts target low high < high →
        target ≤ starts.getD (lowerBound starts target low high) 0) := by
  fun_induction lowerBound starts target low high with
  | case1 low high hlt middle hbefore ih =>
      obtain ⟨hlow, hhigh, hless, hbound⟩ := ih (by omega) hsorted
      refine ⟨by omega, hhigh, fun i hi hlt => ?_, hbound⟩
      by_cases hmiddle : i ≤ middle
      · exact Nat.lt_of_le_of_lt (hsorted i middle hmiddle (by omega)) hbefore
      · exact hless i (by omega) hlt
  | case2 low high hlt middle hafter ih =>
      obtain ⟨hlow, hhigh, hless, hbound⟩ :=
        ih (by omega) fun i j hij hj => hsorted i j hij (by omega)
      refine ⟨hlow, by omega, hless, fun _ => ?_⟩
      rcases Nat.lt_or_eq_of_le hhigh with h | h
      · exact hbound h
      · rw [h]
        omega
  | case3 low high hstop =>
      have : low = high := by omega
      exact ⟨Nat.le_refl _, hle, fun i _ _ => by omega, fun h => by omega⟩

/-- The bound is the index with less before it and no less at it. -/
theorem lowerBound_eq {starts : Array Nat} {target high i : Nat} (hi : i ≤ high)
    (hsorted : ∀ i j, i ≤ j → j < high → starts.getD i 0 ≤ starts.getD j 0)
    (hbefore : ∀ j < i, starts.getD j 0 < target) (hat : i < high → target ≤ starts.getD i 0) :
    lowerBound starts target 0 high = i := by
  obtain ⟨-, hhigh, hless, hbound⟩ := lowerBound_spec target (Nat.zero_le high) hsorted
  rcases Nat.lt_trichotomy (lowerBound starts target 0 high) i with h | h | h
  · have hlt := hbefore _ h
    have hle := hbound (by omega)
    omega
  · exact h
  · have hlt := hless i (Nat.zero_le i) h
    have hle := hat (by omega)
    omega

/-! ## Printed text -/

/-- What is at one index of two related lists is related. -/
theorem rel_of_getElem? {α β : Type} {R : α → β → Prop} {as : List α} {bs : List β}
    (h : List.Forall₂ R as bs) {i : Nat} {a : α} {b : β} (ha : as[i]? = some a)
    (hb : bs[i]? = some b) : R a b := by
  obtain ⟨hi, rfl⟩ := List.getElem?_eq_some_iff.1 ha
  obtain ⟨hi', rfl⟩ := List.getElem?_eq_some_iff.1 hb
  exact h.get hi hi'

/-- Terminals are printed from an offset on: each starts on some later line or on the same one, and
a space follows it. -/
inductive Laid : Nat → List Terminal → List Char → List Nat → Prop
  | nil {offset : Nat} : Laid offset [] [] []
  | cons {offset lines : Nat} {t : Terminal} {ts : List Terminal} {text : List Char}
      {starts : List Nat}
      (hrest : Laid (offset + lines + Text.width t.print + 1) ts text starts) :
      Laid offset (t :: ts) (List.replicate lines '\n' ++ (t.print ++ ' ' :: text))
        ((offset + lines) :: starts)

/-- Tokens are printed as their terminals. -/
theorem printFrom_laid {table : StringTable} {tokens : List Token} {ts : List Terminal}
    (h : List.Forall₂ (Token.Carries table) tokens ts) (line : Int) (offset : Nat) :
    ∃ text starts, printFrom table line offset tokens = .ok (text, starts) ∧
      Laid offset ts text starts := by
  induction h generalizing line offset with
  | nil => exact ⟨[], [], rfl, .nil⟩
  | @cons token t tokens ts hfirst _ ih =>
      obtain ⟨text, starts, hprint, hlaid⟩ :=
        ih (max line token.position.line)
          (offset + (token.position.line - line).toNat + Text.width t.print + 1)
      refine ⟨_, _, ?_, .cons hlaid⟩
      simp only [printFrom, hfirst.print_eq, List.length_replicate]
      show (printFrom _ _ _ _ >>= _) = _
      rw [hprint]
      simp only [List.append_assoc]
      rfl

namespace Laid

variable {offset : Nat} {ts : List Terminal} {text : List Char} {starts : List Nat}

theorem length_eq (h : Laid offset ts text starts) : starts.length = ts.length := by
  induction h with
  | nil => rfl
  | cons _ ih => simp [ih]

/-- Nothing starts before the offset. -/
theorem le_of_mem (h : Laid offset ts text starts) : ∀ start ∈ starts, offset ≤ start := by
  induction h with
  | nil => simp
  | cons _ ih =>
      intro start hstart
      rcases List.mem_cons.1 hstart with rfl | hstart
      · omega
      · have hle := ih start hstart
        omega

/-- The offsets ascend. -/
theorem sorted (h : Laid offset ts text starts) : starts.Pairwise (· < ·) := by
  induction h with
  | nil => exact .nil
  | cons hrest ih =>
      refine .cons (fun start hstart => ?_) ih
      have hle := hrest.le_of_mem start hstart
      omega

/-- Every terminal takes a character at least. -/
theorem length_le (h : Laid offset ts text starts) : ts.length ≤ text.length := by
  induction h with
  | nil => exact Nat.le_refl _
  | cons _ ih =>
      simp only [List.length_cons, List.length_append]
      omega

end Laid

/-! ## The sheet of printed tokens -/

/-- Ascending offsets ascend by index. -/
theorem getD_mono {starts : Array Nat} (hsorted : starts.toList.Pairwise (· < ·)) :
    ∀ i j, i ≤ j → j < starts.size - 1 → starts.getD i 0 ≤ starts.getD j 0 := by
  intro i j hij hj
  rcases Nat.lt_or_eq_of_le hij with hlt | rfl
  · have hi : i < starts.size := by omega
    have hj : j < starts.size := by omega
    have hless := List.pairwise_iff_getElem.1 hsorted i j (by simpa) (by simpa) hlt
    simp only [Array.getElem_toList] at hless
    simp only [Array.getD, hi, hj, ↓reduceDIte]
    exact Nat.le_of_lt hless
  · exact Nat.le_refl _

/-- The sheet of a printed text whose offsets ascend. -/
def Printed.sheet (printed : Printed) (table : StringTable) (tokens : Array Token)
    (hsorted : printed.starts.toList.Pairwise (· < ·)) : Sheet where
  anchors := anchorsOf table tokens printed
  index := printed.tokenAt
  index_zero := lowerBound_eq (Nat.zero_le _) (getD_mono hsorted) (by simp) (by simp)
  index_mono := by
    intro a b hab
    obtain ⟨-, hhigh, hless, -⟩ :=
      lowerBound_spec a (Nat.zero_le (printed.starts.size - 1)) (getD_mono hsorted)
    obtain ⟨-, -, -, hbound⟩ :=
      lowerBound_spec b (Nat.zero_le (printed.starts.size - 1)) (getD_mono hsorted)
    show lowerBound printed.starts a 0 _ ≤ lowerBound printed.starts b 0 _
    refine Nat.le_of_not_lt fun hlt => ?_
    have hbefore := hless _ (Nat.zero_le _) hlt
    have hat := hbound (by omega)
    omega

/-- There is a token for every offset. -/
theorem tokenAt_lt {printed : Printed} (hsorted : printed.starts.toList.Pairwise (· < ·))
    (hpos : 0 < printed.starts.size) (offset : Nat) :
    printed.tokenAt offset < printed.starts.size := by
  obtain ⟨-, hhigh, -⟩ :=
    lowerBound_spec offset (Nat.zero_le _) (getD_mono hsorted)
  show lowerBound _ _ _ _ < _
  omega

/-- The token at an offset, when the offsets are known up to it. -/
theorem tokenAt_eq {printed : Printed} {before after : List Nat} {target : Nat}
    (hsorted : printed.starts.toList.Pairwise (· < ·))
    (hstarts : printed.starts.toList = before ++ after)
    (hne : after ≠ []) (hbefore : ∀ start ∈ before, start < target)
    (hat : after.tail ≠ [] → ∀ start ∈ after.head?, target ≤ start) :
    printed.tokenAt target = before.length := by
  obtain ⟨first, others, rfl⟩ := List.exists_cons_of_ne_nil hne
  have hsize : printed.starts.size = before.length + (others.length + 1) := by
    rw [← Array.length_toList, hstarts, List.length_append, List.length_cons]
  have hget : ∀ j, printed.starts.getD j 0 = (before ++ first :: others)[j]?.getD 0 := by
    intro j
    rw [← hstarts, Array.getElem?_toList, Array.getD_eq_getD_getElem?]
  refine lowerBound_eq (by omega) (getD_mono hsorted) (fun j hj => ?_) fun hlt => ?_
  · rw [hget, List.getElem?_append_left hj, List.getElem?_eq_getElem hj]
    exact hbefore _ (List.getElem_mem hj)
  · rw [hget, List.getElem?_append_right (Nat.le_refl _), Nat.sub_self]
    refine hat (fun hnil => ?_) first rfl
    rw [List.tail_cons] at hnil
    rw [hsize, hnil, List.length_nil] at hlt
    omega

/-- The leaves of tokens, the first of which has the given index. -/
def leavesFrom (index : Nat) : List Token → List Terminal → List Leaf
  | token :: tokens, t :: ts => ⟨index, token.position, t⟩ :: leavesFrom (index + 1) tokens ts
  | _, _ => []

/-- White space is skipped up to the first character that is none. -/
theorem skip_append {gap : List Char} (rest : List Char) (offset : Nat)
    (hgap : ∀ c ∈ gap, Matcher.isSpace c) (hrest : ∀ c ∈ rest.head?, Matcher.isSpace c = false) :
    skip ⟨gap ++ rest, offset⟩ = ⟨rest, offset + gap.length⟩ := by
  have hwidth : Text.width gap = gap.length := by
    clear hrest
    induction gap with
    | nil => rfl
    | cons c cs ih =>
        obtain ⟨hc, hcs⟩ := List.forall_mem_cons.1 hgap
        have hunits : Text.units c = 1 := by
          have hle : c.toNat ≤ 0x20 := of_decide_eq_true hc
          exact if_pos (by omega)
        rw [Text.width_cons, List.length_cons, hunits, ih hcs, Nat.add_comm]
  simp only [skip, Text.takeWhile_run hgap hrest, Text.dropWhile_run hgap hrest, Cursor.after,
    hwidth]

theorem isSpace_space : Matcher.isSpace ' ' = true :=
  rfl

/-- Line feeds in a gap leave it white space. -/
theorem isSpace_gap {gap : List Char} (hgap : ∀ c ∈ gap, Matcher.isSpace c) (lines : Nat)
    (more : List Char) (hmore : ∀ c ∈ more, Matcher.isSpace c) :
    ∀ c ∈ gap ++ (List.replicate lines '\n' ++ more), Matcher.isSpace c := by
  have hbreak : ∀ c ∈ List.replicate lines '\n', Matcher.isSpace c := by
    intro c hc
    rw [List.eq_of_mem_replicate hc]
    rfl
  rw [List.forall_mem_append, List.forall_mem_append]
  exact ⟨hgap, hbreak, hmore⟩

section

variable {table : StringTable} {tokens : Array Token} {printed : Printed}
variable (hsorted : printed.starts.toList.Pairwise (· < ·))

/-- The way back leads to a token from an offset of that token. -/
theorem token_of_tokenAt {before after : List Token} {token : Token} {offset : Nat}
    (htokens : tokens.toList = before ++ token :: after)
    (hat : printed.tokenAt offset = before.length) :
    (anchorsOf table tokens printed).token offset = .ok token := by
  have hget : tokens[before.length]? = some token := by
    rw [← Array.getElem?_toList, htokens]
    simp
  show tokenOf tokens (printed.tokenAt offset) = _
  rw [hat]
  simp [tokenOf, hget]

/-- A token that carries a terminal starts where it was printed. -/
theorem starts_of_tokenAt {before after : List Token} {token : Token} {t : Terminal} {offset : Nat}
    (htokens : tokens.toList = before ++ token :: after)
    (hat : printed.tokenAt offset = before.length)
    (hcarries : token.Carries table t) :
    (printed.sheet table tokens hsorted).Starts offset ⟨before.length, token.position, t⟩ := by
  have htoken : (anchorsOf table tokens printed).token offset = .ok token :=
    token_of_tokenAt htokens hat
  refine ⟨hat, ?_, fun value hvalue => ?_⟩
  · show ((anchorsOf table tokens printed).token offset >>= fun token => pure token.position) = _
    rw [htoken]
    rfl
  · show ((anchorsOf table tokens printed).token offset >>=
      fun token => token.payloadText table) = _
    rw [htoken]
    obtain rfl : t = .string value := hvalue
    exact hcarries.text value rfl

/-- Tokens of which the first ones, `done`, start before an offset, each where `before` says, and
the others where `starts` says. -/
structure Behind (tokens : Array Token) (printed : Printed) (offset : Nat) (done rest : List Token)
    (before starts : List Nat) : Prop where
  tokens : tokens.toList = done ++ rest
  starts : printed.starts.toList = before ++ starts
  length : before.length = done.length
  less : ∀ start ∈ before, start < offset

namespace Behind

variable {offset : Nat} {done rest : List Token} {before starts : List Nat}

/-- One more token lies behind a later offset. -/
theorem push {token : Token} {start next : Nat}
    (h : Behind tokens printed offset done (token :: rest) before (start :: starts))
    (hle : offset ≤ start) (hlt : start < next) :
    Behind tokens printed next (done ++ [token]) rest (before ++ [start]) starts where
  tokens := by rw [h.tokens, List.append_assoc, List.singleton_append]
  starts := by rw [h.starts, List.append_assoc, List.singleton_append]
  length := by simp [h.length]
  less := by
    intro other hother
    rcases List.mem_append.1 hother with hother | hother
    · have hless := h.less other hother
      omega
    · rw [List.mem_singleton.1 hother]
      exact hlt

include hsorted in
/-- The token at an offset up to the next start is the next token. The last one reaches further. -/
theorem tokenAt (h : Behind tokens printed offset done rest before starts) (hne : starts ≠ [])
    {target : Nat} (hle : offset ≤ target)
    (hat : starts.tail ≠ [] → ∀ start ∈ starts.head?, target ≤ start) :
    printed.tokenAt target = done.length := by
  rw [← h.length]
  refine tokenAt_eq hsorted h.starts hne (fun start hstart => ?_) hat
  exact Nat.lt_of_lt_of_le (h.less start hstart) hle

end Behind

/-- Printed tokens that end with the end of their source are a sheet that shows their leaves. The
induction is on what is still to be shown. -/
theorem shows_of_laid {rest : List Token} {us : List Terminal} {offset : Nat} {text : List Char}
    {starts : List Nat} (hlegible : ∀ t ∈ us, t.Legible ∧ t ≠ .endOfInput)
    (hlaid : Laid offset (us ++ [.endOfInput]) text starts)
    (hcarries : List.Forall₂ (Token.Carries table) rest (us ++ [.endOfInput]))
    {done : List Token} {before : List Nat}
    (hbehind : Behind tokens printed offset done rest before starts) {gap : List Char}
    (hgap : ∀ c ∈ gap, Matcher.isSpace c) {place : Nat} (hplace : place + gap.length = offset) :
    (printed.sheet table tokens hsorted).Shows (leavesFrom done.length rest (us ++ [.endOfInput]))
      ⟨gap ++ text, place⟩ := by
  induction us generalizing rest offset text starts done before gap place with
  | nil =>
      obtain _ | @⟨token, _, _, _, hfirst, ⟨⟩⟩ := hcarries
      obtain _ | @⟨_, lines, _, _, _, _, ⟨⟩⟩ := hlaid
      -- The end of the input prints as nothing, so the space after it is skipped as well.
      have hskip : skip ⟨gap ++ (List.replicate lines '\n' ++ (Terminal.endOfInput.print ++ [' '])),
          place⟩ = ⟨[], offset + lines + 1⟩ := by
        have h := skip_append [] place (isSpace_gap hgap lines [' '] (by simp [isSpace_space]))
          (by simp)
        simp only [List.append_nil, List.length_append, List.length_replicate,
          List.length_singleton] at h
        rw [Terminal.print, List.nil_append, h]
        congr 1
        omega
      have hat : printed.tokenAt (offset + lines + 1) = done.length :=
        hbehind.tokenAt hsorted (by simp) (by omega) (by simp)
      refine .stop rfl (by rw [hskip]) ?_
      rw [hskip]
      exact starts_of_tokenAt hsorted hbehind.tokens hat hfirst
  | cons t us ih =>
      obtain _ | @⟨token, _, others, _, hfirst, hothers⟩ := hcarries
      obtain _ | @⟨_, lines, _, _, text, starts, hrest⟩ := hlaid
      obtain ⟨⟨ht, hne⟩, hlegible⟩ := List.forall_mem_cons.1 hlegible
      obtain ⟨c, cs, hprint, hc⟩ := isSpace_print_head ht hne
      have hskip : skip ⟨gap ++ (List.replicate lines '\n' ++ (t.print ++ ' ' :: text)), place⟩ =
          ⟨t.print ++ ' ' :: text, offset + lines⟩ := by
        have h := skip_append (t.print ++ ' ' :: text) place (isSpace_gap hgap lines [] (by simp))
          (by simp [hprint, hc])
        simp only [List.append_assoc, List.append_nil, List.length_append,
          List.length_replicate] at h
        rw [h]
        congr 1
        omega
      have hat : printed.tokenAt (offset + lines) = done.length :=
        hbehind.tokenAt hsorted (by simp) (by omega) (by simp)
      -- For what comes after the token, it is one of those that lie behind.
      have hpushed : ∀ next, offset + lines < next →
          Behind tokens printed next (done ++ [token]) others (before ++ [offset + lines]) starts :=
        fun next hnext => hbehind.push (by omega) hnext
      have hinside : ∀ k, 0 < k → k ≤ Text.width t.print →
          printed.tokenAt (offset + lines + k) = done.length + 1 := by
        intro k hk hwidth
        have hne' : starts ≠ [] := by
          intro hnil
          simpa [hnil] using hrest.length_eq
        have heq := (hpushed (offset + lines + k) (by omega)).tokenAt hsorted hne' (Nat.le_refl _)
          fun _ start hstart => by
            have hle := hrest.le_of_mem start (List.mem_of_mem_head? hstart)
            omega
        rw [heq, List.length_append]
        rfl
      have hshown : (printed.sheet table tokens hsorted).Shows
          (leavesFrom (done ++ [token]).length others (us ++ [.endOfInput]))
          ⟨[' '] ++ text, offset + lines + Text.width t.print⟩ :=
        ih hlegible hrest hothers (hpushed _ (by omega)) (by simp [isSpace_space]) rfl
      refine .leaf ht hne (by rw [hskip]) ?_ ?_ ?_
      · rw [hskip]
        exact starts_of_tokenAt hsorted hbehind.tokens hat hfirst
      · rw [hskip]
        exact hinside
      · rw [hskip]
        simpa [Cursor.after] using hshown

end

end Grammar

end EoJava
