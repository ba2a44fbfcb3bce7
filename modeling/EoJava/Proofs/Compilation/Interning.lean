import EoJava.Proofs.Compilation.Tokens
import Mathlib.Data.Finset.Card

/-!
# Runs of a string table

A string table that stores texts one after another gives each text one id: the ids of a run count
up from zero in the order in which texts are first met, different texts have different ids, and an
id once given out is good for its text from then on (`internAll_stable`). Tokens share the ids of
their texts whatever their kinds, and each still reads back as its lexeme.
-/

namespace EoJava

namespace StringTable

variable {table : StringTable} {text other : String} {texts : List String}

/-! ## Ids and texts -/

/-- An id belongs to the text that is stored at its place. -/
theorem get_eq_ok_iff {id : Int} :
    table.get id = .ok text ↔ 0 ≤ id ∧ table.entries[id.toNat]? = some text := by
  unfold get
  by_cases hid : 0 ≤ id
  · cases table.entries[id.toNat]? <;> simp [hid]
  · simp [hid]

/-- No text has two ids. -/
theorem id_unique {first second : Int} (hfirst : table.get first = .ok text)
    (hsecond : table.get second = .ok text) : first = second := by
  obtain ⟨hnonneg, hget⟩ := get_eq_ok_iff.1 hfirst
  obtain ⟨hnonneg', hget'⟩ := get_eq_ok_iff.1 hsecond
  -- Both are what the index leads to.
  have hindex := (table.lookup_index text first.toNat).2 hget
  have hindex' := (table.lookup_index text second.toNat).2 hget'
  have heq : first.toNat = second.toNat := Option.some.inj (hindex.symm.trans hindex')
  omega

/-- No text is stored twice. -/
theorem nodup_entries (table : StringTable) : table.entries.toList.Nodup := by
  refine List.nodup_iff_getElem?_ne_getElem?.2 fun i j hlt hj hsame => ?_
  have hget : table.entries[j]? = some (table.entries.toList[j]) := by
    rw [← Array.getElem?_toList]
    exact List.getElem?_eq_getElem hj
  rw [Array.getElem?_toList, Array.getElem?_toList, hget] at hsame
  have hindex := (table.lookup_index _ i).2 hsame
  rw [(table.lookup_index _ j).2 hget, Option.some_inj] at hindex
  omega

/-- Two ids are the same if and only if their texts are. -/
theorem id_eq_iff {first second : Int} (hfirst : table.get first = .ok text)
    (hsecond : table.get second = .ok other) : first = second ↔ text = other := by
  constructor
  · rintro rfl
    exact Except.ok.inj (hfirst.symm.trans hsecond)
  · rintro rfl
    exact id_unique hfirst hsecond

/-- An id is valid if and only if it has a text. -/
theorem isValid_iff {id : Int} : table.isValid id ↔ ∃ text, table.get id = .ok text := by
  rw [isValid, Bool.and_eq_true, decide_eq_true_eq, decide_eq_true_eq]
  simp only [get_eq_ok_iff]
  constructor
  · rintro ⟨hid, hlt⟩
    have hlt : id.toNat < table.entries.size := (Int.toNat_lt hid).2 hlt
    exact ⟨table.entries[id.toNat], hid, Array.getElem?_eq_getElem hlt⟩
  · rintro ⟨text, hid, hget⟩
    have hlt : id.toNat < table.entries.size := (Array.getElem?_eq_some_iff.1 hget).1
    exact ⟨hid, (Int.toNat_lt hid).1 hlt⟩

/-- Looking up an id fails if and only if it is not valid. -/
theorem get_eq_error_iff {id : Int} :
    table.get id = .error (.invalidString id) ↔ table.isValid id = false := by
  rw [← Bool.not_eq_true, isValid_iff]
  unfold get
  split <;> simp

/-! ## Storing one text -/

/-- The index leads to a text if and only if it is stored. -/
theorem lookup_eq_none_iff : table.index.lookup text = none ↔ text ∉ table.entries := by
  rw [Option.eq_none_iff_forall_ne_some, Array.mem_iff_getElem?, not_exists]
  exact forall_congr' fun id => not_congr (table.lookup_index text id)

/-- Storing a text adds it, unless it is there, and no other text. -/
theorem mem_intern : other ∈ (table.intern text).2.entries ↔
    other ∈ table.entries ∨ other = text := by
  cases hindex : table.index.lookup text with
  | some id =>
      have hmem : text ∈ table.entries :=
        Array.mem_of_getElem? ((table.lookup_index text id).1 hindex)
      rw [intern_of_lookup hindex, or_iff_left_of_imp]
      intro hsame
      rwa [hsame]
  | none => rw [(intern_of_new hindex).2, Array.mem_push]

/-- A new text gets as its id the number of texts before it. -/
theorem id_intern_of_notMem (h : text ∉ table.entries) : (table.intern text).1 = table.count :=
  (intern_of_new (lookup_eq_none_iff.2 h)).1

/-! ## Storing texts one after another -/

/-- The ids that texts get when they are stored one after another, and the table that holds
them. -/
def internAll (table : StringTable) : List String → List Nat × StringTable
  | [] => ([], table)
  | text :: texts =>
    let (id, table) := table.intern text
    let (ids, table) := table.internAll texts
    (id :: ids, table)

example : (empty.internAll ["", "a", "", "0", "a"]).1 = [0, 1, 0, 2, 1] := by decide +kernel

/-- A run that goes on is two runs. -/
theorem internAll_append (table : StringTable) (texts later : List String) :
    table.internAll (texts ++ later) =
      ((table.internAll texts).1 ++ ((table.internAll texts).2.internAll later).1,
        ((table.internAll texts).2.internAll later).2) := by
  induction texts generalizing table with
  | nil => rfl
  | cons text texts ih => simp [internAll, ih]

/-- A run keeps the texts of all ids. -/
theorem extends_internAll (table : StringTable) (texts : List String) :
    table.Extends (table.internAll texts).2 := by
  induction texts generalizing table with
  | nil => exact .refl table
  | cons text texts ih => exact (table.extends_intern text).trans (ih _)

/-- Every text of a run is stored under the id it was given. -/
theorem get_internAll (table : StringTable) (texts : List String) :
    List.Forall₂ (fun id text => (table.internAll texts).2.get (id : Nat) = .ok text)
      (table.internAll texts).1 texts := by
  induction texts generalizing table with
  | nil => exact .nil
  | cons text texts ih =>
      refine .cons ?_ (ih (table.intern text).2)
      exact extends_internAll _ texts _ text (table.get_intern text)

/-- The text at an index of a run is stored under the id at that index. -/
theorem exists_get_internAll {i : Nat} (htext : texts[i]? = some text) :
    ∃ id, (table.internAll texts).1[i]? = some id ∧
      (table.internAll texts).2.get (id : Nat) = .ok text := by
  have hgets := table.get_internAll texts
  obtain ⟨hlt, rfl⟩ := List.getElem?_eq_some_iff.1 htext
  have hid : i < (table.internAll texts).1.length := by
    rw [hgets.length_eq]
    exact hlt
  exact ⟨_, List.getElem?_eq_getElem hid, hgets.get hid hlt⟩

/-- A run adds its own texts and no others. -/
theorem mem_internAll : other ∈ (table.internAll texts).2.entries ↔
    other ∈ table.entries ∨ other ∈ texts := by
  induction texts generalizing table with
  | nil => simp [internAll]
  | cons text texts ih =>
      show other ∈ ((table.intern text).2.internAll texts).2.entries ↔ _
      rw [ih, mem_intern, List.mem_cons, or_assoc]

/-- A fresh table holds as many texts as a run has different ones. -/
theorem count_internAll (texts : List String) :
    (empty.internAll texts).2.count = texts.toFinset.card := by
  have hsame : (empty.internAll texts).2.entries.toList.toFinset = texts.toFinset := by
    ext text
    simp [mem_internAll, empty]
  rw [← hsame, List.toFinset_card_of_nodup (nodup_entries _)]
  exact Array.length_toList.symm

/-- A text that a run meets for the first time gets as its id the number of different texts before
it. -/
theorem internAll_first {before after : List String} (h : text ∉ before) :
    (empty.internAll (before ++ text :: after)).1[before.length]? = some before.toFinset.card := by
  have hlength : (empty.internAll before).1.length = before.length :=
    (empty.get_internAll before).length_eq
  have hnew : text ∉ (empty.internAll before).2.entries := by
    simp [mem_internAll, h, empty]
  rw [internAll_append, ← hlength, List.getElem?_append_right (Nat.le_refl _), Nat.sub_self,
    ← count_internAll, ← id_intern_of_notMem hnew]
  rfl

/-- The texts of a fresh table after a run are those of the run. -/
theorem mem_of_get_internAll {id : Int} (h : (empty.internAll texts).2.get id = .ok text) :
    text ∈ texts := by
  have hmem : text ∈ (empty.internAll texts).2.entries :=
    Array.mem_of_getElem? (get_eq_ok_iff.1 h).2
  simpa [mem_internAll, empty] using hmem

/-- A run on a fresh table gives out all ids that are valid after it. -/
theorem mem_internAll_iff {id : Nat} :
    id ∈ (empty.internAll texts).1 ↔ id < (empty.internAll texts).2.count := by
  have hvalid : (empty.internAll texts).2.isValid id ↔ id < (empty.internAll texts).2.count := by
    simp [isValid]
  rw [← hvalid, isValid_iff]
  constructor
  · intro hid
    obtain ⟨i, hi, rfl⟩ := List.getElem_of_mem hid
    have hgets := empty.get_internAll texts
    exact ⟨_, hgets.get hi (hgets.length_eq ▸ hi)⟩
  · rintro ⟨text, hget⟩
    obtain ⟨i, htext⟩ := List.getElem?_of_mem (mem_of_get_internAll hget)
    obtain ⟨other, hother, hget'⟩ := exists_get_internAll htext
    have heq : (id : Int) = other := id_unique hget hget'
    exact List.mem_of_getElem? (Int.natCast_inj.1 heq ▸ hother)

end StringTable

/-! ## Tokens -/

/-- Two tokens that carry texts have one id if and only if they have one text. -/
theorem Token.Carries.payload_eq_iff {table : StringTable} {first second : Token}
    {t u : Grammar.Terminal} {text other : String} (hfirst : first.Carries table t)
    (hsecond : second.Carries table u) (htext : t.text? = some text)
    (hother : u.text? = some other) : first.payload = second.payload ↔ text = other :=
  StringTable.id_eq_iff (hfirst.text text htext) (hsecond.text other hother)

/-- Tokens of a source share an id if their texts are alike, whatever their kinds, and each of them
reads back as the lexeme that it was stored for. -/
theorem Compilation.payload_tokenize {c : Compilation} (hfresh : c.Fresh) {i j : Nat}
    {first second : Located Lexeme} {a b : Token} {text other : String}
    (hfirst : (Scan.source c.source.toList).lexemes[i]? = some first)
    (ha : c.tokenize.2.tokens[i]? = some a)
    (hsecond : (Scan.source c.source.toList).lexemes[j]? = some second)
    (hb : c.tokenize.2.tokens[j]? = some b)
    (htext : first.value.terminal.text? = some text)
    (hother : second.value.terminal.text? = some other) :
    a.kind = first.value.kind ∧ a.payloadText c.tokenize.2.strings = .ok text ∧
      (a.payload = b.payload ↔ text = other) := by
  rw [← Array.getElem?_toList] at ha hb
  have hcarries : a.Carries c.tokenize.2.strings first.value.terminal :=
    (Grammar.rel_of_getElem? (stores_tokenize hfresh) ha hfirst).carries
  have hcarries' : b.Carries c.tokenize.2.strings second.value.terminal :=
    (Grammar.rel_of_getElem? (stores_tokenize hfresh) hb hsecond).carries
  refine ⟨?_, hcarries.text text htext, hcarries.payload_eq_iff hcarries' htext hother⟩
  rw [hcarries.kind, Lexeme.kind_terminal]

/-- A run on a fresh table gives out the ids from zero up to the number of different texts, the next
one whenever a text is met for the first time, and an id that was given out again to the same text
and to no other. However many texts are stored later, an id is good for its text. Looking up an id
fails if and only if it is not valid, and the valid ones have texts of the run. So tokens of a
source share an id if their texts are alike, whatever their kinds, and each of them reads back as
the lexeme that it was stored for. -/
theorem StringTable.internAll_stable (texts : List String) :
    ∃ ids table, empty.internAll texts = (ids, table) ∧
      ids.length = texts.length ∧ (∀ id, id ∈ ids ↔ id < table.count) ∧
      (∀ before text after, texts = before ++ text :: after → text ∉ before →
        ids[before.length]? = some before.toFinset.card) ∧
      (∀ (i j : Nat) (text other : String), texts[i]? = some text → texts[j]? = some other →
        (ids[i]? = ids[j]? ↔ text = other)) ∧
      (∀ (later : List String) (i : Nat) (text : String) (id : Nat), texts[i]? = some text →
        ids[i]? = some id → (table.internAll later).2.get id = .ok text) ∧
      table.count = texts.toFinset.card ∧
      (∀ id : Int, (table.get id = .error (.invalidString id) ↔ table.isValid id = false) ∧
        (table.isValid id ↔ ∃ text ∈ texts, table.get id = .ok text)) ∧
      ∀ source filename : String,
        let met := (Scan.source source.toList).lexemes
        let read := ({ source, filename } : Compilation).tokenize.2
        read.tokens.size = met.length ∧
          ∀ (i j : Nat) (first second : Located Lexeme) (a b : Token) (text other : String),
            met[i]? = some first → read.tokens[i]? = some a →
            met[j]? = some second → read.tokens[j]? = some b →
            first.value.terminal.text? = some text → second.value.terminal.text? = some other →
            a.kind = first.value.kind ∧ a.payloadText read.strings = .ok text ∧
              (a.payload = b.payload ↔ text = other) := by
  refine ⟨_, _, rfl, (empty.get_internAll texts).length_eq, fun _ => mem_internAll_iff, ?_, ?_, ?_,
    count_internAll texts, fun id => ⟨get_eq_error_iff, ?_⟩, ?_⟩
  · rintro before text after rfl hnew
    exact internAll_first hnew
  · intro i j text other htext hother
    obtain ⟨id, hid, hget⟩ := exists_get_internAll htext
    obtain ⟨id', hid', hget'⟩ := exists_get_internAll hother
    rw [hid, hid', Option.some_inj, ← id_eq_iff hget hget', Int.natCast_inj]
  · intro later i text id htext hid
    obtain ⟨id', hid', hget⟩ := exists_get_internAll htext
    obtain rfl : id = id' := Option.some.inj (hid.symm.trans hid')
    exact extends_internAll _ later id text hget
  · constructor
    · intro hvalid
      obtain ⟨text, hget⟩ := isValid_iff.1 hvalid
      exact ⟨text, mem_of_get_internAll hget, hget⟩
    · rintro ⟨text, -, hget⟩
      exact isValid_iff.2 ⟨text, hget⟩
  · intro source filename met read
    refine ⟨(Compilation.stores_tokenize ⟨rfl, rfl⟩).length_eq, ?_⟩
    intro i j first second a b text other hfirst ha hsecond hb htext hother
    exact Compilation.payload_tokenize ⟨rfl, rfl⟩ hfirst ha hsecond hb htext hother

/-- A name, a number and strings that are spelled alike. -/
example : ({ source := "A \"A\" \"\" 1 \"1\" \"\"" } : Compilation).tokenize.2.tokens.toList.map
    (fun token => (token.kind, token.payload)) =
      [(.name, 0), (.string, 0), (.string, 1), (.number, 2), (.string, 2), (.string, 1),
        (.newline, 0), (.endOfInput, 0)] := by
  decide +kernel

end EoJava
