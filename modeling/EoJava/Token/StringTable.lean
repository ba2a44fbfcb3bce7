import EoJava.Diagnostic.Problem
import EoJava.Token.Basic

/-!
# The string table

Texts of tokens are stored once each. The id of a text is its place in the order in which the texts
were first met, so ids count up from zero, no two texts share one, and an id once given out never
changes its text (`get_intern`, `get_intern_of_get`). An index beside the texts leads from a text
back to its id.
-/

namespace EoJava

/-- Texts in the order in which they were first met, and the id of each text. -/
structure StringTable where
  entries : Array String := #[]
  index : List (String × Nat) := []
  /-- The index inverts the entries. -/
  lookup_index : ∀ text id, index.lookup text = some id ↔ entries[id]? = some text := by simp
deriving Repr

namespace StringTable

/-- The table that holds no text. -/
def empty : StringTable := {}

/-- The number of texts. -/
def count (table : StringTable) : Nat :=
  table.entries.size

/-- A text that is added to both the entries and the index is found by the index at its place. -/
theorem lookup_index_push (table : StringTable) {text : String}
    (new : table.index.lookup text = none) (other : String) (id : Nat) :
    ((text, table.count) :: table.index).lookup other = some id ↔
      (table.entries.push text)[id]? = some other := by
  have old := table.lookup_index other id
  rw [Array.getElem?_push]
  by_cases same : other = text
  · subst same
    -- The text stood nowhere before, so its only place is the last one.
    have absent : table.entries[id]? ≠ some other := fun stood => by
      rw [new] at old
      exact nomatch old.2 stood
    rw [List.lookup_cons_self, Option.some_inj, count]
    split
    · next last => exact iff_of_true last.symm rfl
    · next before => exact iff_of_false (Ne.symm before) absent
  · rw [List.lookup_cons, beq_false_of_ne same, old]
    split
    · next last => simp [last, Ne.symm same]
    · rfl

/-- The id of a text and the table that holds it. -/
def intern (table : StringTable) (text : String) : Nat × StringTable :=
  match new : table.index.lookup text with
  | some id => (id, table)
  | none =>
    (table.count,
      { entries := table.entries.push text
        index := (text, table.count) :: table.index
        lookup_index := table.lookup_index_push new })

/-- An id belongs to a text. -/
def isValid (table : StringTable) (id : Int) : Bool :=
  0 ≤ id && id < table.count

/-- The text of an id. -/
def get (table : StringTable) (id : Int) : Except Breakdown String :=
  match (if 0 ≤ id then table.entries[id.toNat]? else none) with
  | some text => .ok text
  | none => .error (.invalidString id)

/-- A text that the index leads to keeps its id. -/
theorem intern_of_lookup {table : StringTable} {text : String} {id : Nat}
    (known : table.index.lookup text = some id) : table.intern text = (id, table) := by
  unfold intern
  split
  · next found => rw [known] at found; cases found; rfl
  · next new => rw [known] at new; cases new

/-- Any other text gets the next id and is added. -/
theorem intern_of_new {table : StringTable} {text : String}
    (new : table.index.lookup text = none) :
    (table.intern text).1 = table.count ∧
      (table.intern text).2.entries = table.entries.push text := by
  unfold intern
  split
  · next known => rw [new] at known; cases known
  · exact ⟨rfl, rfl⟩

/-- A text is stored under the id it was given. -/
theorem get_intern (table : StringTable) (text : String) :
    (table.intern text).2.get (table.intern text).1 = .ok text := by
  cases found : table.index.lookup text with
  | some id => simp [intern_of_lookup found, get, (table.lookup_index text id).1 found]
  | none =>
    obtain ⟨id, entries⟩ := intern_of_new found
    simp [get, id, entries, count]

/-- An id keeps its text when more texts are stored. -/
theorem get_intern_of_get {table : StringTable} {id : Int} {stored : String} (text : String)
    (h : table.get id = .ok stored) : (table.intern text).2.get id = .ok stored := by
  cases found : table.index.lookup text with
  | some id => rwa [intern_of_lookup found]
  | none =>
    obtain ⟨-, entries⟩ := intern_of_new found
    by_cases nonneg : 0 ≤ id
    · by_cases lt : id.toNat < table.entries.size
      · simpa [get, entries, nonneg, lt, Array.getElem?_push, Nat.ne_of_lt lt] using h
      · simp [get, nonneg, lt] at h
    · simp [get, nonneg] at h

/-- The token of a lexeme at a place, and the table that holds its text. -/
def store (table : StringTable) (found : Located Lexeme) : Token × StringTable :=
  let token (payload : Int) : Token := ⟨found.value.kind, found.position, payload⟩
  match found.value with
  | .indent depth | .dedent depth => (token depth, table)
  | .name text | .string text | .number text =>
    let (id, table) := table.intern text
    (token id, table)
  | .newline | .mark _ | .endOfInput => (token 0, table)

end StringTable

end EoJava
