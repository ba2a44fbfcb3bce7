import EoJava.Proofs.Java.Lexical
import EoJava.Syntax.Tree

/-!
# Java trees

What the lexemes of a unit are put together to: a type with its members, their statements and the
terms in these. A tree is determined by its lexemes (`TypeTree.lexemes_injective`), so a unit is
read as one tree at most.
-/

namespace EoJava.Java

/-! ## Trees -/

/-- An expression: a literal, a name, a field of the object itself, or the construction of another
object. -/
inductive Term where
  | string (value : String)
  | number (negative : Bool) (digits : String)
  | boolean (value : Bool)
  | name (name : String)
  | field (name : String)
  | construct (name : String) (args : List Term)
deriving Repr

/-- A formal parameter. -/
structure Formal where
  typeName : String
  name : String
deriving DecidableEq, Repr

/-- A statement: it returns a term, or what a method of the same object returns, or it calls another
constructor, or it sets a field to the parameter of the same name. -/
inductive Statement where
  | returned (value : Term)
  | forwarded (method : String) (args : List Term)
  | chained (args : List Term)
  | assigned (name : String)
deriving Repr

/-- A member of a type. A signature is a method without a body. -/
inductive TypeMember where
  | field (typeName name : String)
  | signature (typeName name : String) (formals : List Formal)
  | constructor (name : String) (formals : List Formal) (body : List Statement)
  | method (modifier typeName name : String) (formals : List Formal) (body : List Statement)
deriving Repr

/-- A type: a class or an interface, with what it implements or extends. -/
structure TypeTree where
  kind : DeclKind
  name : String
  interfaces : List String
  members : List TypeMember
deriving Repr

/-! ## Lexemes -/

/-- Items with a comma before each but the first. -/
def listed : List (List Lexeme) → List Lexeme
  | [] => []
  | first :: others => first ++ others.flatMap (.symbol ',' :: ·)

/-- A list between parentheses, and what follows it. -/
def parenthesized (items : List (List Lexeme)) (rest : List Lexeme) : List Lexeme :=
  .symbol '(' :: (listed items ++ .symbol ')' :: rest)

theorem parenthesized_append (items : List (List Lexeme)) (rest after : List Lexeme) :
    parenthesized items rest ++ after = parenthesized items (rest ++ after) := by
  simp [parenthesized]

/-- What stands between braces. -/
def braced (inner : List Lexeme) : List Lexeme :=
  .symbol '\x7b' :: (inner ++ [.symbol '\x7d'])

namespace Term

mutual

/-- The lexemes of a term. -/
def lexemes : Term → List Lexeme
  | string value => [.string value]
  | number false digits => [.number digits]
  | number true digits => [.symbol '-', .number digits]
  | boolean value => [.truth value]
  | name word => [.word word]
  | field word => [.word "this", .symbol '.', .word word]
  | construct word args => .word "new" :: .word word :: parenthesized (argumentLexemes args) []

/-- The lexemes of each argument. -/
def argumentLexemes : List Term → List (List Lexeme)
  | [] => []
  | arg :: args => arg.lexemes :: argumentLexemes args

end

@[simp]
theorem argumentLexemes_eq_map (args : List Term) : argumentLexemes args = args.map lexemes := by
  induction args with
  | nil => rfl
  | cons arg args ih => simp [argumentLexemes, ih]

end Term

/-- The lexemes of a formal parameter. -/
def Formal.lexemes (formal : Formal) : List Lexeme :=
  [.word "final", .word formal.typeName, .word formal.name]

/-- The lexemes of a statement. -/
def Statement.lexemes : Statement → List Lexeme
  | returned value => .word "return" :: (value.lexemes ++ [.symbol ';'])
  | forwarded method args =>
    .word "return" :: .word "this" :: .symbol '.' :: .word method ::
      parenthesized (args.map Term.lexemes) [.symbol ';']
  | chained args => .word "this" :: parenthesized (args.map Term.lexemes) [.symbol ';']
  | assigned name =>
    [.word "this", .symbol '.', .word name, .symbol '=', .word name, .symbol ';']

/-- The lexemes of a member. -/
def TypeMember.lexemes : TypeMember → List Lexeme
  | field typeName name => [.word "private", .word "final", .word typeName, .word name, .symbol ';']
  | signature typeName name formals =>
    .word typeName :: .word name :: parenthesized (formals.map Formal.lexemes) [.symbol ';']
  | constructor name formals body =>
    .word "public" :: .word name ::
      parenthesized (formals.map Formal.lexemes) (braced (body.flatMap Statement.lexemes))
  | method modifier typeName name formals body =>
    .word modifier :: .word typeName :: .word name ::
      parenthesized (formals.map Formal.lexemes) (braced (body.flatMap Statement.lexemes))

namespace TypeTree

/-- The words that start a type. -/
def opening : DeclKind → List Lexeme
  | .classType => [.word "public", .word "final", .word "class"]
  | .interfaceType => [.word "public", .word "interface"]

/-- The word before the interfaces of a type. -/
def clauseWord : DeclKind → String
  | .classType => "implements"
  | .interfaceType => "extends"

/-- The lexemes of the clause that lists interfaces. Without interfaces there is no clause. -/
def clause (kind : DeclKind) : List String → List Lexeme
  | [] => []
  | interfaces => .word (clauseWord kind) :: listed (interfaces.map fun name => [.word name])

/-- The lexemes of a type. -/
def lexemes (tree : TypeTree) : List Lexeme :=
  opening tree.kind ++ .word tree.name ::
    (clause tree.kind tree.interfaces ++ braced (tree.members.flatMap TypeMember.lexemes))

end TypeTree

/-- A text is read as a type. -/
def Reads (text : String) (tree : TypeTree) : Prop :=
  lexemes? text.toList = some tree.lexemes

/-! ## Unique reading -/

section

variable {α : Type} {spell : α → List Lexeme} {close : Lexeme} {xs ys : List α}
  {rest after : List Lexeme}

/-- What follows an item of a list: a comma or the end of the list. -/
def Stops (close : Lexeme) (rest : List Lexeme) : Prop :=
  ∃ after, rest = .symbol ',' :: after ∨ rest = close :: after

/-- An item can be told from what follows it in a list. -/
def Cancels (close : Lexeme) (spell : α → List Lexeme) (x : α) : Prop :=
  ∀ y rest after, Stops close rest → Stops close after → spell x ++ rest = spell y ++ after →
    x = y ∧ rest = after

theorem stops_flatMap (xs : List α) (rest : List Lexeme) :
    Stops close ((xs.flatMap fun x => .symbol ',' :: spell x) ++ close :: rest) := by
  cases xs with
  | nil => exact ⟨rest, .inr rfl⟩
  | cons x xs => exact ⟨_, .inl rfl⟩

theorem cancel_flatMap_comma (hclose : close ≠ .symbol ',') (hxs : ∀ x ∈ xs, Cancels close spell x)
    (h : (xs.flatMap fun x => .symbol ',' :: spell x) ++ close :: rest =
      (ys.flatMap fun y => .symbol ',' :: spell y) ++ close :: after) : xs = ys ∧ rest = after := by
  induction xs generalizing ys with
  | nil =>
      cases ys with
      | nil => exact ⟨rfl, (List.cons.inj h).2⟩
      | cons y ys => exact absurd (List.cons.inj h).1 hclose
  | cons x xs ih =>
      obtain ⟨hx, hxs⟩ := List.forall_mem_cons.1 hxs
      cases ys with
      | nil => exact absurd (List.cons.inj h).1.symm hclose
      | cons y ys =>
          rw [List.flatMap_cons, List.flatMap_cons, List.append_assoc, List.append_assoc] at h
          obtain ⟨rfl, hothers⟩ := hx y _ _ (stops_flatMap xs rest) (stops_flatMap ys after)
            (List.cons.inj h).2
          obtain ⟨rfl, hrest⟩ := ih hxs hothers
          exact ⟨rfl, hrest⟩

/-- Every item starts with a lexeme of its own, which ends no list. -/
def Opens (close : Lexeme) (spell : α → List Lexeme) : Prop :=
  ∀ x, ∃ first others, spell x = first :: others ∧ first ≠ close

theorem Opens.ne (hopens : Opens close spell) (x : α) (rest after : List Lexeme) :
    close :: rest ≠ spell x ++ after := by
  obtain ⟨first, others, hspell, hfirst⟩ := hopens x
  rw [hspell]
  exact fun h => hfirst (List.cons.inj h).1.symm

/-- A list determines its items and what follows its end. -/
theorem cancel_listed (hopens : Opens close spell) (hclose : close ≠ .symbol ',')
    (hxs : ∀ x ∈ xs, Cancels close spell x)
    (h : listed (xs.map spell) ++ close :: rest = listed (ys.map spell) ++ close :: after) :
    xs = ys ∧ rest = after := by
  cases xs with
  | nil =>
      cases ys with
      | nil => exact ⟨rfl, (List.cons.inj h).2⟩
      | cons y ys =>
          rw [List.map_cons, listed, List.append_assoc] at h
          exact absurd h (hopens.ne y _ _)
  | cons x xs =>
      obtain ⟨hx, hxs⟩ := List.forall_mem_cons.1 hxs
      cases ys with
      | nil =>
          rw [List.map_cons, listed, List.append_assoc] at h
          exact absurd h.symm (hopens.ne x _ _)
      | cons y ys =>
          simp only [List.map_cons, listed, List.flatMap_map, List.append_assoc] at h
          obtain ⟨rfl, hothers⟩ := hx y _ _ (stops_flatMap xs rest) (stops_flatMap ys after) h
          obtain ⟨rfl, hrest⟩ := cancel_flatMap_comma hclose hxs hothers
          exact ⟨rfl, hrest⟩

/-- A list between parentheses determines its items and what follows it. -/
theorem cancel_parenthesized (hopens : Opens (.symbol ')') spell)
    (hxs : ∀ x ∈ xs, Cancels (.symbol ')') spell x)
    (h : parenthesized (xs.map spell) rest = parenthesized (ys.map spell) after) :
    xs = ys ∧ rest = after :=
  cancel_listed hopens (by decide) hxs (List.cons.inj h).2

/-- Parts that end by themselves determine each of them and what follows the end of all. -/
theorem cancel_flatMap (hopens : Opens close spell)
    (hxs : ∀ x y rest after, spell x ++ rest = spell y ++ after → x = y ∧ rest = after)
    (h : xs.flatMap spell ++ close :: rest = ys.flatMap spell ++ close :: after) :
    xs = ys ∧ rest = after := by
  induction xs generalizing ys with
  | nil =>
      cases ys with
      | nil => exact ⟨rfl, (List.cons.inj h).2⟩
      | cons y ys =>
          rw [List.flatMap_cons, List.append_assoc] at h
          exact absurd h (hopens.ne y _ _)
  | cons x xs ih =>
      cases ys with
      | nil =>
          rw [List.flatMap_cons, List.append_assoc] at h
          exact absurd h.symm (hopens.ne x _ _)
      | cons y ys =>
          rw [List.flatMap_cons, List.flatMap_cons, List.append_assoc, List.append_assoc] at h
          obtain ⟨rfl, hothers⟩ := hxs x y _ _ h
          obtain ⟨rfl, hrest⟩ := ih hothers
          exact ⟨rfl, hrest⟩

end

/-- What follows a term. -/
def Closes (rest : List Lexeme) : Prop :=
  ∃ c after, rest = .symbol c :: after ∧ c ∈ [',', ')', ';']

theorem Stops.closes {rest : List Lexeme} (h : Stops (.symbol ')') rest) : Closes rest := by
  obtain ⟨after, rfl | rfl⟩ := h
  · exact ⟨_, after, rfl, by decide⟩
  · exact ⟨_, after, rfl, by decide⟩

namespace Term

theorem opens : Opens (.symbol ')') lexemes := by
  intro t
  cases t with
  | number negative digits => cases negative <;> exact ⟨_, _, rfl, by simp⟩
  | string | boolean | name | field | construct => exact ⟨_, _, rfl, by simp⟩

mutual

/-- A term can be told from what follows it. -/
theorem cancel (t : Term) {other : Term} {rest after : List Lexeme} (hrest : Closes rest)
    (hafter : Closes after) (h : t.lexemes ++ rest = other.lexemes ++ after) :
    t = other ∧ rest = after := by
  obtain ⟨c, rest, rfl, hc⟩ := hrest
  obtain ⟨d, after, rfl, hd⟩ := hafter
  have hpoint : '.' ≠ c ∧ '.' ≠ d := by
    refine ⟨?_, ?_⟩
    · rintro rfl
      exact absurd hc (by decide)
    · rintro rfl
      exact absurd hd (by decide)
  cases t with
  | construct word args =>
      cases other with
      | construct word' args' =>
          simp only [lexemes, argumentLexemes_eq_map, List.cons_append, parenthesized_append,
            List.cons.injEq, Lexeme.word.injEq, true_and, List.nil_append] at h
          obtain ⟨rfl, hlist⟩ := h
          obtain ⟨rfl, hrest⟩ := cancel_parenthesized opens (cancel_all args) hlist
          exact ⟨rfl, hrest⟩
      | number negative digits => cases negative <;> simp [lexemes] at h
      | _ => simp [lexemes] at h
  | number negative digits =>
      cases other with
      | number negative' digits' => cases negative <;> cases negative' <;> simp_all [lexemes]
      | _ => cases negative <;> simp [lexemes] at h
  | string | boolean | name | field =>
      cases other with
      | number negative digits => cases negative <;> simp [lexemes] at h
      | _ => simp_all [lexemes]

theorem cancel_all (args : List Term) : ∀ t ∈ args, Cancels (.symbol ')') lexemes t := by
  cases args with
  | nil => exact fun _ h => absurd h List.not_mem_nil
  | cons arg args =>
      refine List.forall_mem_cons.2 ⟨?_, cancel_all args⟩
      intro other rest after hrest hafter h
      exact arg.cancel hrest.closes hafter.closes h

end

end Term

namespace Formal

theorem opens : Opens (.symbol ')') lexemes :=
  fun _ => ⟨_, _, rfl, by simp⟩

theorem cancels (formal : Formal) : Cancels (.symbol ')') lexemes formal := by
  intro other rest after _ _ h
  simp only [lexemes, List.cons_append, List.cons.injEq, Lexeme.word.injEq, true_and,
    List.nil_append] at h
  obtain ⟨htype, hname, hrest⟩ := h
  cases formal
  cases other
  simp_all

end Formal

namespace Statement

variable {rest after : List Lexeme}

theorem closes_semicolon (rest : List Lexeme) : Closes (.symbol ';' :: rest) :=
  ⟨_, rest, rfl, by decide⟩

/-- What is returned is no call of a method. -/
theorem returned_ne_forwarded (value : Term) (method : String) (args : List (List Lexeme)) :
    value.lexemes ++ .symbol ';' :: rest ≠
      .word "this" :: .symbol '.' :: .word method :: parenthesized args after := by
  cases value with
  | number negative digits => cases negative <;> simp [Term.lexemes]
  | _ => simp [Term.lexemes, parenthesized]

/-- A statement can be told from what follows it. -/
theorem cancel (s other : Statement) (rest after : List Lexeme)
    (h : s.lexemes ++ rest = other.lexemes ++ after) : s = other ∧ rest = after := by
  cases s with
  | returned value =>
      cases other with
      | returned value' =>
          simp only [lexemes, List.cons_append, List.append_assoc, List.cons.injEq, true_and,
            List.nil_append] at h
          obtain ⟨rfl, hrest⟩ := value.cancel (closes_semicolon rest) (closes_semicolon after) h
          exact ⟨rfl, (List.cons.inj hrest).2⟩
      | forwarded method args =>
          simp only [lexemes, List.cons_append, List.append_assoc, List.cons.injEq, true_and,
            List.nil_append, parenthesized_append] at h
          exact absurd h (returned_ne_forwarded value method _)
      | chained args => simp [lexemes] at h
      | assigned name => simp [lexemes] at h
  | forwarded method args =>
      cases other with
      | returned value' =>
          simp only [lexemes, List.cons_append, List.append_assoc, List.cons.injEq, true_and,
            List.nil_append, parenthesized_append] at h
          exact absurd h.symm (returned_ne_forwarded value' method _)
      | forwarded method' args' =>
          simp only [lexemes, List.cons_append, List.cons.injEq, Lexeme.word.injEq, true_and,
            List.nil_append, parenthesized_append] at h
          obtain ⟨rfl, hlist⟩ := h
          obtain ⟨rfl, hrest⟩ := cancel_parenthesized Term.opens (Term.cancel_all args) hlist
          exact ⟨rfl, (List.cons.inj hrest).2⟩
      | chained args => simp [lexemes] at h
      | assigned name => simp [lexemes] at h
  | chained args =>
      cases other with
      | chained args' =>
          simp only [lexemes, List.cons_append, List.cons.injEq, true_and, List.nil_append,
            parenthesized_append] at h
          obtain ⟨rfl, hrest⟩ := cancel_parenthesized Term.opens (Term.cancel_all args) h
          exact ⟨rfl, (List.cons.inj hrest).2⟩
      | _ => simp [lexemes, parenthesized] at h
  | assigned name =>
      cases other with
      | assigned name' => simp_all [lexemes]
      | _ => simp [lexemes, parenthesized] at h

theorem opens (close : Char) : Opens (.symbol close) lexemes := by
  intro s
  cases s <;> exact ⟨_, _, rfl, by simp⟩

end Statement

namespace TypeMember

/-- Statements between braces determine each of them and what follows. -/
theorem cancel_body {body body' : List Statement} {rest after : List Lexeme}
    (h : braced (body.flatMap Statement.lexemes) ++ rest =
      braced (body'.flatMap Statement.lexemes) ++ after) : body = body' ∧ rest = after := by
  simp only [braced, List.cons_append, List.append_assoc, List.cons.injEq, true_and,
    List.nil_append] at h
  exact cancel_flatMap (Statement.opens _) Statement.cancel h

/-- Formal parameters determine each of them and what follows. -/
theorem cancel_formals {formals formals' : List Formal} {rest after : List Lexeme}
    (h : parenthesized (formals.map Formal.lexemes) rest =
      parenthesized (formals'.map Formal.lexemes) after) : formals = formals' ∧ rest = after :=
  cancel_parenthesized Formal.opens (fun formal _ => formal.cancels) h

/-- A member can be told from what follows it. -/
theorem cancel (m other : TypeMember) (rest after : List Lexeme)
    (h : m.lexemes ++ rest = other.lexemes ++ after) : m = other ∧ rest = after := by
  -- The words before the first mark of punctuation tell most members apart.
  cases m with
  | field typeName name =>
      cases other with
      | field typeName' name' => simp_all [lexemes]
      | _ => simp [lexemes, parenthesized] at h
  | signature typeName name formals =>
      cases other with
      | signature typeName' name' formals' =>
          simp only [lexemes, List.cons_append, List.cons.injEq, Lexeme.word.injEq,
            List.nil_append, parenthesized_append] at h
          obtain ⟨rfl, rfl, hlist⟩ := h
          obtain ⟨rfl, hrest⟩ := cancel_formals hlist
          exact ⟨rfl, (List.cons.inj hrest).2⟩
      | constructor name' formals' body' =>
          simp only [lexemes, List.cons_append, List.cons.injEq, Lexeme.word.injEq,
            List.nil_append, parenthesized_append] at h
          obtain ⟨-, hbody⟩ := cancel_formals h.2.2
          simp [braced] at hbody
      | _ => simp [lexemes, parenthesized] at h
  | constructor name formals body =>
      cases other with
      | constructor name' formals' body' =>
          simp only [lexemes, List.cons_append, List.cons.injEq, Lexeme.word.injEq, true_and,
            parenthesized_append] at h
          obtain ⟨rfl, hlist⟩ := h
          obtain ⟨rfl, hbody⟩ := cancel_formals hlist
          obtain ⟨rfl, hrest⟩ := cancel_body hbody
          exact ⟨rfl, hrest⟩
      | signature typeName' name' formals' =>
          simp only [lexemes, List.cons_append, List.cons.injEq, Lexeme.word.injEq,
            List.nil_append, parenthesized_append] at h
          obtain ⟨-, hbody⟩ := cancel_formals h.2.2
          simp [braced] at hbody
      | _ => simp [lexemes, parenthesized] at h
  | method modifier typeName name formals body =>
      cases other with
      | method modifier' typeName' name' formals' body' =>
          simp only [lexemes, List.cons_append, List.cons.injEq, Lexeme.word.injEq,
            parenthesized_append] at h
          obtain ⟨rfl, rfl, rfl, hlist⟩ := h
          obtain ⟨rfl, hbody⟩ := cancel_formals hlist
          obtain ⟨rfl, hrest⟩ := cancel_body hbody
          exact ⟨rfl, hrest⟩
      | _ => simp [lexemes, parenthesized] at h

theorem opens (close : Char) : Opens (.symbol close) lexemes := by
  intro m
  cases m <;> exact ⟨_, _, rfl, by simp⟩

end TypeMember

namespace TypeTree

theorem cancel_clause {kind : DeclKind} {interfaces interfaces' : List String}
    {rest after : List Lexeme} (h : clause kind interfaces ++ .symbol '\x7b' :: rest =
      clause kind interfaces' ++ .symbol '\x7b' :: after) :
    interfaces = interfaces' ∧ rest = after := by
  have hopens : Opens (.symbol '\x7b') fun name => [Lexeme.word name] :=
    fun _ => ⟨_, _, rfl, by simp⟩
  have hnames : ∀ names : List String, ∀ name ∈ names,
      Cancels (.symbol '\x7b') (fun name => [Lexeme.word name]) name :=
    fun _ name _ other rest after _ _ h => by simpa using h
  cases interfaces with
  | nil =>
      cases interfaces' with
      | nil => exact ⟨rfl, (List.cons.inj h).2⟩
      | cons => simp [clause] at h
  | cons name names =>
      cases interfaces' with
      | nil => simp [clause] at h
      | cons name' names' =>
          exact cancel_listed hopens (by decide) (hnames _) (List.cons.inj h).2

/-- A type is determined by its lexemes. -/
theorem lexemes_injective {tree other : TypeTree} (h : tree.lexemes = other.lexemes) :
    tree = other := by
  obtain ⟨kind, name, interfaces, members⟩ := tree
  obtain ⟨kind', name', interfaces', members'⟩ := other
  have hkind : kind = kind' := by
    cases kind <;> cases kind' <;> simp [lexemes, opening] at h ⊢
  subst hkind
  simp only [lexemes, List.append_cancel_left_eq, List.cons.injEq, Lexeme.word.injEq] at h
  obtain ⟨rfl, hclause⟩ := h
  obtain ⟨rfl, hmembers⟩ := cancel_clause hclause
  obtain ⟨rfl, -⟩ := cancel_flatMap (TypeMember.opens _) TypeMember.cancel hmembers
  rfl

end TypeTree

/-- A text is read as one type at most. -/
theorem Reads.unique {text : String} {tree other : TypeTree} (h : Reads text tree)
    (hother : Reads text other) : tree = other :=
  TypeTree.lexemes_injective (Option.some.inj (h.symm.trans hother))

end EoJava.Java
