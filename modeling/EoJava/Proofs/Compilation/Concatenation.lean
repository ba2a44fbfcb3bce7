import EoJava.Proofs.Compilation.Compiles
import EoJava.Proofs.Source.Spelled

/-!
# Compilation of two sources as one

If two sources compile, so do both as one source, and the units are those of the first and then
those of the second (`compile_append`). So what becomes of a declaration depends on its own text
only.
-/

namespace EoJava

open Text (IndentStyle)

namespace Grammar

/-- Parentheses that are closed do not count for how deep the others are. -/
theorem Shallow.append {kinds more : List Kind} (h : Shallow kinds)
    (hclosed : kinds.foldl Kind.depthAfter 0 = 0) (hmore : Shallow more) :
    Shallow (kinds ++ more) := by
  rintro before ⟨after, heq⟩
  rcases List.append_eq_append_iff.1 heq with ⟨rest, rfl, -⟩ | ⟨rest, rfl, hrest⟩
  · exact h before (List.prefix_append ..)
  · -- All of the first kinds are before this point, so none of their parentheses is open.
    rw [List.foldl_append, hclosed]
    exact hmore rest ⟨after, hrest.symm⟩

theorem Shallow.of_prefix {kinds before : List Kind} (h : Shallow kinds)
    (hbefore : before <+: kinds) : Shallow before :=
  fun _ hstart => h _ (hstart.trans hbefore)

end Grammar

/-- The terminals of declarations do not start with an indent. -/
theorem Decl.head?_programTerminals (decls : List Decl) :
    (programTerminals decls).head? ≠ some .indent := by
  cases decls <;> exact nofun

theorem Decl.programTerminals_append (decls more : List Decl) :
    programTerminals (decls ++ more) = decls.flatMap terminals ++ programTerminals more := by
  rw [programTerminals, programTerminals, List.flatMap_append, List.append_assoc]

/-- Two sources that compile do so as one source. -/
theorem Compiles.append {source next : List Char} {decls more : List Decl}
    {units others : List JavaUnit} (h : Compiles source decls units)
    (hnext : Compiles next more others) (hended : source = [] ∨ source.getLast? = some '\n')
    (hmark : next.head? ≠ some '\uFEFF')
    (hnames : (decls.map Decl.name).Disjoint (more.map Decl.name))
    (hstyle : ∀ a b, Scan.IndentsWith source a → Scan.IndentsWith next b → a = b) :
    Compiles (source ++ next) (decls ++ more) (units ++ others) where
  spelled := by
    rw [Decl.programTerminals_append]
    exact Scan.yields_source_append hended hmark h.spelled hnext.spelled
      (Decl.openAfter_all decls 0) (Decl.head?_programTerminals more) hstyle
  shallow := by
    have hall := h.shallow
    rw [Decl.programTerminals, List.map_append] at hall
    rw [Decl.programTerminals_append, List.map_append]
    exact (hall.of_prefix (List.prefix_append ..)).append (Decl.openAfter_all decls 0) hnext.shallow
  fresh := List.forall_mem_append.2 ⟨h.fresh, hnext.fresh⟩
  faultless := List.forall_mem_append.2 ⟨h.faultless, hnext.faultless⟩
  names := by
    rw [List.map_append]
    exact h.names.append hnext.names hnames
  emitted := by
    rw [List.map_append]
    exact List.rel_append h.emitted hnext.emitted

/-- Compilation of two sources as one. The first is empty or ends with a line feed, the second does
not start with a byte order mark, no declaration of the one has the name of one of the other, which
is the name of its unit (`Compiles.names_eq`), and they are not indented with different characters.
Then both compile as one source, to the units of the first and then those of the second. -/
theorem compile_append {source next sourceName nextName filename : String}
    {units others : List JavaUnit} (h : compile source sourceName = .ok units)
    (hnext : compile next nextName = .ok others)
    (hended : source = "" ∨ source.toList.getLast? = some '\n')
    (hmark : next.toList.head? ≠ some '\uFEFF')
    (hnames : (units.map JavaUnit.name).Disjoint (others.map JavaUnit.name))
    (hstyle : ∀ a b, Scan.IndentsWith source.toList a → Scan.IndentsWith next.toList b → a = b) :
    compile (source ++ next) filename = .ok (units ++ others) := by
  obtain ⟨decls, hdecls⟩ := compile_eq_ok_iff.1 h
  obtain ⟨more, hmore⟩ := compile_eq_ok_iff.1 hnext
  have hended' : source.toList = [] ∨ source.toList.getLast? = some '\n' :=
    hended.imp_left fun hempty => by
      rw [hempty]
      rfl
  rw [hdecls.names_eq, hmore.names_eq] at hnames
  refine compile_eq_ok_iff.2 ⟨decls ++ more, ?_⟩
  rw [String.toList_append]
  exact hdecls.append hmore hended' hmark hnames hstyle

/-- Two objects with an attribute each, the second after a comment. -/
theorem compile_append_objects :
    let source := "object A:\n  T @x\n"
    let next := "# next\nobject B as A:\n    U @y := \"b\"\n"
    ∃ units others, compile source "a.eo" = .ok units ∧ compile next "b.eo" = .ok others ∧
      compile (source ++ next) "ab.eo" = .ok (units ++ others) := by
  intro source next
  have hunits : ∀ text filename names,
      (compile text filename).toOption.map (List.map JavaUnit.name) = some names →
        ∃ units, compile text filename = .ok units ∧ units.map JavaUnit.name = names := by
    intro text filename names h
    obtain ⟨units, hunits, hnames⟩ := Option.map_eq_some_iff.1 h
    rcases hcompile : compile text filename with stop | found
    · rw [hcompile] at hunits
      cases hunits
    · rw [hcompile] at hunits
      cases hunits
      exact ⟨_, rfl, hnames⟩
  have hlines : ∀ text ∈ [source.toList, next.toList], ∀ line ∈ Text.lines (Text.dropMark text),
      (Text.indentation? line).bind IndentStyle.ofChar? ≠ some .tabs := by
    decide +kernel
  have hspaces : ∀ text ∈ [source.toList, next.toList], ∀ style, Scan.IndentsWith text style →
      style = .spaces := by
    intro text htext style h
    obtain ⟨line, hline, hstyle⟩ := h.exists_line
    cases style with
    | tabs => exact absurd hstyle (hlines text htext line hline)
    | spaces => rfl
  obtain ⟨units, hsource, hnames⟩ := hunits source "a.eo" ["A"] (by decide +kernel)
  obtain ⟨others, hnext, hothers⟩ := hunits next "b.eo" ["B"] (by decide +kernel)
  refine ⟨units, others, hsource, hnext, ?_⟩
  refine compile_append hsource hnext (.inr (by decide +kernel)) (by decide +kernel) ?_ ?_
  · simp [hnames, hothers]
  · intro a b ha hb
    rw [hspaces _ (by simp) a ha, hspaces _ (by simp) b hb]

end EoJava
