import EoJava.Proofs.Compilation.Compiles
import EoJava.Proofs.Delivery.Recording

/-!
# Deliveries of programs

A program whose source does not compile touches no resolver and no sink. The units of one that
compiles are taken in order up to the first that is refused, and then the error says so at its
declaration (`Program.compile_delivers`). The error tells what the unit was refused with, so it
takes a failure that has a text. One that has none ends the program with what is thrown when it is
asked for its text (`Program.compile_mute`).
-/

namespace EoJava

namespace Compilation

variable {c after : Compilation} {decls : List Decl} {units : List JavaUnit}

/-- A compilation reads its source into declarations. -/
inductive Declares (c : Compilation) (decls : List Decl) : Prop where
  | intro {read parsed : Compilation} (hread : c.tokenize = (true, read))
      (hparsed : read.parse = .ok (true, parsed)) (hdecls : parsed.declarations = some decls)

/-- The units of a compilation have the names of the declarations that it reads, and what is left of
these is where they are. -/
theorem declares_of_completes (hfresh : c.Fresh) (h : c.Completes after units) :
    ∃ decls bound, c.Declares decls ∧ units.map JavaUnit.name = decls.map Decl.name ∧
      after.declarations = some bound ∧ bound.map Decl.position = decls.map Decl.position := by
  obtain ⟨hread, hparsed, hshaped, hafter⟩ := h
  obtain ⟨-, decls, -, -, -, -, -, rfl⟩ := declarations_of_tokenize hfresh hread hparsed
  obtain ⟨hclassified, -⟩ := accepted_of_classify rfl hshaped
  simp only [emit, hclassified, Option.getD_some] at hafter
  obtain ⟨⟨bound, problem | found⟩, hemitted, hafter⟩ := exists_of_bind_eq_ok hafter
  · cases hafter
  cases hafter
  obtain ⟨hunits, -⟩ := Java.emitted_of_emit hemitted
  have hpositions := Java.positions_of_emit hemitted
  rw [List.map_map] at hpositions
  have hnames := Java.names_of_emitted hunits
  rw [List.map_map] at hnames
  exact ⟨decls, bound, .intro hread hparsed rfl, hnames, rfl, hpositions⟩

/-- Locating units neither changes them nor their order. -/
theorem values_locateUnits (c : Compilation) (units : List JavaUnit) :
    (locateUnits c units).map (·.value) = units := by
  simp [locateUnits, Function.comp_def]

/-- Units are located at the places of the declarations they have the names of. -/
theorem located_locateUnits (hunits : units.length = decls.length) {bound : List Decl}
    (hbound : c.declarations = some bound)
    (hpositions : bound.map Decl.position = decls.map Decl.position) :
    (locateUnits c units).map (·.value) = units ∧
      (locateUnits c units).map (·.position) = decls.map Decl.position := by
  refine ⟨values_locateUnits c units, List.ext_getElem (by simp [locateUnits, hunits]) fun n hn hmore => ?_⟩
  have hat : bound[n]?.map Decl.position = decls[n]?.map Decl.position := by
    simpa using congrArg (·[n]?) hpositions
  rw [List.length_map] at hmore
  simp [locateUnits, hbound, hat, List.getElem?_eq_getElem hmore]

end Compilation

/-- An error says that the output of a unit has failed, at the place of its declaration, and what
the failure says. -/
structure CompileError.Undelivered (error : CompileError) (decl : Decl) (unit : JavaUnit)
    (failure : Failure) : Prop where
  code : error.code = .undeliverable
  stage : error.stage = .emit
  position : error.position = decl.position
  reason : ∃ said, failure.message = .ok said ∧
    error.reason = "cannot write '" ++ unit.name ++ "': " ++ said
  cause : error.stageError.cause = some failure

/-- If nothing was reported before, the error tells what is reported now. -/
theorem stop_of_report {c : Compilation} (hnone : c.diagnostics = []) (found : Located Problem)
    (cause : Option Failure) : ∃ error, (c.report found).stop cause = .refused error ∧
      error.diagnostic = .ofProblem found ∧ error.cause = cause := by
  have hone : (c.report found).errors = [.ofProblem found] := by
    simp [Compilation.errors_eq, Compilation.report, Compilation.add, hnone]
  rw [Compilation.stop, hone]
  exact ⟨_, rfl, rfl, rfl⟩

/-- What a program is stopped by when a unit was refused: the error that tells the failure, or, if
the failure has no text, what was thrown instead of one. -/
inductive Failure.StopsWith (failure : Failure) (decl : Decl) (unit : JavaUnit) : Stop → Prop where
  | told {error : CompileError} (h : error.Undelivered decl unit failure) :
      failure.StopsWith decl unit (.refused error)
  | thrown {instead : Failure} (h : failure.message = .error instead) :
      failure.StopsWith decl unit (.thrown instead)

section

variable {c : Compilation} {unit : Located JavaUnit} {decl : Decl} {failure : Failure}

/-- A failure that has a text is told by an error. -/
theorem exists_undelivered (hnone : c.diagnostics = []) (hposition : unit.position = decl.position)
    {said : String} (hsaid : failure.message = .ok said) :
    ∃ error, undelivered c unit failure = .refused error ∧
      error.Undelivered decl unit.value failure := by
  obtain ⟨⟨_, report, _⟩, hstop, rfl, rfl⟩ := stop_of_report hnone
    ⟨unit.position, .undeliverable unit.value.name said⟩ (some failure)
  rw [undelivered, hsaid]
  refine ⟨_, hstop, rfl, rfl, hposition, ⟨said, hsaid, ?_⟩, rfl⟩
  show String.join ["cannot write '", unit.value.name, "': ", said] = _
  simp [String.join]

/-- Whatever a unit was refused with, the program is stopped by what comes of telling it. -/
theorem stopsWith_undelivered (hnone : c.diagnostics = [])
    (hposition : unit.position = decl.position) (failure : Failure) :
    failure.StopsWith decl unit.value (undelivered c unit failure) := by
  cases hmessage : failure.message with
  | ok said =>
      obtain ⟨error, hstop, hundelivered⟩ := exists_undelivered hnone hposition hmessage
      rw [hstop]
      exact .told hundelivered
  | error instead =>
      rw [undelivered, hmessage]
      exact .thrown hmessage

end

/-- The first `k` units were taken in order. They are all, or the next one was refused and that has
stopped the program at its declaration. -/
def Sight.Delivered (sight : Sight) (decls : List Decl) (units : List JavaUnit) (k : Nat)
    (contacts : List Contact) (result : Except Stop (List JavaUnit)) : Prop :=
  ∃ last, contacts = (units.take k).flatMap sight.taken ++ last ∧
    (k = units.length ∧ last = [] ∧ result = .ok units ∨
      ∃ unit decl failure stop, units[k]? = some unit ∧ decls[k]? = some decl ∧
        sight.Refused unit failure last ∧ result = .error stop ∧ failure.StopsWith decl unit stop)

variable {σ : Type}

namespace Target

variable {m : Type → Type} [Monad m] {fs : FileSystem m} {c : Compilation} {count : Nat}

/-- A resolver is asked itself. -/
theorem resolve_resolver (find : Resolver m) :
    (Target.resolver find).resolve fs c count = .ok find :=
  rfl

/-- A directory is resolved by the files in it. -/
theorem resolve_directory (path : String) :
    (Target.directory path).resolve fs c count = .ok (directoryResolver fs path) :=
  rfl

/-- A single sink takes whatever unit there is, if there is no more than one. -/
theorem resolve_sink (hcount : ¬1 < count) (only : Sink m) :
    (Target.sink only).resolve fs c count = .ok fun _ => pure (.ok only) :=
  if_neg hcount

/-- A single sink is refused when there are more units. -/
theorem resolve_sink_many (hcount : 1 < count) (only : Sink m) :
    (Target.sink only).resolve fs c count = .error (c.report ⟨⟨1, 1⟩, .singleSink count⟩).stop :=
  if_pos hcount

end Target

namespace Sight

/-- What a resolver is asked for are the names of the units that were taken, and of the next one. -/
theorem Delivered.requested {decls : List Decl} {units : List JavaUnit} {k : Nat}
    {contacts : List Contact} {result : Except Stop (List JavaUnit)}
    (h : resolver.Delivered decls units k contacts result) :
    contacts.filterMap Contact.requested? = (units.map JavaUnit.name).take (k + 1) := by
  have htaken : ∀ units : List JavaUnit, (units.flatMap resolver.taken).filterMap
      Contact.requested? = units.map JavaUnit.name := by
    intro units
    rw [List.filterMap_flatMap, List.map_eq_flatMap]
    rfl
  obtain ⟨last, rfl, ⟨rfl, rfl, -⟩ | ⟨unit, -, failure, -, hunit, -, hlast, -⟩⟩ := h
  · rw [List.append_nil, htaken, List.take_of_length_le (Nat.le_refl _),
      List.take_of_length_le (by simp)]
  · have hrequest : last.filterMap Contact.requested? = [unit.name] := by
      rcases hlast with rfl | rfl <;> rfl
    rw [List.filterMap_append, htaken, hrequest, List.map_take, List.take_add_one,
      List.getElem?_map, hunit]
    rfl

end Sight

namespace Program

variable {program : Program} {after : Compilation} {units : List JavaUnit}

/-- The compilation of a program before its first stage. -/
def start (program : Program) : Compilation :=
  { source := program.source, filename := program.filename }

/-- A program whose source compiles does what delivering its units does. -/
theorem compile_of_run (hrun : program.start.run = (after, .ok units))
    {fs : FileSystem (StateM σ)} {target : Target (StateM σ)} {find : Resolver (StateM σ)}
    (hfind : target.resolve fs after units.length = .ok find) (state : σ) :
    program.compile fs target state =
      match deliver after find (locateUnits after units) state with
      | (.error stop, final) => (.error stop, final)
      | (.ok (), final) => (.ok units, final) := by
  rw [start] at hrun
  simp only [Program.compile, hrun, hfind, bind_apply]
  rcases deliver after find (locateUnits after units) state with ⟨stop | ⟨⟩, final⟩ <;> rfl

/-- A program whose target is refused delivers nothing. -/
theorem compile_of_unresolved (hrun : program.start.run = (after, .ok units))
    {fs : FileSystem (StateM σ)} {target : Target (StateM σ)} {stop : Stop}
    (hstop : target.resolve fs after units.length = .error stop) (state : σ) :
    program.compile fs target state = (.error stop, state) := by
  rw [start] at hrun
  simp only [Program.compile, hrun, hstop]
  rfl

/-- A program whose source is refused delivers nothing and asks for nothing. -/
theorem compile_of_stop {stop : Stop} (hrun : program.start.run = (after, .error stop))
    (fs : FileSystem (StateM σ)) (target : Target (StateM σ)) (state : σ) :
    program.compile fs target state = (.error stop, state) := by
  rw [start] at hrun
  simp only [Program.compile, hrun]
  rfl

/-- A program whose units are located is delivered as its record shows. -/
theorem exists_delivered {sight : Sight} {find : Resolver (StateM σ)}
    {recorded : Resolver (StateM (σ × List Contact))} (hrecords : Records sight find recorded)
    (hrun : program.start.run = (after, .ok units)) (hnone : after.diagnostics = [])
    {decls : List Decl} (hlength : units.length = decls.length) {bound : List Decl}
    (hbound : after.declarations = some bound)
    (hpositions : bound.map Decl.position = decls.map Decl.position)
    (fs : FileSystem (StateM σ)) {target : Target (StateM σ)}
    (hfind : target.resolve fs after units.length = .ok find)
    (recordedFs : FileSystem (StateM (σ × List Contact)))
    {recordedTarget : Target (StateM (σ × List Contact))}
    (hrecorded : recordedTarget.resolve recordedFs after units.length = .ok recorded) (state : σ) :
    ∃ result final contacts k, program.compile fs target state = (result, final) ∧
      program.compile recordedFs recordedTarget (state, []) = (result, final, contacts) ∧
      sight.Delivered decls units k contacts result := by
  obtain ⟨outcome, final, contacts, hplain, hlog, hdelivery⟩ :=
    hrecords.deliver after (locateUnits after units) state []
  obtain ⟨hvalues, hplaces⟩ := Compilation.located_locateUnits hlength hbound hpositions
  rw [compile_of_run hrun hfind, compile_of_run hrun hrecorded, hplain, hlog]
  cases hdelivery with
  | complete =>
      refine ⟨.ok units, final, _, units.length, rfl, rfl, [], ?_, .inl ⟨rfl, rfl, rfl⟩⟩
      have hall := congrArg (List.flatMap sight.taken) hvalues
      rw [List.flatMap_map] at hall
      rw [List.nil_append, List.append_nil, List.take_length, hall]
  | @ended before later unit failure last hunits hlast =>
      -- The unit that is refused stands after as many units as were taken.
      rw [hunits] at hvalues hplaces
      have hat : decls[before.length]?.map Decl.position = some unit.position := by
        simpa using (congrArg (·[before.length]?) hplaces).symm
      obtain ⟨decl, hdecl, hposition⟩ := Option.map_eq_some_iff.1 hat
      have hstops := stopsWith_undelivered hnone hposition.symm failure
      refine ⟨.error (undelivered after unit failure), final, _, before.length, rfl, rfl, last, ?_,
        .inr ⟨unit.value, decl, failure, _, ?_, hdecl, hlast, rfl, hstops⟩⟩
      · rw [← hvalues, List.nil_append, ← List.flatMap_map]
        simp
      · rw [← hvalues]
        simp

/-- The delivery of a program to a resolver or to a single sink. A source that does not compile
leaves both untouched. The units of one that compiles are taken in order, each once, up to the first
that is refused. The error then tells that failure if it has a text, and if it has none, what was
thrown instead of one ends the program. A single sink takes one unit at most; if there are more,
none is written. Recording changes nothing of all this. -/
theorem compile_delivers (program : Program) (fs : FileSystem (StateM σ))
    (recordedFs : FileSystem (StateM (σ × List Contact))) (state : σ) :
    (∀ find : Resolver (StateM σ), ∃ result final contacts,
      program.compile fs (.resolver find) state = (result, final) ∧
      program.compile recordedFs (.resolver find.recorded) (state, []) =
        (result, final, contacts) ∧
      ((∃ error, EoJava.compile program.source program.filename = .error (.refused error) ∧
          result = .error (.refused error) ∧ final = state ∧ contacts = []) ∨
        ∃ units decls k, EoJava.compile program.source program.filename = .ok units ∧
          program.start.Declares decls ∧ units.map JavaUnit.name = decls.map Decl.name ∧
          Sight.resolver.Delivered decls units k contacts result ∧
          contacts.filterMap Contact.requested? = (units.map JavaUnit.name).take (k + 1))) ∧
    ∀ sink : Sink (StateM σ), ∃ result final contacts,
      program.compile fs (.sink sink) state = (result, final) ∧
      program.compile recordedFs (.sink (sink.recorded none)) (state, []) =
        (result, final, contacts) ∧
      ((∃ error, EoJava.compile program.source program.filename = .error (.refused error) ∧
          result = .error (.refused error) ∧ final = state ∧ contacts = []) ∨
        ∃ units decls, EoJava.compile program.source program.filename = .ok units ∧
          program.start.Declares decls ∧ units.map JavaUnit.name = decls.map Decl.name ∧
          (units.length ≤ 1 ∧ (∃ k, Sight.sink.Delivered decls units k contacts result) ∨
            1 < units.length ∧ final = state ∧ contacts = [] ∧
              ∃ error, result = .error (.refused error) ∧ error.code = .singleSink)) := by
  have hfresh : program.start.Fresh := ⟨rfl, rfl⟩
  obtain ⟨after, units, hcompletes, hnone⟩ | ⟨stage, after, d, hfails, hone, -⟩ :=
    Compilation.completes_or_fails hfresh
  · have hrun := Compilation.run_of_completes hcompletes
    have hcompile : EoJava.compile program.source program.filename = .ok units :=
      congrArg Prod.snd hrun
    obtain ⟨decls, bound, hdeclares, hnames, hbound, hpositions⟩ :=
      Compilation.declares_of_completes hfresh hcompletes
    have hlength : units.length = decls.length := by
      simpa using congrArg List.length hnames
    constructor
    · intro find
      obtain ⟨result, final, contacts, k, hplain, hlog, hdelivered⟩ :=
        exists_delivered (records_resolver find) hrun hnone hlength hbound hpositions
          fs (Target.resolve_resolver find) recordedFs (Target.resolve_resolver find.recorded) state
      exact ⟨result, final, contacts, hplain, hlog, .inr ⟨units, decls, k, hcompile, hdeclares,
        hnames, hdelivered, hdelivered.requested⟩⟩
    · intro sink
      by_cases hmany : 1 < units.length
      · obtain ⟨error, hstop, hdiagnostic, -⟩ :=
          stop_of_report hnone ⟨⟨1, 1⟩, .singleSink units.length⟩ none
        have hcode : error.code = .singleSink := by
          rw [CompileError.code, hdiagnostic]
          rfl
        exact ⟨_, _, _, compile_of_unresolved hrun (Target.resolve_sink_many hmany sink) state,
          compile_of_unresolved hrun (Target.resolve_sink_many hmany _) _, .inr ⟨units, decls,
          hcompile, hdeclares, hnames, .inr ⟨hmany, rfl, rfl, error, by rw [hstop], hcode⟩⟩⟩
      · obtain ⟨result, final, contacts, k, hplain, hlog, hdelivered⟩ :=
          exists_delivered (records_sink sink) hrun hnone hlength hbound hpositions
            fs (Target.resolve_sink hmany sink) recordedFs
            (Target.resolve_sink hmany (sink.recorded none)) state
        exact ⟨result, final, contacts, hplain, hlog, .inr ⟨units, decls, hcompile, hdeclares,
          hnames, .inl ⟨Nat.le_of_not_lt hmany, k, hdelivered⟩⟩⟩
  · have hrun := Compilation.run_of_failsAt hfails
    rw [Compilation.stop_of_diagnostics hone] at hrun
    have hcompile := congrArg Prod.snd hrun
    exact ⟨fun find => ⟨_, _, _, compile_of_stop hrun _ _ _, compile_of_stop hrun _ _ _,
        .inl ⟨_, hcompile, rfl, rfl, rfl⟩⟩,
      fun sink => ⟨_, _, _, compile_of_stop hrun _ _ _, compile_of_stop hrun _ _ _,
        .inl ⟨_, hcompile, rfl, rfl, rfl⟩⟩⟩

/-- A sink that refuses the only unit with a value that has no text. No error says so: what was
thrown instead of a text ends the program. -/
theorem compile_mute :
    let program : Program := { source := "object A:\n  T x()\n" }
    let instead : Failure :=
      .error { name := "TypeError", message := "Cannot convert object to primitive value" }
    let sink : Sink (StateM Unit) := fun _ => pure (.error (.mute instead))
    ((EoJava.compile program.source program.filename).toOption.map List.length = some 1) ∧
      ∀ fs, program.compile fs (.sink sink) () = (.error (.thrown instead), ()) := by
  intro program instead sink
  have hone : (EoJava.compile program.source program.filename).toOption.map List.length =
      some 1 := by
    decide +kernel
  refine ⟨hone, fun fs => ?_⟩
  rcases hrun : program.start.run with ⟨after, stop | units⟩
  · rw [show EoJava.compile program.source program.filename = .error stop from
      congrArg Prod.snd hrun] at hone
    cases hone
  · rw [show EoJava.compile program.source program.filename = .ok units from
      congrArg Prod.snd hrun] at hone
    obtain ⟨unit, rfl⟩ := List.length_eq_one_iff.1 (Option.some.inj hone)
    rw [compile_of_run hrun (Target.resolve_sink (by simp) sink)]
    rfl

end Program

end EoJava
