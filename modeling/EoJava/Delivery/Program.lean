import EoJava.Compilation.Run
import EoJava.Delivery.Sink

/-!
# Programs

A program is a source that is compiled and delivered. All units are compiled before the first one is
delivered, and they are delivered in order. The first failure ends the delivery; units before it
stay delivered. The error tells what the failure says, so there is none if the failure has no text;
what is thrown in its stead then ends the program.
-/

namespace EoJava

/-- Where units go. -/
inductive Target (m : Type → Type) where
  /-- To a directory, each in a file of its own. -/
  | directory (path : String)
  /-- To one sink. -/
  | sink (sink : Sink m)
  /-- To the sinks that a resolver finds. -/
  | resolver (resolver : Resolver m)

/-- A source to be compiled and delivered. -/
structure Program where
  source : String
  filename : String := "<input>"
deriving DecidableEq, Repr

variable {m : Type → Type} [Monad m]

/-- Why the delivery of a unit has stopped: the error that tells its failure, or what asking the
failure for its text has thrown. -/
def undelivered (c : Compilation) (unit : Located JavaUnit) (failure : Failure) : Stop :=
  match failure.message with
  | .ok said => (c.report ⟨unit.position, .undeliverable unit.value.name said⟩).stop (some failure)
  | .error thrown => .thrown thrown

/-- Delivers one unit. -/
def deliverUnit (resolve : Resolver m) (unit : JavaUnit) : m (Except Failure Unit) := do
  match ← resolve unit.name with
  | .error failure => pure (.error failure)
  | .ok sink => sink unit.text

/-- Delivers units in order, up to the first failure. -/
def deliver (c : Compilation) (resolve : Resolver m) : List (Located JavaUnit) →
    m (Except Stop Unit)
  | [] => pure (.ok ())
  | unit :: units => do
    match ← deliverUnit resolve unit.value with
    | .error failure => pure (.error (undelivered c unit failure))
    | .ok () => deliver c resolve units

/-- Units at the places of the declarations they come from. -/
def locateUnits (c : Compilation) (units : List JavaUnit) : List (Located JavaUnit) :=
  units.zipIdx.map fun (unit, index) =>
    let declaration? := (c.declarations.getD [])[index]?
    ⟨(declaration?.map (·.position)).getD ⟨1, 1⟩, unit⟩

/-- The resolver of a target for so many units. A single sink takes no more than one. -/
def Target.resolve (fs : FileSystem m) (c : Compilation) (count : Nat) :
    Target m → Except Stop (Resolver m)
  | .directory path => .ok (directoryResolver fs path)
  | .resolver find => .ok find
  | .sink only =>
    if 1 < count then .error (c.report ⟨⟨1, 1⟩, .singleSink count⟩).stop
    else .ok fun _ => pure (.ok only)

/-- Compiles a program and delivers its units. -/
def Program.compile (fs : FileSystem m) (target : Target m) (program : Program) :
    m (Except Stop (List JavaUnit)) :=
  let start : Compilation := { source := program.source, filename := program.filename }
  match start.run with
  | (_, .error stop) => pure (.error stop)
  | (c, .ok units) =>
    match target.resolve fs c units.length with
    | .error stop => pure (.error stop)
    | .ok resolve => do
      match ← deliver c resolve (locateUnits c units) with
      | .error stop => pure (.error stop)
      | .ok () => pure (.ok units)

end EoJava
