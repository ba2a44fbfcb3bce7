import EoJava.Proofs.Delivery.Program

/-!
# One outlet for all units

Nothing but writes happens to an outlet while units are delivered to it, so it takes all of them or
refuses the first one. If it takes them, it holds afterwards what it held before, and then the texts
of the units in order (`compile_outlet`).
-/

namespace EoJava

namespace Outlet

variable {outlet : Outlet} {failure : Failure}

/-- Why an outlet takes no texts, if it does not. -/
def failure? : Outlet → Option Failure
  | .memory _ | .discard => none
  | .stream s => s.failure?.map .error
  | .failing failure => some failure

/-- What an outlet refuses a text with does not depend on the text. -/
theorem write_of_refuses (h : outlet.failure? = some failure) (text : String) :
    outlet.write text = .error failure := by
  cases outlet with
  | memory | discard => cases h
  | stream s =>
      obtain ⟨error, herror, rfl⟩ := Option.map_eq_some_iff.1 h
      rw [write, Stream.write, herror]
      rfl
  | failing => exact congrArg Except.error (Option.some.inj h)

/-- An outlet that takes a text adds it to what it holds, and takes more texts. -/
theorem exists_write (h : outlet.failure? = none) (text : String) :
    ∃ later, outlet.write text = .ok later ∧ later.failure? = none ∧
      later.contents? = outlet.contents?.map (· ++ text) := by
  cases outlet with
  | memory writes => exact ⟨_, rfl, rfl, by simp [contents?, String.join_append]⟩
  | discard => exact ⟨_, rfl, rfl, rfl⟩
  | stream s =>
      have hnone : s.failure? = none := Option.map_eq_none_iff.1 h
      refine ⟨.stream { s with chunks := s.chunks ++ [text] }, ?_, h, ?_⟩
      · rw [write, Stream.write, hnone]
        rfl
      · simp [contents?, String.join_append]
  | failing => cases h

/-- The resolver that finds one outlet under every name. -/
def everywhere : Resolver (StateM Outlet) :=
  fun _ => pure (.ok sink)

/-- A unit that is delivered to an outlet is written to it. -/
theorem deliverUnit_everywhere (unit : JavaUnit) (outlet : Outlet) :
    deliverUnit everywhere unit outlet = sink unit.text outlet :=
  deliverUnit_apply everywhere unit outlet

/-- An outlet that takes texts takes all units and adds their texts to what it holds. -/
theorem deliver_taken (h : outlet.failure? = none) (c : Compilation)
    (units : List (Located JavaUnit)) :
    ∃ later, deliver c everywhere units outlet = (.ok (), later) ∧
      later.contents? =
        outlet.contents?.map (· ++ String.join (units.map (·.value.text))) := by
  induction units generalizing outlet with
  | nil => exact ⟨outlet, rfl, by simp⟩
  | cons unit units ih =>
      obtain ⟨next, hwrite, hnext, hcontents⟩ := exists_write h unit.value.text
      obtain ⟨later, hdeliver, hlater⟩ := ih hnext
      refine ⟨later, ?_, ?_⟩
      · rw [deliver_cons_apply, deliverUnit_everywhere, sink, hwrite]
        exact hdeliver
      · rw [hlater, hcontents, Option.map_map]
        refine congrArg (Option.map · outlet.contents?) (funext fun held => ?_)
        simp [String.append_assoc]

/-- The first text that an outlet refuses ends the delivery. -/
theorem deliver_refused (h : outlet.failure? = some failure) (c : Compilation)
    (unit : Located JavaUnit) (units : List (Located JavaUnit)) :
    deliver c everywhere (unit :: units) outlet =
      (.error (undelivered c unit failure), outlet) := by
  rw [deliver_cons_apply, deliverUnit_everywhere, sink, write_of_refuses h]

end Outlet

/-- A program whose units all go to one outlet. A source that is refused leaves the outlet as it
was. Of one that compiles, the outlet takes all units in order; or it had failed before, and then
the first unit ends the delivery, if there is one. -/
theorem Program.compile_outlet (program : Program) (fs : FileSystem (StateM Outlet))
    (outlet : Outlet) :
    (∀ after stop, program.start.run = (after, .error stop) →
      program.compile fs (.resolver Outlet.everywhere) outlet = (.error stop, outlet)) ∧
    ∀ after units, program.start.run = (after, .ok units) →
      (outlet.failure? = none → ∃ later,
        program.compile fs (.resolver Outlet.everywhere) outlet = (.ok units, later) ∧
        later.contents? =
          outlet.contents?.map (· ++ String.join (units.map JavaUnit.text))) ∧
      ∀ failure, outlet.failure? = some failure →
        program.compile fs (.resolver Outlet.everywhere) outlet =
          (((locateUnits after units).head?.map fun unit =>
            .error (undelivered after unit failure)).getD (.ok units), outlet) := by
  refine ⟨fun after stop hrun => compile_of_stop hrun fs _ outlet, fun after units hrun => ?_⟩
  rw [compile_of_run hrun (Target.resolve_resolver _) outlet]
  refine ⟨fun hnone => ?_, fun failure hfailure => ?_⟩
  · obtain ⟨later, hdeliver, hcontents⟩ :=
      Outlet.deliver_taken hnone after (locateUnits after units)
    have htexts := congrArg (List.map JavaUnit.text) (Compilation.values_locateUnits after units)
    rw [List.map_map] at htexts
    rw [hdeliver]
    exact ⟨later, rfl, hcontents.trans (by rw [← htexts]; rfl)⟩
  · cases locateUnits after units with
    | nil => rfl
    | cons unit others =>
        rw [Outlet.deliver_refused hfailure]
        rfl

end EoJava
