import EoJava.Delivery.Program

/-!
# Recorded deliveries

What a delivery asks of a resolver and writes to its sinks can be recorded without changing what the
delivery does. The record shows that units are taken one after the other, up to the first that is
refused (`Records.deliver`).
-/

namespace EoJava

/-- Something that is asked of a resolver or written to a sink, and what comes of it. A sink that
was found by a name is known by that name. -/
inductive Contact where
  | request (name : String) (outcome : Except Failure Unit)
  | write (name? : Option String) (text : String) (outcome : Except Failure Unit)

/-- The name that is asked for, if one is. -/
def Contact.requested? : Contact → Option String
  | request name _ => some name
  | write .. => none

variable {σ : Type}

/-- A sink that also records what is written to it. -/
def Sink.recorded (name? : Option String) (sink : Sink (StateM σ)) :
    Sink (StateM (σ × List Contact)) := fun text (state, log) =>
  let (outcome, after) := sink text state
  (outcome, after, log ++ [.write name? text outcome])

/-- A resolver that also records what is asked of it, and what is written to the sinks that it
finds. -/
def Resolver.recorded (find : Resolver (StateM σ)) : Resolver (StateM (σ × List Contact)) :=
  fun name (state, log) =>
    match find name state with
    | (.error failure, after) => (.error failure, after, log ++ [.request name (.error failure)])
    | (.ok sink, after) =>
      (.ok (sink.recorded (some name)), after, log ++ [.request name (.ok ())])

/-! ## What a record shows -/

/-- How units are seen to be taken and to be refused. -/
structure Sight where
  taken : JavaUnit → List Contact
  Refused : JavaUnit → Failure → List Contact → Prop

namespace Sight

/-- At a resolver, a unit is asked for and then written. It is refused if its name is not found, or
if the sink that is found fails. -/
def resolver : Sight where
  taken unit := [.request unit.name (.ok ()), .write (some unit.name) unit.text (.ok ())]
  Refused unit failure contacts :=
    contacts = [.request unit.name (.error failure)] ∨
      contacts = [.request unit.name (.ok ()), .write (some unit.name) unit.text (.error failure)]

/-- At a single sink, a unit is written. It is refused if the sink fails. -/
def sink : Sight where
  taken unit := [.write none unit.text (.ok ())]
  Refused unit failure contacts := contacts = [.write none unit.text (.error failure)]

variable (sight : Sight)

/-- A record shows how a unit fared. -/
def Shows (unit : JavaUnit) (contacts : List Contact) : Except Failure Unit → Prop
  | .ok () => contacts = sight.taken unit
  | .error failure => sight.Refused unit failure contacts

/-- A record shows how the delivery of units fared: all were taken in order, or those before the
first that was refused. -/
inductive Delivery (c : Compilation) (units : List (Located JavaUnit)) :
    List Contact → Except Stop Unit → Prop where
  | complete : Delivery c units (units.flatMap fun unit => sight.taken unit.value) (.ok ())
  | ended {before later : List (Located JavaUnit)} {unit : Located JavaUnit} {failure : Failure}
      {last : List Contact} (hunits : units = before ++ unit :: later)
      (hlast : sight.Refused unit.value failure last) :
      Delivery c units ((before.flatMap fun unit => sight.taken unit.value) ++ last)
        (.error (undelivered c unit failure))

variable {sight} {c : Compilation} {units : List (Located JavaUnit)} {contacts : List Contact}
  {result : Except Stop Unit}

/-- One more unit is taken first. -/
theorem Delivery.cons (h : sight.Delivery c units contacts result) (unit : Located JavaUnit) :
    sight.Delivery c (unit :: units) (sight.taken unit.value ++ contacts) result := by
  cases h with
  | complete => exact .complete
  | @ended before later next failure last hunits hlast =>
      rw [← List.append_assoc]
      have hmore : unit :: units = (unit :: before) ++ next :: later := by
        rw [hunits, List.cons_append]
      exact .ended hmore hlast

end Sight

/-! ## Deliveries -/

/-- The second action starts with what the first one gives and leaves. -/
theorem bind_apply {α β : Type} (x : StateM σ α) (f : α → StateM σ β) (state : σ) :
    (x >>= f) state = f (x state).1 (x state).2 :=
  rfl

theorem deliverUnit_apply (find : Resolver (StateM σ)) (unit : JavaUnit) (state : σ) :
    deliverUnit find unit state =
      match find unit.name state with
      | (.error failure, after) => (.error failure, after)
      | (.ok sink, after) => sink unit.text after := by
  rw [deliverUnit, bind_apply]
  rcases find unit.name state with ⟨failure | sink, after⟩ <;> rfl

theorem deliver_cons_apply (c : Compilation) (find : Resolver (StateM σ)) (unit : Located JavaUnit)
    (units : List (Located JavaUnit)) (state : σ) :
    deliver c find (unit :: units) state =
      match deliverUnit find unit.value state with
      | (.error failure, after) => (.error (undelivered c unit failure), after)
      | (.ok (), after) => deliver c find units after := by
  rw [deliver, bind_apply]
  rcases deliverUnit find unit.value state with ⟨failure | ⟨⟩, after⟩ <;> rfl

/-- A resolver does what another one does, and records how each unit fares. -/
def Records (sight : Sight) (find : Resolver (StateM σ))
    (recorded : Resolver (StateM (σ × List Contact))) : Prop :=
  ∀ unit state log, ∃ outcome after contacts, deliverUnit find unit state = (outcome, after) ∧
    deliverUnit recorded unit (state, log) = (outcome, after, log ++ contacts) ∧
    sight.Shows unit contacts outcome

theorem records_resolver (find : Resolver (StateM σ)) :
    Records .resolver find find.recorded := by
  intro unit state log
  simp only [deliverUnit_apply, Resolver.recorded]
  rcases find unit.name state with ⟨failure | sink, found⟩
  · exact ⟨.error failure, found, _, rfl, rfl, .inl rfl⟩
  · simp only [Sink.recorded]
    rcases sink unit.text found with ⟨outcome, after⟩
    refine ⟨outcome, after,
      [.request unit.name (.ok ()), .write (some unit.name) unit.text outcome], rfl, by simp, ?_⟩
    rcases outcome with failure | ⟨⟩
    · exact .inr rfl
    · rfl

theorem records_sink (sink : Sink (StateM σ)) :
    Records .sink (fun _ => pure (.ok sink)) fun _ => pure (.ok (sink.recorded none)) := by
  intro unit state log
  rcases hwrite : sink unit.text state with ⟨outcome, after⟩
  have hrecorded : sink.recorded none unit.text (state, log) =
      (outcome, after, log ++ [.write none unit.text outcome]) := by
    rw [Sink.recorded, hwrite]
  refine ⟨outcome, after, [.write none unit.text outcome], hwrite, hrecorded, ?_⟩
  rcases outcome with failure | ⟨⟩ <;> rfl

/-- Units are delivered to a resolver that records as they are to the one that it records, and what
it records shows how they fared. -/
theorem Records.deliver {sight : Sight} {find : Resolver (StateM σ)}
    {recorded : Resolver (StateM (σ × List Contact))} (h : Records sight find recorded)
    (c : Compilation) (units : List (Located JavaUnit)) (state : σ) (log : List Contact) :
    ∃ result after contacts, EoJava.deliver c find units state = (result, after) ∧
      EoJava.deliver c recorded units (state, log) = (result, after, log ++ contacts) ∧
      sight.Delivery c units contacts result := by
  -- Later units start in the state and with the record that the first one leaves.
  induction units generalizing state log with
  | nil => exact ⟨.ok (), state, [], rfl, by rw [List.append_nil]; rfl, .complete⟩
  | cons unit units ih =>
      rw [deliver_cons_apply, deliver_cons_apply]
      obtain ⟨outcome, found, first, hplain, hrecorded, hshows⟩ := h unit.value state log
      rw [hplain, hrecorded]
      rcases outcome with failure | ⟨⟩
      · exact ⟨_, found, first, rfl, rfl, .ended (List.nil_append _).symm hshows⟩
      · obtain rfl : first = sight.taken unit.value := hshows
        obtain ⟨result, after, contacts, hrest, hlater, hdelivery⟩ :=
          ih found (log ++ sight.taken unit.value)
        refine ⟨result, after, sight.taken unit.value ++ contacts, hrest, ?_, hdelivery.cons unit⟩
        rw [← List.append_assoc]
        exact hlater

end EoJava
