import EoJava.Delivery.Stream
import Mathlib.Logic.Basic

/-!
# Runs of a stream

What becomes of a write to a stream is settled by what has happened to the stream before. A stream
recalls the error that it raised last, what it was first destroyed with, and whether it was ended,
whatever is done with it (`exists_run_recalling`). So in any run a write is refused if and only if
something else than a write came before it, and the chunks of the stream are the texts of the writes
that were not refused (`run_refuses`).
-/

namespace EoJava.Stream

/-! ## Steps -/

/-- What is done with a stream: its sink is written to, or something else happens to it. -/
inductive Step where
  | write (text : String)
  | event (event : Event)
deriving DecidableEq, Repr

namespace Step

/-- A step other than a write ends, destroys or fails the stream. -/
def closes : Step → Bool
  | write _ => false
  | event _ => true

/-- The error that is raised, if one is. -/
def raised? : Step → Option CodedError
  | event (.raise error) => some error
  | _ => none

/-- What a stream is destroyed with, if it is destroyed: an error or none. -/
def destruction? : Step → Option (Option CodedError)
  | event (.destroy error?) => some error?
  | _ => none

end Step

/-- Takes a step. If it is a write that is refused, there is a failure. -/
def take (stream : Stream) : Step → Option CodedError × Stream
  | .write text =>
    match stream.write text with
    | .ok written => (none, written)
    | .error failure => (some failure, stream)
  | .event event => (none, stream.happen event)

/-- Takes steps one after another. Each has a failure or none. -/
def run (stream : Stream) : List Step → List (Option CodedError) × Stream
  | [] => ([], stream)
  | step :: steps =>
    let (failure?, after) := stream.take step
    let (failures, last) := after.run steps
    (failure? :: failures, last)

/-- The texts of the writes that were not refused. -/
def accepted (steps : List Step) (failures : List (Option CodedError)) : List String :=
  (steps.zip failures).filterMap fun
    | (.write text, none) => some text
    | _ => none

/-- The error that was raised last. -/
def lastRaised? (before : List Step) : Option CodedError :=
  before.reverse.findSome? Step.raised?

/-- What the stream was first destroyed with. -/
def firstDestruction? (before : List Step) : Option (Option CodedError) :=
  before.findSome? Step.destruction?

/-- The error with which a write is refused after some steps: the error that was raised last; or
else the one that the stream was first destroyed with; or else, if the stream was closed at all,
that it takes no more. -/
inductive Refuses (before : List Step) : CodedError → Prop where
  | raised {error : CodedError} (h : lastRaised? before = some error) : Refuses before error
  | destroyed {error : CodedError} (hraised : lastRaised? before = none)
      (h : firstDestruction? before = some (some error)) : Refuses before error
  | closed (hraised : lastRaised? before = none)
      (hdestroyed : ∀ error, firstDestruction? before ≠ some (some error))
      (h : ∃ step ∈ before, step.closes) :
    Refuses before { message := "stream is no longer writable" }

variable {before : List Step}

/-! ## What a stream recalls -/

@[simp]
theorem lastRaised?_concat (before : List Step) (step : Step) :
    lastRaised? (before ++ [step]) = step.raised?.or (lastRaised? before) := by
  simp only [lastRaised?, List.reverse_append, List.reverse_singleton, List.singleton_append,
    List.findSome?_cons]
  cases step.raised? <;> rfl

@[simp]
theorem firstDestruction?_concat (before : List Step) (step : Step) :
    firstDestruction? (before ++ [step]) = (firstDestruction? before).or step.destruction? := by
  simp only [firstDestruction?, List.findSome?_append, List.findSome?_cons, List.findSome?_nil]
  cases step.destruction? <;> rfl

/-- A stream to which some steps have happened, and its chunks. -/
def recalling (chunks : List String) (before : List Step) : Stream where
  chunks
  ended := .event .finish ∈ before
  destroyed := (firstDestruction? before).isSome
  destroyedWith := (firstDestruction? before).join
  raised := lastRaised? before

/-- A write changes nothing but the chunks. -/
theorem take_write (stream : Stream) (text : String) :
    ∃ chunks, (stream.take (.write text)).2 = { stream with chunks } := by
  simp only [take, write]
  cases stream.failure? with
  | none => exact ⟨_, rfl⟩
  | some failure => exact ⟨stream.chunks, rfl⟩

/-- After an event a stream recalls the event as well. -/
theorem happen_recalling (chunks : List String) (before : List Step) (event : Event) :
    (recalling chunks before).happen event = recalling chunks (before ++ [.event event]) := by
  cases event with
  | finish => simp [recalling, happen, Step.raised?, Step.destruction?]
  | destroy error? =>
      -- Only the first destruction counts.
      cases hfirst : firstDestruction? before with
      | none => simp [recalling, happen, hfirst, Step.raised?, Step.destruction?]
      | some error => simp [recalling, happen, hfirst, Step.raised?]
  | raise error => simp [recalling, happen, Step.raised?, Step.destruction?]

/-- After a step a stream recalls the step as well. -/
theorem exists_take_recalling (chunks : List String) (before : List Step) (step : Step) :
    ∃ more, ((recalling chunks before).take step).2 = recalling more (before ++ [step]) := by
  cases step with
  | write text =>
      obtain ⟨more, hmore⟩ := take_write (recalling chunks before) text
      refine ⟨more, hmore.trans ?_⟩
      simp [recalling, Step.raised?, Step.destruction?]
  | event event => exact ⟨chunks, happen_recalling chunks before event⟩

/-- In a run a stream recalls all steps. -/
theorem exists_run_recalling (chunks : List String) (before steps : List Step) :
    ∃ more, ((recalling chunks before).run steps).2 = recalling more (before ++ steps) := by
  induction steps generalizing chunks before with
  | nil => exact ⟨chunks, by simp [run]⟩
  | cons step steps ih =>
      obtain ⟨taken, htaken⟩ := exists_take_recalling chunks before step
      obtain ⟨more, hmore⟩ := ih taken (before ++ [step])
      refine ⟨more, ?_⟩
      show (((recalling chunks before).take step).2.run steps).2 = _
      rw [htaken, hmore, List.append_assoc, List.singleton_append]

/-! ## Failures -/

theorem lastRaised?_ne_none_iff :
    lastRaised? before ≠ none ↔ ∃ step ∈ before, step.raised? ≠ none := by
  simp [lastRaised?, List.findSome?_eq_none_iff]

theorem firstDestruction?_ne_none_iff :
    firstDestruction? before ≠ none ↔ ∃ step ∈ before, step.destruction? ≠ none := by
  simp [firstDestruction?, List.findSome?_eq_none_iff]

/-- A step other than a write raises an error, destroys the stream or ends it. -/
theorem Step.closes_iff (step : Step) : step.closes ↔
    step.raised? ≠ none ∨ step.destruction? ≠ none ∨ step = .event .finish := by
  obtain text | (_ | error? | error) := step <;> simp [closes, raised?, destruction?]

/-- Something else than a write has happened if an error, a destruction or an end is recalled. -/
theorem exists_closes_iff : (∃ step ∈ before, step.closes) ↔
    lastRaised? before ≠ none ∨ firstDestruction? before ≠ none ∨ .event .finish ∈ before := by
  rw [lastRaised?_ne_none_iff, firstDestruction?_ne_none_iff]
  simp only [Step.closes_iff, and_or_left, exists_or, exists_eq_right]

/-- If something else than a write has happened, there is a failure to refuse a write with. -/
theorem exists_refuses (h : ∃ step ∈ before, step.closes) : ∃ failure, Refuses before failure := by
  cases hraised : lastRaised? before with
  | some error => exact ⟨error, .raised hraised⟩
  | none =>
      by_cases hdestroyed : ∃ error, firstDestruction? before = some (some error)
      · obtain ⟨error, herror⟩ := hdestroyed
        exact ⟨error, .destroyed hraised herror⟩
      · exact ⟨_, .closed hraised (fun error herror => hdestroyed ⟨error, herror⟩) h⟩

/-- That failure is the one of the stream. -/
theorem failure?_of_refuses {failure : CodedError} (h : Refuses before failure)
    (chunks : List String) : (recalling chunks before).failure? = some failure := by
  cases h with
  | raised h => simp [failure?, recalling, h]
  | destroyed hraised h => simp [failure?, recalling, hraised, h]
  | closed hraised hdestroyed h =>
      rw [exists_closes_iff, or_iff_right (not_not_intro hraised)] at h
      cases hfirst : firstDestruction? before with
      | none =>
          rw [hfirst, or_iff_right (not_not_intro rfl)] at h
          simp [failure?, recalling, hraised, hfirst, h]
      | some error? =>
          cases error? with
          | none => simp [failure?, recalling, hraised, hfirst]
          | some error => exact absurd hfirst (hdestroyed error)

/-- A stream to which nothing but writes has happened has no failure. -/
theorem failure?_of_writes (h : ¬∃ step ∈ before, step.closes) (chunks : List String) :
    (recalling chunks before).failure? = none := by
  simp only [exists_closes_iff, ne_eq, not_or, not_not] at h
  obtain ⟨hraised, hdestroyed, hended⟩ := h
  simp [failure?, recalling, hraised, hdestroyed, hended]

/-! ## Runs -/

/-- A write fails if the stream has a failure, and with that. -/
theorem take_write_fst (stream : Stream) (text : String) :
    (stream.take (.write text)).1 = stream.failure? := by
  simp only [take, write]
  cases stream.failure? <;> rfl

theorem length_run (stream : Stream) (steps : List Step) :
    (stream.run steps).1.length = steps.length := by
  induction steps generalizing stream with
  | nil => rfl
  | cons step steps ih => exact congrArg (· + 1) (ih (stream.take step).2)

/-- A run that goes on is two runs. -/
theorem run_append (stream : Stream) (before later : List Step) :
    stream.run (before ++ later) = ((stream.run before).1 ++ ((stream.run before).2.run later).1,
      ((stream.run before).2.run later).2) := by
  induction before generalizing stream with
  | nil => rfl
  | cons step before ih => simp [run, ih]

/-- The failure of a step is that of the stream which the steps before it leave. -/
theorem getElem?_run (stream : Stream) (before later : List Step) (step : Step) :
    (stream.run (before ++ step :: later)).1[before.length]? =
      some ((stream.run before).2.take step).1 := by
  rw [run_append, ← length_run stream before, List.getElem?_append_right (Nat.le_refl _),
    Nat.sub_self]
  rfl

/-- A step adds the text of a write that is not refused. -/
theorem chunks_take (stream : Stream) (step : Step) :
    (stream.take step).2.chunks = stream.chunks ++ accepted [step] [(stream.take step).1] := by
  cases step with
  | write text =>
      simp only [take, write]
      cases stream.failure? <;> simp [accepted]
  | event event =>
      have hkept : (stream.happen event).chunks = stream.chunks := by
        unfold happen
        split
        · rfl
        · split <;> rfl
        · rfl
      simpa [take, accepted] using hkept

/-- A run adds the texts of the writes that are not refused. -/
theorem chunks_run (stream : Stream) (steps : List Step) :
    (stream.run steps).2.chunks = stream.chunks ++ accepted steps (stream.run steps).1 := by
  induction steps generalizing stream with
  | nil => simp [run, accepted]
  | cons step steps ih =>
      show ((stream.take step).2.run steps).2.chunks = _
      rw [ih, chunks_take, List.append_assoc]
      congr 1
      simp only [accepted, ← List.filterMap_append]
      rfl

/-- Whatever is done with a stream, its chunks are the texts of the writes that were not refused, in
order. A write is refused if and only if the stream was ended or destroyed or has failed before,
and then with the error that it raised last, or else the one that it was first destroyed with, or
else because it takes no more. -/
theorem run_refuses (chunks : List String) (steps : List Step) :
    let stream : Stream := { chunks }
    let failures := (stream.run steps).1
    failures.length = steps.length ∧
      (stream.run steps).2.chunks = chunks ++ accepted steps failures ∧
      ∀ before text later, steps = before ++ .write text :: later →
        ∃ failure?, failures[before.length]? = some failure? ∧
          (failure? ≠ none ↔ ∃ step ∈ before, step.closes) ∧
          ∀ failure ∈ failure?, Refuses before failure := by
  intro stream failures
  refine ⟨length_run stream steps, chunks_run stream steps, ?_⟩
  rintro before text later rfl
  obtain ⟨more, hmore⟩ := exists_run_recalling chunks [] before
  have hfailure : failures[before.length]? = some (recalling more before).failure? := by
    show (stream.run _).1[before.length]? = _
    rw [getElem?_run, take_write_fst]
    exact congrArg (fun after => some after.failure?) hmore
  refine ⟨_, hfailure, ?_⟩
  by_cases hcloses : ∃ step ∈ before, step.closes
  · obtain ⟨failure, hrefuses⟩ := exists_refuses hcloses
    rw [failure?_of_refuses hrefuses]
    refine ⟨iff_of_true (Option.some_ne_none _) hcloses, ?_⟩
    rintro _ ⟨⟩
    exact hrefuses
  · rw [failure?_of_writes hcloses]
    exact ⟨iff_of_false (not_not_intro rfl) hcloses, nofun⟩

/-- An error that is raised hides those that came before it, and a destruction the end. -/
example : (({} : Stream).run [.write "a", .event .finish, .write "b",
    .event (.destroy (some { message := "first" })), .event (.destroy none), .write "c",
    .event (.raise { message := "second" }), .write "d"]).1.map (·.map CodedError.message) =
      [none, none, some "stream is no longer writable", none, none, some "first", none,
        some "second"] := by
  decide

end EoJava.Stream
