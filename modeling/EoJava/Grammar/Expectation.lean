import EoJava.Text.Quoted

/-!
# Expectations

A frontier is the furthest place at which a match failed, with all that was expected there. What is
expected by a part that could also have been left out, because the match went on past it, is idle
and not shown. Later failures come first in the list, and an expectation that was already there
keeps only its new place.
-/

namespace EoJava.Grammar

/-- What the grammar could have gone on with: a fixed spelling, or something with a name. -/
inductive Expectation where
  | spelling (text : String)
  | thing (description : String)
deriving DecidableEq, Repr

namespace Expectation

/-- An expectation as it is shown. A spelling is quoted. -/
def describe : Expectation → String
  | .spelling text => String.ofList (Text.Quoted.quote text.toList)
  | .thing description => description

end Expectation

/-- An expectation at the frontier. -/
structure Wanted where
  what : Expectation
  idle : Bool
deriving DecidableEq, Repr

/-- The furthest failures of a match. -/
structure Frontier where
  offset : Nat
  wanted : List Wanted
deriving DecidableEq, Repr

namespace Frontier

/-- The frontier of a match without failures. -/
def clear : Frontier :=
  ⟨0, []⟩

/-- The frontier of one failure. -/
def single (offset : Nat) (what : Expectation) : Frontier :=
  ⟨offset, [⟨what, false⟩]⟩

/-- Puts later expectations before earlier ones. An expectation in both is idle only if it is idle
in both. -/
def mergeWanted (earlier later : List Wanted) : List Wanted :=
  let kept (w : Wanted) : Wanted :=
    ⟨w.what, w.idle && earlier.all fun e => e.what != w.what || e.idle⟩
  later.map kept ++ earlier.filter fun e => later.all fun w => w.what != e.what

/-- The frontier of a match after another. The further one stands. -/
def followedBy (earlier later : Frontier) : Frontier :=
  if later.offset < earlier.offset then earlier
  else if earlier.offset < later.offset then later
  else ⟨earlier.offset, mergeWanted earlier.wanted later.wanted⟩

/-- The frontier of a match that succeeded up to `reached`. What was expected just there was not
needed. -/
def settle (frontier : Frontier) (reached : Nat) : Frontier :=
  if frontier.offset = reached then
    ⟨frontier.offset, frontier.wanted.map fun w => ⟨w.what, true⟩⟩
  else frontier

/-- Items as a list in a sentence. -/
def enumerate : List String → String
  | [] => ""
  | [a] => a
  | [a, b] => a ++ " or " ++ b
  | items => ", ".intercalate items.dropLast ++ ", or " ++ (items.getLast?.getD "")

/-- What was expected at a frontier, as a sentence. -/
def describe (frontier : Frontier) : String :=
  let shown := frontier.wanted.filter fun w => !w.idle
  "expected " ++ enumerate (shown.map fun w => w.what.describe)

end Frontier

end EoJava.Grammar
