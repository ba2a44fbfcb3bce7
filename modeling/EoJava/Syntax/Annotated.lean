import EoJava.Diagnostic.Problem
import EoJava.Text.Position

/-!
# Annotated nodes

A stage that fills in parts of a tree gives the node back together with its result. If it stops at
a problem, the parts that it had reached are filled in and the others are as they were.
-/

namespace EoJava

/-- A node with what a stage filled in, and the result of the stage. -/
structure Annotated (α β : Type) where
  node : α
  result : Except (Located Problem) β

namespace Annotated

variable {α β γ δ : Type}

/-- A node with nothing to fill in. -/
def done (node : α) (value : β) : Annotated α β :=
  ⟨node, .ok value⟩

/-- A node at which a stage stops. -/
def stop (node : α) (position : Position) (problem : Problem) : Annotated α β :=
  ⟨node, .error ⟨position, problem⟩⟩

/-- The same for a larger node and another result. -/
def map (rebuild : α → γ) (f : β → δ) (annotated : Annotated α β) : Annotated γ δ :=
  ⟨rebuild annotated.node, annotated.result.map f⟩

/-- Visits nodes in order. Nodes after a problem are not visited. -/
def visit (f : α → Annotated α β) : List α → Annotated (List α) (List β)
  | [] => done [] []
  | node :: nodes =>
    match f node with
    | ⟨node, .error problem⟩ => ⟨node :: nodes, .error problem⟩
    | ⟨node, .ok value⟩ => (visit f nodes).map (node :: ·) (value :: ·)

/-- Visits a node if there is one. -/
def visitOption (f : α → Annotated α β) : Option α → Annotated (Option α) (Option β)
  | none => done none none
  | some node => (f node).map some some

end Annotated

end EoJava
