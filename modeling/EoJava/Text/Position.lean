/-!
# Positions in a source

Lines and columns count from one. They are integers, because positions also come from callers, who
may name a place that no source has.
-/

namespace EoJava

/-- A line and a column of a source. -/
structure Position where
  line : Int
  column : Int
deriving DecidableEq, Repr

/-- A value that belongs to a place in a source. -/
structure Located (α : Type) where
  position : Position
  value : α
deriving DecidableEq, Repr

end EoJava
