-- Resources, the parents they depend on, and the forest of properties they carry.

namespace FreeTime

/-- Something that can be booked, as often at a time as its capacity says. -/
structure Resource where
  id : Int
  type : Int
  capacity : Nat
deriving DecidableEq

/-- One resource stands above another one. -/
structure Relation where
  parent : Int
  child : Int
  type : Int
deriving DecidableEq

/-- A property, and the property above it if there is one. -/
structure PropertyNode where
  id : Int
  parent : Option Int
deriving DecidableEq

structure PropertyTag where
  resource : Int
  property : Int
deriving DecidableEq

/-- How several properties are asked for: one of them is enough, or all are needed. -/
inductive MatchMode where
  | any
  | all
deriving DecidableEq

end FreeTime
