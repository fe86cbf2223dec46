-- Selections: which resources have to be free together.
import FreeTime.IdSet

namespace FreeTime

/-- Every required resource has to be free, and of each group at least one. -/
@[ext] structure Selection where
  required : List Int
  groups : List (List Int)
deriving DecidableEq

namespace Selection

def isEmpty (s : Selection) : Bool := s.required.isEmpty && s.groups.isEmpty

def ids (s : Selection) : IdSet := IdSet.ofList (s.required ++ s.groups.flatten)

/-- The selection of the resources that pass a test, unless a group loses all its members or
nothing is left. -/
def retain (keep : Int → Bool) (s : Selection) : Option Selection :=
  let required := s.required.filter keep
  let groups := s.groups.map (·.filter keep)
  if groups.any List.isEmpty then none
  else if required.isEmpty && groups.isEmpty then none
  else some ⟨required, groups⟩

end Selection

end FreeTime
