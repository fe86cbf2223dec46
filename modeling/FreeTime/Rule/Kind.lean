-- The kinds of rules that make time available or take it away.

namespace FreeTime

inductive RuleKind where
  | weekly
  | singleDate
  | dateRange
  | monthly
  | repeating
deriving DecidableEq

namespace RuleKind

/-- Every kind, in the order of their codes. -/
def all : List RuleKind := [weekly, singleDate, dateRange, monthly, repeating]

/-- The number that stands for a kind. -/
def code : RuleKind → Nat
  | weekly => 1
  | singleDate => 2
  | dateRange => 3
  | monthly => 4
  | repeating => 5

def name : RuleKind → String
  | weekly => "weekly"
  | singleDate => "single_date"
  | dateRange => "date_range"
  | monthly => "monthly"
  | repeating => "repeating"

/-- The name of a kind with its number. -/
def label (kind : RuleKind) : String := kind.name ++ " (" ++ toString kind.code ++ ")"

end RuleKind

end FreeTime
