-- What can go wrong. An error is kept as its cause; the wording is made in one place. A program may
-- also give no answer at all: it panics, or it never ends.
import FreeTime.Calendar.Text
import FreeTime.Rule.Kind

namespace FreeTime

/-- Why a value or a request is refused. -/
inductive RequestError where
  | periodOrder (first last : Date)
  | periodTooLong (days most : Int)
  | timeOrder (start stop : TimeOfDay)
  | notATime (text : String)
  | eventOrder (id : Int)
  | hourOutOfRange (hour : Nat)
  | noResources
  | tooManyResources (count most : Nat)
  | nonPositiveId (id : Int)
  | emptyGroup (index : Nat)
  | tooManyGroups (count most : Nat)
  | groupTooLarge (index count most : Nat)
  | noProperties
  | tooManyProperties (count most : Nat)
  | tooManyAncestorFilters (count most : Nat)
  | unknownAncestorMode (name : String)
  | unknownMatchMode (name : String)
  | unknownScope (name : String)
  | slotDuration (got least most : Int)
deriving DecidableEq

namespace RequestError

def message : RequestError → String
  | periodOrder first last =>
    "period starts after it ends: " ++ first.text ++ " > " ++ last.text
  | periodTooLong days most => s!"period spans {days} days; at most {most} allowed"
  | timeOrder start stop =>
    "time range must have start before end: " ++ start.text ++ " >= " ++ stop.text
  | notATime text => "not a time of day: " ++ text
  | eventOrder id => s!"busy event {id} must start before it ends"
  | hourOutOfRange hour => s!"hour out of range: {hour}"
  | noResources => "no resources selected"
  | tooManyResources count most => s!"too many resource ids: {count} (max {most})"
  | nonPositiveId id => s!"resource id must be positive: {id}"
  | emptyGroup index => s!"OR-group {index} is empty"
  | tooManyGroups count most => s!"too many OR-groups: {count} (max {most})"
  | groupTooLarge index count most => s!"OR-group {index} has {count} members (max {most})"
  | noProperties => "property filter needs at least one property id"
  | tooManyProperties count most => s!"too many property ids: {count} (max {most})"
  | tooManyAncestorFilters count most =>
    s!"too many ancestor property filters: {count} (max {most})"
  | unknownAncestorMode name => "unknown ancestor mode: " ++ name
  | unknownMatchMode name => "unknown match mode: " ++ name
  | unknownScope name => "unknown ancestor scope: " ++ name
  | slotDuration got least most =>
    s!"slot duration must be between {least} and {most} minutes, got {got}"

end RequestError

/-- Why a computation fails. -/
inductive ComputeError where
  | invalid (cause : RequestError)
  | unsupportedKind (rule : Int) (kind : RuleKind)
  | source (text : String)
deriving DecidableEq

namespace ComputeError

def message : ComputeError → String
  | invalid cause => "invalid request: " ++ cause.message
  | unsupportedKind rule kind => s!"rule {rule}: unsupported rule kind " ++ kind.label
  | source text => "data source error: " ++ text

/-- The short name under which a failure is counted. -/
def label : ComputeError → String
  | invalid _ => "invalid"
  | unsupportedKind _ _ => "unsupported_rule_kind"
  | source _ => "source_error"

end ComputeError

/-- Why there is no answer: the computation is refused, a check that the program makes of itself
fails and it panics, or it never ends. The program is the one that its tests are run on: it checks
its assertions, and that sums of instants fit into 64 bits. -/
inductive NoAnswer where
  | refused (cause : ComputeError)
  | panics
  | neverEnds
deriving DecidableEq

end FreeTime
