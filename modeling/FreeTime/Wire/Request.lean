-- Requests, filters, policies and answers as JSON.
import FreeTime.Compute
import FreeTime.Wire.Time

namespace FreeTime.Wire

/-! ## Names -/

def writeMatchMode : MatchMode → Json
  | .any => .text "or"
  | .all => .text "and"

/-- A match mode by its one name. -/
def readMatchMode : Reader MatchMode := named fun s =>
  if s = "or" then some .any else if s = "and" then some .all else none

def writeScope : AncestorScope → Json
  | .anyAncestor => .text "any_ancestor"
  | .directParent => .text "direct_parent"
  | .nearestOfType => .text "nearest_of_type"

/-- A scope by its one name; the other spelling belongs to requests. -/
def readScope : Reader AncestorScope := named fun s =>
  if s = "any_ancestor" then some .anyAncestor
  else if s = "direct_parent" then some .directParent
  else if s = "nearest_of_type" then some .nearestOfType
  else none

def writeAncestorMode : AncestorMode → Json
  | .perGroup => .text "per_group"
  | .global => .text "global"

/-- An ancestor mode by its one name; the other spelling belongs to requests. -/
def readAncestorMode : Reader AncestorMode := named fun s =>
  if s = "per_group" then some .perGroup else if s = "global" then some .global else none

/-! ## Selections, policies and filters -/

def readSelection : Reader Selection :=
  record <| Selection.mk <$> required "required" ids <*> required "or_groups" (list ids)

def writeSelection (s : Selection) : Json :=
  .object [("required", writeIds s.required), ("or_groups", writeList writeIds s.groups)]

def readPolicy : Reader Policy :=
  record <| Policy.mk
    <$> required "supported_kinds" (list readRuleKind)
    <*> required "capacity_aware" flag
    <*> required "merge_by_exact_resource_set" flag

/-- A policy by the kinds it supports and its two choices. -/
def writePolicy (p : Policy) : Json :=
  .object [("supported_kinds", writeList writeRuleKind p.kinds),
    ("capacity_aware", .bool p.capacityAware),
    ("merge_by_exact_resource_set", .bool p.exactSets)]

def readPropertyFilter : Reader PropertyFilter :=
  record <| PropertyFilter.mk
    <$> required "property_ids" ids
    <*> withDefault "include_descendants" false flag

def writePropertyFilter (f : PropertyFilter) : Json :=
  .object [("property_ids", writeIds f.properties), ("include_descendants", .bool f.descendants)]

/-- An ancestor filter. Every member has to be there. -/
def readAncestorFilter : Reader AncestorFilter :=
  record <| AncestorFilter.mk
    <$> required "resource_type_id" int
    <*> required "property_ids" ids
    <*> required "include_descendants" flag
    <*> required "match_mode" readMatchMode
    <*> required "scope" readScope
    <*> required "match_all_ancestors" flag

def writeAncestorFilter (f : AncestorFilter) : Json :=
  .object [("resource_type_id", .int f.type), ("property_ids", writeIds f.properties),
    ("include_descendants", .bool f.descendants), ("match_mode", writeMatchMode f.mode),
    ("scope", writeScope f.scope), ("match_all_ancestors", .bool f.everyAncestor)]

/-! ## Requests -/

/-- How ancestors join. The mode is any string here; its name is checked later. -/
def readAncestorOptions : Reader AncestorOptions :=
  record <| AncestorOptions.mk
    <$> withDefault "mode" "per_group" text
    <*> withDefault "relation_types" none (optional ids)

/-- How ancestors join, and over which relations; null for all of them. -/
def writeAncestorOptions (o : AncestorOptions) : Json :=
  .object [("mode", .text o.mode), ("relation_types", writeOption writeIds o.relationTypes)]

/-- An ancestor filter of a request. Its modes are any strings here. -/
def readAncestorFilterRequest : Reader AncestorFilterRequest :=
  record <| AncestorFilterRequest.mk
    <$> required "resource_type_id" int
    <*> required "property_ids" ids
    <*> withDefault "include_descendants" false flag
    <*> withDefault "match_mode" "or" text
    <*> withDefault "scope" "any_ancestor" text
    <*> withDefault "match_all_ancestors" false flag

def writeAncestorFilterRequest (f : AncestorFilterRequest) : Json :=
  .object [("resource_type_id", .int f.type), ("property_ids", writeIds f.properties),
    ("include_descendants", .bool f.descendants), ("match_mode", .text f.mode),
    ("scope", .text f.scope), ("match_all_ancestors", .bool f.everyAncestor)]

/-- A request. Only its two dates have to be there. -/
def readRequest : Reader Request :=
  record <| Request.mk
    <$> required "from" readDate
    <*> required "to" readDate
    <*> withDefault "resource_ids" [] ids
    <*> withDefault "or_groups" [] (list ids)
    <*> withDefault "property_filter" none (optional readPropertyFilter)
    <*> withDefault "ancestors" none (optional readAncestorOptions)
    <*> withDefault "ancestor_property_filters" [] (list readAncestorFilterRequest)
    <*> withDefault "slot_duration_minutes" none (optional int)
    <*> withDefault "include_partial_tail" false flag
    <*> withDefault "explain" false flag

/-- A request with all its members; those that it does without are null. -/
def writeRequest (r : Request) : Json :=
  .object [("from", writeDate r.first), ("to", writeDate r.last),
    ("resource_ids", writeIds r.resources), ("or_groups", writeList writeIds r.groups),
    ("property_filter", writeOption writePropertyFilter r.propertyFilter),
    ("ancestors", writeOption writeAncestorOptions r.ancestors),
    ("ancestor_property_filters", writeList writeAncestorFilterRequest r.ancestorFilters),
    ("slot_duration_minutes", writeOption Json.int r.slotMinutes),
    ("include_partial_tail", .bool r.keepsTail), ("explain", .bool r.explain)]

/-! ## Answers -/

/-- The reasons that an explanation can have. -/
def reasons : List EmptyReason :=
  [.noPositiveRule, .fullyBlockedByBusy, .fullyBlockedByNegativeRule, .partiallyBlocked,
    .emptySelection]

def readReason : Reader EmptyReason := named fun s => reasons.find? (·.label = s)

def readExplanation : Reader Explanation :=
  record <| Explanation.mk
    <$> required "reason" readReason
    <*> required "resource_ids" ids
    <*> required "message" text

def writeExplanation (e : Explanation) : Json :=
  .object [("reason", .text e.reason.label), ("resource_ids", writeIds e.resources),
    ("message", .text e.message)]

/-- An answer. Without explanations their member is left out. -/
def writeAnswer (a : Answer) : Json :=
  let slots := ("slots", writeList writeSlot a.slots)
  if a.explanations.isEmpty then .object [slots]
  else .object [slots, ("explanations", writeList writeExplanation a.explanations)]

end FreeTime.Wire
