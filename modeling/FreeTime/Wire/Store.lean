-- Resources, properties and whole fixtures as JSON.
import FreeTime.Store
import FreeTime.Wire.Time

namespace FreeTime.Wire

/-! ## Resources and properties -/

/-- A resource. Without a capacity it takes one booking at a time. -/
def readResource : Reader Resource :=
  record <| Resource.mk
    <$> required "id" int
    <*> required "type_id" int
    <*> withDefault "capacity" 1 count

def writeResource (r : Resource) : Json :=
  .object [("id", .int r.id), ("type_id", .int r.type), ("capacity", writeNat r.capacity)]

def readRelation : Reader Relation :=
  record <| Relation.mk
    <$> required "parent_id" int
    <*> required "child_id" int
    <*> required "relation_type" int

def writeRelation (r : Relation) : Json :=
  .object [("parent_id", .int r.parent), ("child_id", .int r.child),
    ("relation_type", .int r.type)]

/-- A property and the one above it, if there is one. -/
def readPropertyNode : Reader PropertyNode :=
  record <| PropertyNode.mk <$> required "id" int <*> optionalMember "parent_id" int

/-- A property and the one above it; null when it stands at the top. -/
def writePropertyNode (n : PropertyNode) : Json :=
  .object [("id", .int n.id), ("parent_id", writeOption Json.int n.parent)]

def readPropertyTag : Reader PropertyTag :=
  record <| PropertyTag.mk <$> required "resource_id" int <*> required "property_id" int

def writePropertyTag (t : PropertyTag) : Json :=
  .object [("resource_id", .int t.resource), ("property_id", .int t.property)]

/-! ## Fixtures -/

/-- The lists of a fixture. Each of them may be missing. -/
def fixtureFields : Fields Fixture :=
  Fixture.mk
    <$> withDefault "resources" [] (list readResource)
    <*> withDefault "rules" [] (list readRule)
    <*> withDefault "busy_events" [] (list readBusyEvent)
    <*> withDefault "relations" [] (list readRelation)
    <*> withDefault "properties" [] (list readPropertyNode)
    <*> withDefault "resource_properties" [] (list readPropertyTag)

def readFixture : Reader Fixture := record fixtureFields

def writeFixture (f : Fixture) : Json :=
  .object [("resources", writeList writeResource f.resources),
    ("rules", writeList writeRule f.rules),
    ("busy_events", writeList writeBusyEvent f.busyEvents),
    ("relations", writeList writeRelation f.relations),
    ("properties", writeList writePropertyNode f.properties),
    ("resource_properties", writeList writePropertyTag f.tags)]

end FreeTime.Wire
