-- The command line: a file with a fixture and a request is read, and the answer is written.
import FreeTime.Json.Read
import FreeTime.Wire.Request
import FreeTime.Wire.Store

namespace FreeTime.CommandLine

open Wire

/-- Why a run ends without an answer. -/
inductive Failure where
  | unknownEngine (name : String)
  | noFile
  | unreadable
  | failed (cause : ComputeError)
  | panics
  | neverEnds

namespace Failure

def ofNoAnswer : NoAnswer → Failure
  | .refused cause => failed cause
  | .panics => panics
  | .neverEnds => neverEnds

def message : Failure → String
  | unknownEngine name =>
    "unknown SLOTWISE_ENGINE: " ++ name ++ " (expected full or restricted)"
  | noFile => "usage: slotwise <fixture.json>"
  | unreadable => "the file holds no fixture with a query"
  | failed cause => cause.message
  | panics => "panicked"
  | neverEnds => ""

/-- The number with which the program exits, if it does. -/
def exitCode? : Failure → Option Nat
  | panics => some 101
  | neverEnds => none
  | _ => some 1

end Failure

/-- The policy that the environment names; the full one when it names none. -/
def policyOf (engine : Option String) : Except Failure Policy :=
  match engine with
  | none => .ok .full
  | some name =>
    if name = "full" then .ok .full
    else if name = "restricted" then .ok .restricted
    else .error (.unknownEngine name)

/-- How deep the members beside the query may be nested. -/
def mostDepth : Nat := 126

/-- The members beside the query are kept aside before they are looked at, so each of them has
to be a value that can be kept. -/
def keepsMembers : Json → Bool
  | .object members => members.all fun m => m.1 = "query" || m.2.fitsWithin mostDepth
  | _ => false

/-- A fixture with a request beside its lists. -/
def readInput : Reader (Fixture × Request) :=
  record <| Prod.mk <$> fixtureFields <*> required "query" readRequest

/-- The fixture and the request that a text holds. -/
def inputOf? (fileText : String) : Option (Fixture × Request) := do
  let json ← Json.ofText? fileText
  if !keepsMembers json then none
  (readInput json).toOption

/-- The answer to the request that a text holds, under the policy that the environment names.
Without a text no file was named. -/
def run (engine : Option String) (fileText : Option String) : Except Failure Answer := do
  let policy ← policyOf engine
  let some fileText := fileText | throw .noFile
  let some (fixture, request) := inputOf? fileText | throw .unreadable
  match (request.compute policy (Store.ofFixture fixture).source).outcome.1 with
  | .ok answer => return answer
  | .error cause => throw (.ofNoAnswer cause)

end FreeTime.CommandLine
