-- Records: values with members that go by keys. Each member has a reader of its own. Of several
-- members that cannot be read, the one that stands first says why; a missing one stands last.
import FreeTime.Wire.Reader

namespace FreeTime.Wire

/-- The members of a record as they stand. They are named when the record is an object; when
it is a list, its items have their keys from the list's order alone. -/
structure Members where
  named : Bool
  entries : List (String × Json)

/-- The values under a key, each with its place. -/
def Members.under (m : Members) (key : String) : List (Nat × Json) :=
  m.entries.zipIdx.filterMap fun (entry, place) =>
    if entry.1 = key then some (place, entry.2) else none

/-- A place in a record that cannot be read, and why. -/
structure Fault where
  place : Nat
  error : ReadError
deriving DecidableEq

def Fault.first (a b : Fault) : Fault := if b.place < a.place then b else a

/-- A function and its argument, unless either has a fault. -/
def applied {α β : Type} : Except Fault (α → β) → Except Fault α → Except Fault β
  | .ok f, .ok a => .ok (f a)
  | .ok _, .error e => .error e
  | .error e, .ok _ => .error e
  | .error e, .error e' => .error (e.first e')

/-- Members of a record by their keys, and the value that is read from them. -/
structure Fields (α : Type) where
  keys : List String
  read : Members → Except Fault α

instance : Applicative Fields where
  pure a := ⟨[], fun _ => .ok a⟩
  seq f a := ⟨f.keys ++ (a ()).keys, fun m => applied (f.read m) ((a ()).read m)⟩

/-! ## One member -/

/-- A member is missing: the record is read to its end before that is known. -/
def missing {α : Type} (m : Members) : Except Fault α :=
  .error ⟨m.entries.length, .malformed⟩

/-- A member whose key stands once, or not at all. -/
def member {α : Type} (key : String) (absent : Members → Except Fault α) (read : Reader α) :
    Fields α where
  keys := [key]
  read m :=
    match m.under key with
    | [] => absent m
    | (place, value) :: others =>
      match read value, others with
      | .error e, _ => .error ⟨place, e⟩
      | .ok a, [] => .ok a
      | .ok _, (again, _) :: _ => .error ⟨again, .malformed⟩

def required {α : Type} (key : String) (read : Reader α) : Fields α := member key missing read

/-- A member that may be missing. -/
def withDefault {α : Type} (key : String) (default : α) (read : Reader α) : Fields α :=
  member key (fun _ => .ok default) read

/-- A member that may be missing from an object, or be null. In a list it keeps its place. -/
def optionalMember {α : Type} (key : String) (read : Reader α) : Fields (Option α) :=
  member key (fun m => if m.named then .ok none else missing m) (optional read)

/-! ## Whole records -/

/-- What was read, or why it could not be. -/
def outcome {α : Type} (m : Except Fault α) : Except ReadError α := m.mapError Fault.error

/-- A record: an object, whose further members do not matter, or the list of its members'
values in the order of the keys, where those that may be missing may be left off at the end. -/
def record {α : Type} (fields : Fields α) : Reader α
  | .object entries => outcome (fields.read ⟨true, entries⟩)
  | .array items => do
    let value ← outcome (fields.read ⟨false, fields.keys.zip items⟩)
    if items.length ≤ fields.keys.length then return value else throw .malformed
  | _ => .error .malformed

/-! ## Small laws -/

theorem applied_eq_ok {α β : Type} {f : Except Fault (α → β)} {a : Except Fault α} {b : β} :
    applied f a = .ok b ↔ ∃ g x, f = .ok g ∧ a = .ok x ∧ g x = b := by
  cases f <;> cases a <;> simp [applied]

theorem read_seq {α β : Type} (f : Fields (α → β)) (a : Fields α) (m : Members) :
    (f <*> a).read m = applied (f.read m) (a.read m) := rfl

theorem read_map {α β : Type} (f : α → β) (a : Fields α) (m : Members) :
    (f <$> a).read m = applied (.ok f) (a.read m) := rfl

/-- A key that stands once is read at its place. -/
theorem read_member {α : Type} {key : String} {absent : Members → Except Fault α}
    {read : Reader α} {m : Members} {place : Nat} {value : Json}
    (h : m.under key = [(place, value)]) :
    (member key absent read).read m = (read value).mapError (⟨place, ·⟩) := by
  simp only [member, h]
  cases read value <;> rfl

end FreeTime.Wire
