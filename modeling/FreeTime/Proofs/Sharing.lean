-- The laws of sharing a cache. A run asks for the free time of one resource, of several together, or
-- of a whole selection, and every call may use what the calls before it left in the cache, also
-- those that failed or stopped early. None of it shows.
import FreeTime.Proofs.Plans

namespace FreeTime

namespace Setting

/-! ## Calls -/

/-- What solving is asked for with a cache at hand. -/
inductive Call where
  | free (id : Int)
  | meet (ids : List Int)
  | solve (selection : Selection) (tag : IdSet)
deriving DecidableEq

inductive Reply where
  | slots (slots : List Slot)
  | running (slots : Option (List Slot))
deriving DecidableEq

def perform (s : Setting) : Call → Solving Reply
  | .free id => return .slots (← s.free id)
  | .meet ids => return .running (← s.meet none ids)
  | .solve selection tag => return .slots (← s.solve selection tag)

/-- The replies to calls that are made one after another with one cache, and what the cache holds
in the end. A call that fails leaves what it cached. -/
def performAll (s : Setting) : Cache → List Call → List (Except NoAnswer Reply) × Cache
  | cache, [] => ([], cache)
  | cache, call :: calls =>
    let (reply, after) := runFrom (s.perform call) cache
    let (replies, last) := s.performAll after calls
    (reply :: replies, last)

variable {s : Setting}

/-! ## One call -/

/-- Every call gives what it gives afresh, and leaves a sound cache behind. -/
theorem steady_perform (call : Call) : s.Steady (s.perform call) := by
  cases call with
  | free id => exact steady_bind (s.steady_free id) fun _ => steady_pure _
  | meet ids => exact steady_bind (steady_meet none ids) fun _ => steady_pure _
  | solve selection tag => exact steady_bind (steady_solve selection tag) fun _ => steady_pure _

/-- A sound cache holds nothing of a resource with a rule that is not accepted. -/
theorem accepts_of_sound {cache : Cache} (h : s.Sound cache) {entry : Int × List Slot}
    (hmem : entry ∈ cache) : s.Accepts entry.1 := by
  have hfound : (cache.lookup entry.1).isSome :=
    List.lookup_isSome_iff.mpr ⟨entry, hmem, beq_self_eq_true _⟩
  obtain ⟨slots, hslots⟩ := Option.isSome_iff_exists.mp hfound
  obtain ⟨i, hi, _⟩ := ownSlots_eq_ok (h entry.1 slots hslots)
  exact (intervals_eq_ok hi).1

/-! ## Calls in a row -/

/-- Whatever sound cache the calls start from, each of them gives what it gives afresh, and the
cache stays sound. -/
theorem performAll_sound (calls : List Call) {cache : Cache} (h : s.Sound cache) :
    (s.performAll cache calls).1 = calls.map (fun call => (s.perform call).fresh) ∧
      s.Sound (s.performAll cache calls).2 := by
  induction calls generalizing cache with
  | nil => exact ⟨rfl, h⟩
  | cons call calls ih =>
    obtain ⟨hreply, hafter⟩ := steady_perform call cache h
    obtain ⟨hreplies, hlast⟩ := ih hafter
    refine ⟨?_, hlast⟩
    rw [List.map_cons, ← hreply, ← hreplies]
    rfl

/-! ## The laws -/

/-- Calls that share a cache, in any order and of any number, each give exactly the slots or the
error that they give with a cache of their own. At no time does the cache hold a resource with a
rule of a kind that the policy does not accept, so a resource that is found there need not be
checked again. -/
theorem a_shared_cache_never_shows (s : Setting) (calls : List Call) :
    (s.performAll [] calls).1 = calls.map (fun call => (s.perform call).fresh) ∧
      ∀ entry ∈ (s.performAll [] calls).2, ∀ r ∈ s.inputs.rules entry.1,
        s.policy.supports r.kind := by
  obtain ⟨hreplies, hsound⟩ := performAll_sound calls s.sound_nil
  refine ⟨hreplies, ?_⟩
  intro entry hentry r hr
  have haccepts := accepts_of_sound hsound hentry
  simpa using List.find?_eq_none.mp haccepts r hr

-- A call that fails at the second resource leaves the first one in the cache, for the last call.
example :
    let monthly : Rule := { Sample.openRule with id := 2, kind := .monthly, resources := [3] }
    let mixed : Setting := ⟨.restricted, Sample.day, .ofLists [Sample.openRule, monthly] [] []⟩
    let slots : List Slot := [⟨⟨1741770000000, 1741791600000⟩, .ofList [1]⟩]
    mixed.performAll [] [.meet [1, 3], .free 3, .free 1] =
      ([.error (.refused (.unsupportedKind 2 .monthly)),
        .error (.refused (.unsupportedKind 2 .monthly)),
        .ok (.slots slots)], [(1, slots)]) := by cbv

end Setting

end FreeTime
