-- The laws of remembering. A hierarchy keeps the ancestors that it works out, from one question to
-- the next; whatever was asked before, each question is answered as if nothing were kept.
import FreeTime.Proofs.Passing

namespace FreeTime

namespace Ancestry

open Reach (Path)

/-! ## Questions -/

/-- What a hierarchy is asked: for ancestors, or who passes a filter by them. -/
inductive Question where
  | ancestors (id : Int)
  | closure (ids : List Int)
  | eligible (id : Int) (filter : AncestorFilter)
  | passes (filter : ResolvedFilter) (id : Int)
  | retainPassing (filters : List ResolvedFilter) (ids : List Int)
deriving DecidableEq

inductive Reply where
  | set (ids : IdSet)
  | verdict (passed : Bool)
  | list (ids : List Int)
deriving DecidableEq

variable {g : Ancestry}

def reply (g : Ancestry) : Question → Walking Reply
  | .ancestors id => return .set (← g.ancestors id)
  | .closure ids => return .set (← g.closure ids)
  | .eligible id filter => return .set (← g.eligible id filter)
  | .passes filter id => return .verdict (← g.passes filter id)
  | .retainPassing filters ids => return .list (← g.retainPassing filters ids)

/-- The replies to questions that are asked one after another, each with what the earlier ones
left behind. -/
def replies (g : Ancestry) (questions : List Question) : List Reply :=
  ((questions.mapM g.reply).run []).1

/-- The reply to a question that is asked first of all. -/
def firstReply (g : Ancestry) (question : Question) : Reply := ((g.reply question).run []).1

/-! ## One question -/

/-- The reply to a question, worked out with nothing kept. -/
def replyOf (g : Ancestry) : Question → Reply
  | .ancestors id => .set (g.above id)
  | .closure ids => .set (g.aboveAny ids)
  | .eligible id filter => .set (g.eligibleOf id filter)
  | .passes filter id => .verdict (g.admits filter id)
  | .retainPassing filters ids => .list (ids.filter fun id => filters.all fun f => g.admits f id)

/-- Every question is answered alike whatever is kept, and leaves only exact closures behind. -/
theorem settled_reply (g : Ancestry) (question : Question) :
    g.Settled (g.reply question) (g.replyOf question) := by
  cases question with
  | ancestors id => exact settled_bind (g.settled_ancestors id) (g.settled_pure _)
  | closure ids => exact settled_bind (g.settled_closure ids) (g.settled_pure _)
  | eligible id filter => exact settled_bind (g.settled_eligible id filter) (g.settled_pure _)
  | passes filter id => exact settled_bind (g.settled_passes filter id) (g.settled_pure _)
  | retainPassing filters ids =>
    exact settled_bind (g.settled_retainPassing filters ids) (g.settled_pure _)

theorem firstReply_eq (g : Ancestry) (question : Question) :
    g.firstReply question = g.replyOf question :=
  (g.settled_reply question [] g.exact_nil).1

/-! ## Questions in a row -/

theorem replies_eq (g : Ancestry) (questions : List Question) :
    g.replies questions = questions.map g.replyOf :=
  (settled_mapM questions (fun question _ => g.settled_reply question) [] g.exact_nil).1

/-! ## The laws -/

/-- Questions that are asked in a row, in any order and as often as one likes, are each answered as
if they were the first. So wherever the ancestors of a resource are asked for, the reply holds
all that is reached by going up once or more, without the resource itself: diamonds, cycles and
resources that are their own parents make no difference. -/
theorem what_is_kept_never_shows (g : Ancestry) (questions : List Question) :
    g.replies questions = questions.map g.firstReply ∧
      ∀ (i : Nat) (id : Int), questions[i]? = some (.ancestors id) →
        ∃ above, (g.replies questions)[i]? = some (.set above) ∧
          ∀ x, x ∈ above ↔ x ≠ id ∧ Path g.parentsOf id x := by
  rw [replies_eq]
  refine ⟨?_, ?_⟩
  · exact List.map_congr_left fun question _ => (g.firstReply_eq question).symm
  · intro i id hasked
    refine ⟨g.above id, ?_, fun x => mem_above⟩
    rw [List.getElem?_map, hasked]
    rfl

-- Three resources in a cycle, one of them its own parent, asked in both directions.
example :
    let round : Ancestry := ⟨[⟨2, 1, 1⟩, ⟨3, 2, 1⟩, ⟨1, 3, 1⟩, ⟨3, 3, 1⟩], []⟩
    round.replies [.ancestors 3, .ancestors 1, .ancestors 3] =
      [.set (.ofList [1, 2]), .set (.ofList [2, 3]), .set (.ofList [1, 2])] := by cbv

end Ancestry

end FreeTime
