-- The laws of the wish for an explanation. It shows in the explanations only: the source is asked
-- the same questions, the computation is refused alike, and the slots are the same. Where the answer
-- is empty the plan is run again and all its rules are looked at. That cannot be refused once the plan
-- itself has run, but it may meet a rule that cannot be expanded and that the plan had not come to.
import FreeTime.Proofs.Reasons

namespace FreeTime

/-- One answer is the other one, with an explanation just if there are no slots. -/
structure Answer.Explains (explained plain : Answer) : Prop where
  slots : explained.slots = plain.slots
  empty : explained.slots = [] → explained.explanations.length = 1
  left : explained.slots ≠ [] → explained.explanations = []

/-- What comes of the wish to explain, beside what comes without it. Both may give no answer, for one
reason; both may answer; or a plain answer is empty, and explaining it fails in a given way. -/
inductive Observes (fails : NoAnswer → Prop) : Except NoAnswer Answer → Except NoAnswer Answer → Prop
  | error (e : NoAnswer) : Observes fails (.error e) (.error e)
  | ok {a b : Answer} : a.Explains b → b.explanations = [] → Observes fails (.ok a) (.ok b)
  | unexplained {e : NoAnswer} {b : Answer} : fails e → b.slots = [] → b.explanations = [] →
      Observes fails (.error e) (.ok b)

theorem observes_mono {fails fails' : NoAnswer → Prop} {a b : Except NoAnswer Answer}
    (h : Observes fails a b) (hle : ∀ e, fails e → fails' e) : Observes fails' a b := by
  cases h with
  | error e => exact .error e
  | ok h hplain => exact .ok h hplain
  | unexplained h hempty hplain => exact .unexplained (hle _ h) hempty hplain

/-! ## Queries -/

namespace Query

/-- The query with the wish for an explanation, or without. -/
def explaining (q : Query) (explain : Bool) : Query := { q with explain }

/-- Whichever filter left nothing, it is named just if an explanation is wished for. -/
theorem observes_emptied (q : Query) (filter : String) (fails : NoAnswer → Prop) :
    Observes fails (.ok ((q.explaining true).emptied filter))
      (.ok ((q.explaining false).emptied filter)) :=
  .ok ⟨rfl, fun _ => rfl, fun h => absurd rfl h⟩ rfl

/-- The free time may be empty as it was found or only once it is cut into pieces; in both cases
it is explained, unless a rule that the plan reads cannot be expanded. -/
theorem observes_answer (q : Query) (s : Setting) (plan : Plan) :
    Observes (plan.Breaks s) ((q.explaining true).answer s plan)
      ((q.explaining false).answer s plan) := by
  cases hrun : plan.run s with
  | error e =>
    unfold answer
    rw [hrun]
    exact .error e
  | ok free =>
    have hcutting : ∀ b, (q.explaining b).cut free = q.cut free := fun _ => rfl
    cases hcut : q.cut free with
    | error e =>
      unfold answer
      rw [hrun]
      change Observes _ ((q.explaining true).cut free >>= _) ((q.explaining false).cut free >>= _)
      rw [hcutting, hcutting, hcut]
      exact .error e
    | ok slots =>
      have hplain : (q.explaining false).answer s plan = .ok ⟨slots, []⟩ :=
        (answer_eq hrun ((hcutting false).trans hcut)).trans (if_neg fun h => Bool.false_ne_true h.1)
      rw [hplain, answer_eq hrun ((hcutting true).trans hcut)]
      split
      · rename_i hempty
        have hnil : slots = [] := List.isEmpty_iff.mp hempty.2
        cases hexplain : plan.explain s (!free.isEmpty) with
        | error e =>
          exact .unexplained (Plan.breaks_of_explain (Plan.accepts_of_run hrun) hexplain) hnil rfl
        | ok e => exact .ok ⟨rfl, fun _ => rfl, fun h => absurd hnil h⟩ rfl
      · rename_i hleft
        have hne : slots ≠ [] := fun hnil => hleft ⟨rfl, List.isEmpty_iff.mpr hnil⟩
        exact .ok ⟨rfl, fun h => absurd h hne, fun _ => rfl⟩ rfl

/-- Explaining fails where it panics or never ends, and a rule of the source cannot be expanded. -/
def FailsToExplain (q : Query) (s : Source) (e : NoAnswer) : Prop :=
  (e = .panics ∨ e = .neverEnds) ∧ ∃ rule, s.MayGive q.period rule ∧ ¬ rule.Expands q.period

theorem goAlike_compute_explaining (q : Query) (policy : Policy) (s : Source) :
    GoAlike (Observes (q.FailsToExplain s)) ((q.explaining true).compute policy s)
      ((q.explaining false).compute policy s) := by
  have hplanned : ∀ b, (q.explaining b).planned s = q.planned s := fun _ => rfl
  unfold compute
  rw [hplanned, hplanned]
  refine goAlike_bind (goAlike_self (ensures_true _)) .error ?_
  rintro found _ ⟨rfl, -⟩
  cases found with
  | error filter => exact goAlike_mk (q.observes_emptied filter _)
  | ok plan =>
    refine goAlike_bind (goAlike_self (q.ensures_askInputs s plan)) .error ?_
    rintro inputs _ ⟨rfl, -, hrules⟩
    refine goAlike_mk ?_
    refine observes_mono (q.observes_answer ⟨policy, q.period, inputs⟩ plan) fun e hbreaks => ?_
    obtain ⟨hbroken, id, _, hnot⟩ := hbreaks
    obtain ⟨rule, hnot⟩ := not_forall.mp hnot
    obtain ⟨hrule, hnot⟩ := Classical.not_imp.mp hnot
    exact ⟨hbroken, rule, hrules id rule hrule, hnot⟩

end Query

/-! ## Requests -/

namespace Request

/-- The request with the wish for an explanation, or without. -/
def explaining (r : Request) (explain : Bool) : Request := { r with explain }

/-- No check looks at the wish for an explanation. -/
theorem validate_explaining (r : Request) (b : Bool) :
    (r.explaining b).validate = (fun q => q.explaining b) <$> r.validate := by
  have hperiod : (r.explaining b).checkPeriod = r.checkPeriod := rfl
  have hselection : (r.explaining b).checkSelection = r.checkSelection := rfl
  have hancestors : (r.explaining b).checkAncestors = r.checkAncestors := rfl
  have hslicing : (r.explaining b).checkSlicing = r.checkSlicing := rfl
  unfold validate
  rw [hperiod, hselection, hancestors, hslicing]
  -- Both rows of checks are the same up to the query that is made at their end.
  simp only [explaining, map_bind]
  refine bind_congr fun period => bind_congr fun selection => ?_
  split <;> simp only [map_bind, apply_ite] <;> rfl

/-- A request that wants an explanation asks its source the same questions as without one, and is
refused as it is refused then. Where both answer the slots are the same, and they come with one
explanation where there are none of them and with none otherwise, whatever left no slot: a filter, the
solving or the cutting into pieces. Without the wish there is never an explanation. Where there is
no plain answer there is none with the wish, for the same reason. The other way round a request may
be answered with no slots, and explaining that panics or never ends: then the source has a rule that
cannot be expanded. -/
theorem the_wish_to_explain_only_observes (r : Request) (policy : Policy) (s : Source) :
    let explained := ((r.explaining true).compute policy s).outcome
    let plain := ((r.explaining false).compute policy s).outcome
    explained.2 = plain.2 ∧
      (∀ cause, explained.1 = .error (.refused cause) ↔ plain.1 = .error (.refused cause)) ∧
      (∀ e, plain.1 = .error e → explained.1 = .error e) ∧
      (∀ a b, explained.1 = .ok a → plain.1 = .ok b →
        a.slots = b.slots ∧ (a.explanations.length = 1 ↔ a.slots = []) ∧
          (a.slots ≠ [] → a.explanations = [])) ∧
      (∀ b, plain.1 = .ok b → b.explanations = []) ∧
      ∀ e b, explained.1 = .error e → plain.1 = .ok b → b.slots = [] ∧
        ∃ q, r.validate = .ok q ∧ q.FailsToExplain s e := by
  intro explained plain
  have hobserved : explained.2 = plain.2 ∧
      Observes (fun e => ∃ q, r.validate = .ok q ∧ q.FailsToExplain s e) explained.1 plain.1 := by
    simp only [explained, plain]
    unfold compute
    rw [validate_explaining, validate_explaining]
    cases hvalid : r.validate with
    | error cause => exact ⟨rfl, .error (.refused (.invalid cause))⟩
    | ok q =>
      obtain ⟨hcalls, hresults⟩ := q.goAlike_compute_explaining policy s []
      exact ⟨hcalls, observes_mono hresults fun e h => ⟨q, rfl, h⟩⟩
  refine ⟨hobserved.1, ?_⟩
  obtain ⟨_, hresults⟩ := hobserved
  generalize explained.1 = a, plain.1 = b at hresults
  cases hresults with
  | error e => simp
  | @ok a b h hplain =>
    have hone : a.explanations.length = 1 ↔ a.slots = [] := by
      refine ⟨fun hone => Decidable.byContradiction fun hleft => ?_, h.empty⟩
      rw [h.left hleft] at hone
      cases hone
    simpa [hplain] using ⟨h.slots, hone, h.left⟩
  | unexplained hfails hempty hplain =>
    obtain ⟨q, hvalid, hbroken, hrule⟩ := hfails
    refine ⟨fun cause => ?_, by simp, by simp, by simpa using hplain, ?_⟩
    · rcases hbroken with rfl | rfl <;> simp
    · rintro e b ⟨⟩ ⟨⟩
      exact ⟨hempty, q, hvalid, hbroken, hrule⟩

end Request

/-! ## A room that is open for ever -/

namespace Sample

/-- The second room is opened every week; the first one has no rule. -/
def weekly : Store := { Store.empty with rules := [everyWeek] }

/-- Both rooms, on the last two days of the calendar. -/
def lastDays : Request where
  first := lastEve
  last := Date.last
  resources := [1, 2]
  groups := []
  propertyFilter := none
  ancestors := none
  ancestorFilters := []
  slotMinutes := none
  keepsTail := false
  explain := false

end Sample

/-- The first room has no time, so the dates of the second one do not matter, and there is an answer.
Explaining it steps through these dates, and they never end. -/
theorem the_wish_to_explain_may_never_be_met :
    ((Sample.lastDays.explaining false).compute .full Sample.weekly.source).outcome.1 =
        .ok ⟨[], []⟩ ∧
      ((Sample.lastDays.explaining true).compute .full Sample.weekly.source).outcome.1 =
        .error .neverEnds := by
  constructor <;> cbv

end FreeTime
