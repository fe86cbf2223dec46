-- The laws of explanations: a plan that runs can be explained where every rule it reads can be
-- expanded, for stripping bookings and exclusions from its inputs brings in no other rule.
import FreeTime.Compute
import FreeTime.Proofs.Reading
import FreeTime.Proofs.Slicing

namespace FreeTime

namespace Setting

variable {s : Setting}

/-- The setting without any booking. -/
def withoutBusy (s : Setting) : Setting := { s with inputs := s.inputs.withoutBusy }

/-- The setting without the rules that close. -/
def withoutExclusions (s : Setting) : Setting := { s with inputs := s.inputs.withoutExclusions }

theorem accepts_withoutExclusions {id : Int} (h : s.Accepts id) :
    s.withoutExclusions.Accepts id := by
  rw [accepts_iff] at h ⊢
  intro r hr
  exact h r (List.mem_filter.mp hr).1

theorem expands_withoutExclusions {id : Int} (h : s.Expands id) : s.withoutExclusions.Expands id :=
  fun r hr => h r (List.mem_filter.mp hr).1

/-- The resources that no rule opens are found just if every rule that is asked about is accepted and
can be expanded. -/
theorem barren_ok_iff {ids : List Int} :
    (∃ barren, s.barren ids = .ok barren) ↔ ∀ id ∈ ids, s.Accepts id ∧ s.Expands id := by
  induction ids with
  | nil => exact iff_of_true ⟨[], rfl⟩ fun _ hid => (List.not_mem_nil hid).elim
  | cons id ids ih =>
    rw [List.forall_mem_cons, ← ih, ← intervals_ok_iff]
    constructor
    · rintro ⟨_, h⟩
      obtain ⟨i, hi, h⟩ := bind_eq_ok.mp h
      obtain ⟨barren, hbarren, _⟩ := bind_eq_ok.mp h
      exact ⟨⟨i, hi⟩, barren, hbarren⟩
    · rintro ⟨⟨i, hi⟩, barren, hbarren⟩
      exact exists_ok_bind hi (exists_ok_bind hbarren ⟨_, rfl⟩)

theorem barren_eq_error {ids : List Int} {e : NoAnswer} (hacc : ∀ id ∈ ids, s.Accepts id)
    (h : s.barren ids = .error e) :
    (e = .panics ∨ e = .neverEnds) ∧ ∃ id ∈ ids, ¬ s.Expands id := by
  induction ids with
  | nil => cases h
  | cons id ids ih =>
    rcases bind_eq_error.mp h with h | ⟨_, _, h⟩
    · obtain ⟨hbroken, hnot⟩ := intervals_eq_error (hacc id (by simp)) h
      exact ⟨hbroken, id, by simp, hnot⟩
    · rcases bind_eq_error.mp h with h | ⟨_, _, h⟩
      · obtain ⟨hbroken, x, hx, hnot⟩ := ih (fun x hx => hacc x (List.mem_cons_of_mem _ hx)) h
        exact ⟨hbroken, x, List.mem_cons_of_mem _ hx, hnot⟩
      · cases h

end Setting

namespace Plan

variable {s : Setting} {plan : Plan}

theorem accepted_withoutExclusions (h : plan.Accepted s) : plan.Accepted s.withoutExclusions :=
  fun id hid => Setting.accepts_withoutExclusions (h id hid)

theorem expanded_withoutExclusions (h : plan.Expanded s) : plan.Expanded s.withoutExclusions :=
  fun id hid => Setting.expands_withoutExclusions (h id hid)

theorem breaks_of_withoutExclusions {e : NoAnswer} (h : plan.Breaks s.withoutExclusions e) :
    plan.Breaks s e := by
  obtain ⟨hbroken, id, hid, hnot⟩ := h
  exact ⟨hbroken, id, hid, fun hexpands => hnot (Setting.expands_withoutExclusions hexpands)⟩

/-- A plan whose rules are accepted has no explanation only where one of them cannot be expanded. -/
theorem breaks_of_explain {freeBeforeSlicing : Bool} {e : NoAnswer} (hacc : plan.Accepted s)
    (h : plan.explain s freeBeforeSlicing = .error e) : plan.Breaks s e := by
  have hrules := accepted_withoutExclusions hacc
  -- Step by step: whatever the runs before it find, no run is refused.
  unfold explain at h
  simp only at h
  split at h
  · cases h
  rcases bind_eq_error.mp h with h | ⟨_, _, h⟩
  · exact Setting.barren_eq_error hacc h
  split at h
  · cases h
  rcases bind_eq_error.mp h with h | ⟨_, _, h⟩
  · exact breaks_of_withoutExclusions (@breaks_of_run s.withoutExclusions.withoutBusy _ _ hrules h)
  split at h
  · cases h
  rcases bind_eq_error.mp h with h | ⟨_, _, h⟩
  · exact breaks_of_withoutExclusions (breaks_of_run hrules h)
  split at h
  · cases h
  rcases bind_eq_error.mp h with h | ⟨_, _, h⟩
  · exact @breaks_of_run s.withoutBusy _ _ hacc h
  · split at h <;> cases h

theorem explain_ok (hacc : plan.Accepted s) (hexpanded : plan.Expanded s)
    (freeBeforeSlicing : Bool) : ∃ e, plan.explain s freeBeforeSlicing = .ok e := by
  cases hexplain : plan.explain s freeBeforeSlicing with
  | ok e => exact ⟨e, rfl⟩
  | error e => exact absurd (breaks_of_explain hacc hexplain) (not_breaks hexpanded)

/-- Whoever explains a plan that found no time looks at every rule that the plan reads. -/
theorem explain_ok_iff (hacc : plan.Accepted s) :
    (∃ e, plan.explain s false = .ok e) ↔ plan.Expanded s := by
  refine ⟨?_, fun hexpanded => explain_ok hacc hexpanded false⟩
  rintro ⟨_, h⟩
  obtain ⟨barren, hbarren, _⟩ := bind_eq_ok.mp h
  exact fun id hid => (Setting.barren_ok_iff.mp ⟨barren, hbarren⟩ id hid).2

end Plan

/-! ## Inputs -/

/-- The source may answer with a rule when it is asked about a period. -/
def Source.MayGive (s : Source) (p : Period) (rule : Rule) : Prop :=
  ∃ ids rules, s.rules ids p = .ok rules ∧ rule ∈ rules

theorem ensures_ask {α : Type} (call : Call) (answer : Except NoAnswer α) :
    Ensures (Asking.ask call answer) fun a => answer = .ok a :=
  ensures_bind (ensures_true _) fun _ _ _ _ h => h

/-- The inputs of a plan have bookings that last, and rules that the source gave. -/
theorem Query.ensures_askInputs (q : Query) (s : Source) (plan : Plan) :
    Ensures (q.askInputs s plan) fun inputs =>
      (∀ policy, Setting.BooksProperly ⟨policy, q.period, inputs⟩) ∧
        ∀ id, ∀ rule ∈ inputs.rules id, s.MayGive q.period rule := by
  refine ensures_bind (ensures_ask _ _) fun rules hrules => ?_
  refine ensures_bind (ensures_true _) fun events _ => ?_
  refine ensures_bind (ensures_true _) fun capacities _ => ensures_pure ⟨fun policy => ?_, ?_⟩
  · exact booksProperly_ofLists policy q.period rules events capacities
  · exact fun id rule hrule => ⟨_, rules, hrules, (Inputs.mem_rules_ofLists.mp hrule).1⟩

/-! ## Answers -/

namespace Query

variable {q : Query} {s : Setting} {plan : Plan} {free slots : List Slot}

/-- The answer for a plan that runs: its explanation is wanted where no slot is left. -/
theorem answer_eq (h : plan.run s = .ok free) (hcut : q.cut free = .ok slots) :
    q.answer s plan = if q.explain = true ∧ slots.isEmpty = true
      then plan.explain s (!free.isEmpty) >>= fun e => .ok ⟨slots, [e]⟩
      else .ok ⟨slots, []⟩ := by
  unfold answer
  rw [h]
  change q.cut free >>= _ = _
  rw [hcut]
  rfl

/-- What is answered are the pieces of what the plan found. -/
theorem slots_of_answer {a : Answer} (h : q.answer s plan = .ok a) :
    ∃ free, plan.run s = .ok free ∧ q.cut free = .ok a.slots := by
  obtain ⟨free, hrun, h⟩ := bind_eq_ok.mp h
  obtain ⟨slots, hcut, h⟩ := bind_eq_ok.mp h
  refine ⟨free, hrun, hcut.trans ?_⟩
  split at h
  · obtain ⟨_, _, h⟩ := bind_eq_ok.mp h
    cases h
    rfl
  · cases h
    rfl

theorem cut_of_unsliced (hunsliced : q.slicing = none) (free : List Slot) :
    q.cut free = .ok free := by rw [cut, hunsliced]

theorem cut_eq_error {e : NoAnswer} (h : q.cut free = .error e) : e = .panics := by
  unfold cut at h
  split at h
  · exact Slicing.slice_eq_error h
  · cases h

/-- An answer is refused just if the run is. Neither cutting nor explaining refuses anything. -/
theorem answer_refused_iff {cause : ComputeError} :
    q.answer s plan = .error (.refused cause) ↔ plan.run s = .error (.refused cause) := by
  constructor
  · intro h
    rcases bind_eq_error.mp h with h | ⟨free, hrun, h⟩
    · exact h
    · rcases bind_eq_error.mp h with h | ⟨slots, _, h⟩
      · cases cut_eq_error h
      · split at h
        · rcases bind_eq_error.mp h with h | ⟨_, _, h⟩
          · obtain ⟨hbroken, _⟩ := Plan.breaks_of_explain (Plan.accepts_of_run hrun) h
            simp at hbroken
          · cases h
        · cases h
  · intro h
    unfold answer
    rw [h]
    rfl

/-- Without slicing what is answered is what the plan found. -/
theorem run_of_answer {a : Answer} (hunsliced : q.slicing = none) (h : q.answer s plan = .ok a) :
    plan.run s = .ok a.slots := by
  obtain ⟨free, hrun, hcut⟩ := slots_of_answer h
  rw [cut_of_unsliced hunsliced] at hcut
  exact hrun.trans hcut

/-- Without slicing a plan whose rules can be expanded is answered with its slots, once it runs. -/
theorem answer_of_run (hunsliced : q.slicing = none) (hexpanded : plan.Expanded s)
    (h : plan.run s = .ok slots) : ∃ explanations, q.answer s plan = .ok ⟨slots, explanations⟩ := by
  rw [answer_eq h (cut_of_unsliced hunsliced slots)]
  split
  · obtain ⟨e, he⟩ := Plan.explain_ok (Plan.accepts_of_run h) hexpanded (!slots.isEmpty)
    rw [he]
    exact ⟨[e], rfl⟩
  · exact ⟨[], rfl⟩

end Query

end FreeTime
