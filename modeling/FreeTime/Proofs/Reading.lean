-- The laws of what a plan reads. A plan runs once the kinds of the rules it reads are accepted and
-- these rules can be expanded, and its answer is a matter of the resources it reads.
import FreeTime.Proofs.Plans

namespace FreeTime

/-! ## Where solving fails -/

namespace Setting

variable {s : Setting} {E : NoAnswer → Prop}

/-- A resource whose rules are accepted has no intervals only where one of them cannot be expanded. -/
theorem intervals_eq_error {id : Int} {e : NoAnswer} (hacc : s.Accepts id)
    (h : s.intervals id = .error e) : (e = .panics ∨ e = .neverEnds) ∧ ¬ s.Expands id := by
  have hcheck : s.checkKinds [id] = .ok () := (s.checkKinds_ok_iff [id]).mpr (by simpa using hacc)
  refine ⟨?_, fun hexpands => ?_⟩
  · rw [intervals, hcheck] at h
    rcases bind_eq_error.mp h with h | ⟨_, _, h⟩
    · cases h
    · rcases bind_eq_error.mp h with h | ⟨_, _, h⟩
      · exact Rule.expand_eq_error h
      · cases h
  · obtain ⟨i, hi⟩ := intervals_ok_iff.mpr ⟨hacc, hexpands⟩
    cases h.symm.trans hi

theorem ownSlots_eq_error {id : Int} {e : NoAnswer} (h : s.ownSlots id = .error e) :
    s.intervals id = .error e := by
  unfold ownSlots at h
  cases hi : s.intervals id with
  | ok i =>
    rw [hi] at h
    cases h
  | error e' =>
    rw [hi] at h
    exact congrArg Except.error (Except.error.inj h)

/-- What is cached does not fail. -/
theorem failsOnly_free {id : Int} (h : ∀ e, s.ownSlots id = .error e → E e) :
    FailsOnly (s.free id) E := by
  intro cache e he
  rw [runFrom_free] at he
  cases hlook : cache.lookup id with
  | some slots =>
    rw [hlook] at he
    cases he
  | none =>
    simp only [hlook] at he
    split at he
    · cases he
    · rename_i e' hown
      cases he
      exact h _ hown

theorem failsOnly_meet {ids : List Int} (h : ∀ id ∈ ids, FailsOnly (s.free id) E)
    (running : Option (List Slot)) : FailsOnly (s.meet running ids) E := by
  induction ids generalizing running with
  | nil => exact failsOnly_pure running
  | cons id ids ih =>
    rw [meet]
    refine failsOnly_bind (h id (by simp)) fun slots => ?_
    simp only
    split
    · exact failsOnly_pure _
    · exact ih (fun x hx => h x (List.mem_cons_of_mem _ hx)) _

theorem failsOnly_meetGroups {groups : List (IdSet × Solving (List (List Slot)))}
    (h : ∀ g ∈ groups, FailsOnly g.2 E) (running : Option (List Slot)) :
    FailsOnly (s.meetGroups running groups) E := by
  induction groups generalizing running with
  | nil => exact failsOnly_pure running
  | cons g groups ih =>
    rw [meetGroups]
    refine failsOnly_bind (h g (by simp)) fun members => ?_
    simp only
    split
    · exact failsOnly_pure _
    · split
      · exact failsOnly_pure _
      · exact ih (fun x hx => h x (List.mem_cons_of_mem _ hx)) _

theorem failsOnly_together {required : List Int} (h : ∀ id ∈ required, FailsOnly (s.free id) E)
    {groups : List (IdSet × Solving (List (List Slot)))} (hg : ∀ g ∈ groups, FailsOnly g.2 E)
    (tag : IdSet) : FailsOnly (s.together required groups tag) E := by
  refine failsOnly_bind (failsOnly_meet h none) fun running => ?_
  split
  · exact failsOnly_pure _
  · refine failsOnly_bind (failsOnly_meetGroups hg running) fun result => ?_
    cases result <;> exact failsOnly_pure _

end Setting

namespace Plan

variable {s : Setting} {plan : Plan} {e : NoAnswer}

/-- The policy accepts every rule that a plan reads. -/
def Accepted (plan : Plan) (s : Setting) : Prop := ∀ id ∈ plan.involved, s.Accepts id

/-- Every rule that a plan reads can be expanded. -/
def Expanded (plan : Plan) (s : Setting) : Prop := ∀ id ∈ plan.involved, s.Expands id

/-- There is no answer, and not because a rule is refused: one that the plan reads cannot be
expanded. -/
def Breaks (plan : Plan) (s : Setting) (e : NoAnswer) : Prop :=
  (e = .panics ∨ e = .neverEnds) ∧ ∃ id ∈ plan.involved, ¬ s.Expands id

theorem not_breaks (h : plan.Expanded s) : ¬ plan.Breaks s e :=
  fun ⟨_, id, hid, hnot⟩ => hnot (h id hid)

theorem failsOnly_solving {E : NoAnswer → Prop}
    (h : ∀ id ∈ plan.involved, ∀ e, s.ownSlots id = .error e → E e) :
    FailsOnly (plan.solving s) E := by
  obtain ⟨hrequired, hneeds⟩ :=
    forall_involved fun id hid => Setting.failsOnly_free (h id hid)
  rw [solving_eq]
  refine Setting.failsOnly_together hrequired (List.forall_mem_map.mpr fun g hg => ?_) plan.tag
  refine failsOnly_mapM fun c hc => failsOnly_bind ?_ fun slots => failsOnly_pure _
  exact Setting.failsOnly_meet (forall_candidates.mp hneeds g hg c hc) none

/-- A plan whose rules are accepted gives no answer only where one of them cannot be expanded. -/
theorem breaks_of_run (hacc : plan.Accepted s) (h : plan.run s = .error e) : plan.Breaks s e := by
  rw [run_eq, (s.checkKinds_ok_iff _).mpr hacc] at h
  have honly : FailsOnly (plan.solving s) (plan.Breaks s) :=
    failsOnly_solving fun id hid e he => by
      obtain ⟨hbroken, hnot⟩ := Setting.intervals_eq_error (hacc id hid) (Setting.ownSlots_eq_error he)
      exact ⟨hbroken, id, hid, hnot⟩
  exact honly [] e h

/-- A plan runs where every rule it reads is accepted and can be expanded. -/
theorem run_ok (hacc : plan.Accepted s) (hexpanded : plan.Expanded s) :
    ∃ slots, plan.run s = .ok slots := by
  cases hrun : plan.run s with
  | ok slots => exact ⟨slots, rfl⟩
  | error e => exact absurd (breaks_of_run hacc hrun) (not_breaks hexpanded)

end Plan

/-! ## Solving looks at nothing else -/

/-- Two inputs say the same of a resource. -/
structure Inputs.Agree (i j : Inputs) (id : Int) : Prop where
  rules : i.rules id = j.rules id
  busy : i.busy id = j.busy id
  capacity : i.capacity id = j.capacity id

namespace Setting

variable {policy : Policy} {p : Period} {i j : Inputs}

theorem checkKinds_congr {ids : List Int} (h : ∀ id ∈ ids, i.Agree j id) :
    checkKinds ⟨policy, p, i⟩ ids = checkKinds ⟨policy, p, j⟩ ids := by
  have hfirst : ids.findSome? (unsupported? ⟨policy, p, i⟩) =
      ids.findSome? (unsupported? ⟨policy, p, j⟩) := by
    induction ids with
    | nil => rfl
    | cons id ids ih =>
      have hrule : unsupported? ⟨policy, p, i⟩ id = unsupported? ⟨policy, p, j⟩ id := by
        simp only [unsupported?, (h id (by simp)).rules]
      rw [List.findSome?_cons, List.findSome?_cons, hrule,
        ih fun x hx => h x (List.mem_cons_of_mem _ hx)]
  unfold checkKinds
  rw [hfirst]

theorem intervals_congr {id : Int} (h : i.Agree j id) :
    intervals ⟨policy, p, i⟩ id = intervals ⟨policy, p, j⟩ id := by
  unfold intervals
  rw [checkKinds_congr fun x hx => List.mem_singleton.mp hx ▸ h]
  simp only [h.rules, h.busy, h.capacity]

theorem free_congr {id : Int} (h : i.Agree j id) :
    free ⟨policy, p, i⟩ id = free ⟨policy, p, j⟩ id := by
  unfold free
  rw [intervals_congr h]

theorem meet_congr {ids : List Int} (h : ∀ id ∈ ids, i.Agree j id)
    (running : Option (List Slot)) :
    meet ⟨policy, p, i⟩ running ids = meet ⟨policy, p, j⟩ running ids := by
  induction ids generalizing running with
  | nil => rfl
  | cons id ids ih =>
    rw [meet, meet, free_congr (h id (by simp))]
    refine bind_congr fun slots => ?_
    simp only [ih fun x hx => h x (List.mem_cons_of_mem _ hx)]

/-- The inputs matter to a group through the solving of its members only. -/
theorem meetGroups_congr (groups : List (IdSet × Solving (List (List Slot))))
    (running : Option (List Slot)) :
    meetGroups ⟨policy, p, i⟩ running groups = meetGroups ⟨policy, p, j⟩ running groups := by
  induction groups generalizing running with
  | nil => rfl
  | cons g groups ih =>
    rw [meetGroups, meetGroups]
    refine bind_congr fun members => ?_
    simp only [ih]

theorem together_congr {required : List Int} (h : ∀ id ∈ required, i.Agree j id)
    (groups : List (IdSet × Solving (List (List Slot)))) (tag : IdSet) :
    together ⟨policy, p, i⟩ required groups tag = together ⟨policy, p, j⟩ required groups tag := by
  unfold together
  rw [meet_congr h]
  refine bind_congr fun running => ?_
  rw [meetGroups_congr (i := i) (j := j)]

end Setting

namespace Plan

variable {policy : Policy} {p : Period} {i j : Inputs} {plan : Plan}

theorem solving_congr (h : ∀ id ∈ plan.involved, i.Agree j id) :
    plan.solving ⟨policy, p, i⟩ = plan.solving ⟨policy, p, j⟩ := by
  obtain ⟨hrequired, hneeds⟩ := forall_involved h
  have hgroups : ∀ g ∈ plan.candidates,
      solvedGroup ⟨policy, p, i⟩ g = solvedGroup ⟨policy, p, j⟩ g := by
    intro g hg
    have hmembers : g.mapM (candidateFree ⟨policy, p, i⟩) = g.mapM (candidateFree ⟨policy, p, j⟩) :=
      mapM_congr fun c hc => by
        unfold candidateFree
        rw [Setting.meet_congr (forall_candidates.mp hneeds g hg c hc)]
    rw [solvedGroup, solvedGroup, hmembers]
  rw [solving_eq, solving_eq, Setting.together_congr hrequired, List.map_congr_left hgroups]

/-- What a plan answers, and whether it fails, is a matter of the resources that it reads. -/
theorem run_congr (h : ∀ id ∈ plan.involved, i.Agree j id) :
    plan.run ⟨policy, p, i⟩ = plan.run ⟨policy, p, j⟩ := by
  rw [run_eq, run_eq, Setting.checkKinds_congr h, solving_congr h]

/-- Two runs of a plan differ only where something else is known of a resource that it reads. -/
theorem exists_not_agree (h : plan.run ⟨policy, p, i⟩ ≠ plan.run ⟨policy, p, j⟩) :
    ∃ id ∈ plan.involved, ¬ i.Agree j id :=
  Classical.byContradiction fun hno => h (run_congr fun id hid =>
    Classical.byContradiction fun hdiffers => hno ⟨id, hid, hdiffers⟩)

end Plan

end FreeTime
