-- The laws of refusing. A run reads the kinds of all the rules of its plan before anything else, so
-- it finds a rule that is not accepted whatever time the resources have: also where nothing is left
-- before the resource is met, where a group is empty, and where the rule has no date in the period.
-- Once the kinds are accepted nothing is refused any more.
import FreeTime.Proofs.Reading

namespace FreeTime

/-- A member of a set is where an ascending list is cut in two: the smaller ones stand before it. -/
theorem IdSet.cut_iff {ids : IdSet} {id : Int} {P : Int → Prop} :
    (∃ before after, ids.toList = before ++ id :: after ∧ ∀ x ∈ before, P x) ↔
      id ∈ ids ∧ ∀ x ∈ ids, x < id → P x := by
  constructor
  · rintro ⟨before, after, hcut, hbefore⟩
    have hascending := ids.ascending
    rw [hcut, List.pairwise_append, List.pairwise_cons] at hascending
    refine ⟨by rw [mem_def, hcut]; simp, fun x hx hlt => ?_⟩
    rw [mem_def, hcut, List.mem_append, List.mem_cons] at hx
    rcases hx with hx | rfl | hx
    · exact hbefore x hx
    · omega
    · have := hascending.2.1.1 x hx
      omega
  · rintro ⟨hid, hsmaller⟩
    obtain ⟨before, after, hcut⟩ := List.append_of_mem (mem_def.mp hid)
    have hascending := ids.ascending
    rw [hcut, List.pairwise_append] at hascending
    refine ⟨before, after, hcut, fun x hx => hsmaller x ?_ (hascending.2.2 x hx id (by simp))⟩
    rw [mem_def, hcut]
    exact List.mem_append_left _ hx

/-! ## The rules of one resource -/

theorem Policy.supports_iff {policy : Policy} {kind : RuleKind} :
    policy.supports kind = true ↔ kind ∈ policy.kinds := by
  simp [supports]

namespace Setting

variable {s : Setting} {id : Int} {r : Rule} {e : NoAnswer}

/-- Some rule of a resource is of a kind that the policy does not accept. -/
def Refuses (s : Setting) (id : Int) : Prop := ∃ r ∈ s.inputs.rules id, r.kind ∉ s.policy.kinds

/-- The first of the rules bound to a resource whose kind the policy does not accept. -/
def FirstRefused (s : Setting) (id : Int) (r : Rule) : Prop :=
  r.kind ∉ s.policy.kinds ∧
    ∃ before after, s.inputs.rules id = before ++ r :: after ∧
      ∀ q ∈ before, q.kind ∈ s.policy.kinds

/-- Among several resources, the first refused rule of the smallest resource that has one. -/
def FirstRefusedAmong (s : Setting) (ids : IdSet) (r : Rule) : Prop :=
  ∃ id ∈ ids, (∀ x ∈ ids, x < id → ¬ s.Refuses x) ∧ s.FirstRefused id r

theorem accepts_iff_not_refuses : s.Accepts id ↔ ¬ s.Refuses id := by
  rw [accepts_iff]
  simp [Refuses, Policy.supports_iff]

theorem unsupported?_eq_some_iff : s.unsupported? id = some r ↔ s.FirstRefused id r := by
  unfold unsupported? FirstRefused
  rw [List.find?_eq_some_iff_append]
  simp [← Bool.not_eq_true, Policy.supports_iff]

theorem checkKinds_eq_error_iff {ids : List Int} :
    s.checkKinds ids = .error e ↔
      ∃ r, ids.findSome? s.unsupported? = some r ∧
        e = .refused (.unsupportedKind r.id r.kind) := by
  unfold checkKinds
  cases ids.findSome? s.unsupported? with
  | none => simp
  | some r => simp [eq_comm]

/-- A search in the order of ids ends at the smallest resource that has a rule to refuse. -/
theorem findSome?_unsupported?_eq_some_iff {ids : IdSet} :
    ids.toList.findSome? s.unsupported? = some r ↔ s.FirstRefusedAmong ids r := by
  unfold FirstRefusedAmong
  rw [List.findSome?_eq_some_iff]
  simp only [← and_assoc, ← IdSet.cut_iff, ← accepts_iff_not_refuses, ← unsupported?_eq_some_iff]
  constructor
  · rintro ⟨before, id, after, ⟨hcut, hr⟩, hbefore⟩
    exact ⟨id, ⟨before, after, hcut, hbefore⟩, hr⟩
  · rintro ⟨id, ⟨before, after, hcut, hbefore⟩, hr⟩
    exact ⟨before, id, after, ⟨hcut, hr⟩, hbefore⟩

end Setting

/-! ## The laws -/

namespace Plan

variable {s : Setting} {plan : Plan} {cause : ComputeError}

theorem accepted_iff : plan.Accepted s ↔ ¬ ∃ id ∈ plan.involved, s.Refuses id := by
  simp only [Accepted, Setting.accepts_iff_not_refuses, not_exists, not_and]

/-- The check of the kinds is all that can refuse a run. -/
theorem run_eq_refused_iff : plan.run s = .error (.refused cause) ↔
    s.checkKinds plan.involved.toList = .error (.refused cause) := by
  cases hcheck : s.checkKinds plan.involved.toList with
  | error e =>
    rw [run_eq, hcheck]
    simp [bind, Except.bind]
  | ok =>
    refine iff_of_false (fun h => ?_) fun h => by cases h
    have hacc : plan.Accepted s := (s.checkKinds_ok_iff _).mp hcheck
    obtain ⟨hbroken, _⟩ := breaks_of_run hacc h
    simp at hbroken

/-- A run is refused just if a resource that its plan involves has a rule of a kind that the policy
does not accept. The error names that rule, and of several the first one of the smallest such
resource; there is no other error. A run that is not refused answers, unless a rule that it reads
cannot be expanded. -/
theorem a_run_fails_just_for_a_refused_rule (s : Setting) (plan : Plan) :
    ((∃ cause, plan.run s = .error (.refused cause)) ↔ ∃ id ∈ plan.involved, s.Refuses id) ∧
      (∀ cause, plan.run s = .error (.refused cause) ↔
        ∃ r, s.FirstRefusedAmong plan.involved r ∧ cause = .unsupportedKind r.id r.kind) ∧
      ((¬ ∃ id ∈ plan.involved, s.Refuses id) → (∃ slots, plan.run s = .ok slots) ∨
        ∃ e, plan.run s = .error e ∧ plan.Breaks s e) := by
  refine ⟨⟨?_, fun hrefuses => ?_⟩, fun cause => ?_, fun hnone => ?_⟩
  · rintro ⟨cause, h⟩
    refine Classical.byContradiction fun hnone => ?_
    obtain ⟨hbroken, _⟩ := breaks_of_run (accepted_iff.mpr hnone) h
    simp at hbroken
  · cases hcheck : s.checkKinds plan.involved.toList with
    | ok => exact absurd hrefuses (accepted_iff.mp ((s.checkKinds_ok_iff _).mp hcheck))
    | error e =>
      obtain ⟨r, _, rfl⟩ := Setting.checkKinds_eq_error_iff.mp hcheck
      exact ⟨_, run_eq_refused_iff.mpr hcheck⟩
  · rw [run_eq_refused_iff, Setting.checkKinds_eq_error_iff]
    simp only [Setting.findSome?_unsupported?_eq_some_iff, NoAnswer.refused.injEq]
  · cases hrun : plan.run s with
    | ok slots => exact Or.inl ⟨slots, rfl⟩
    | error e => exact Or.inr ⟨e, rfl, breaks_of_run (accepted_iff.mpr hnone) hrun⟩

-- The first resource is never open and the group has no member, so there is no time to look for.
example :
    let monthly : Rule := { Sample.openRule with id := 2, kind := .monthly, resources := [3] }
    Plan.run ⟨.restricted, Sample.day, .ofLists [Sample.openRule, monthly] [] []⟩
        (.joint ⟨[4, 3], [[]]⟩ (.ofList [3, 4])) =
      .error (.refused (.unsupportedKind 2 .monthly)) := by cbv

end Plan

end FreeTime
