-- The laws of bystanders: the resources that a plan does not involve. Nothing that is known of them
-- shows, neither in what the plan answers or how it fails, nor in how an empty answer is explained.
-- So it is enough to ask for the rules, bookings and capacities of the resources that are involved.
import FreeTime.Proofs.Reasons

namespace FreeTime

/-! ## Inputs that say the same of a resource -/

namespace Inputs

variable {i j : Inputs} {id : Int}

theorem agree_withoutBusy (h : i.Agree j id) : i.withoutBusy.Agree j.withoutBusy id :=
  ⟨h.rules, rfl, h.capacity⟩

theorem agree_withoutExclusions (h : i.Agree j id) :
    i.withoutExclusions.Agree j.withoutExclusions id := by
  refine ⟨?_, h.busy, h.capacity⟩
  unfold withoutExclusions
  simp only [h.rules]

theorem hasBusy_congr (h : i.Agree j id) : i.hasBusy id = j.hasBusy id := by
  unfold hasBusy
  rw [h.busy]

theorem hasExclusions_congr (h : i.Agree j id) : i.hasExclusions id = j.hasExclusions id := by
  unfold hasExclusions
  rw [h.rules]

end Inputs

/-! ## Explaining looks at nothing else -/

variable {policy : Policy} {p : Period} {i j : Inputs} {plan : Plan}

theorem Setting.barren_congr {ids : List Int} (h : ∀ id ∈ ids, i.Agree j id) :
    barren ⟨policy, p, i⟩ ids = barren ⟨policy, p, j⟩ ids := by
  induction ids with
  | nil => rfl
  | cons id ids ih =>
    rw [barren, barren, intervals_congr (h id (by simp)),
      ih fun x hx => h x (List.mem_cons_of_mem _ hx)]

/-- An explanation reads the rules of what is involved, runs the plan on stripped inputs, and picks
out the resources that have what was stripped. -/
theorem Plan.explain_congr (h : ∀ id ∈ plan.involved, i.Agree j id) (freeBeforeSlicing : Bool) :
    plan.explain ⟨policy, p, i⟩ freeBeforeSlicing =
      plan.explain ⟨policy, p, j⟩ freeBeforeSlicing := by
  have hbarren : Setting.barren ⟨policy, p, i⟩ plan.involved.toList =
      Setting.barren ⟨policy, p, j⟩ plan.involved.toList := Setting.barren_congr h
  have halone : plan.run ⟨policy, p, i.withoutBusy.withoutExclusions⟩ =
      plan.run ⟨policy, p, j.withoutBusy.withoutExclusions⟩ :=
    run_congr fun id hid => Inputs.agree_withoutExclusions (Inputs.agree_withoutBusy (h id hid))
  have hbooked : plan.run ⟨policy, p, i.withoutExclusions⟩ =
      plan.run ⟨policy, p, j.withoutExclusions⟩ :=
    run_congr fun id hid => Inputs.agree_withoutExclusions (h id hid)
  have hclosed : plan.run ⟨policy, p, i.withoutBusy⟩ = plan.run ⟨policy, p, j.withoutBusy⟩ :=
    run_congr fun id hid => Inputs.agree_withoutBusy (h id hid)
  have hbusy : plan.involved.toList.filter i.hasBusy = plan.involved.toList.filter j.hasBusy :=
    List.filter_congr fun id hid => Inputs.hasBusy_congr (h id hid)
  have hexclusions : plan.involved.toList.filter i.hasExclusions =
      plan.involved.toList.filter j.hasExclusions :=
    List.filter_congr fun id hid => Inputs.hasExclusions_congr (h id hid)
  have hboth : (plan.involved.toList.filter fun id => i.hasBusy id || i.hasExclusions id) =
      plan.involved.toList.filter fun id => j.hasBusy id || j.hasExclusions id :=
    List.filter_congr fun id hid => by
      rw [Inputs.hasBusy_congr (h id hid), Inputs.hasExclusions_congr (h id hid)]
  unfold explain
  simp only [hbarren, halone, hbooked, hclosed, hbusy, hexclusions, hboth]

theorem Query.answer_congr (q : Query) (h : ∀ id ∈ plan.involved, i.Agree j id) :
    q.answer ⟨policy, p, i⟩ plan = q.answer ⟨policy, p, j⟩ plan := by
  unfold answer
  simp only [Plan.run_congr h, Plan.explain_congr h]

/-! ## The laws -/

/-- Two inputs that say the same of each resource that a plan involves, and anything of the others,
are answered alike: the plan gives the same slots or fails with the same error, it is explained in
the same way or fails to be with the same error, and so is every query that comes down to it. -/
theorem Plan.what_is_known_of_bystanders_never_shows (policy : Policy) (p : Period) (plan : Plan)
    {i j : Inputs} (h : ∀ id ∈ plan.involved, i.Agree j id) :
    plan.run ⟨policy, p, i⟩ = plan.run ⟨policy, p, j⟩ ∧
      (∀ freeBeforeSlicing, plan.explain ⟨policy, p, i⟩ freeBeforeSlicing =
        plan.explain ⟨policy, p, j⟩ freeBeforeSlicing) ∧
      ∀ q : Query, q.answer ⟨policy, p, i⟩ plan = q.answer ⟨policy, p, j⟩ plan :=
  ⟨run_congr h, explain_congr h, fun q => q.answer_congr h⟩

/-! ## A third room -/

namespace Sample

/-- A third room, with a rule of a kind that is not accepted, a booking, and more capacity than the
rooms that are asked for. -/
def thirdRoom : Inputs :=
  let monthly : Rule := { openRule with id := 2, kind := .monthly, resources := [3] }
  let visit : BusyEvent := { booking with id := 3, resources := [3] }
  .ofLists [monthly, openRule] [visit, wholeDay] [(3, 5)]

end Sample

/-- The first room is booked out, and that is the reason whatever is known of the third. -/
theorem the_third_room_is_a_bystander :
    let reason : Explanation := ⟨.fullyBlockedByBusy, [1], "busy events cover all remaining time"⟩
    (∀ id ∈ Sample.plan.involved, Sample.bookedOut.inputs.Agree Sample.thirdRoom id) ∧
      ¬ Sample.bookedOut.inputs.Agree Sample.thirdRoom 3 ∧
      Sample.plan.run ⟨.restricted, Sample.day, Sample.thirdRoom⟩ = .ok [] ∧
      Sample.plan.explain ⟨.restricted, Sample.day, Sample.thirdRoom⟩ false = .ok reason := by
  intro reason
  have hagree : ∀ id ∈ Sample.plan.involved,
      Sample.bookedOut.inputs.Agree Sample.thirdRoom id := by
    intro id hid
    have hinvolved : Sample.plan.involved = .ofList [1, 2] := by decide
    have hid : id = 1 ∨ id = 2 := by simpa [hinvolved] using hid
    rcases hid with rfl | rfl
    · exact ⟨by decide, by decide, by decide⟩
    · exact ⟨by decide, by decide, by decide⟩
  have hdiffers : ¬ Sample.bookedOut.inputs.Agree Sample.thirdRoom 3 :=
    fun h => absurd h.capacity (by decide)
  have hrun : Sample.plan.run ⟨.restricted, Sample.day, Sample.bookedOut.inputs⟩ = .ok [] := by cbv
  have hexplain : Sample.plan.explain ⟨.restricted, Sample.day, Sample.bookedOut.inputs⟩ false =
      .ok reason := by cbv
  obtain ⟨hsame, hsameReason, _⟩ := Plan.what_is_known_of_bystanders_never_shows .restricted
    Sample.day Sample.plan hagree
  exact ⟨hagree, hdiffers, hsame ▸ hrun, hsameReason false ▸ hexplain⟩

end FreeTime
