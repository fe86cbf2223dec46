-- The laws of the reasons for an empty answer. A plan that found no time is run again without
-- bookings and without the rules that close. Two of these runs differ only where a resource has
-- what was taken away, so a reason is never given without a resource that bears it out. These runs
-- may meet a rule that the first one did not look at; where it cannot be expanded they fail.
import FreeTime.Proofs.Explaining
import FreeTime.Proofs.Starving
import FreeTime.Proofs.Stepping

namespace FreeTime

/-! ## What was taken away -/

namespace Setting

variable {s : Setting} {id : Int}

def Booked (s : Setting) (id : Int) : Prop := s.inputs.busy id ≠ []

def Excluded (s : Setting) (id : Int) : Prop := ∃ r ∈ s.inputs.rules id, r.excludes = true

theorem hasBusy_iff : s.inputs.hasBusy id = true ↔ s.Booked id := by
  simp [Inputs.hasBusy, Booked]

theorem hasExclusions_iff : s.inputs.hasExclusions id = true ↔ s.Excluded id := by
  simp [Inputs.hasExclusions, Excluded]

/-- Taking away bookings matters only to a resource that is booked. -/
theorem booked_of_not_agree (h : ¬ s.inputs.withoutBusy.Agree s.inputs id) : s.Booked id :=
  fun hnone => h ⟨rfl, hnone.symm, rfl⟩

/-- Taking away the rules that close matters only to a resource that a rule closes. -/
theorem excluded_of_not_agree (h : ¬ s.inputs.withoutExclusions.Agree s.inputs id) :
    s.Excluded id := by
  apply Classical.byContradiction
  intro hnone
  refine h ⟨List.filter_eq_self.mpr fun r hr => ?_, rfl, rfl⟩
  rw [Bool.not_eq_true']
  exact eq_false_of_ne_true fun he => hnone ⟨r, hr, he⟩

/-- The setting in which only the rules that open count. -/
def rulesAlone (s : Setting) : Setting := s.withoutBusy.withoutExclusions

end Setting

namespace Plan

variable {s : Setting} {plan : Plan}

def LeavesNone (plan : Plan) (s : Setting) : Prop := plan.run s = .ok []

def LeavesTime (plan : Plan) (s : Setting) : Prop := ∃ slots, plan.run s = .ok slots ∧ slots ≠ []

theorem run_ne_of_leaves {s' : Setting} (htime : plan.LeavesTime s) (hnone : plan.LeavesNone s') :
    plan.run s ≠ plan.run s' := by
  obtain ⟨slots, hrun, hne⟩ := htime
  intro hsame
  exact hne (Except.ok.inj ((hrun.symm.trans hsame).trans hnone))

theorem leavesNone_of_run {slots : List Slot} (h : plan.run s = .ok slots)
    (hempty : slots.isEmpty = true) : plan.LeavesNone s := by
  rw [List.isEmpty_iff.mp hempty] at h
  exact h

theorem leavesTime_of_run {slots : List Slot} (h : plan.run s = .ok slots)
    (hleft : ¬ slots.isEmpty = true) : plan.LeavesTime s :=
  ⟨slots, h, fun hnil => hleft (List.isEmpty_iff.mpr hnil)⟩

/-- A run without bookings finds more only where a resource of the plan is booked. -/
theorem exists_booked (htime : plan.LeavesTime s.withoutBusy) (hnone : plan.LeavesNone s) :
    ∃ id ∈ plan.involved, s.Booked id := by
  obtain ⟨id, hid, hdiffers⟩ := exists_not_agree (run_ne_of_leaves htime hnone)
  exact ⟨id, hid, Setting.booked_of_not_agree hdiffers⟩

/-- A run without the rules that close finds more only where one closes a resource of the plan. -/
theorem exists_excluded (htime : plan.LeavesTime s.withoutExclusions) (hnone : plan.LeavesNone s) :
    ∃ id ∈ plan.involved, s.Excluded id := by
  obtain ⟨id, hid, hdiffers⟩ := exists_not_agree (run_ne_of_leaves htime hnone)
  exact ⟨id, hid, Setting.excluded_of_not_agree hdiffers⟩

end Plan

/-! ## The resources that starve a plan -/

namespace Plan

variable {s : Setting} {plan : Plan} {barren : List Int}

theorem mem_of_mem_starvedGroup {groups : List (List (List Int))} {id : Int}
    (h : id ∈ starvedGroup barren groups) : id ∈ barren := by
  induction groups with
  | nil => simp [starvedGroup] at h
  | cons group groups ih =>
    simp only [starvedGroup] at h
    split at h
    · obtain ⟨dead, hdead, hid⟩ := List.mem_flatten.mp h
      obtain ⟨needs, _, rfl⟩ := List.mem_map.mp hdead
      simpa using (List.mem_filter.mp hid).2
    · exact ih h

theorem mem_of_mem_starved {id : Int} (h : id ∈ plan.starved barren) : id ∈ barren := by
  simp only [starved] at h
  split at h
  · exact mem_of_mem_starvedGroup h
  · simpa using (List.mem_filter.mp h).2

theorem starvedGroup_ne_nil {groups : List (List (List Int))} (hne : ∀ g ∈ groups, g ≠ []) :
    starvedGroup barren groups ≠ [] ↔
      ∃ group ∈ groups, ∀ needs ∈ group, ∃ id ∈ needs, id ∈ barren := by
  induction groups with
  | nil => simp [starvedGroup]
  | cons group groups ih =>
    have hdead : ((group.map fun needs => needs.filter barren.contains).all fun d => !d.isEmpty) =
        true ↔ ∀ needs ∈ group, ∃ id ∈ needs, id ∈ barren := by
      simp
    simp only [starvedGroup]
    split
    · rename_i hall
      have hall := hdead.mp hall
      refine iff_of_true ?_ ⟨group, by simp, hall⟩
      -- The group has an alternative, and that one has a barren need.
      obtain ⟨needs, hneeds⟩ := List.exists_mem_of_ne_nil group (hne group (by simp))
      obtain ⟨id, hid, hbarren⟩ := hall needs hneeds
      have hmem : id ∈ needs.filter barren.contains :=
        List.mem_filter.mpr ⟨hid, by simpa using hbarren⟩
      exact List.ne_nil_of_mem (List.mem_flatten_of_mem (List.mem_map_of_mem hneeds) hmem)
    · rename_i hall
      rw [ih fun g hg => hne g (List.mem_cons_of_mem _ hg), List.exists_mem_cons_iff]
      exact (or_iff_right fun h => hall (hdead.mpr h)).symm

theorem starved_ne_nil (hne : ∀ g ∈ plan.alternatives, g ≠ []) :
    plan.starved barren ≠ [] ↔ (∃ id ∈ plan.required, id ∈ barren) ∨
      ∃ group ∈ plan.alternatives, ∀ needs ∈ group, ∃ id ∈ needs, id ∈ barren := by
  rw [← starvedGroup_ne_nil hne]
  have hrequired : (plan.required.filter barren.contains).isEmpty = false ↔
      ∃ id ∈ plan.required, id ∈ barren := by
    simp [List.isEmpty_eq_false_iff, List.filter_eq_nil_iff]
  simp only [starved]
  split
  · rename_i hempty
    rw [← hrequired, hempty]
    simp
  · rename_i hleft
    have hleft := eq_false_of_ne_true hleft
    exact iff_of_true (List.isEmpty_eq_false_iff.mp hleft) (Or.inl (hrequired.mp hleft))

/-- A plan has resources that starve it just if it starves. -/
theorem starved_iff_starves (hne : ∀ g ∈ plan.alternatives, g ≠ [])
    (hbarren : s.barren plan.involved.toList = .ok barren) :
    plan.starved barren ≠ [] ↔ plan.Starves s := by
  rw [starved_ne_nil hne]
  obtain ⟨hrequired, hneeds⟩ := plan.forall_involved fun _ h => h
  refine or_congr ?_ ?_
  · exact exists_congr fun id => and_congr_right fun hid =>
      (Setting.mem_barren hbarren).trans (and_iff_right (hrequired id hid))
  · refine exists_congr fun group => and_congr_right fun hg => ?_
    refine forall₂_congr fun needs hn => exists_congr fun id => and_congr_right fun hid => ?_
    exact (Setting.mem_barren hbarren).trans (and_iff_right (hneeds group hg needs hn id hid))

end Plan

/-! ## The five outcomes -/

namespace Plan

variable {s : Setting} {plan : Plan} {barren : List Int}

/-- The ways in which an empty answer comes to be explained: the reason and the resources that
are named, with what was found out before. -/
inductive Finding (plan : Plan) (s : Setting) (barren : List Int) : EmptyReason → List Int → Prop
  | starved : plan.starved barren ≠ [] →
      Finding plan s barren .noPositiveRule (plan.starved barren)
  | apart : plan.starved barren = [] → plan.LeavesNone s.rulesAlone →
      Finding plan s barren .partiallyBlocked plan.involved.toList
  | booked : plan.starved barren = [] → plan.LeavesTime s.rulesAlone →
      plan.LeavesNone s.withoutExclusions →
      Finding plan s barren .fullyBlockedByBusy (plan.involved.toList.filter s.inputs.hasBusy)
  | closed : plan.starved barren = [] → plan.LeavesTime s.rulesAlone →
      plan.LeavesTime s.withoutExclusions → plan.LeavesNone s.withoutBusy →
      Finding plan s barren .fullyBlockedByNegativeRule
        (plan.involved.toList.filter s.inputs.hasExclusions)
  | jointly : plan.starved barren = [] → plan.LeavesTime s.rulesAlone →
      plan.LeavesTime s.withoutExclusions → plan.LeavesTime s.withoutBusy →
      Finding plan s barren .partiallyBlocked
        (plan.involved.toList.filter fun id => s.inputs.hasBusy id || s.inputs.hasExclusions id)

/-- What an explanation says was found out. -/
theorem finding_of_explain {e : Explanation} (h : plan.explain s false = .ok e) :
    ∃ barren ids message, s.barren plan.involved.toList = .ok barren ∧
      plan.Finding s barren e.reason ids ∧ e = .about e.reason ids message := by
  unfold explain at h
  simp only [Bool.false_eq_true, if_false] at h
  obtain ⟨barren, hbarren, h⟩ := bind_eq_ok.mp h
  -- Each run is looked at only where those before it did not decide.
  split at h
  · rename_i hstarved
    obtain rfl := Except.ok.inj h
    exact ⟨barren, _, _, hbarren, .starved (by simpa using hstarved), rfl⟩
  · rename_i hfed
    have hfed : plan.starved barren = [] := by simpa using hfed
    obtain ⟨alone, halone, h⟩ := bind_eq_ok.mp h
    split at h
    · rename_i hempty
      obtain rfl := Except.ok.inj h
      exact ⟨barren, _, _, hbarren, .apart hfed (leavesNone_of_run halone hempty), rfl⟩
    · rename_i hleft
      have halone := leavesTime_of_run halone hleft
      obtain ⟨withBusy, hbusy, h⟩ := bind_eq_ok.mp h
      split at h
      · rename_i hempty
        obtain rfl := Except.ok.inj h
        exact ⟨barren, _, _, hbarren, .booked hfed halone (leavesNone_of_run hbusy hempty), rfl⟩
      · rename_i hleft
        have hbusy := leavesTime_of_run hbusy hleft
        obtain ⟨withExclusions, hexclusions, h⟩ := bind_eq_ok.mp h
        split at h
        · rename_i hempty
          obtain rfl := Except.ok.inj h
          have hnone := leavesNone_of_run hexclusions hempty
          exact ⟨barren, _, _, hbarren, .closed hfed halone hbusy hnone, rfl⟩
        · rename_i hleft
          obtain rfl := Except.ok.inj h
          have htime := leavesTime_of_run hexclusions hleft
          exact ⟨barren, _, _, hbarren, .jointly hfed halone hbusy htime, rfl⟩

theorem exists_involved (hasks : plan.Asks) (hne : ∀ g ∈ plan.alternatives, g ≠ [])
    (hg : plan.Grounded) : ∃ id, id ∈ plan.involved := by
  rcases hasks with h | h
  · obtain ⟨id, hid⟩ := List.exists_mem_of_ne_nil _ h
    exact ⟨id, mem_involved.mpr (Or.inl hid)⟩
  · obtain ⟨group, hgroup⟩ := List.exists_mem_of_ne_nil _ h
    obtain ⟨needs, hneeds⟩ := List.exists_mem_of_ne_nil _ (hne group hgroup)
    obtain ⟨id, hid⟩ := List.exists_mem_of_ne_nil _ (hg group hgroup needs hneeds)
    exact ⟨id, mem_involved.mpr (Or.inr ⟨group, hgroup, needs, hneeds, hid⟩)⟩

/-- What a reason says of the plan and of the resources that are named. -/
def BearsOut (plan : Plan) (s : Setting) (ids : List Int) : EmptyReason → Prop
  | .noPositiveRule => (∀ id ∈ ids, s.NeverOpens id) ∧ plan.LeavesNone s.rulesAlone
  | .fullyBlockedByBusy =>
    plan.LeavesTime s.rulesAlone ∧ plan.LeavesNone s.withoutExclusions ∧
      ∀ id, id ∈ ids ↔ id ∈ plan.involved ∧ s.Booked id
  | .fullyBlockedByNegativeRule =>
    plan.LeavesTime s.withoutExclusions ∧ plan.LeavesNone s.withoutBusy ∧
      ∀ id, id ∈ ids ↔ id ∈ plan.involved ∧ s.Excluded id
  | .partiallyBlocked =>
    (plan.LeavesNone s.rulesAlone ∧ ∀ id, id ∈ ids ↔ id ∈ plan.involved) ∨
      (plan.LeavesTime s.rulesAlone ∧ plan.LeavesTime s.withoutExclusions ∧
        plan.LeavesTime s.withoutBusy ∧
        ∀ id, id ∈ ids ↔ id ∈ plan.involved ∧ (s.Booked id ∨ s.Excluded id))
  | .emptySelection => False

end Plan

/-! ## What a finding bears out -/

namespace Setting

theorem neverOpens_rulesAlone {s : Setting} {id : Int} (h : s.NeverOpens id) :
    s.rulesAlone.NeverOpens id := fun r hr he => h r (List.mem_filter.mp hr).1 he

end Setting

namespace Plan

variable {s : Setting} {plan : Plan} {barren : List Int} {reason : EmptyReason} {ids : List Int}

/-- A plan that starves has no time left even where only the rules that open count. -/
theorem leavesNone_of_starves (hacc : plan.Accepted s) (hexpanded : plan.Expanded s)
    (h : plan.Starves s) : plan.LeavesNone s.rulesAlone := by
  have hstarves : plan.Starves s.rulesAlone := by
    refine h.imp ?_ ?_
    · rintro ⟨id, hid, hnever⟩
      exact ⟨id, hid, Setting.neverOpens_rulesAlone hnever⟩
    · rintro ⟨group, hgroup, hdead⟩
      refine ⟨group, hgroup, fun needs hneeds => ?_⟩
      obtain ⟨id, hid, hnever⟩ := hdead needs hneeds
      exact ⟨id, hid, Setting.neverOpens_rulesAlone hnever⟩
  obtain ⟨slots, hrun⟩ := @run_ok s.rulesAlone plan (accepted_withoutExclusions hacc)
    (expanded_withoutExclusions hexpanded)
  obtain rfl := run_of_starves hstarves hrun
  exact hrun

theorem bearsOut_of_finding (hacc : plan.Accepted s) (hexpanded : plan.Expanded s)
    (hne : ∀ g ∈ plan.alternatives, g ≠ []) (hbarren : s.barren plan.involved.toList = .ok barren)
    (h : plan.Finding s barren reason ids) : plan.BearsOut s ids reason := by
  cases h with
  | starved hstarved =>
    exact ⟨fun id hid => ((Setting.mem_barren hbarren).mp (mem_of_mem_starved hid)).2,
      leavesNone_of_starves hacc hexpanded ((starved_iff_starves hne hbarren).mp hstarved)⟩
  | apart _ hnone => exact Or.inl ⟨hnone, fun id => Iff.rfl⟩
  | booked _ halone hnone =>
    exact ⟨halone, hnone, fun id => List.mem_filter.trans (and_congr_right' Setting.hasBusy_iff)⟩
  | closed _ _ hbusy hnone =>
    exact ⟨hbusy, hnone,
      fun id => List.mem_filter.trans (and_congr_right' Setting.hasExclusions_iff)⟩
  | jointly _ halone hbusy hexclusions =>
    refine Or.inr ⟨halone, hbusy, hexclusions, fun id => List.mem_filter.trans ?_⟩
    rw [Bool.or_eq_true, Setting.hasBusy_iff, Setting.hasExclusions_iff]
    rfl

/-- Only a plan that starves is said to have no rule that opens. -/
theorem starves_iff_of_finding (hne : ∀ g ∈ plan.alternatives, g ≠ [])
    (hbarren : s.barren plan.involved.toList = .ok barren)
    (h : plan.Finding s barren reason ids) : reason = .noPositiveRule ↔ plan.Starves s := by
  rw [← starved_iff_starves hne hbarren]
  cases h with
  | starved hstarved => exact iff_of_true rfl hstarved
  | apart hfed | booked hfed | closed hfed | jointly hfed =>
    exact iff_of_false nofun (not_not_intro hfed)

theorem involved_of_finding (hbarren : s.barren plan.involved.toList = .ok barren)
    (h : plan.Finding s barren reason ids) : ∀ id ∈ ids, id ∈ plan.involved := by
  intro id hid
  cases h with
  | starved => exact ((Setting.mem_barren hbarren).mp (mem_of_mem_starved hid)).1
  | apart => exact hid
  | booked | closed | jointly => exact (List.mem_filter.mp hid).1

/-- Where a plan finds nothing some resource is named: had none been booked, or none closed by a
rule, the runs that tell the reasons apart would have been the same. -/
theorem exists_of_finding (hasks : plan.Asks) (hne : ∀ g ∈ plan.alternatives, g ≠ [])
    (hg : plan.Grounded) (hnone : plan.LeavesNone s) (h : plan.Finding s barren reason ids) :
    ∃ id, id ∈ ids := by
  cases h with
  | starved hstarved => exact List.exists_mem_of_ne_nil _ hstarved
  | apart => exact exists_involved hasks hne hg
  | booked _ halone hwith =>
    obtain ⟨id, hid, hbooked⟩ := exists_booked (s := s.withoutExclusions) halone hwith
    exact ⟨id, List.mem_filter.mpr ⟨hid, Setting.hasBusy_iff.mpr hbooked⟩⟩
  | closed _ halone _ hwith =>
    obtain ⟨id, hid, hexcluded⟩ := exists_excluded (s := s.withoutBusy) halone hwith
    exact ⟨id, List.mem_filter.mpr ⟨hid, Setting.hasExclusions_iff.mpr hexcluded⟩⟩
  | jointly _ _ hbusy _ =>
    obtain ⟨id, hid, hexcluded⟩ := exists_excluded hbusy hnone
    refine ⟨id, List.mem_filter.mpr ⟨hid, ?_⟩⟩
    rw [Setting.hasExclusions_iff.mpr hexcluded, Bool.or_true]

end Plan

/-! ## The laws -/

namespace Plan

/-- What an explanation of an empty answer has to be: it names resources of the plan, in order and
each once, it says that rules are missing just if the plan starves, and its reason holds. -/
structure Explains (plan : Plan) (s : Setting) (e : Explanation) : Prop where
  named : e.resources ≠ []
  ascending : e.resources.Pairwise (· < ·)
  involved : ∀ id ∈ e.resources, id ∈ plan.involved
  starving : e.reason = .noPositiveRule ↔ plan.Starves s
  bearsOut : plan.BearsOut s e.resources e.reason

theorem bearsOut_congr {plan : Plan} {s : Setting} {reason : EmptyReason} {ids ids' : List Int}
    (h : ∀ id, id ∈ ids ↔ id ∈ ids') :
    plan.BearsOut s ids reason ↔ plan.BearsOut s ids' reason := by
  cases reason <;> simp only [BearsOut, h]

theorem explains_of_explain {s : Setting} {plan : Plan} {e : Explanation} (hasks : plan.Asks)
    (hne : ∀ g ∈ plan.alternatives, g ≠ []) (hg : plan.Grounded) (hnone : plan.run s = .ok [])
    (he : plan.explain s false = .ok e) : plan.Explains s e := by
  have hacc : plan.Accepted s := accepts_of_run hnone
  have hexpanded := (explain_ok_iff hacc).mp ⟨e, he⟩
  obtain ⟨barren, ids, message, hbarren, hfinding, habout⟩ := finding_of_explain he
  have hmem : ∀ id, id ∈ e.resources ↔ id ∈ ids := fun id => by
    rw [habout]
    exact IdSet.mem_ofList
  refine ⟨?_, ?_, ?_, starves_iff_of_finding hne hbarren hfinding, ?_⟩
  · obtain ⟨id, hid⟩ := exists_of_finding hasks hne hg hnone hfinding
    exact List.ne_nil_of_mem ((hmem id).mpr hid)
  · rw [habout]
    exact (IdSet.ofList ids).ascending
  · exact fun id hid => involved_of_finding hbarren hfinding id ((hmem id).mp hid)
  · exact (bearsOut_congr hmem).mpr (bearsOut_of_finding hacc hexpanded hne hbarren hfinding)

/-- A plan that asks for something and finds no time is explained rightly, just if every rule it
reads can be expanded. The run may have stopped before it met a rule that cannot be; whoever explains
looks at that rule too, and there is no other way in which the explaining fails. -/
theorem an_empty_answer_is_explained {s : Setting} {plan : Plan} (hasks : plan.Asks)
    (hne : ∀ g ∈ plan.alternatives, g ≠ []) (hg : plan.Grounded) (hnone : plan.run s = .ok []) :
    ((∃ e, plan.explain s false = .ok e ∧ plan.Explains s e) ↔ plan.Expanded s) ∧
      (∀ e, plan.explain s false = .ok e → plan.Explains s e) ∧
      ∀ e, plan.explain s false = .error e → plan.Breaks s e := by
  have hacc : plan.Accepted s := accepts_of_run hnone
  have hright : ∀ e, plan.explain s false = .ok e → plan.Explains s e :=
    fun e => explains_of_explain hasks hne hg hnone
  refine ⟨?_, hright, fun e => breaks_of_explain hacc⟩
  rw [← explain_ok_iff hacc]
  exact exists_congr fun e => and_iff_left_of_imp (hright e)

end Plan

/-! ## A room that is booked out -/

namespace Sample

/-- The first room is booked as long as it is open. -/
def wholeDay : BusyEvent :=
  ⟨2, ⟨wednesday, nine⟩, ⟨wednesday, three⟩, [1], by decide⟩

def bookedOut : Setting := ⟨.restricted, day, .ofLists [openRule] [wholeDay] []⟩

end Sample

/-- Bookings are the reason, and the first room is the one that they are of. -/
theorem the_first_room_is_booked_out :
    let e : Explanation := ⟨.fullyBlockedByBusy, [1], "busy events cover all remaining time"⟩
    Sample.plan.Asks ∧ (∀ g ∈ Sample.plan.alternatives, g ≠ []) ∧ Sample.plan.Grounded ∧
      Sample.plan.run Sample.bookedOut = .ok [] ∧
      Sample.plan.explain Sample.bookedOut false = .ok e ∧
      Sample.plan.Explains Sample.bookedOut e := by
  have hasks : Sample.plan.Asks := by decide
  have hne : ∀ g ∈ Sample.plan.alternatives, g ≠ [] := by decide
  have hg : Sample.plan.Grounded := by decide
  have hrun : Sample.plan.run Sample.bookedOut = .ok [] := by cbv
  have hexplain : Sample.plan.explain Sample.bookedOut false =
      .ok ⟨.fullyBlockedByBusy, [1], "busy events cover all remaining time"⟩ := by cbv
  have hright := (Plan.an_empty_answer_is_explained hasks hne hg hrun).2.1
  exact ⟨hasks, hne, hg, hrun, hexplain, hright _ hexplain⟩

/-! ## A room that is open for ever -/

namespace Sample

/-- A rule that opens the second room every week. -/
def everyWeek : Rule := { apart 7 with resources := [2] }

/-- Up to the last date of the calendar the dates of the second room never end. The first room has
no rule. -/
def endless : Setting := ⟨.full, lastTwoDays, .ofLists [everyWeek] [] []⟩

end Sample

/-- The run finds no time for the first room and does not look at the second one. Whoever explains
that there is no time looks at both, and never ends. -/
theorem an_empty_answer_may_never_be_explained :
    Sample.bothRooms.Asks ∧ (∀ g ∈ Sample.bothRooms.alternatives, g ≠ []) ∧
      Sample.bothRooms.Grounded ∧ Sample.bothRooms.run Sample.endless = .ok [] ∧
      Sample.bothRooms.explain Sample.endless false = .error .neverEnds := by
  have hrun : Sample.bothRooms.run Sample.endless = .ok [] := by cbv
  have hexplain : Sample.bothRooms.explain Sample.endless false = .error .neverEnds := by cbv
  exact ⟨by decide, by decide, by decide, hrun, hexplain⟩

end FreeTime
