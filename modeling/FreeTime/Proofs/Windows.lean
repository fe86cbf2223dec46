-- The laws of windows. What is asked for a part of a period is answered by what lies in the window
-- of that part, out of the answer for the whole. So asking day by day finds the time that asking
-- once finds.
import FreeTime.Proofs.Reading

namespace FreeTime

/-! ## Parts of a period -/

/-- A period lies within another one. -/
def Period.Within (part whole : Period) : Prop :=
  whole.first ≤ part.first ∧ part.last ≤ whole.last

instance (part whole : Period) : Decidable (part.Within whole) :=
  inferInstanceAs (Decidable (_ ∧ _))

theorem Period.Within.contains {part whole : Period} (h : part.Within whole) {d : Date}
    (hd : part.contains d = true) : whole.contains d = true := by
  obtain ⟨hfirst, hlast⟩ := contains_iff.mp hd
  exact contains_iff.mpr ⟨Date.le_trans h.1 hfirst, Date.le_trans hlast h.2⟩

/-- An instant in the window of a period lies on one of its days, and in the windows of just the
periods with that day. -/
theorem Period.exists_day {p : Period} {t : Int} (h : p.window.Covers t) :
    ∃ d, p.contains d = true ∧ ∀ other : Period, other.contains d = true → other.window.Covers t := by
  have hfirst := p.first.firstDay_le
  have hlast := p.last.le_lastDay
  simp only [Span.Covers, window, length, Date.daysUntil, Date.midnight, dayMs] at h
  refine ⟨⟨t / 86400000, by omega, by omega⟩, ?_, ?_⟩
  · rw [contains_iff, Date.le_iff, Date.le_iff]
    simp only
    omega
  · intro other hother
    rw [contains_iff, Date.le_iff, Date.le_iff] at hother
    simp only [Span.Covers, window, length, Date.daysUntil, Date.midnight, dayMs] at hother ⊢
    omega

/-! ## Rules in a part of a period -/

namespace Rule

/-- The hours of a rule lie in the day, and a repeating rule says where it starts to count. -/
def Regular (r : Rule) : Prop := r.hours.InDay ∧ (r.kind = .repeating → r.first.isSome)

instance (r : Rule) : Decidable r.Regular := inferInstanceAs (Decidable (_ ∧ _))

variable {r : Rule} {part whole : Period}

/-- A regular rule says the same of a date in any period that holds it. -/
theorem occursOn_part (hr : r.Regular) (hw : part.Within whole) (d : Date) :
    r.OccursOn part d ↔ r.OccursOn whole d ∧ part.contains d = true := by
  unfold OccursOn
  cases hkind : r.kind with
  | repeating =>
    obtain ⟨anchor, hanchor⟩ := Option.isSome_iff_exists.mp (hr.2 hkind)
    simp only [hanchor, Option.getD_some]
    exact ⟨fun h => ⟨⟨hw.contains h.1, h.2⟩, h.1⟩, fun h => ⟨h.2, h.1.2⟩⟩
  | _ => exact ⟨fun h => ⟨⟨hw.contains h.1, h.2⟩, h.1⟩, fun h => ⟨h.2, h.1.2⟩⟩

/-- What a rule covers in a part of a period is cut out of what it covers in the whole by the window
of the part. -/
theorem coversIn_part (hr : r.Regular) (hw : part.Within whole) (hlast : whole.last.day < lastDay)
    (t : Int) : r.CoversIn part t ↔ r.CoversIn whole t ∧ part.window.Covers t := by
  have hpart : part.last.day < lastDay := Int.lt_of_le_of_lt hw.2 hlast
  rw [coversIn_iff hpart, coversIn_iff hlast]
  simp only [occursOn_part hr hw]
  constructor
  · rintro ⟨d, ⟨hd, hin⟩, ht⟩
    exact ⟨⟨d, hd, ht⟩, (part.window_covers_iff hr.1 ht).mpr hin⟩
  · rintro ⟨⟨d, hd, ht⟩, hin⟩
    exact ⟨d, ⟨hd, (part.window_covers_iff hr.1 ht).mp hin⟩, ht⟩

theorem exists_coversIn_part {rules : List Rule} (hr : ∀ r ∈ rules, r.Regular)
    (hw : part.Within whole) (hlast : whole.last.day < lastDay) (excludes : Bool) (t : Int) :
    (∃ r ∈ rules, r.excludes = excludes ∧ r.CoversIn part t) ↔
      (∃ r ∈ rules, r.excludes = excludes ∧ r.CoversIn whole t) ∧ part.window.Covers t := by
  constructor
  · rintro ⟨r, hmem, he, hc⟩
    obtain ⟨hc, hin⟩ := (coversIn_part (hr r hmem) hw hlast t).mp hc
    exact ⟨⟨r, hmem, he, hc⟩, hin⟩
  · rintro ⟨⟨r, hmem, he, hc⟩, hin⟩
    exact ⟨r, hmem, he, (coversIn_part (hr r hmem) hw hlast t).mpr ⟨hc, hin⟩⟩

end Rule

/-! ## Resources in a part of a period -/

namespace Inputs

/-- The rules of all resources are regular. -/
def Regular (i : Inputs) : Prop := ∀ id, ∀ r ∈ i.rules id, r.Regular

theorem regular_ofLists {rules : List Rule} (events : List BusyEvent)
    (capacities : List (Int × Nat)) (h : ∀ r ∈ rules, r.Regular) :
    (ofLists rules events capacities).Regular :=
  fun _ r hr => h r (mem_rules_ofLists.mp hr).1

end Inputs

variable {inputs : Inputs} {part whole : Period}

/-- Over a part of a period a resource is left open when it is over the whole, in the window of
the part. -/
theorem Setting.leftAt_part (policy : Policy) (hi : inputs.Regular) (hw : part.Within whole)
    (hlast : whole.last.day < lastDay) (id t : Int) :
    (Setting.mk policy part inputs).LeftAt id t ↔
      (Setting.mk policy whole inputs).LeftAt id t ∧ part.window.Covers t := by
  have hcovers := fun excludes => Rule.exists_coversIn_part (hi id) hw hlast excludes t
  unfold LeftAt OpenAt ClosedAt
  rw [hcovers false, hcovers true]
  constructor
  · rintro ⟨⟨hopen, hin⟩, hclosed, hbooked⟩
    exact ⟨⟨hopen, fun h => hclosed ⟨h, hin⟩, hbooked⟩, hin⟩
  · rintro ⟨⟨hopen, hclosed, hbooked⟩, hin⟩
    exact ⟨⟨hopen, hin⟩, fun h => hclosed h.1, hbooked⟩

/-- Before the last date of the calendar regular rules can all be expanded. -/
theorem Setting.expands_of_regular (policy : Policy) {p : Period} (hi : inputs.Regular)
    (hlast : p.last.day < lastDay) (id : Int) : (Setting.mk policy p inputs).Expands id :=
  fun r hr => Rule.expands_of_lt hlast (hi id r hr).1.2.1

/-! ## Plans in a part of a period -/

namespace Plan

/-- At an instant at which a plan is left open, so is some resource. -/
theorem exists_leftAt {s : Setting} {plan : Plan} {t : Int} (h : plan.LeftAt s t) :
    ∃ id, s.LeftAt id t := by
  obtain ⟨hasks, hrequired, hgroups⟩ := h
  rcases hasks with hne | hne
  · obtain ⟨id, hid⟩ := List.exists_mem_of_ne_nil _ hne
    exact ⟨id, hrequired id hid⟩
  · obtain ⟨group, hgroup⟩ := List.exists_mem_of_ne_nil _ hne
    obtain ⟨needs, _, hneeds, hleft⟩ := hgroups group hgroup
    obtain ⟨id, hid⟩ := List.exists_mem_of_ne_nil _ hneeds
    exact ⟨id, hleft id hid⟩

theorem leftAt_part (policy : Policy) (plan : Plan) (hi : inputs.Regular) (hw : part.Within whole)
    (hlast : whole.last.day < lastDay) (t : Int) :
    plan.LeftAt ⟨policy, part, inputs⟩ t ↔
      plan.LeftAt ⟨policy, whole, inputs⟩ t ∧ part.window.Covers t := by
  have hleft := fun id => Setting.leftAt_part policy hi hw hlast id t
  constructor
  · intro h
    obtain ⟨id, hid⟩ := exists_leftAt h
    obtain ⟨hasks, hrequired, hgroups⟩ := h
    refine ⟨⟨hasks, fun id hid => ((hleft id).mp (hrequired id hid)).1, ?_⟩, ((hleft id).mp hid).2⟩
    intro group hgroup
    obtain ⟨needs, hneeds, hne, hall⟩ := hgroups group hgroup
    exact ⟨needs, hneeds, hne, fun id hid => ((hleft id).mp (hall id hid)).1⟩
  · rintro ⟨⟨hasks, hrequired, hgroups⟩, hin⟩
    refine ⟨hasks, fun id hid => (hleft id).mpr ⟨hrequired id hid, hin⟩, ?_⟩
    intro group hgroup
    obtain ⟨needs, hneeds, hne, hall⟩ := hgroups group hgroup
    exact ⟨needs, hneeds, hne, fun id hid => (hleft id).mpr ⟨hall id hid, hin⟩⟩

/-- Over a part of a period a plan fails as it does over the whole, or its answer is cut out of the
whole answer by the window of the part. -/
theorem run_part (policy : Policy) (plan : Plan) (hi : inputs.Regular) (hw : part.Within whole)
    (hlast : whole.last.day < lastDay) :
    Alike (fun mine all => ∀ t, CoveredBySlots mine t ↔ CoveredBySlots all t ∧ part.window.Covers t)
      (plan.run ⟨policy, part, inputs⟩) (plan.run ⟨policy, whole, inputs⟩) := by
  cases hcheck : (Setting.mk policy whole inputs).checkKinds plan.involved.toList with
  | error e =>
    -- The kinds of the rules are checked without regard to the period.
    have hcheck' : (Setting.mk policy part inputs).checkKinds plan.involved.toList = .error e :=
      hcheck
    rw [run_eq, run_eq, hcheck, hcheck']
    exact .error e
  | ok _ =>
    have hacc : plan.Accepted ⟨policy, whole, inputs⟩ :=
      ((Setting.mk policy whole inputs).checkKinds_ok_iff _).mp hcheck
    have hpart : part.last.day < lastDay := Int.lt_of_le_of_lt hw.2 hlast
    obtain ⟨all, hall⟩ := run_ok hacc fun id _ => Setting.expands_of_regular policy hi hlast id
    obtain ⟨mine, hmine⟩ := @run_ok ⟨policy, part, inputs⟩ plan hacc fun id _ =>
      Setting.expands_of_regular policy hi hpart id
    rw [hall, hmine]
    refine .ok fun t => ?_
    rw [(canonical_leftAt hall).covers, (canonical_leftAt hmine).covers]
    exact plan.leftAt_part policy hi hw hlast t

/-! ## The laws -/

/-- A plan fails over a part of a period just when it fails over the whole, with the same error;
otherwise the part is answered by what the whole answer has in its window. So parts that hold all
days of the period, one by one or week by week, find together what asking once finds. -/
theorem a_part_has_its_window_of_the_answer (policy : Policy) (plan : Plan)
    (hi : inputs.Regular) (hlast : whole.last.day < lastDay) :
    (∀ part : Period, part.Within whole →
      Alike
        (fun mine all => ∀ t, CoveredBySlots mine t ↔ CoveredBySlots all t ∧ part.window.Covers t)
        (plan.run ⟨policy, part, inputs⟩) (plan.run ⟨policy, whole, inputs⟩)) ∧
      ∀ parts : List Period, (∀ part ∈ parts, part.Within whole) →
        (∀ d, whole.contains d = true → ∃ part ∈ parts, part.contains d = true) →
        ∀ all, plan.run ⟨policy, whole, inputs⟩ = .ok all → ∀ t, CoveredBySlots all t ↔
          ∃ part ∈ parts, ∃ mine, plan.run ⟨policy, part, inputs⟩ = .ok mine ∧
            CoveredBySlots mine t := by
  have hpart := fun (part : Period) (hw : part.Within whole) =>
    plan.run_part policy hi hw hlast
  refine ⟨hpart, fun parts hwithin hdays all hall t => ?_⟩
  constructor
  · intro ht
    -- The whole period is a part of itself, so its answer stays in its window.
    have hself : whole.Within whole := ⟨Int.le_refl _, Int.le_refl _⟩
    have hin := ((alike_ok (hpart whole hself) hall hall t).mp ht).2
    obtain ⟨d, hd, hwindow⟩ := Period.exists_day hin
    obtain ⟨part, hmem, hd⟩ := hdays d hd
    cases hrun : plan.run ⟨policy, part, inputs⟩ with
    | error e =>
      have := (alike_error_iff (hpart part (hwithin part hmem))).mp hrun
      rw [hall] at this
      cases this
    | ok mine =>
      refine ⟨part, hmem, mine, hrun, ?_⟩
      exact (alike_ok (hpart part (hwithin part hmem)) hrun hall t).mpr ⟨ht, hwindow part hd⟩
  · rintro ⟨part, hmem, mine, hrun, ht⟩
    exact ((alike_ok (hpart part (hwithin part hmem)) hrun hall t).mp ht).1

end Plan

/-! ## Three days, in two parts -/

namespace Sample

def friday : Date := ⟨20161, by decide, by decide⟩

/-- From Wednesday to Friday. -/
def threeDays : Period := ⟨wednesday, friday, by decide⟩

def thursdayOn : Period := ⟨⟨20160, by decide, by decide⟩, friday, by decide⟩

/-- The rooms are open on every other day, counted from the Monday before. -/
def everyOtherDay : Rule :=
  { openRule with kind := .repeating, first := some ⟨20157, by decide, by decide⟩, interval := some 2 }

def everyOther : Inputs := .ofLists [everyOtherDay] [booking] []

end Sample

/-- The rooms are free on Wednesday afternoon and on Friday. Asked for Wednesday alone they are free
in the afternoon, and the two other days add the Friday. -/
theorem the_parts_find_what_the_whole_finds :
    let tag := IdSet.ofList [1, 2]
    let wednesday : Slot := ⟨⟨1741780800000, 1741791600000⟩, tag⟩
    let friday : Slot := ⟨⟨1741942800000, 1741964400000⟩, tag⟩
    Sample.everyOther.Regular ∧ Sample.threeDays.last.day < lastDay ∧
      Sample.bothRooms.run ⟨.full, Sample.threeDays, Sample.everyOther⟩ = .ok [wednesday, friday] ∧
      Sample.bothRooms.run ⟨.full, Sample.day, Sample.everyOther⟩ = .ok [wednesday] ∧
      (∀ t, CoveredBySlots [wednesday] t ↔
        CoveredBySlots [wednesday, friday] t ∧ Sample.day.window.Covers t) ∧
      ∀ t, CoveredBySlots [wednesday, friday] t ↔
        ∃ part ∈ [Sample.day, Sample.thursdayOn], ∃ mine,
          Sample.bothRooms.run ⟨.full, part, Sample.everyOther⟩ = .ok mine ∧
            CoveredBySlots mine t := by
  have hregular : Sample.everyOther.Regular := Inputs.regular_ofLists _ _ (by decide +kernel)
  have hlast : Sample.threeDays.last.day < lastDay := by decide
  have hwithin : ∀ part ∈ [Sample.day, Sample.thursdayOn], part.Within Sample.threeDays := by decide
  have hdays : ∀ d, Sample.threeDays.contains d = true →
      ∃ part ∈ [Sample.day, Sample.thursdayOn], part.contains d = true := by
    intro d hd
    rw [Period.contains_iff, Date.le_iff, Date.le_iff] at hd
    simp only [List.mem_cons, List.not_mem_nil, or_false, exists_eq_or_imp, exists_eq_left,
      Period.contains_iff, Date.le_iff]
    simp only [Sample.threeDays, Sample.day, Sample.thursdayOn, Sample.wednesday,
      Sample.friday] at hd ⊢
    omega
  have hall : Sample.bothRooms.run ⟨.full, Sample.threeDays, Sample.everyOther⟩ =
      .ok [⟨⟨1741780800000, 1741791600000⟩, .ofList [1, 2]⟩,
        ⟨⟨1741942800000, 1741964400000⟩, .ofList [1, 2]⟩] := by cbv
  have hmine : Sample.bothRooms.run ⟨.full, Sample.day, Sample.everyOther⟩ =
      .ok [⟨⟨1741780800000, 1741791600000⟩, .ofList [1, 2]⟩] := by cbv
  obtain ⟨hpart, hparts⟩ := Plan.a_part_has_its_window_of_the_answer .full Sample.bothRooms
    hregular hlast
  refine ⟨hregular, hlast, hall, hmine, ?_, hparts _ hwithin hdays _ hall⟩
  exact alike_ok (hpart Sample.day (by decide)) hmine hall

end FreeTime
