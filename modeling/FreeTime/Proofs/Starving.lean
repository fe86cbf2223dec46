-- The laws of starved plans. A resource that no rule opens has no free time; met with others it
-- leaves nothing, and so does a group none of whose members can do without such a resource.
import FreeTime.Explanation
import FreeTime.Proofs.Plans

namespace FreeTime

/-! ## Resources that no rule opens -/

namespace Setting

variable {s : Setting} {running result : Option (List Slot)}

/-- No rule opens any time of a resource. -/
def NeverOpens (s : Setting) (id : Int) : Prop :=
  ∀ r ∈ s.inputs.rules id, r.excludes = false → r.occurrences s.period = some []

/-- A resource has no span in which it is opened just if no rule opens it. -/
theorem opening_eq_nil_iff {id : Int} {i : Intervals} (h : s.intervals id = .ok i) :
    i.opening = [] ↔ s.NeverOpens id := (intervals_eq_ok h).2.1.barren

theorem mem_barren {ids barren : List Int} (h : s.barren ids = .ok barren) {id : Int} :
    id ∈ barren ↔ id ∈ ids ∧ s.NeverOpens id := by
  induction ids generalizing barren with
  | nil =>
    cases h
    simp
  | cons x ids ih =>
    obtain ⟨i, hi, h⟩ := bind_eq_ok.mp h
    obtain ⟨rest, hrest, h⟩ := bind_eq_ok.mp h
    have hnever : i.opening.isEmpty = true ↔ s.NeverOpens x :=
      List.isEmpty_iff.trans (opening_eq_nil_iff hi)
    rw [List.mem_cons, or_and_right, ← ih hrest]
    split at h
    · rename_i hempty
      cases h
      have := hnever.mp hempty
      rw [List.mem_cons]
      exact or_congr_left ⟨fun heq => ⟨heq, heq ▸ this⟩, And.left⟩
    · rename_i hopens
      cases h
      exact (or_iff_right fun ⟨heq, h⟩ => hopens (hnever.mpr (heq ▸ h))).symm

theorem ownSlots_of_neverOpens {id : Int} (h : s.NeverOpens id) {slots : List Slot}
    (hslots : s.ownSlots id = .ok slots) : slots = [] := by
  obtain ⟨i, hi, rfl⟩ := ownSlots_eq_ok hslots
  rw [Intervals.freeSlots_eq, Intervals.freeSpans, (opening_eq_nil_iff hi).mpr h]
  split <;> simp [Slot.tagged]

theorem narrow_nil (running : Option (List Slot)) : narrow running [] = [] := by
  cases running with
  | none => rfl
  | some slots => cases slots <;> simp [narrow, Slot.intersect]

/-- Meeting resources of which one never opens leaves nothing. -/
theorem meet_of_neverOpens {ids : List Int} (h : ∃ id ∈ ids, s.NeverOpens id)
    (hrun : (s.meet running ids).fresh = .ok result) : result = some [] := by
  induction ids generalizing running with
  | nil => simp at h
  | cons id ids ih =>
    rw [fresh_meet_cons, bind_eq_ok] at hrun
    obtain ⟨slots, hslots, hrun⟩ := hrun
    split at hrun
    · exact (Except.ok.inj hrun).symm
    · rename_i hleft
      obtain ⟨x, hx, hnever⟩ := h
      rcases List.mem_cons.mp hx with rfl | hx
      · -- The first one leaves nothing, so the rest would not have been met.
        rw [ownSlots_of_neverOpens hnever hslots, narrow_nil] at hleft
        exact absurd rfl hleft
      · exact ih ⟨x, hx, hnever⟩ hrun

theorem candidateFree_of_neverOpens {c : Candidate} (h : ∃ id ∈ c.needs, s.NeverOpens id)
    {slots : List Slot} (hrun : (Plan.candidateFree s c).fresh = .ok slots) : slots = [] := by
  rw [Plan.candidateFree, fresh_bind (steady_meet none c.needs) fun r => steady_pure _,
    bind_eq_ok] at hrun
  obtain ⟨result, hmeet, hslots⟩ := hrun
  rw [meet_of_neverOpens h hmeet] at hslots
  exact (Except.ok.inj hslots).symm

/-- A group is dead when no member that is solved has any time. -/
def Dead (group : IdSet × Solving (List (List Slot))) : Prop :=
  ∀ members, group.2.fresh = .ok members → ∀ slots ∈ members, slots = []

theorem join_of_dead {group : IdSet × Solving (List (List Slot))} (h : Dead group)
    {members : List (List Slot)} (hrun : group.2.fresh = .ok members) :
    s.policy.join group.1 members = [] := by
  have hnone : members.flatMap (Slot.retag group.1) = [] :=
    List.flatMap_eq_nil_iff.mpr fun slots hslots => by rw [h members hrun slots hslots]; rfl
  rw [Policy.join, Slot.unionAll, ← List.flatMap_def, hnone, Slot.normalize_nil]

theorem meetGroups_of_dead {groups : List (IdSet × Solving (List (List Slot)))}
    (hgs : ∀ g ∈ groups, s.Steady g.2) (h : ∃ g ∈ groups, Dead g)
    (hrun : (s.meetGroups running groups).fresh = .ok result) : result = some [] := by
  induction groups generalizing running with
  | nil => simp at h
  | cons g groups ih =>
    have hrest : ∀ x ∈ groups, s.Steady x.2 := fun x hx => hgs x (List.mem_cons_of_mem _ hx)
    rw [fresh_meetGroups_cons running (hgs g (by simp)) hrest, bind_eq_ok] at hrun
    obtain ⟨members, hmembers, hrun⟩ := hrun
    split at hrun
    · exact (Except.ok.inj hrun).symm
    · rename_i hjoined
      obtain ⟨x, hx, hdead⟩ := h
      rcases List.mem_cons.mp hx with rfl | hx
      · rw [join_of_dead hdead hmembers] at hjoined
        exact absurd rfl hjoined
      · split at hrun
        · exact (Except.ok.inj hrun).symm
        · exact ih hrest ⟨x, hx, hdead⟩ hrun

theorem together_of_dead {required : List Int} {groups : List (IdSet × Solving (List (List Slot)))}
    {tag : IdSet} {slots : List Slot} (hgs : ∀ g ∈ groups, s.Steady g.2)
    (h : (∃ id ∈ required, s.NeverOpens id) ∨ ∃ g ∈ groups, Dead g)
    (hrun : (s.together required groups tag).fresh = .ok slots) : slots = [] := by
  rw [fresh_together_eq hgs, bind_eq_ok] at hrun
  obtain ⟨running, hrequired, hrun⟩ := hrun
  split at hrun
  · exact (Except.ok.inj hrun).symm
  · rename_i hleft
    rw [bind_eq_ok] at hrun
    obtain ⟨result, hgroups, hrun⟩ := hrun
    rcases h with h | h
    · exact absurd (meet_of_neverOpens h hrequired) hleft
    · rw [meetGroups_of_dead hgs h hgroups] at hrun
      rw [← Except.ok.inj hrun]
      exact Slot.normalize_nil s.policy.exactSets

end Setting

/-! ## Plans that starve -/

namespace Plan

variable {s : Setting} {plan : Plan}

/-- Something that a plan cannot do without never opens: a required resource, or one that an
alternative needs, in each alternative of a group. -/
def Starves (plan : Plan) (s : Setting) : Prop :=
  (∃ id ∈ plan.required, s.NeverOpens id) ∨
    ∃ group ∈ plan.alternatives, ∀ needs ∈ group, ∃ id ∈ needs, s.NeverOpens id

theorem run_of_starves (h : plan.Starves s) {slots : List Slot} (hrun : plan.run s = .ok slots) :
    slots = [] := by
  rw [run_eq, bind_eq_ok] at hrun
  obtain ⟨_, _, hrun⟩ := hrun
  rw [solving_eq] at hrun
  refine Setting.together_of_dead (List.forall_mem_map.mpr fun g _ =>
    Setting.steady_mapM Setting.steady_candidateFree g) (h.imp_right ?_) hrun
  rw [alternatives_eq]
  rintro ⟨_, hgroup, hdead⟩
  obtain ⟨g, hg, rfl⟩ := List.mem_map.mp hgroup
  refine ⟨solvedGroup s g, List.mem_map_of_mem hg, fun members hmembers slots hslots => ?_⟩
  obtain ⟨c, hc, hfree⟩ :=
    (Setting.fresh_mapM_eq_ok Setting.steady_candidateFree hmembers).1 slots hslots
  exact Setting.candidateFree_of_neverOpens (hdead c.needs (List.mem_map_of_mem hc)) hfree

end Plan

end FreeTime
