-- The laws of selections: who is selected, and what is left once some are taken away.
import FreeTime.Selection

namespace FreeTime

theorem distinct_eq_nil {ids : List Int} : distinct ids = [] ↔ ids = [] := by
  cases ids <;> simp [distinct]

namespace Selection

variable {s left : Selection} {keep : Int → Bool}

theorem mem_ids {id : Int} : id ∈ s.ids ↔ id ∈ s.required ∨ ∃ g ∈ s.groups, id ∈ g := by
  simp [ids]

/-- A selection asks for something, and none of its groups is empty. -/
structure Sensible (s : Selection) : Prop where
  asks : s.required ≠ [] ∨ s.groups ≠ []
  groups : ∀ g ∈ s.groups, g ≠ []

/-- The members that pass a test, without a look at what is left. -/
def kept (keep : Int → Bool) (s : Selection) : Selection :=
  ⟨s.required.filter keep, s.groups.map (·.filter keep)⟩

theorem mem_kept_ids {id : Int} : id ∈ (s.kept keep).ids ↔ id ∈ s.ids ∧ keep id = true := by
  simp only [mem_ids, kept, List.mem_filter, List.mem_map]
  constructor
  · rintro (⟨h, hk⟩ | ⟨_, ⟨g, hg, rfl⟩, h⟩)
    · exact ⟨Or.inl h, hk⟩
    · exact ⟨Or.inr ⟨g, hg, (List.mem_filter.mp h).1⟩, (List.mem_filter.mp h).2⟩
  · rintro ⟨h | ⟨g, hg, h⟩, hk⟩
    · exact Or.inl ⟨h, hk⟩
    · exact Or.inr ⟨_, ⟨g, hg, rfl⟩, List.mem_filter.mpr ⟨h, hk⟩⟩

theorem kept_congr {keep' : Int → Bool} (h : ∀ id ∈ s.ids, keep id = keep' id) :
    s.kept keep = s.kept keep' := by
  unfold kept
  congr 1
  · exact List.filter_congr fun id hid => h id (mem_ids.mpr (Or.inl hid))
  · apply List.map_congr_left
    intro g hg
    apply List.filter_congr
    intro id hid
    exact h id (mem_ids.mpr (Or.inr ⟨g, hg, hid⟩))

theorem kept_all : s.kept (fun _ => true) = s := by
  have hall : ∀ ids : List Int, ids.filter (fun _ => true) = ids := fun ids => by simp
  simp [kept, hall]

theorem kept_kept {keep' : Int → Bool} :
    (s.kept keep).kept keep' = s.kept fun id => keep id && keep' id := by
  simp [kept, List.filter_filter, Bool.and_comm, Function.comp_def]

/-- What is left is sensible only if it was sensible before. -/
theorem sensible_of_kept (h : (s.kept keep).Sensible) : s.Sensible where
  asks := by
    refine h.asks.imp (fun hne hnil => hne ?_) fun hne hnil => hne ?_
    · simp [kept, hnil]
    · simp [kept, hnil]
  groups g hg hnil := h.groups _ (List.mem_map_of_mem hg) (by simp [hnil])

/-- A selection is retained if what is left of it is sensible. -/
theorem retain_eq_some : s.retain keep = some left ↔ left = s.kept keep ∧ (s.kept keep).Sensible := by
  unfold retain
  simp only
  by_cases hempty : (s.groups.map (·.filter keep)).any List.isEmpty = true
  · rw [if_pos hempty]
    obtain ⟨g, hg, hnil⟩ := List.any_eq_true.mp hempty
    simp only [reduceCtorEq, false_iff, not_and]
    exact fun _ hsensible => hsensible.groups g hg (List.isEmpty_iff.mp hnil)
  · rw [if_neg hempty]
    have hgroups : ∀ g ∈ (s.kept keep).groups, g ≠ [] := fun g hg hnil =>
      hempty (List.any_eq_true.mpr ⟨g, hg, List.isEmpty_iff.mpr hnil⟩)
    by_cases hnone : ((s.required.filter keep).isEmpty &&
        (s.groups.map (·.filter keep)).isEmpty) = true
    · rw [if_pos hnone]
      simp only [Bool.and_eq_true, List.isEmpty_iff] at hnone
      simp only [reduceCtorEq, false_iff, not_and]
      exact fun _ hsensible => hsensible.asks.elim (fun h => h hnone.1) fun h => h hnone.2
    · rw [if_neg hnone]
      simp only [Bool.and_eq_true, List.isEmpty_iff] at hnone
      have hsensible : (s.kept keep).Sensible :=
        ⟨Decidable.not_and_iff_not_or_not.mp hnone, hgroups⟩
      constructor
      · rintro ⟨⟩
        exact ⟨rfl, hsensible⟩
      · rintro ⟨rfl, _⟩
        rfl

theorem retain_all (h : s.Sensible) : s.retain (fun _ => true) = some s :=
  retain_eq_some.mpr ⟨kept_all.symm, kept_all ▸ h⟩

theorem retain_eq_none : s.retain keep = none ↔ ¬ (s.kept keep).Sensible := by
  cases hretain : s.retain keep with
  | none =>
    simp only [true_iff]
    intro hsensible
    rw [retain_eq_some.mpr ⟨rfl, hsensible⟩] at hretain
    cases hretain
  | some left => simpa using (retain_eq_some.mp hretain).2

end Selection

end FreeTime
