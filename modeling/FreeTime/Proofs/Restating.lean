-- The laws of plans that ask for the same in other words. A plan may name its resources and its
-- groups in any order and more than once; it is refused for the same rule, what it is answered with
-- are the same slots, and an empty answer is given the same reason. Which rules a run looks at before
-- it stops is a matter of the order; where they can all be expanded, that does not show either.
import FreeTime.Proofs.Reasons
import FreeTime.Proofs.Refusing

namespace FreeTime

/-! ## Lists in other words -/

section Lists

variable {α β γ δ : Type}

/-- Two lists have the same entries, in whatever order and however often. -/
def SameEntries (xs ys : List α) : Prop := ∀ x, x ∈ xs ↔ x ∈ ys

/-- Each entry of either list has a counterpart in the other one. -/
structure Matched (R : α → β → Prop) (xs : List α) (ys : List β) : Prop where
  forth : ∀ x ∈ xs, ∃ y ∈ ys, R x y
  back : ∀ y ∈ ys, ∃ x ∈ xs, R x y

variable {R : α → β → Prop} {xs : List α} {ys : List β}

theorem matched_map {S : γ → δ → Prop} {f : α → γ} {g : β → δ} (h : Matched R xs ys)
    (hfg : ∀ x y, R x y → S (f x) (g y)) : Matched S (xs.map f) (ys.map g) where
  forth z hz := by
    obtain ⟨x, hx, rfl⟩ := List.mem_map.mp hz
    obtain ⟨y, hy, hxy⟩ := h.forth x hx
    exact ⟨g y, List.mem_map_of_mem hy, hfg x y hxy⟩
  back z hz := by
    obtain ⟨y, hy, rfl⟩ := List.mem_map.mp hz
    obtain ⟨x, hx, hxy⟩ := h.back y hy
    exact ⟨f x, List.mem_map_of_mem hx, hfg x y hxy⟩

/-- What counterparts come to are counterparts, where everything comes to something. -/
theorem matched_along {S : α → γ → Prop} {S' : β → δ → Prop} {T : γ → δ → Prop} {zs : List γ}
    {ws : List δ} (h : Matched R xs ys) (hz : Matched S xs zs) (hw : Matched S' ys ws)
    (ht : ∀ x y z w, R x y → S x z → S' y w → T z w) : Matched T zs ws where
  forth z hmem := by
    obtain ⟨x, hx, hxz⟩ := hz.back z hmem
    obtain ⟨y, hy, hxy⟩ := h.forth x hx
    obtain ⟨w, hw, hyw⟩ := hw.forth y hy
    exact ⟨w, hw, ht x y z w hxy hxz hyw⟩
  back w hmem := by
    obtain ⟨y, hy, hyw⟩ := hw.back w hmem
    obtain ⟨x, hx, hxy⟩ := h.back y hy
    obtain ⟨z, hz, hxz⟩ := hz.forth x hx
    exact ⟨z, hz, ht x y z w hxy hxz hyw⟩

theorem matched_of_sameEntries {xs ys : List α} (h : SameEntries xs ys) : Matched (· = ·) xs ys :=
  ⟨fun x hx => ⟨x, (h x).mp hx, rfl⟩, fun y hy => ⟨y, (h y).mpr hy, rfl⟩⟩

/-- What is told alike of counterparts is told alike of all entries. -/
theorem forall_matched (h : Matched R xs ys) {P : α → Prop} {Q : β → Prop}
    (hpq : ∀ x y, R x y → (P x ↔ Q y)) : (∀ x ∈ xs, P x) ↔ ∀ y ∈ ys, Q y := by
  constructor
  · intro hall y hy
    obtain ⟨x, hx, hxy⟩ := h.back y hy
    exact (hpq x y hxy).mp (hall x hx)
  · intro hall x hx
    obtain ⟨y, hy, hxy⟩ := h.forth x hx
    exact (hpq x y hxy).mpr (hall y hy)

theorem exists_matched (h : Matched R xs ys) {P : α → Prop} {Q : β → Prop}
    (hpq : ∀ x y, R x y → (P x ↔ Q y)) : (∃ x ∈ xs, P x) ↔ ∃ y ∈ ys, Q y := by
  constructor
  · rintro ⟨x, hx, hp⟩
    obtain ⟨y, hy, hxy⟩ := h.forth x hx
    exact ⟨y, hy, (hpq x y hxy).mp hp⟩
  · rintro ⟨y, hy, hq⟩
    obtain ⟨x, hx, hxy⟩ := h.back y hy
    exact ⟨x, hx, (hpq x y hxy).mpr hq⟩

theorem eq_nil_matched (h : Matched R xs ys) : xs = [] ↔ ys = [] := by
  have hnone := forall_matched h (P := fun _ => False) (Q := fun _ => False) fun _ _ _ => Iff.rfl
  rwa [← List.eq_nil_iff_forall_not_mem, ← List.eq_nil_iff_forall_not_mem] at hnone

section

variable {xs ys : List α} (h : SameEntries xs ys)
include h

theorem sameEntries_eq_nil : xs = [] ↔ ys = [] :=
  eq_nil_matched (matched_of_sameEntries h)

theorem forall_sameEntries {P : α → Prop} : (∀ x ∈ xs, P x) ↔ ∀ x ∈ ys, P x :=
  forall_congr' fun x => imp_congr (h x) Iff.rfl

theorem exists_sameEntries {P : α → Prop} : (∃ x ∈ xs, P x) ↔ ∃ x ∈ ys, P x :=
  exists_congr fun x => and_congr (h x) Iff.rfl

theorem matched_map_sameEntries (f : α → List β) :
    Matched SameEntries (xs.map f) (ys.map f) := by
  refine matched_map (matched_of_sameEntries h) ?_
  rintro x _ rfl
  exact fun _ => Iff.rfl

end

end Lists

/-! ## Plans in other words -/

namespace Plan

/-- Two plans ask for the same: one tag, the same required resources, and alternatives that have
their counterparts in each other. -/
structure Restates (plan other : Plan) : Prop where
  tag : plan.tag = other.tag
  required : SameEntries plan.required other.required
  alternatives : Matched (Matched SameEntries) plan.alternatives other.alternatives

variable {plan other : Plan} {s : Setting}

theorem involved_of_restates (h : plan.Restates other) : plan.involved = other.involved := by
  apply IdSet.ext_mem
  intro id
  rw [mem_involved, mem_involved, h.required id]
  refine or_congr Iff.rfl (exists_matched h.alternatives fun group group' hgroup => ?_)
  exact exists_matched hgroup fun needs needs' hneeds => hneeds id

theorem asks_of_restates (h : plan.Restates other) : plan.Asks ↔ other.Asks := by
  unfold Asks
  rw [ne_eq, ne_eq, sameEntries_eq_nil h.required, eq_nil_matched h.alternatives]

theorem possibleAt_of_restates (h : plan.Restates other) {t : Int} :
    plan.PossibleAt s t ↔ other.PossibleAt s t := by
  refine and_congr (asks_of_restates h) (and_congr ?_ ?_)
  · exact forall_sameEntries h.required
  · refine forall_matched h.alternatives fun group group' hgroup => ?_
    refine exists_matched hgroup fun needs needs' hneeds => ?_
    exact forall_sameEntries hneeds

/-- Both plans are starved by the same barren resources. -/
theorem starves_of_restates (h : plan.Restates other) {barren : List Int} :
    ((∃ id ∈ plan.required, id ∈ barren) ∨
      ∃ group ∈ plan.alternatives, ∀ needs ∈ group, ∃ id ∈ needs, id ∈ barren) ↔
    ((∃ id ∈ other.required, id ∈ barren) ∨
      ∃ group ∈ other.alternatives, ∀ needs ∈ group, ∃ id ∈ needs, id ∈ barren) := by
  refine or_congr (exists_sameEntries h.required) (exists_matched h.alternatives ?_)
  exact fun _ _ hgroup => forall_matched hgroup fun _ _ hneeds => exists_sameEntries hneeds

end Plan

/-! ## Runs -/

namespace Plan

/-- No group of a plan lacks alternatives, and no alternative lacks needs. -/
structure Sensible (plan : Plan) : Prop where
  groups : ∀ group ∈ plan.alternatives, group ≠ []
  grounded : plan.Grounded

variable {plan other : Plan} {s : Setting}

theorem accepted_of_restates (h : plan.Restates other) : plan.Accepted s ↔ other.Accepted s := by
  unfold Accepted
  rw [involved_of_restates h]

theorem expanded_of_restates (h : plan.Restates other) : plan.Expanded s ↔ other.Expanded s := by
  unfold Expanded
  rw [involved_of_restates h]

/-- A plan in other words is refused for the same rule. -/
theorem run_refused_of_restates (h : plan.Restates other) {cause : ComputeError} :
    plan.run s = .error (.refused cause) ↔ other.run s = .error (.refused cause) := by
  rw [run_eq_refused_iff, run_eq_refused_iff, involved_of_restates h]

/-- A plan in other words has the same slots. Both list the same instants with one tag, and there is
one way to do so. -/
theorem slots_of_restates (hb : s.BooksProperly) (hp : plan.Sensible) (hp' : other.Sensible)
    (h : plan.Restates other) {slots slots' : List Slot} (hrun : plan.run s = .ok slots)
    (hrun' : other.run s = .ok slots') : slots = slots' := by
  have hcanonical := canonical_of_run hb hp.grounded hrun
  have hcanonical' := canonical_congr (canonical_of_run hb hp'.grounded hrun') fun t =>
    (possibleAt_of_restates h).symm
  rw [← h.tag] at hcanonical'
  exact canonical_unique hcanonical hcanonical'

/-- Where all rules can be expanded, a plan in other words runs as it does. -/
theorem run_of_restates (hexpanded : plan.Expanded s) (hb : s.BooksProperly) (hp : plan.Sensible)
    (hp' : other.Sensible) (h : plan.Restates other) : plan.run s = other.run s := by
  have hexpanded' := (expanded_of_restates h).mp hexpanded
  cases hcheck : s.checkKinds plan.involved.toList with
  | error e =>
    rw [run_eq, run_eq, ← involved_of_restates h, hcheck]
    rfl
  | ok _ =>
    have hacc : plan.Accepted s := (s.checkKinds_ok_iff _).mp hcheck
    obtain ⟨slots, hrun⟩ := run_ok hacc hexpanded
    obtain ⟨slots', hrun'⟩ := run_ok ((accepted_of_restates h).mp hacc) hexpanded'
    rw [hrun, hrun', slots_of_restates hb hp hp' h hrun hrun']

/-! ## Reasons -/

theorem starved_of_restates (hp : plan.Sensible) (hp' : other.Sensible) (h : plan.Restates other)
    (barren : List Int) : (plan.starved barren).isEmpty = (other.starved barren).isEmpty := by
  have hstarved : plan.starved barren ≠ [] ↔ other.starved barren ≠ [] := by
    rw [starved_ne_nil hp.groups, starved_ne_nil hp'.groups, starves_of_restates h]
  rw [Bool.eq_iff_iff, List.isEmpty_iff, List.isEmpty_iff]
  exact not_iff_not.mp hstarved

/-- A plan in other words is explained by the same reason, where all rules can be expanded. Which of
its starving resources are named may differ, as those of the first starving group are. -/
theorem explain_of_restates (hexpanded : plan.Expanded s) (hb : s.BooksProperly)
    (hp : plan.Sensible) (hp' : other.Sensible) (h : plan.Restates other)
    (freeBeforeSlicing : Bool) :
    Alike (fun e e' => e.reason = e'.reason) (plan.explain s freeBeforeSlicing)
      (other.explain s freeBeforeSlicing) := by
  have hopen : plan.Expanded s.withoutExclusions := expanded_withoutExclusions hexpanded
  have hnone : s.withoutBusy.BooksProperly := fun _ _ hspan => (List.not_mem_nil hspan).elim
  have halone : plan.run s.withoutBusy.withoutExclusions =
      other.run s.withoutBusy.withoutExclusions := run_of_restates hopen hnone hp hp' h
  have hbusy : plan.run s.withoutExclusions = other.run s.withoutExclusions :=
    run_of_restates hopen hb hp hp' h
  have hclosed : plan.run s.withoutBusy = other.run s.withoutBusy :=
    run_of_restates hexpanded hnone hp hp' h
  simp only [Setting.withoutBusy, Setting.withoutExclusions] at halone hbusy hclosed
  -- Whatever is looked at after the starving resources is the same for both plans.
  unfold explain
  simp only [halone, hbusy, hclosed, involved_of_restates h]
  refine alike_ite (.ok rfl) (alike_bind (alike_refl (fun _ => rfl) _) ?_)
  rintro barren _ rfl
  rw [starved_of_restates hp hp' h]
  exact alike_ite (.ok rfl) (alike_refl (fun e => Eq.refl e.reason) _)

/-- Where both can be explained, the reason is the same: whoever gives one has looked at all rules,
or at none. -/
theorem reason_of_restates (hacc : plan.Accepted s) (hb : s.BooksProperly) (hp : plan.Sensible)
    (hp' : other.Sensible) (h : plan.Restates other) {freeBeforeSlicing : Bool}
    {e e' : Explanation} (he : plan.explain s freeBeforeSlicing = .ok e)
    (he' : other.explain s freeBeforeSlicing = .ok e') : e.reason = e'.reason := by
  cases freeBeforeSlicing with
  | true =>
    cases he
    cases he'
    rfl
  | false =>
    have hexpanded := (explain_ok_iff hacc).mp ⟨e, he⟩
    exact alike_ok (explain_of_restates hexpanded hb hp hp' h false) he he'

end Plan

/-! ## Answers -/

/-- Two answers have the same slots, and they are explained by the same reasons. -/
structure Answer.SaysTheSame (a b : Answer) : Prop where
  slots : a.slots = b.slots
  reasons : a.explanations.map Explanation.reason = b.explanations.map Explanation.reason

namespace Query

variable {q q' : Query} {plan other : Plan} {s : Setting}

/-- Plans in other words are answered alike where all rules can be expanded, and where they are cut
and explained alike. -/
theorem answer_of_restates (hslicing : q.slicing = q'.slicing) (hexplain : q.explain = q'.explain)
    (hexpanded : plan.Expanded s) (hb : s.BooksProperly) (hp : plan.Sensible)
    (hp' : other.Sensible) (h : plan.Restates other) :
    Alike Answer.SaysTheSame (q.answer s plan) (q'.answer s other) := by
  have hrun := Plan.run_of_restates hexpanded hb hp hp' h
  unfold answer cut
  rw [hrun, hslicing, hexplain]
  refine alike_bind (alike_refl (fun _ => rfl) _) ?_
  rintro free _ rfl
  refine alike_bind (alike_refl (fun _ => rfl) _) ?_
  rintro slots _ rfl
  refine alike_ite (alike_bind (Plan.explain_of_restates hexpanded hb hp hp' h _) ?_) (.ok ⟨rfl, rfl⟩)
  intro e e' hreason
  exact .ok ⟨rfl, by simp [hreason]⟩

/-- Plans in other words that are answered are answered with the same. -/
theorem saysTheSame_of_restates (hslicing : q.slicing = q'.slicing)
    (hexplain : q.explain = q'.explain) (hb : s.BooksProperly) (hp : plan.Sensible)
    (hp' : other.Sensible) (h : plan.Restates other) {a a' : Answer}
    (ha : q.answer s plan = .ok a) (ha' : q'.answer s other = .ok a') : a.SaysTheSame a' := by
  obtain ⟨free, hrun, hcut⟩ := slots_of_answer ha
  obtain ⟨free', hrun', hcut'⟩ := slots_of_answer ha'
  obtain rfl := Plan.slots_of_restates hb hp hp' h hrun hrun'
  have hslots : a.slots = a'.slots := by
    unfold cut at hcut hcut'
    rw [hslicing, hcut'] at hcut
    exact (Except.ok.inj hcut).symm
  rw [answer_eq hrun hcut] at ha
  rw [answer_eq hrun' hcut', ← hexplain, ← hslots] at ha'
  refine ⟨hslots, ?_⟩
  split at ha
  · rename_i hwanted
    rw [if_pos hwanted] at ha'
    obtain ⟨e, he, ha⟩ := bind_eq_ok.mp ha
    obtain ⟨e', he', ha'⟩ := bind_eq_ok.mp ha'
    rw [← Except.ok.inj ha, ← Except.ok.inj ha']
    simp [Plan.reason_of_restates (Plan.accepts_of_run hrun) hb hp hp' h he he']
  · rename_i hunwanted
    rw [if_neg hunwanted] at ha'
    rw [← Except.ok.inj ha, ← Except.ok.inj ha']

end Query

end FreeTime
