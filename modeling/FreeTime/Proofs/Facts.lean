-- The laws of inputs: what a list of rules and bookings says of one resource depends on the
-- entries that name the resource, and not on their order.
import FreeTime.Proofs.Availability

namespace FreeTime

namespace Inputs

variable {α β : Type} {resources : α → List Int} {id : Int}

/-- The entries of a list that name a resource, as often as they name it. -/
def boundTo (resources : α → List Int) (id : Int) (entries : List α) : List α :=
  entries.flatMap fun e => List.replicate ((resources e).count id) e

theorem mem_boundTo {entries : List α} {e : α} :
    e ∈ boundTo resources id entries ↔ e ∈ entries ∧ id ∈ resources e := by
  simp only [boundTo, List.mem_flatMap, List.mem_replicate]
  constructor
  · rintro ⟨x, hx, hcount, rfl⟩
    exact ⟨hx, List.count_pos_iff.mp (Nat.pos_of_ne_zero hcount)⟩
  · rintro ⟨he, hid⟩
    exact ⟨e, he, Nat.ne_of_gt (List.count_pos_iff.mpr hid), rfl⟩

theorem boundTo_perm {a b : List α} (h : a.Perm b) :
    (boundTo resources id a).Perm (boundTo resources id b) := h.flatMap_right _

/-- Leaving out entries leaves out what they say of each resource. -/
theorem boundTo_filter (keep : α → Bool) (entries : List α) :
    boundTo resources id (entries.filter keep) = (boundTo resources id entries).filter keep := by
  induction entries with
  | nil => rfl
  | cons e entries ih =>
    simp only [boundTo] at ih
    simp only [boundTo, List.flatMap_cons, List.filter_append, List.filter_replicate,
      List.filter_cons]
    split
    · rw [List.flatMap_cons, ih]
    · rw [ih, List.nil_append]

/-- One entry says the same of a resource each time that it names it. -/
theorem about_fact (named : List Int) (x : β) :
    about id (named.map fun i => (i, x)) = List.replicate (named.count id) x := by
  induction named with
  | nil => rfl
  | cons i named ih =>
    rw [about, List.map_cons, List.filter_cons, List.count_cons]
    rw [about] at ih
    by_cases h : i = id
    · simp [h, ih, List.replicate_succ]
    · simp [h, ih]

/-- What facts say of a resource comes from the entries that name it. -/
theorem about_facts (f : α → β) (entries : List α) :
    about id (entries.flatMap fun e => (resources e).map fun i => (i, f e)) =
      (boundTo resources id entries).map f := by
  induction entries with
  | nil => rfl
  | cons e entries ih =>
    have hone : about id _ = _ := about_fact (resources e) (f e)
    rw [about] at ih hone
    rw [about, List.flatMap_cons, List.filter_append, List.map_append, hone, ih, boundTo, boundTo,
      List.flatMap_cons, List.map_append, List.map_replicate]

variable {rules : List Rule} {events : List BusyEvent} {capacities : List (Int × Nat)}

theorem rules_ofLists :
    (ofLists rules events capacities).rules id = boundTo Rule.resources id rules :=
  (@about_facts _ _ Rule.resources id (fun r => r) rules).trans (List.map_id _)

theorem busy_ofLists : (ofLists rules events capacities).busy id =
    (boundTo BusyEvent.resources id events).map BusyEvent.span :=
  @about_facts _ _ BusyEvent.resources id BusyEvent.span events

theorem mem_rules_ofLists {r : Rule} :
    r ∈ (ofLists rules events capacities).rules id ↔ r ∈ rules ∧ id ∈ r.resources := by
  rw [rules_ofLists, mem_boundTo]

theorem occupancyAt_ofLists (id t : Int) :
    occupancyAt ((ofLists rules events capacities).busy id) t =
      (boundTo BusyEvent.resources id events).countP fun e => decide (e.span.Covers t) := by
  rw [occupancyAt, busy_ofLists, List.countP_map]
  rfl

end Inputs

/-- Bookings last for some time, so every booked span holds an instant. -/
theorem booksProperly_ofLists (policy : Policy) (p : Period) (rules : List Rule)
    (events : List BusyEvent) (capacities : List (Int × Nat)) :
    Setting.BooksProperly ⟨policy, p, .ofLists rules events capacities⟩ := by
  intro id span hspan
  simp only [Inputs.busy_ofLists] at hspan
  obtain ⟨e, _, rfl⟩ := List.mem_map.mp hspan
  exact e.start_lt

end FreeTime
