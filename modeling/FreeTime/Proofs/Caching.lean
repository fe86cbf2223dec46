-- The laws of the cache of free times: whatever is cached, solving gives what it gives with
-- nothing cached. So solving is understood as if it had no cache.
import FreeTime.Proofs.Availability
import FreeTime.Proofs.Runs

namespace FreeTime

namespace Setting

/-- The free slots of a resource, worked out afresh. -/
def ownSlots (s : Setting) (id : Int) : Except NoAnswer (List Slot) :=
  (s.intervals id).map (·.freeSlots s.policy id)

/-- A cache holds free slots as they are worked out afresh, and nothing of a resource with a
rule that is not accepted. -/
def Sound (s : Setting) (cache : Cache) : Prop :=
  ∀ id slots, cache.lookup id = some slots → s.ownSlots id = .ok slots

/-- A piece of solving gives the same with any sound cache, and leaves the cache sound. -/
def Steady (s : Setting) {α : Type} (m : Solving α) : Prop :=
  ∀ cache, s.Sound cache → (runFrom m cache).1 = m.fresh ∧ s.Sound (runFrom m cache).2

variable {s : Setting} {α β : Type}

theorem sound_nil (s : Setting) : s.Sound [] := fun _ _ h => by cases h

theorem fresh_eq (m : Solving α) : m.fresh = (runFrom m []).1 := rfl

/-! ## Steady steps -/

theorem steady_pure (a : α) : s.Steady (pure a : Solving α) := fun _ h => ⟨rfl, h⟩

theorem steady_mk (r : Except NoAnswer α) : s.Steady (ExceptT.mk (pure r) : Solving α) :=
  fun _ h => ⟨rfl, h⟩

/-- What follows a steady step starts from a sound cache, which is as good as an empty one. -/
theorem fresh_bind {m : Solving α} {f : α → Solving β} (hm : s.Steady m)
    (hf : ∀ a, s.Steady (f a)) : (m >>= f).fresh = m.fresh >>= fun a => (f a).fresh := by
  -- The first step leaves a sound cache; the rest cannot tell it from an empty one.
  have hsound := (hm [] s.sound_nil).2
  rw [fresh_eq, fresh_eq m, runFrom_bind]
  rcases hrun : runFrom m [] with ⟨_ | a, after⟩
  · rfl
  · rw [hrun] at hsound
    exact (hf a after hsound).1

theorem steady_bind {m : Solving α} {f : α → Solving β} (hm : s.Steady m)
    (hf : ∀ a, s.Steady (f a)) : s.Steady (m >>= f) := by
  intro cache hcache
  rw [fresh_bind hm hf]
  obtain ⟨hsame, hsound⟩ := hm cache hcache
  rw [runFrom_bind, ← hsame]
  generalize runFrom m cache = r at hsound ⊢
  rcases r with ⟨_ | a, after⟩
  · exact ⟨rfl, hsound⟩
  · exact hf a after hsound

theorem runFrom_free (s : Setting) (id : Int) (cache : Cache) :
    runFrom (s.free id) cache = match cache.lookup id with
      | some slots => (.ok slots, cache)
      | none => match s.ownSlots id with
        | .ok slots => (.ok slots, (id, slots) :: cache)
        | .error e => (.error e, cache) := by
  unfold free ownSlots
  rw [runFrom_bind, runFrom_get]
  simp only
  cases cache.lookup id with
  | some slots => rfl
  | none =>
    simp only
    rw [runFrom_bind, runFrom_mk]
    cases s.intervals id <;> rfl

theorem fresh_free (s : Setting) (id : Int) : (s.free id).fresh = s.ownSlots id := by
  rw [fresh_eq, runFrom_free]
  simp only [List.lookup_nil]
  cases s.ownSlots id <;> rfl

/-- The free time of a resource is the same from the cache as afresh. -/
theorem steady_free (s : Setting) (id : Int) : s.Steady (s.free id) := by
  intro cache hcache
  rw [fresh_free, runFrom_free]
  cases hlook : cache.lookup id with
  | some slots => exact ⟨(hcache id slots hlook).symm, hcache⟩
  | none =>
    cases hown : s.ownSlots id with
    | error e => exact ⟨rfl, hcache⟩
    | ok slots =>
      refine ⟨rfl, ?_⟩
      intro other found h
      simp only [List.lookup_cons] at h
      by_cases heq : other = id
      · subst heq
        simp only [beq_self_eq_true, Option.some.injEq] at h
        exact h ▸ hown
      · have hne : (other == id) = false := by simpa using heq
        rw [hne] at h
        exact hcache other found h

theorem steady_mapM {γ : Type} {f : γ → Solving α} (hf : ∀ x, s.Steady (f x)) (xs : List γ) :
    s.Steady (xs.mapM f) := by
  induction xs with
  | nil => exact steady_pure []
  | cons x xs ih =>
    rw [List.mapM_cons]
    exact steady_bind (hf x) fun a => steady_bind ih fun as => steady_pure (a :: as)

/-- What a list is solved to has been solved from its entries, and from all of them. -/
theorem fresh_mapM_eq_ok {γ : Type} {f : γ → Solving α} (hf : ∀ x, s.Steady (f x)) {xs : List γ}
    {as : List α} (h : (xs.mapM f).fresh = .ok as) :
    (∀ a ∈ as, ∃ x ∈ xs, (f x).fresh = .ok a) ∧ ∀ x ∈ xs, ∃ a ∈ as, (f x).fresh = .ok a := by
  induction xs generalizing as with
  | nil =>
    cases h
    simp
  | cons x xs ih =>
    rw [List.mapM_cons, fresh_bind (hf x) fun a =>
      steady_bind (steady_mapM hf xs) fun as => steady_pure (a :: as), bind_eq_ok] at h
    obtain ⟨b, hb, h⟩ := h
    rw [fresh_bind (steady_mapM hf xs) fun as => steady_pure (b :: as), bind_eq_ok] at h
    obtain ⟨bs, hbs, h⟩ := h
    cases h
    obtain ⟨hback, hforth⟩ := ih hbs
    refine ⟨List.forall_mem_cons.mpr ⟨⟨x, by simp, hb⟩, fun a ha => ?_⟩,
      List.forall_mem_cons.mpr ⟨⟨b, by simp, hb⟩, fun y hy => ?_⟩⟩
    · obtain ⟨y, hy, hfree⟩ := hback a ha
      exact ⟨y, List.mem_cons_of_mem _ hy, hfree⟩
    · obtain ⟨a, ha, hfree⟩ := hforth y hy
      exact ⟨a, List.mem_cons_of_mem _ ha, hfree⟩

/-! ## Steady solving -/

theorem steady_meet (running : Option (List Slot)) (ids : List Int) :
    s.Steady (s.meet running ids) := by
  induction ids generalizing running with
  | nil => exact steady_pure running
  | cons id ids ih =>
    rw [meet]
    apply steady_bind (s.steady_free id)
    intro slots
    simp only
    split
    · exact steady_pure (some [])
    · exact ih _

theorem steady_meetGroups (running : Option (List Slot))
    (groups : List (IdSet × Solving (List (List Slot)))) (h : ∀ g ∈ groups, s.Steady g.2) :
    s.Steady (s.meetGroups running groups) := by
  induction groups generalizing running with
  | nil => exact steady_pure running
  | cons g groups ih =>
    rw [meetGroups]
    apply steady_bind (h g (by simp))
    intro members
    simp only
    split
    · exact steady_pure (some [])
    · split
      · exact steady_pure (some [])
      · exact ih _ fun x hx => h x (List.mem_cons_of_mem _ hx)

/-- The next resource narrows what is running; once nothing is left the rest is not met. -/
theorem fresh_meet_cons (running : Option (List Slot)) (id : Int) (ids : List Int) :
    (s.meet running (id :: ids)).fresh = s.ownSlots id >>= fun slots =>
      if (narrow running slots).isEmpty then .ok (some [])
      else (s.meet (some (narrow running slots)) ids).fresh := by
  rw [meet, fresh_bind (s.steady_free id), fresh_free]
  · refine bind_congr fun slots => ?_
    simp only
    split <;> rfl
  · intro slots
    simp only
    split
    · exact steady_pure _
    · exact steady_meet _ _

/-- The next group narrows what is running, unless its members leave nothing. -/
theorem fresh_meetGroups_cons {group : IdSet × Solving (List (List Slot))}
    {groups : List (IdSet × Solving (List (List Slot)))} (running : Option (List Slot))
    (hg : s.Steady group.2) (hgs : ∀ g ∈ groups, s.Steady g.2) :
    (s.meetGroups running (group :: groups)).fresh = group.2.fresh >>= fun members =>
      if (s.policy.join group.1 members).isEmpty then .ok (some [])
      else if (narrow running (s.policy.join group.1 members)).isEmpty then .ok (some [])
      else (s.meetGroups (some (narrow running (s.policy.join group.1 members))) groups).fresh := by
  rw [meetGroups, fresh_bind hg]
  · refine bind_congr fun members => ?_
    simp only
    split
    · rfl
    · split <;> rfl
  · intro members
    simp only
    split
    · exact steady_pure _
    · split
      · exact steady_pure _
      · exact steady_meetGroups _ _ hgs

/-- Once the required resources are met, the groups go steadily on from what is running. -/
theorem steady_together_rest {groups : List (IdSet × Solving (List (List Slot)))}
    (hgs : ∀ g ∈ groups, s.Steady g.2) (running : Option (List Slot)) (tag : IdSet) :
    s.Steady (do
      if running = some [] then return []
      match ← s.meetGroups running groups with
      | some slots => return s.policy.finish tag slots
      | none => return []) := by
  split
  · exact steady_pure _
  · refine steady_bind (steady_meetGroups running groups hgs) fun result => ?_
    cases result <;> exact steady_pure _

theorem steady_together {groups : List (IdSet × Solving (List (List Slot)))}
    (hgs : ∀ g ∈ groups, s.Steady g.2) (required : List Int) (tag : IdSet) :
    s.Steady (s.together required groups tag) :=
  steady_bind (steady_meet none required) fun running => steady_together_rest hgs running tag

/-- The required resources are met first; where they leave nothing no group is met. -/
theorem fresh_together_eq {groups : List (IdSet × Solving (List (List Slot)))}
    (hgs : ∀ g ∈ groups, s.Steady g.2) (required : List Int) (tag : IdSet) :
    (s.together required groups tag).fresh = (s.meet none required).fresh >>= fun running =>
      if running = some [] then .ok []
      else (s.meetGroups running groups).fresh >>= fun result =>
        .ok (result.elim [] (s.policy.finish tag)) := by
  rw [together, fresh_bind (steady_meet none required)]
  · refine bind_congr fun running => ?_
    split
    · rfl
    · rw [fresh_bind (steady_meetGroups running groups hgs)]
      · refine bind_congr fun result => ?_
        cases result <;> rfl
      · intro result
        cases result <;> exact steady_pure _
  · exact fun running => steady_together_rest hgs running tag

/-- A selection is refused for the kinds of its rules before anything is cached. -/
theorem steady_solve (selection : Selection) (tag : IdSet) : s.Steady (s.solve selection tag) := by
  refine steady_bind (steady_mk _) fun _ => steady_together ?_ selection.required tag
  intro g hg
  obtain ⟨group, _, rfl⟩ := List.mem_map.mp hg
  exact steady_mapM s.steady_free group

theorem steady_candidateFree (c : Candidate) : s.Steady (Plan.candidateFree s c) :=
  steady_bind (steady_meet none c.needs) fun slots => steady_pure (slots.getD [])

end Setting

end FreeTime
