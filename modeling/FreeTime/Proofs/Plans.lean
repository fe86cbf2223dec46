-- The laws of plans. Running a plan meets its required resources and then its groups, one after
-- another, and stops early when nothing is left. At every turn the running list covers the
-- instants at which all that was met so far is free, so the answer lists what the plan means.
import FreeTime.Proofs.Caching
import FreeTime.Proofs.Facts

namespace FreeTime

namespace Setting

variable {s : Setting}

/-! ## Kinds of rules -/

theorem accepts_iff {id : Int} :
    s.Accepts id ↔ ∀ r ∈ s.inputs.rules id, s.policy.supports r.kind = true := by
  unfold Accepts unsupported?
  simp [List.find?_eq_none]

theorem accepts_ofLists {policy : Policy} {p : Period} {rules : List Rule} {events : List BusyEvent}
    {capacities : List (Int × Nat)} {id : Int}
    (h : ∀ r ∈ rules, id ∈ r.resources → policy.supports r.kind = true) :
    Accepts ⟨policy, p, .ofLists rules events capacities⟩ id := by
  rw [accepts_iff]
  intro r hr
  obtain ⟨hmem, hbound⟩ := Inputs.mem_rules_ofLists.mp hr
  exact h r hmem hbound

theorem ownSlots_eq_ok {id : Int} {slots : List Slot} (h : s.ownSlots id = .ok slots) :
    ∃ i, s.intervals id = .ok i ∧ slots = i.freeSlots s.policy id := by
  unfold ownSlots at h
  cases hi : s.intervals id with
  | error e =>
    rw [hi] at h
    cases h
  | ok i =>
    rw [hi] at h
    exact ⟨i, rfl, (Except.ok.inj h).symm⟩

/-- The free time of a resource lists the instants at which it is left open. -/
theorem lists_ownSlots {id : Int} {slots : List Slot} (h : s.ownSlots id = .ok slots) :
    Lists slots (s.LeftAt id) := by
  obtain ⟨i, hi, rfl⟩ := ownSlots_eq_ok h
  exact lists_freeSlots hi

/-! ## Meeting resources -/

/-- What is running covers the instants that are meant; while nothing is running, all. -/
def Meets (running : Option (List Slot)) (P : Int → Prop) : Prop :=
  match running with
  | none => ∀ t, P t
  | some slots => Lists slots P

theorem meets_congr {running : Option (List Slot)} {P Q : Int → Prop} (h : Meets running P)
    (heq : ∀ t, P t ↔ Q t) : Meets running Q := by
  cases running with
  | none => exact fun t => (heq t).mp (h t)
  | some slots => exact lists_congr h heq

theorem lists_narrow {running : Option (List Slot)} {next : List Slot} {P Q : Int → Prop}
    (h : Meets running P) (hnext : Lists next Q) :
    Lists (narrow running next) fun t => P t ∧ Q t := by
  cases running with
  | none => exact lists_congr hnext fun t => by simp [h t]
  | some slots => exact lists_intersect h hnext

/-- Once nothing is left, whatever else is asked for leaves nothing. -/
theorem meets_empty {slots : List Slot} {P Q : Int → Prop} (h : Lists slots P)
    (hempty : slots.isEmpty = true) (hle : ∀ t, Q t → P t) : Meets (some []) Q := by
  rw [List.isEmpty_iff.mp hempty] at h
  exact lists_nil fun t hq => not_of_lists_nil h t (hle t hq)

/-- Meeting resources adds that each of them is left open. Those that are not looked at, as nothing is
left, add nothing. -/
theorem meets_of_meet (ids : List Int) {running result : Option (List Slot)} {P : Int → Prop}
    (h : Meets running P) (hrun : (s.meet running ids).fresh = .ok result) :
    (Meets result fun t => P t ∧ ∀ id ∈ ids, s.LeftAt id t) ∧
      (result = none ↔ running = none ∧ ids = []) := by
  -- On the resources that are left; `P` is what the running list covers so far.
  induction ids generalizing running P with
  | nil =>
    cases hrun
    exact ⟨meets_congr h fun t => by simp, by simp⟩
  | cons id ids ih =>
    rw [fresh_meet_cons] at hrun
    obtain ⟨slots, hslots, hrun⟩ := bind_eq_ok.mp hrun
    have hnext := lists_narrow h (lists_ownSlots hslots)
    split at hrun
    · rename_i hempty
      cases hrun
      refine ⟨meets_empty hnext hempty ?_, by simp⟩
      intro t ht
      exact ⟨ht.1, ht.2 id (by simp)⟩
    · have hgoes : Meets (some (narrow running slots)) _ := hnext
      obtain ⟨hmeets, hnone⟩ := ih hgoes hrun
      refine ⟨meets_congr hmeets fun t => ?_, ?_⟩
      · rw [List.forall_mem_cons, and_assoc]
      · simp only [reduceCtorEq, false_and, iff_false] at hnone
        simp [hnone]

/-! ## Meeting groups -/

/-- A group is solved steadily, and its joined time lists the instants that are meant. -/
def GroupMeans (s : Setting) (group : IdSet × Solving (List (List Slot))) (Q : Int → Prop) :
    Prop :=
  s.Steady group.2 ∧
    ∀ members, group.2.fresh = .ok members → Lists (s.policy.join group.1 members) Q

theorem steady_of_groupsMean {α : Type} {solved : α → IdSet × Solving (List (List Slot))}
    {Q : α → Int → Prop} {groups : List α} (hg : ∀ g ∈ groups, s.GroupMeans (solved g) (Q g)) :
    ∀ g ∈ groups.map solved, s.Steady g.2 :=
  List.forall_mem_map.mpr fun g hmem => (hg g hmem).1

/-- Meeting groups adds that each of them has its instant. -/
theorem meets_of_meetGroups {α : Type} (solved : α → IdSet × Solving (List (List Slot)))
    (Q : α → Int → Prop) (groups : List α) (hg : ∀ g ∈ groups, s.GroupMeans (solved g) (Q g))
    {running result : Option (List Slot)} {P : Int → Prop} (h : Meets running P)
    (hrun : (s.meetGroups running (groups.map solved)).fresh = .ok result) :
    (Meets result fun t => P t ∧ ∀ g ∈ groups, Q g t) ∧
      (result = none ↔ running = none ∧ groups = []) := by
  induction groups generalizing running P with
  | nil =>
    cases hrun
    exact ⟨meets_congr h fun t => by simp, by simp⟩
  | cons group groups ih =>
    obtain ⟨hsteady, hmeans⟩ := hg group (by simp)
    have hrest : ∀ g ∈ groups, s.GroupMeans (solved g) (Q g) :=
      fun g hmem => hg g (List.mem_cons_of_mem _ hmem)
    rw [List.map_cons, fresh_meetGroups_cons _ hsteady (steady_of_groupsMean hrest)] at hrun
    obtain ⟨members, hmembers, hrun⟩ := bind_eq_ok.mp hrun
    have hlists := hmeans members hmembers
    have hnext := lists_narrow h hlists
    split at hrun
    · rename_i hempty
      cases hrun
      refine ⟨meets_empty hlists hempty ?_, by simp⟩
      intro t ht
      exact ht.2 group (by simp)
    · split at hrun
      · rename_i hempty
        cases hrun
        refine ⟨meets_empty hnext hempty ?_, by simp⟩
        intro t ht
        exact ⟨ht.1, ht.2 group (by simp)⟩
      · have hgoes : Meets (some (narrow running _)) _ := hnext
        obtain ⟨hmeets, hnone⟩ := ih hrest hgoes hrun
        refine ⟨meets_congr hmeets fun t => ?_, ?_⟩
        · rw [List.forall_mem_cons, and_assoc]
        · simp only [reduceCtorEq, false_and, iff_false] at hnone
          simp [hnone]

end Setting

/-! ## Answering -/

/-- The one way to list a set of instants: proper slots, all with one set of resources, each
of which stops strictly before the next one starts. -/
structure Canonical (tag : IdSet) (P : Int → Prop) (slots : List Slot) : Prop where
  proper : ∀ x ∈ slots, x.start < x.stop
  tagged : ∀ x ∈ slots, x.ids = tag
  separated : Separated slots
  covers : ∀ t, CoveredBySlots slots t ↔ P t

theorem canonical_nil {tag : IdSet} {P : Int → Prop} (h : ∀ t, ¬ P t) : Canonical tag P [] where
  proper _ hx := (List.not_mem_nil hx).elim
  tagged _ hx := (List.not_mem_nil hx).elim
  separated := List.Pairwise.nil
  covers t := iff_of_false (fun ⟨_, hx, _⟩ => List.not_mem_nil hx) (h t)

theorem canonical_finish {policy : Policy} {slots : List Slot} {P : Int → Prop} (tag : IdSet)
    (h : Lists slots P) : Canonical tag P (policy.finish tag slots) := by
  rw [Policy.finish, Slot.retag_eq, Slot.normalize_tagged]
  have hlists := lists_coalesce tag h.proper h.covers
  refine ⟨fun x hx => hlists.proper x.toSpan (List.mem_map_of_mem hx), fun x hx => ?_, ?_,
    fun t => ?_⟩
  · obtain ⟨span, _, rfl⟩ := List.mem_map.mp hx
    rfl
  · exact List.pairwise_map.mpr (Span.coalesce_apart (Slot.spansOf slots))
  · rw [Slot.coveredBySlots_iff, hlists.covers]

theorem canonical_congr {tag : IdSet} {slots : List Slot} {P Q : Int → Prop}
    (h : Canonical tag P slots) (heq : ∀ t, P t ↔ Q t) : Canonical tag Q slots :=
  ⟨h.proper, h.tagged, h.separated, fun t => (h.covers t).trans (heq t)⟩

theorem eq_tagged {tag : IdSet} {slots : List Slot} (h : ∀ x ∈ slots, x.ids = tag) :
    slots = Slot.tagged tag (Slot.spansOf slots) := by
  induction slots with
  | nil => rfl
  | cons x slots ih =>
    have hrest := ih fun y hy => h y (List.mem_cons_of_mem _ hy)
    have hx : x.ids = tag := h x (by simp)
    simp only [Slot.tagged, Slot.spansOf, List.map_cons] at hrest ⊢
    rw [← hrest, ← hx]

/-- There is one canonical list for a set of instants. -/
theorem canonical_unique {tag : IdSet} {P : Int → Prop} {a b : List Slot}
    (ha : Canonical tag P a) (hb : Canonical tag P b) : a = b := by
  have hspans : Slot.spansOf a = Slot.spansOf b := by
    apply eq_of_same_cover
    · intro span hspan
      obtain ⟨x, hx, rfl⟩ := List.mem_map.mp hspan
      exact ha.proper x hx
    · intro span hspan
      obtain ⟨x, hx, rfl⟩ := List.mem_map.mp hspan
      exact hb.proper x hx
    · exact List.pairwise_map.mpr ha.separated
    · exact List.pairwise_map.mpr hb.separated
    · intro t
      rw [← Slot.coveredBySlots_iff, ← Slot.coveredBySlots_iff, ha.covers, hb.covers]
  rw [eq_tagged ha.tagged, eq_tagged hb.tagged, hspans]

namespace Setting

variable {s : Setting}

/-- Required resources and groups together have the instants that all of them have. -/
theorem canonical_of_together {α : Type} {required : List Int}
    {solved : α → IdSet × Solving (List (List Slot))} {Q : α → Int → Prop} {groups : List α}
    (hg : ∀ g ∈ groups, s.GroupMeans (solved g) (Q g)) {tag : IdSet} {slots : List Slot}
    (hrun : (s.together required (groups.map solved) tag).fresh = .ok slots) :
    Canonical tag (fun t => (required ≠ [] ∨ groups ≠ []) ∧
      (∀ id ∈ required, s.LeftAt id t) ∧ ∀ g ∈ groups, Q g t) slots := by
  have hall : Meets none fun _ => True := fun _ => trivial
  rw [fresh_together_eq (steady_of_groupsMean hg)] at hrun
  obtain ⟨running, hrequired, hrun⟩ := bind_eq_ok.mp hrun
  obtain ⟨hmeets, hnone⟩ := meets_of_meet required hall hrequired
  -- The required resources may leave nothing, and then the groups are not looked at.
  split at hrun
  · rename_i hempty
    subst hempty
    cases hrun
    refine canonical_nil fun t ht => ?_
    exact not_of_lists_nil hmeets t ⟨trivial, ht.2.1⟩
  · obtain ⟨result, hgroups, hrun⟩ := bind_eq_ok.mp hrun
    obtain ⟨hmeets', hnone'⟩ := meets_of_meetGroups solved Q groups hg hmeets hgroups
    cases result with
    | none =>
      -- Nothing ran at all: there was neither a required resource nor a group.
      cases hrun
      refine canonical_nil fun t ht => ?_
      obtain ⟨hr, rfl⟩ := hnone'.mp rfl
      have := (hnone.mp hr).2
      simp [this] at ht
    | some found =>
      cases hrun
      refine canonical_congr (canonical_finish tag hmeets') fun t => ?_
      have hasked : required ≠ [] ∨ groups ≠ [] := by
        apply Decidable.byContradiction
        intro hno
        rw [not_or, Decidable.not_not, Decidable.not_not] at hno
        have := hnone'.mpr ⟨hnone.mpr ⟨rfl, hno.1⟩, hno.2⟩
        cases this
      simp [hasked]

end Setting

/-! ## The groups of a plan -/

namespace Plan

/-- The groups of a plan, each member with all it needs. In a plan of one selection a member needs
itself alone. -/
def candidates : Plan → List (List Candidate)
  | joint selection _ => selection.groups.map fun g => g.map fun id => ⟨id, [id]⟩
  | perCandidate _ groups _ => groups

theorem alternatives_eq (plan : Plan) :
    plan.alternatives = plan.candidates.map fun g => g.map Candidate.needs := by
  cases plan with
  | joint selection tag => simp [alternatives, candidates]
  | perCandidate required groups tag => rfl

/-- What the alternatives of a plan need is what its candidates need. -/
theorem forall_candidates {plan : Plan} {P : List Int → Prop} :
    (∀ group ∈ plan.alternatives, ∀ needs ∈ group, P needs) ↔
      ∀ group ∈ plan.candidates, ∀ c ∈ group, P c.needs := by
  rw [alternatives_eq]
  simp only [List.forall_mem_map]

/-- A group of candidates with its solving. -/
def solvedGroup (s : Setting) (group : List Candidate) : IdSet × Solving (List (List Slot)) :=
  (IdSet.ofList (group.map Candidate.id), group.mapM (candidateFree s))

/-- A candidate that needs itself alone is solved as a resource. -/
theorem candidateFree_alone (s : Setting) (id : Int) : candidateFree s ⟨id, [id]⟩ = s.free id := by
  unfold candidateFree
  rw [Setting.meet, bind_assoc]
  conv => rhs; rw [← bind_pure (s.free id)]
  refine bind_congr fun slots => ?_
  have hnarrow : narrow none slots = slots := rfl
  rw [hnarrow]
  cases slots <;> rfl

theorem solvedGroup_alone (s : Setting) (group : List Int) :
    solvedGroup s (group.map fun id => ⟨id, [id]⟩) = (IdSet.ofList group, group.mapM s.free) := by
  have hids : (group.map fun id => (⟨id, [id]⟩ : Candidate)).map Candidate.id = group := by
    simp [Function.comp_def]
  have hsolving : (group.map fun id => (⟨id, [id]⟩ : Candidate)).mapM (candidateFree s) =
      group.mapM s.free := by
    simp [List.mapM_map, Function.comp_def, candidateFree_alone]
  rw [solvedGroup, hids, hsolving]

end Plan

namespace Setting

variable {s : Setting}

/-- What a candidate needs is left open where all of it is. A candidate that needs nothing brings
no time. -/
theorem lists_candidateFree {c : Candidate} {slots : List Slot}
    (hrun : (Plan.candidateFree s c).fresh = .ok slots) :
    Lists slots fun t => c.needs ≠ [] ∧ ∀ id ∈ c.needs, s.LeftAt id t := by
  have hall : Meets none fun _ => True := fun _ => trivial
  rw [Plan.candidateFree, fresh_bind (steady_meet none c.needs) fun r => steady_pure _] at hrun
  obtain ⟨result, hmeet, hslots⟩ := bind_eq_ok.mp hrun
  obtain ⟨hmeets, hnone⟩ := meets_of_meet c.needs hall hmeet
  cases hslots
  cases result with
  | none => exact lists_nil fun t ht => ht.1 (hnone.mp rfl).2
  | some found =>
    have hne : c.needs ≠ [] := fun hnil => absurd (hnone.mpr ⟨rfl, hnil⟩) (by simp)
    exact lists_congr hmeets fun t => by simp [hne]

/-- A group of candidates has an instant where one of them has all it needs. -/
theorem groupMeans_candidates (group : List Candidate) :
    s.GroupMeans (Plan.solvedGroup s group) fun t =>
      ∃ c ∈ group, c.needs ≠ [] ∧ ∀ id ∈ c.needs, s.LeftAt id t := by
  refine ⟨steady_mapM steady_candidateFree group, fun members hmembers => ?_⟩
  obtain ⟨hback, hforth⟩ := fresh_mapM_eq_ok steady_candidateFree hmembers
  refine lists_join (fun slots hslots => ?_) fun t => ?_
  · obtain ⟨c, _, hrun⟩ := hback slots hslots
    exact (lists_candidateFree hrun).proper
  · constructor
    · rintro ⟨slots, hslots, ht⟩
      obtain ⟨c, hc, hrun⟩ := hback slots hslots
      exact ⟨c, hc, ((lists_candidateFree hrun).covers t).mp ht⟩
    · rintro ⟨c, hc, ht⟩
      obtain ⟨slots, hslots, hrun⟩ := hforth c hc
      exact ⟨slots, hslots, ((lists_candidateFree hrun).covers t).mpr ht⟩

end Setting

namespace Plan

/-- Every alternative needs some resource. -/
def Grounded (plan : Plan) : Prop := ∀ group ∈ plan.alternatives, ∀ needs ∈ group, needs ≠ []

instance (plan : Plan) : Decidable plan.Grounded :=
  inferInstanceAs (Decidable (∀ group ∈ plan.alternatives, ∀ needs ∈ group, needs ≠ []))

theorem mem_involved {plan : Plan} {id : Int} :
    id ∈ plan.involved ↔
      id ∈ plan.required ∨ ∃ group ∈ plan.alternatives, ∃ needs ∈ group, id ∈ needs := by
  cases plan with
  | joint selection tag =>
    simp only [involved, Selection.ids, IdSet.mem_ofList, List.mem_append, List.mem_flatten,
      required, alternatives, List.mem_map]
    constructor
    · rintro (h | ⟨g, hg, hid⟩)
      · exact Or.inl h
      · exact Or.inr ⟨_, ⟨g, hg, rfl⟩, [id], List.mem_map_of_mem hid, by simp⟩
    · rintro (h | ⟨_, ⟨g, hg, rfl⟩, needs, hneeds, hid⟩)
      · exact Or.inl h
      · obtain ⟨x, hx, rfl⟩ := List.mem_map.mp hneeds
        rw [List.mem_singleton] at hid
        exact Or.inr ⟨g, hg, hid ▸ hx⟩
  | perCandidate req groups tag =>
    simp only [involved, IdSet.mem_ofList, List.mem_append, List.mem_flatMap, List.mem_flatten,
      required, alternatives, List.mem_map]
    constructor
    · rintro (h | ⟨c, ⟨g, hg, hc⟩, hid⟩)
      · exact Or.inl h
      · exact Or.inr ⟨_, ⟨g, hg, rfl⟩, c.needs, List.mem_map_of_mem hc, hid⟩
    · rintro (h | ⟨_, ⟨g, hg, rfl⟩, needs, hneeds, hid⟩)
      · exact Or.inl h
      · obtain ⟨c, hc, rfl⟩ := List.mem_map.mp hneeds
        exact Or.inr ⟨c, ⟨g, hg, hc⟩, hid⟩

/-- What holds of all that a plan reads holds of what it requires and of what its alternatives
need. -/
theorem forall_involved {plan : Plan} {P : Int → Prop} (h : ∀ id ∈ plan.involved, P id) :
    (∀ id ∈ plan.required, P id) ∧
      ∀ group ∈ plan.alternatives, ∀ needs ∈ group, ∀ id ∈ needs, P id :=
  ⟨fun id hid => h id (mem_involved.mpr (Or.inl hid)), fun group hgroup needs hneeds id hid =>
    h id (mem_involved.mpr (Or.inr ⟨group, hgroup, needs, hneeds, hid⟩))⟩

/-- When a plan can be carried out is a matter of the resources it reads. -/
theorem possibleAt_congr {s s' : Setting} {plan : Plan} {t : Int}
    (h : ∀ id ∈ plan.involved, s.FreeAt id t ↔ s'.FreeAt id t) :
    plan.PossibleAt s t ↔ plan.PossibleAt s' t := by
  obtain ⟨hrequired, hneeds⟩ := forall_involved h
  refine and_congr_right fun _ => and_congr (forall₂_congr hrequired) ?_
  exact forall₂_congr fun group hgroup => exists_congr fun needs => and_congr_right fun hn =>
    forall₂_congr (hneeds group hgroup needs hn)

/-- The solving of a plan, once the kinds of its rules are accepted. -/
def solving (s : Setting) : Plan → Solving (List Slot)
  | joint selection tag =>
    s.together selection.required
      (selection.groups.map fun g => (IdSet.ofList g, g.mapM s.free)) tag
  | perCandidate required groups tag =>
    s.together required
      (groups.map fun g => (IdSet.ofList (g.map Candidate.id), g.mapM (candidateFree s))) tag

/-- Both kinds of plans check the kinds of all rules first and are solved then. -/
theorem run_eq (s : Setting) (plan : Plan) :
    plan.run s = s.checkKinds plan.involved.toList >>= fun _ => (plan.solving s).fresh := by
  cases plan with
  | joint selection tag =>
    simp only [run, Setting.solve, involved]
    cases s.checkKinds selection.ids.toList <;> rfl
  | perCandidate required groups tag => rfl

/-- Plans of both kinds are solved as required resources with groups of candidates. -/
theorem solving_eq (s : Setting) (plan : Plan) :
    plan.solving s =
      s.together plan.required (plan.candidates.map (solvedGroup s)) plan.tag := by
  cases plan with
  | joint selection tag =>
    rw [solving, candidates, List.map_map]
    simp only [Function.comp_def, solvedGroup_alone]
    rfl
  | perCandidate required groups tag => rfl

/-- A plan that runs has only rules that are accepted. -/
theorem accepts_of_run {s : Setting} {plan : Plan} {slots : List Slot} (h : plan.run s = .ok slots) :
    ∀ id ∈ plan.involved, s.Accepts id := by
  rw [run_eq] at h
  rcases hcheck : s.checkKinds plan.involved.toList with e | ⟨⟩
  · rw [hcheck] at h
    cases h
  · exact (s.checkKinds_ok_iff _).mp hcheck

/-- At an instant a plan is left open when it asks for something, all its required resources are
left open, and each group has an alternative with needs, which are all left open. -/
def LeftAt (s : Setting) (plan : Plan) (t : Int) : Prop :=
  plan.Asks ∧ (∀ id ∈ plan.required, s.LeftAt id t) ∧
    ∀ group ∈ plan.alternatives, ∃ needs ∈ group, needs ≠ [] ∧ ∀ id ∈ needs, s.LeftAt id t

/-- Where bookings last and alternatives need something, a plan is left open when it can be
carried out. -/
theorem leftAt_iff_possibleAt {s : Setting} {plan : Plan} (hb : s.BooksProperly)
    (hg : plan.Grounded) (t : Int) : plan.LeftAt s t ↔ plan.PossibleAt s t := by
  unfold LeftAt PossibleAt
  simp only [Setting.leftAt_iff_freeAt hb]
  refine and_congr_right fun _ => and_congr_right fun _ => ?_
  refine forall₂_congr fun group hgroup => exists_congr fun needs => and_congr_right fun hn => ?_
  exact and_iff_right (hg group hgroup needs hn)

/-- Whenever a plan runs, its answer lists the instants at which it is left open. -/
theorem canonical_leftAt {s : Setting} {plan : Plan} {slots : List Slot}
    (h : plan.run s = .ok slots) : Canonical plan.tag (plan.LeftAt s) slots := by
  rw [run_eq, solving_eq] at h
  obtain ⟨_, _, hrun⟩ := bind_eq_ok.mp h
  have hcanonical := Setting.canonical_of_together
    (fun g _ => Setting.groupMeans_candidates g) hrun
  refine canonical_congr hcanonical fun t => ?_
  simp [LeftAt, Asks, alternatives_eq]

/-- Whenever a plan runs, its answer lists what it means. -/
theorem canonical_of_run {s : Setting} {plan : Plan} {slots : List Slot} (hb : s.BooksProperly)
    (hg : plan.Grounded) (h : plan.run s = .ok slots) :
    Canonical plan.tag (plan.PossibleAt s) slots :=
  canonical_congr (canonical_leftAt h) (leftAt_iff_possibleAt hb hg)

/-! ## The laws -/

/-- A plan that runs answers with the one canonical list of the instants at which it can be
carried out. Nothing else of the question shows in the answer: not how slots merge, in which
order resources are met, nor which of them are named twice. -/
theorem a_plan_answers_what_it_means {s : Setting} {plan : Plan} {slots : List Slot}
    (hb : s.BooksProperly) (hg : plan.Grounded) (h : plan.run s = .ok slots) :
    Canonical plan.tag (plan.PossibleAt s) slots ∧
      ∀ (s' : Setting) (plan' : Plan) (slots' : List Slot), s'.BooksProperly →
        plan'.Grounded → plan'.tag = plan.tag →
        (∀ t, plan'.PossibleAt s' t ↔ plan.PossibleAt s t) → plan'.run s' = .ok slots' →
        slots' = slots := by
  have hcanonical := canonical_of_run hb hg h
  refine ⟨hcanonical, ?_⟩
  intro s' plan' slots' hb' hg' htag hsame h'
  have hcanonical' := canonical_of_run hb' hg' h'
  rw [htag, funext fun t => propext (hsame t)] at hcanonical'
  exact canonical_unique hcanonical' hcanonical

end Plan

/-! ## A day at two rooms -/

namespace Sample

/-- A whole hour of the day. -/
def clock (hour : Nat) (h : hour < 24) : TimeOfDay := { TimeOfDay.midnight with hour, hour_lt := h }

def nine : TimeOfDay := clock 9 (by decide)

def noon : TimeOfDay := clock 12 (by decide)

def two : TimeOfDay := clock 14 (by decide)

def three : TimeOfDay := clock 15 (by decide)

/-- 2025-03-12. -/
def wednesday : Date := ⟨20159, by decide, by decide⟩

/-- The one day that is asked for. -/
def day : Period := ⟨wednesday, wednesday, by decide⟩

/-- Both rooms are open from nine to three. -/
def openRule : Rule where
  id := 1
  kind := .dateRange
  excludes := false
  first := none
  last := none
  date := none
  hours := ⟨nine, some three, by rintro t ⟨⟩; decide⟩
  weekdays := none
  dayOfMonth := none
  interval := none
  resources := [1, 2]

/-- The first room is booked from nine to noon. -/
def booking : BusyEvent :=
  ⟨1, ⟨wednesday, nine⟩, ⟨wednesday, noon⟩, [1], by decide⟩

/-- The rooms are closed for the last hour of the day. -/
def closingRule : Rule where
  id := 2
  kind := .singleDate
  excludes := true
  first := none
  last := none
  date := some wednesday
  hours := ⟨two, some three, by rintro t ⟨⟩; decide⟩
  weekdays := none
  dayOfMonth := none
  interval := none
  resources := [2]

def setting : Setting := ⟨.restricted, day, .ofLists [openRule, closingRule] [booking] []⟩

/-- The first room, together with one of the second room and the first with all it needs. -/
def plan : Plan := .perCandidate [1] [[⟨2, [2]⟩, ⟨1, [1, 2]⟩]] (.ofList [1, 2])

/-- Both rooms together. -/
def bothRooms : Plan := .joint ⟨[1, 2], []⟩ (.ofList [1, 2])

end Sample

/-- The rooms are free together from noon to two: the first one is booked before, and the second one
is closed after. -/
theorem the_rooms_are_free_in_the_afternoon :
    let afternoon : List Slot := [⟨⟨1741780800000, 1741788000000⟩, .ofList [1, 2]⟩]
    Sample.setting.BooksProperly ∧ Sample.plan.Grounded ∧
      Sample.plan.run Sample.setting = .ok afternoon ∧
      Canonical Sample.plan.tag (Sample.plan.PossibleAt Sample.setting) afternoon := by
  have hb : Sample.setting.BooksProperly := booksProperly_ofLists _ _ _ _ _
  have hg : Sample.plan.Grounded := by decide
  have hrun : Sample.plan.run Sample.setting =
      .ok [⟨⟨1741780800000, 1741788000000⟩, .ofList [1, 2]⟩] := by cbv
  exact ⟨hb, hg, hrun, (Plan.a_plan_answers_what_it_means hb hg hrun).1⟩

end FreeTime
