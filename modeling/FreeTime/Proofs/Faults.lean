-- The laws of faults. Everything that a request is checked for stands in one list, in order. The
-- first check of the list that is not passed names the error; where all of them are passed there is
-- a query, and its selection is that of the request without the repeats.
import FreeTime.Proofs.Validation
import Mathlib.Data.List.Forall2

namespace FreeTime

/-! ## Lists of checks -/

/-- What something has to be, as it turned out, and the error if it is not so. -/
structure Check where
  passed : Bool
  fault : RequestError
deriving DecidableEq

/-- The error of the first check that is not passed. -/
def firstFault (checks : List Check) : Option RequestError :=
  (checks.find? fun c => !c.passed).map Check.fault

theorem firstFault_append (checks later : List Check) :
    firstFault (checks ++ later) = (firstFault checks).or (firstFault later) := by
  simp [firstFault, List.find?_append, Option.map_or]

theorem firstFault_cons {p : Prop} [Decidable p] (fault : RequestError) (checks : List Check) :
    firstFault (⟨p, fault⟩ :: checks) = if p then firstFault checks else some fault := by
  by_cases hp : p <;> simp [firstFault, hp]

theorem firstFault_eq_none {checks : List Check} :
    firstFault checks = none ↔ ∀ c ∈ checks, c.passed = true := by
  simp [firstFault]

/-! ## Computations that check -/

section

variable {α β : Type} {checks later : List Check}

/-- A computation fails with the first fault of some checks, and with nothing else. -/
def Follows (m : Except RequestError α) (checks : List Check) : Prop :=
  ∀ e, m = .error e ↔ firstFault checks = some e

theorem follows_ok (a : α) : Follows (.ok a) [] := fun e => by simp [firstFault]

variable {p : Prop} [Decidable p] {fault : RequestError} {m : Except RequestError α}

/-- Where the first check is not passed its error is the outcome; else what comes after counts. -/
theorem follows_cons (hfailed : ¬ p → m = .error fault) (hpassed : p → Follows m later) :
    Follows m (⟨p, fault⟩ :: later) := fun e => by
  rw [firstFault_cons]
  by_cases hp : p
  · rw [if_pos hp, hpassed hp e]
  · rw [if_neg hp, hfailed hp, Except.error.injEq, Option.some.injEq]

theorem follows_one (hfailed : ¬ p → m = .error fault) (hpassed : p → ∃ a, m = .ok a) :
    Follows m [⟨p, fault⟩] :=
  follows_cons hfailed fun hp => by
    obtain ⟨a, rfl⟩ := hpassed hp
    exact follows_ok a

theorem follows_guard {q : Prop} [Decidable q] (hpassed : p ↔ ¬ q) (hm : Follows m later) :
    Follows (if q then .error fault else m) (⟨p, fault⟩ :: later) := by
  refine follows_cons (fun hfailed => ?_) fun hp => ?_
  · exact if_pos (Decidable.not_not.mp fun hq => hfailed (hpassed.mpr hq))
  · rwa [if_neg (hpassed.mp hp)]

theorem firstFault_of_ok {a : α} (hm : Follows m checks) (hrun : m = .ok a) :
    firstFault checks = none :=
  Option.eq_none_iff_forall_ne_some.mpr fun e he => by
    rw [(hm e).mpr he] at hrun
    cases hrun

theorem follows_bind {f : α → Except RequestError β} (hm : Follows m checks)
    (hf : ∀ a, m = .ok a → Follows (f a) later) : Follows (m >>= f) (checks ++ later) := fun e => by
  rw [firstFault_append]
  cases hrun : m with
  | error first =>
    rw [(hm first).mp hrun]
    exact Iff.intro (fun h => by cases h; rfl) (fun h => by cases h; rfl)
  | ok a =>
    rw [firstFault_of_ok hm hrun, Option.none_or]
    exact hf a hrun e

/-- What is made of a checked value fails as the check does. -/
theorem follows_map (f : α → β) (hm : Follows m checks) :
    Follows (m >>= fun a => .ok (f a)) checks := by
  simpa using follows_bind hm fun a _ => follows_ok (f a)

theorem exists_ok_iff (hm : Follows m checks) :
    (∃ a, m = .ok a) ↔ firstFault checks = none := by
  constructor
  · rintro ⟨a, hrun⟩
    exact firstFault_of_ok hm hrun
  · intro hnone
    cases hrun : m with
    | ok a => exact ⟨a, rfl⟩
    | error e =>
      rw [(hm e).mp hrun] at hnone
      cases hnone

end

/-! ## Ids, names and properties -/

def idChecks (ids : List Int) : List Check := ids.map fun id => ⟨0 < id, .nonPositiveId id⟩

def propertyChecks (properties : List Int) : List Check :=
  [⟨properties ≠ [], .noProperties⟩,
    ⟨properties.length ≤ mostProperties, .tooManyProperties properties.length mostProperties⟩]

def ancestorModeCheck (name : String) : Check :=
  ⟨name ∈ ["per_group", "perGroup", "global"], .unknownAncestorMode name⟩

def matchModeCheck (name : String) : Check := ⟨name ∈ ["or", "and"], .unknownMatchMode name⟩

def scopeCheck (name : String) : Check :=
  ⟨name ∈ ["any_ancestor", "anyAncestor", "direct_parent", "directParent", "nearest_of_type",
    "nearestOfType"], .unknownScope name⟩

theorem follows_checkIds (ids : List Int) : Follows (checkIds ids) (idChecks ids) := by
  induction ids with
  | nil => exact follows_ok ()
  | cons id ids ih =>
    refine follows_cons (fun hfailed => ?_) fun hpassed => ?_
    · have hid : id ≤ 0 := Int.not_lt.mp hfailed
      simp [checkIds, hid]
    · have hid : ¬ id ≤ 0 := Int.not_le.mpr hpassed
      have hrest : checkIds (id :: ids) = checkIds ids := by simp [checkIds, hid]
      rw [hrest]
      exact ih

theorem follows_checkProperties (properties : List Int) :
    Follows (checkProperties properties) (propertyChecks properties) := by
  unfold checkProperties
  exact follows_guard (by simp) (follows_guard (by simp) (follows_ok ()))

theorem follows_ancestorMode (name : String) :
    Follows (AncestorMode.ofName name) [ancestorModeCheck name] := by
  refine follows_one (fun hunknown => ?_) fun hknown => ?_
  · simp only [List.mem_cons, List.not_mem_nil, or_false, not_or] at hunknown
    simp [AncestorMode.ofName, hunknown]
  · simp only [List.mem_cons, List.not_mem_nil, or_false] at hknown
    rcases hknown with rfl | rfl | rfl <;> exact ⟨_, rfl⟩

theorem follows_matchMode (name : String) :
    Follows (MatchMode.ofName name) [matchModeCheck name] := by
  refine follows_one (fun hunknown => ?_) fun hknown => ?_
  · simp only [List.mem_cons, List.not_mem_nil, or_false, not_or] at hunknown
    simp [MatchMode.ofName, hunknown]
  · simp only [List.mem_cons, List.not_mem_nil, or_false] at hknown
    rcases hknown with rfl | rfl <;> exact ⟨_, rfl⟩

theorem follows_scope (name : String) :
    Follows (AncestorScope.ofName name) [scopeCheck name] := by
  refine follows_one (fun hunknown => ?_) fun hknown => ?_
  · simp only [List.mem_cons, List.not_mem_nil, or_false, not_or] at hunknown
    simp [AncestorScope.ofName, hunknown]
  · simp only [List.mem_cons, List.not_mem_nil, or_false] at hknown
    rcases hknown with rfl | rfl | rfl | rfl | rfl | rfl <;> exact ⟨_, rfl⟩

/-! ## Groups and ancestor filters -/

def groupChecks (index : Nat) (group : List Int) : List Check :=
  [⟨group ≠ [], .emptyGroup index⟩,
    ⟨group.length ≤ mostMembers, .groupTooLarge index group.length mostMembers⟩] ++ idChecks group

/-- The checks of one group after another, the first at a given index. -/
def groupsChecks (index : Nat) (groups : List (List Int)) : List Check :=
  (groups.zipIdx index).flatMap fun (group, index) => groupChecks index group

theorem groupsChecks_cons (index : Nat) (group : List Int) (groups : List (List Int)) :
    groupsChecks index (group :: groups) =
      groupChecks index group ++ groupsChecks (index + 1) groups := rfl

def filterChecks (f : AncestorFilterRequest) : List Check :=
  propertyChecks f.properties ++ [matchModeCheck f.mode, scopeCheck f.scope]

theorem follows_checkGroup (index : Nat) (group : List Int) :
    Follows (checkGroup index group) (groupChecks index group) := by
  unfold checkGroup
  apply follows_guard
  · simp
  · apply follows_guard
    · simp
    · exact follows_map _ (follows_checkIds group)

theorem follows_checkGroups (index : Nat) (groups : List (List Int)) :
    Follows (checkGroups index groups) (groupsChecks index groups) := by
  induction groups generalizing index with
  | nil => exact follows_ok []
  | cons group groups ih =>
    exact follows_bind (follows_checkGroup index group) fun first _ =>
      follows_map (first :: ·) (ih (index + 1))

theorem follows_filterCheck (f : AncestorFilterRequest) : Follows f.check (filterChecks f) := by
  refine follows_bind (follows_checkProperties f.properties) fun _ _ => ?_
  exact follows_bind (follows_matchMode f.mode) fun mode _ => follows_map _ (follows_scope f.scope)

theorem follows_checkAncestorFilters (fs : List AncestorFilterRequest) :
    Follows (checkAncestorFilters fs) (fs.flatMap filterChecks) := by
  induction fs with
  | nil => exact follows_ok []
  | cons f fs ih =>
    exact follows_bind (follows_filterCheck f) fun first _ => follows_map (first :: ·) ih

/-! ## Requests -/

namespace Request

def periodChecks (r : Request) : List Check :=
  [⟨r.first ≤ r.last, .periodOrder r.first r.last⟩,
    ⟨r.first.daysUntil r.last + 1 ≤ mostDays,
      .periodTooLong (r.first.daysUntil r.last + 1) mostDays⟩]

def selectionChecks (r : Request) : List Check :=
  ⟨r.resources ≠ [] ∨ r.groups ≠ [], .noResources⟩ ::
  ⟨r.resources.length ≤ mostResources,
    .tooManyResources r.resources.length mostResources⟩ ::
  (idChecks r.resources ++
  ⟨r.groups.length ≤ mostGroups, .tooManyGroups r.groups.length mostGroups⟩ ::
  groupsChecks 0 r.groups)

def slicingChecks (r : Request) : List Check :=
  r.slotMinutes.toList.map fun minutes =>
    ⟨leastSlotMinutes ≤ minutes ∧ minutes ≤ mostSlotMinutes,
      .slotDuration minutes leastSlotMinutes mostSlotMinutes⟩

/-- Everything that a request is checked for, in order. -/
def checks (r : Request) : List Check :=
  r.periodChecks ++ (r.selectionChecks ++
  (r.propertyFilter.toList.flatMap (fun f => propertyChecks f.properties) ++
  (r.ancestors.toList.map (fun a => ancestorModeCheck a.mode) ++
  ⟨r.ancestorFilters.length ≤ mostAncestorFilters,
    .tooManyAncestorFilters r.ancestorFilters.length mostAncestorFilters⟩ ::
  (r.ancestorFilters.flatMap filterChecks ++ r.slicingChecks))))

theorem follows_checkPeriod (r : Request) : Follows r.checkPeriod r.periodChecks := by
  unfold checkPeriod Period.between
  refine follows_cons (fun hlate => ?_) fun horder => ?_
  · rw [dif_neg hlate]
    rfl
  · rw [dif_pos horder]
    exact follows_guard (by simp [Period.length]) (follows_ok _)

theorem follows_checkSelection (r : Request) : Follows r.checkSelection r.selectionChecks := by
  have hgroups := follows_map (Selection.mk (distinct r.resources)) (follows_checkGroups 0 r.groups)
  unfold checkSelection
  refine follows_guard (by simp [Decidable.imp_iff_not_or]) (follows_guard (by simp) ?_)
  exact follows_bind (follows_checkIds r.resources) fun _ _ => follows_guard (by simp) hgroups

theorem follows_checkAncestors (r : Request) :
    Follows r.checkAncestors (r.ancestors.toList.map fun a => ancestorModeCheck a.mode) := by
  unfold checkAncestors
  cases r.ancestors with
  | none => exact follows_ok none
  | some options => exact follows_map _ (follows_ancestorMode options.mode)

theorem follows_checkSlicing (r : Request) : Follows r.checkSlicing r.slicingChecks := by
  unfold checkSlicing slicingChecks
  cases r.slotMinutes with
  | none => exact follows_ok none
  | some minutes =>
    exact follows_one (fun hfailed => if_neg hfailed) fun hpassed => ⟨_, if_pos hpassed⟩

theorem follows_validate (r : Request) : Follows r.validate r.checks := by
  unfold validate
  refine follows_bind r.follows_checkPeriod fun period _ => ?_
  refine follows_bind r.follows_checkSelection fun selection _ => ?_
  cases r.propertyFilter
  case' none => rw [Option.toList_none, List.flatMap_nil, List.nil_append]
  case' some f => refine follows_bind (follows_checkProperties f.properties) fun _ _ => ?_
  -- What comes after the property filter is the same whether there is one or not.
  all_goals
    refine follows_bind r.follows_checkAncestors fun ancestors _ => follows_guard (by simp) ?_
    refine follows_bind (follows_checkAncestorFilters r.ancestorFilters) fun filters _ => ?_
    exact follows_map _ r.follows_checkSlicing

end Request

/-! ## What is passed -/

theorem passed_idChecks {ids : List Int} :
    (∀ c ∈ idChecks ids, c.passed = true) ↔ ∀ id ∈ ids, 0 < id := by
  simp [idChecks]

theorem passed_propertyChecks {properties : List Int} :
    (∀ c ∈ propertyChecks properties, c.passed = true) ↔
      properties ≠ [] ∧ properties.length ≤ mostProperties := by
  simp [propertyChecks]

theorem passed_groupsChecks {index : Nat} {groups : List (List Int)} :
    (∀ c ∈ groupsChecks index groups, c.passed = true) ↔
      ∀ g ∈ groups, g ≠ [] ∧ g.length ≤ mostMembers ∧ ∀ id ∈ g, 0 < id := by
  induction groups generalizing index with
  | nil => simp [groupsChecks]
  | cons group groups ih =>
    simp only [groupsChecks_cons, groupChecks, List.forall_mem_append, List.forall_mem_cons,
      passed_idChecks, ih, decide_eq_true_eq]
    simp [and_assoc]

theorem passed_filterChecks {f : AncestorFilterRequest} :
    (∀ c ∈ filterChecks f, c.passed = true) ↔
      (f.properties ≠ [] ∧ f.properties.length ≤ mostProperties) ∧ f.mode ∈ ["or", "and"] ∧
        f.scope ∈ ["any_ancestor", "anyAncestor", "direct_parent", "directParent",
          "nearest_of_type", "nearestOfType"] := by
  simp only [filterChecks, List.forall_mem_append, passed_propertyChecks, List.forall_mem_cons,
    matchModeCheck, scopeCheck, decide_eq_true_eq]
  simp

namespace Request

variable {r : Request}

/-- A request is valid just if it passes every check. -/
theorem valid_iff : r.Valid ↔ ∀ c ∈ r.checks, c.passed = true := by
  simp only [checks, periodChecks, selectionChecks, slicingChecks, List.forall_mem_append,
    List.forall_mem_cons, List.forall_mem_map, List.forall_mem_flatMap, passed_idChecks,
    passed_groupsChecks, passed_propertyChecks, passed_filterChecks, ancestorModeCheck,
    decide_eq_true_eq, Option.mem_toList]
  constructor
  · rintro ⟨h1, h2, h3, h4, h5, h6, h7, h8, h9, h10, h11, h12⟩
    exact ⟨⟨h1, h2, by simp⟩, ⟨h3, h4, h5, h6, h7⟩, h8, h9, h10, h11, h12⟩
  · rintro ⟨⟨h1, h2, -⟩, ⟨h3, h4, h5, h6, h7⟩, h8, h9, h10, h11, h12⟩
    exact ⟨h1, h2, h3, h4, h5, h6, h7, h8, h9, h10, h11, h12⟩

end Request

/-! ## Without repeats -/

/-- A list holds the ids of another one, each once and in the order of their first places. -/
def KeepsFirst (ids kept : List Int) : Prop :=
  (∀ x, x ∈ kept ↔ x ∈ ids) ∧ kept.Pairwise fun a b => ids.idxOf a < ids.idxOf b

theorem keepsFirst_distinct (ids : List Int) : KeepsFirst ids (distinct ids) := by
  refine ⟨fun x => mem_distinct, ?_⟩
  induction ids with
  | nil => exact List.Pairwise.nil
  | cons id ids ih =>
    have hplace : ∀ x ∈ (distinct ids).filter (· != id),
        (id :: ids).idxOf x = ids.idxOf x + 1 := fun x hx => by
      have hne : x ≠ id := by simpa using (List.mem_filter.mp hx).2
      exact List.idxOf_cons_ne _ hne.symm
    rw [distinct, List.pairwise_cons]
    refine ⟨fun x hx => ?_, (ih.filter _).imp_of_mem fun ha hb hab => ?_⟩
    · rw [hplace x hx, List.idxOf_cons_self]
      exact Nat.succ_pos _
    · rw [hplace _ ha, hplace _ hb]
      exact Nat.succ_lt_succ hab

namespace Request

/-- Slots that are asked for have a length. -/
theorem Becomes.duration_pos {r : Request} {q : Query} (h : r.Becomes q) :
    ∀ s ∈ q.slicing, 0 < s.duration := by
  have hslicing := h.slicing
  unfold checkSlicing at hslicing
  split at hslicing
  · rw [← Except.ok.inj hslicing]
    simp
  · split at hslicing
    · rename_i minutes _ hbounds
      rw [← Except.ok.inj hslicing]
      rintro s ⟨⟩
      have : 0 < minutes := Int.lt_of_lt_of_le (by decide) hbounds.1
      exact Int.mul_pos this (by decide)
    · cases hslicing

/-! ## The law -/

/-- A request that is valid becomes a query, whose required resources and whose groups are those of
the request without the repeats, each id at its first place; no group is empty, and slots that are
asked for have a length. A request that is not valid is refused with the first of its faults. -/
theorem a_request_is_valid_or_its_first_fault_is_named (r : Request) :
    (r.Valid ∧ ∃ q, r.validate = .ok q ∧ KeepsFirst r.resources q.selection.required ∧
        List.Forall₂ KeepsFirst r.groups q.selection.groups ∧
        (∀ g ∈ q.selection.groups, g ≠ []) ∧ ∀ s ∈ q.slicing, 0 < s.duration) ∨
      (¬ r.Valid ∧ ∃ e, firstFault r.checks = some e ∧ r.validate = .error e) := by
  have hvalid : r.Valid ↔ firstFault r.checks = none := valid_iff.trans firstFault_eq_none.symm
  cases hfault : firstFault r.checks with
  | none =>
    obtain ⟨q, hq⟩ := (exists_ok_iff r.follows_validate).mpr hfault
    have hbecomes := validate_ok_iff.mp hq
    obtain ⟨hselection, hsensible⟩ := checkSelection_eq_ok hbecomes.selection
    refine Or.inl ⟨hvalid.mpr hfault, q, hq, ?_, ?_, hsensible.groups, hbecomes.duration_pos⟩
    · rw [hselection]
      exact keepsFirst_distinct r.resources
    · rw [hselection, List.forall₂_map_right_iff, List.forall₂_same]
      exact fun group _ => keepsFirst_distinct group
  | some e =>
    refine Or.inr ⟨fun h => ?_, e, rfl, (r.follows_validate e).mpr hfault⟩
    rw [hvalid.mp h] at hfault
    cases hfault

-- Three faults: a group is looked at as a whole before the next one, and slots come last.
example : (⟨.first, .first, [], [[4, 0], []], none, none, [], some 3, false, false⟩ :
    Request).validate = .error (.nonPositiveId 0) := by decide

end Request

end FreeTime
