-- The laws of written forms. Much of what is read may be spelled in several ways: with blanks and
-- without leading zeros, at any offset, with members left out or in any order. What is written has
-- one form, and reading that form gives back the value it was written for.
import FreeTime.Proofs.Clock
import FreeTime.Proofs.Runs
import FreeTime.Proofs.Texts
import FreeTime.Wire.Request
import FreeTime.Wire.Store

namespace FreeTime.Wire

variable {α β : Type}

/-- A value that is read is read again from what is written for it. -/
def Lossless (read : Reader α) (write : α → Json) : Prop :=
  ∀ j a, read j = .ok a → read (write a) = .ok a

/-! ## Plain values -/

theorem lossless_int : Lossless int Json.int := by
  intro j n h
  cases j with
  | int m =>
    have hm : int (.int m) = .ok n := h
    rw [int] at h
    split at h
    · cases h
      exact hm
    · cases h
  | _ => cases h

theorem lossless_natUpTo (most : Nat) : Lossless (natUpTo most) writeNat := by
  intro j n h
  cases j with
  | int m =>
    rw [natUpTo] at h
    split at h
    · cases h
      have hfits : 0 ≤ (m.toNat : Int) ∧ (m.toNat : Int) ≤ most := by omega
      rw [writeNat, natUpTo, if_pos hfits, Int.toNat_natCast]
    · cases h
  | _ => cases h

theorem lossless_flag : Lossless flag Json.bool := fun _ _ _ => rfl

theorem lossless_text : Lossless text Json.text := fun _ _ _ => rfl

/-- A value that stands as a text is read from its own text. -/
theorem parsed_text {parse : String → Option α} {text : String} {a : α}
    (h : parse text = some a) : parsed parse (.text text) = .ok a := by
  rw [parsed, h]

theorem readTime_write (t : TimeOfDay) : readTime (writeTime t) = .ok t :=
  parsed_text t.ofText?_text

theorem readDate_write (d : Date) : readDate (writeDate d) = .ok d := parsed_text d.ofText?_text

theorem lossless_date : Lossless readDate writeDate := fun _ d _ => readDate_write d

theorem readMoment_write (m : Moment) : readMoment (writeMoment m) = .ok m :=
  parsed_text m.ofText?_text

theorem lossless_moment : Lossless readMoment writeMoment := fun _ m _ => readMoment_write m

theorem lossless_ruleKind : Lossless readRuleKind writeRuleKind := by
  intro _ kind _
  cases kind <;> rfl

theorem lossless_each {read : Reader α} {write : α → Json} (h : Lossless read write)
    {items : List Json} {values : List α} (hread : each read items = .ok values) :
    each read (values.map write) = .ok values := by
  induction items generalizing values with
  | nil =>
    cases hread
    rfl
  | cons item items ih =>
    simp only [each, bind_eq_ok] at hread
    obtain ⟨first, hfirst, others, hothers, hvalues⟩ := hread
    cases hvalues
    rw [List.map_cons, each, h item first hfirst, ih hothers]
    rfl

theorem lossless_list {read : Reader α} {write : α → Json} (h : Lossless read write) :
    Lossless (list read) (writeList write) := by
  intro j values hread
  cases j with
  | array items => exact lossless_each h hread
  | _ => cases hread

theorem lossless_ids : Lossless ids writeIds := lossless_list lossless_int

theorem optional_of_ne_null (read : Reader α) {j : Json} (h : j ≠ .null) :
    optional read j = some <$> read j := by
  cases j with
  | null => exact absurd rfl h
  | _ => rfl

/-- A value or none, where nothing is written as null but none. -/
theorem lossless_optional {read : Reader α} {write : α → Json} (h : Lossless read write)
    (hwrite : ∀ a, write a ≠ .null) : Lossless (optional read) (writeOption write) := by
  intro j a hread
  cases a with
  | none => rfl
  | some a =>
    have hj : j ≠ .null := by
      rintro rfl
      cases hread
    have ha : read j = .ok a := by
      rw [optional_of_ne_null read hj] at hread
      cases hvalue : read j with
      | error e =>
        rw [hvalue] at hread
        cases hread
      | ok value =>
        rw [hvalue] at hread
        cases hread
        rfl
    rw [writeOption, optional_of_ne_null read (hwrite a), h j a ha]
    rfl

/-! ## Members -/

theorem member_read {key : String} {absent : Members → Except Fault α} {read : Reader α}
    {m : Members} {place : Nat} {value : Json} {a : α} (h : read value = .ok a)
    (hunder : m.under key = [(place, value)]) : (member key absent read).read m = .ok a := by
  rw [read_member hunder, h]
  rfl

/-- A member is read again where what is written for its value stands under its key. -/
theorem member_again {key : String} {absent : Members → Except Fault α} {read : Reader α}
    {write : α → Json} (hread : Lossless read write) {m written : Members} {a : α}
    (habsent : absent m = .ok a → read (write a) = .ok a)
    (h : (member key absent read).read m = .ok a) {place : Nat}
    (hunder : written.under key = [(place, write a)]) :
    (member key absent read).read written = .ok a := by
  refine member_read ?_ hunder
  unfold member at h
  dsimp only at h
  split at h
  · exact habsent h
  · split at h
    · cases h
    · rename_i hvalue _
      cases h
      exact hread _ _ hvalue
    · cases h

variable {key : String} {read : Reader α} {write : α → Json} {m written : Members} {place : Nat}

theorem required_read {value : Json} {a : α} (h : read value = .ok a)
    (hunder : m.under key = [(place, value)]) : (required key read).read m = .ok a :=
  member_read h hunder

theorem required_again (hread : Lossless read write) {a : α}
    (h : (required key read).read m = .ok a) (hunder : written.under key = [(place, write a)]) :
    (required key read).read written = .ok a :=
  member_again hread (fun hmissing => nomatch hmissing) h hunder

theorem withDefault_again (hread : Lossless read write) {default a : α}
    (hdefault : read (write default) = .ok default)
    (h : (withDefault key default read).read m = .ok a)
    (hunder : written.under key = [(place, write a)]) :
    (withDefault key default read).read written = .ok a := by
  refine member_again hread (fun habsent => ?_) h hunder
  cases habsent
  exact hdefault

theorem optionalMember_again (hread : Lossless read write) (hwrite : ∀ a, write a ≠ .null)
    {a : Option α} (h : (optionalMember key read).read m = .ok a)
    (hunder : written.under key = [(place, writeOption write a)]) :
    (optionalMember key read).read written = .ok a := by
  refine member_again (lossless_optional hread hwrite) (fun habsent => ?_) h hunder
  split at habsent
  · cases habsent
    rfl
  · cases habsent

/-! ## Records -/

/-- What holds of every value made from a member holds of every value that the member has. -/
theorem forall_map {f : α → β} {a : Fields α} {P : β → Prop} :
    (∀ b, (f <$> a).read m = .ok b → P b) ↔ ∀ x, a.read m = .ok x → P (f x) := by
  simp only [read_map, applied_eq_ok]
  constructor
  · intro h x hx
    exact h (f x) ⟨f, x, rfl, hx, rfl⟩
  · rintro h b ⟨_, x, ⟨⟩, hx, rfl⟩
    exact h x hx

theorem forall_seq {f : Fields (α → β)} {a : Fields α} {P : β → Prop} :
    (∀ b, (f <*> a).read m = .ok b → P b) ↔
      ∀ g, f.read m = .ok g → ∀ x, a.read m = .ok x → P (g x) := by
  simp only [read_seq, applied_eq_ok]
  constructor
  · intro h g hg x hx
    exact h (g x) ⟨g, x, hg, hx, rfl⟩
  · rintro h b ⟨g, x, hg, hx, rfl⟩
    exact h g hg x hx

theorem map_again {f : α → β} {a : Fields α} {x : α} (h : a.read m = .ok x) :
    (f <$> a).read m = .ok (f x) := by
  rw [read_map, h]
  rfl

theorem seq_again {f : Fields (α → β)} {a : Fields α} {g : α → β} {x : α}
    (hf : f.read m = .ok g) (ha : a.read m = .ok x) : (f <*> a).read m = .ok (g x) := by
  rw [read_seq, hf, ha]
  rfl

theorem exists_read_of_record {fields : Fields α} {j : Json} {a : α}
    (h : record fields j = .ok a) : ∃ m, fields.read m = .ok a := by
  have houtcome : ∀ m, outcome (fields.read m) = .ok a → fields.read m = .ok a := by
    intro m hm
    cases hread : fields.read m with
    | error fault =>
      rw [hread] at hm
      cases hm
    | ok value =>
      rw [hread] at hm
      cases hm
      rfl
  cases j with
  | object entries => exact ⟨_, houtcome _ h⟩
  | array items =>
    simp only [record, bind_eq_ok] at h
    obtain ⟨value, hvalue, hlength⟩ := h
    split at hlength
    · cases hlength
      exact ⟨_, houtcome _ hvalue⟩
    · cases hlength
  | _ => cases h

/-- A record is lossless once the members of each written record are read as they were before. -/
theorem lossless_record {fields : Fields α} {entries : α → List (String × Json)}
    (h : ∀ m a, fields.read m = .ok a → fields.read ⟨true, entries a⟩ = .ok a) :
    Lossless (record fields) fun a => .object (entries a) := by
  intro j a hread
  obtain ⟨m, hm⟩ := exists_read_of_record hread
  rw [record, h m a hm]
  rfl

theorem checked_record {fields : Fields (Except RequestError α)} {entries : List (String × Json)}
    {a : α} (h : fields.read ⟨true, entries⟩ = .ok (.ok a)) :
    checked (record fields) (.object entries) = .ok a := by
  rw [checked, record, h]
  rfl

/-- The same for a record that is checked: what is written passes the check again. -/
theorem lossless_checked {fields : Fields (Except RequestError α)}
    {entries : α → List (String × Json)}
    (h : ∀ m b, fields.read m = .ok b →
      ∀ a, b = .ok a → fields.read ⟨true, entries a⟩ = .ok (.ok a)) :
    Lossless (checked (record fields)) fun a => .object (entries a) := by
  intro j a hread
  simp only [checked, bind_eq_ok] at hread
  obtain ⟨b, hb, hvalue⟩ := hread
  cases b with
  | error cause => cases hvalue
  | ok value =>
    cases hvalue
    obtain ⟨m, hm⟩ := exists_read_of_record hb
    exact checked_record (h m _ hm a rfl)

/-! ## Ranges, periods, rules and bookings -/

/-- The stop of a range is read from its text. No time is written like the end of the day. -/
theorem ofStopText_stopText (r : TimeRange) :
    TimeRange.ofStopText r.start r.stopText = .ok r := by
  obtain ⟨start, stop, horder⟩ := r
  cases stop with
  | none => rfl
  | some t =>
    have hplain : t.text ∉ TimeRange.endOfDay := by
      intro hmem
      have hnone : ∀ s ∈ TimeRange.endOfDay, TimeOfDay.ofText? s = none := by decide
      have hno := hnone t.text hmem
      rw [t.ofText?_text] at hno
      cases hno
    rw [TimeRange.ofStopText, TimeRange.stopText, if_neg hplain, t.ofText?_text]
    exact dif_pos (horder t rfl)

theorem readTimeRange_write (r : TimeRange) : readTimeRange (writeTimeRange r) = .ok r := by
  apply checked_record
  rw [← ofStopText_stopText r]
  refine seq_again (map_again ?_) ?_
  · exact required_read (readTime_write r.start) rfl
  · exact required_read rfl rfl

theorem lossless_timeRange : Lossless readTimeRange writeTimeRange :=
  fun _ r _ => readTimeRange_write r

theorem between_first_last (p : Period) : Period.between p.first p.last = .ok p :=
  dif_pos p.first_le

theorem readPeriod_write (p : Period) : readPeriod (writePeriod p) = .ok p := by
  apply checked_record
  rw [← between_first_last p]
  refine seq_again (map_again ?_) ?_
  · exact required_read (readDate_write p.first) rfl
  · exact required_read (readDate_write p.last) rfl

theorem lossless_period : Lossless readPeriod writePeriod := fun _ p _ => readPeriod_write p

theorem lossless_rule : Lossless readRule writeRule := by
  refine lossless_record fun m => ?_
  simp only [forall_seq, forall_map]
  intro id hid kind hkind excludes hexcludes first hfirst last hlast date hdate hours hhours
    weekdays hweekdays dayOfMonth hdayOfMonth interval hinterval resources hresources
  have hdateNull : ∀ d, writeDate d ≠ .null := fun _ => Json.noConfusion
  have hnatNull : ∀ n, writeNat n ≠ .null := fun _ => Json.noConfusion
  refine seq_again (seq_again (seq_again (seq_again (seq_again (seq_again (seq_again (seq_again
    (seq_again (seq_again (map_again ?_) ?_) ?_) ?_) ?_) ?_) ?_) ?_) ?_) ?_) ?_
  · exact required_again lossless_int hid rfl
  · exact required_again lossless_ruleKind hkind rfl
  · exact withDefault_again lossless_flag rfl hexcludes rfl
  · exact optionalMember_again lossless_date hdateNull hfirst rfl
  · exact optionalMember_again lossless_date hdateNull hlast rfl
  · exact optionalMember_again lossless_date hdateNull hdate rfl
  · exact required_again lossless_timeRange hhours rfl
  · exact optionalMember_again (lossless_natUpTo _) hnatNull hweekdays rfl
  · exact optionalMember_again (lossless_natUpTo _) hnatNull hdayOfMonth rfl
  · exact optionalMember_again (lossless_natUpTo _) hnatNull hinterval rfl
  · exact required_again lossless_ids hresources rfl

theorem lossless_busyEvent : Lossless readBusyEvent writeBusyEvent := by
  refine lossless_checked fun m => ?_
  simp only [forall_seq, forall_map]
  intro id hid start hstart stop hstop resources hresources e he
  obtain ⟨rfl, rfl, rfl, rfl⟩ := BusyEvent.between_eq_ok he
  rw [← he]
  refine seq_again (seq_again (seq_again (map_again ?_) ?_) ?_) ?_
  · exact required_again lossless_int hid rfl
  · exact required_again lossless_moment hstart rfl
  · exact required_again lossless_moment hstop rfl
  · exact required_again lossless_ids hresources rfl

/-! ## Fixtures -/

theorem lossless_resource : Lossless readResource writeResource := by
  refine lossless_record fun m => ?_
  simp only [forall_seq, forall_map]
  intro id hid type htype capacity hcapacity
  refine seq_again (seq_again (map_again ?_) ?_) ?_
  · exact required_again lossless_int hid rfl
  · exact required_again lossless_int htype rfl
  · exact withDefault_again (lossless_natUpTo _) rfl hcapacity rfl

theorem lossless_relation : Lossless readRelation writeRelation := by
  refine lossless_record fun m => ?_
  simp only [forall_seq, forall_map]
  intro parent hparent child hchild type htype
  refine seq_again (seq_again (map_again ?_) ?_) ?_
  · exact required_again lossless_int hparent rfl
  · exact required_again lossless_int hchild rfl
  · exact required_again lossless_int htype rfl

theorem lossless_propertyNode : Lossless readPropertyNode writePropertyNode := by
  refine lossless_record fun m => ?_
  simp only [forall_seq, forall_map]
  intro id hid parent hparent
  refine seq_again (map_again ?_) ?_
  · exact required_again lossless_int hid rfl
  · exact optionalMember_again lossless_int (fun _ => Json.noConfusion) hparent rfl

theorem lossless_propertyTag : Lossless readPropertyTag writePropertyTag := by
  refine lossless_record fun m => ?_
  simp only [forall_seq, forall_map]
  intro resource hresource property hproperty
  refine seq_again (map_again ?_) ?_
  · exact required_again lossless_int hresource rfl
  · exact required_again lossless_int hproperty rfl

theorem lossless_fixture : Lossless readFixture writeFixture := by
  refine lossless_record fun m => ?_
  simp only [fixtureFields, forall_seq, forall_map]
  intro resources hresources rules hrules busyEvents hbusyEvents relations hrelations
    properties hproperties tags htags
  refine seq_again (seq_again (seq_again (seq_again (seq_again (map_again ?_) ?_) ?_) ?_) ?_) ?_
  · exact withDefault_again (lossless_list lossless_resource) rfl hresources rfl
  · exact withDefault_again (lossless_list lossless_rule) rfl hrules rfl
  · exact withDefault_again (lossless_list lossless_busyEvent) rfl hbusyEvents rfl
  · exact withDefault_again (lossless_list lossless_relation) rfl hrelations rfl
  · exact withDefault_again (lossless_list lossless_propertyNode) rfl hproperties rfl
  · exact withDefault_again (lossless_list lossless_propertyTag) rfl htags rfl

/-! ## Requests -/

theorem lossless_propertyFilter : Lossless readPropertyFilter writePropertyFilter := by
  refine lossless_record fun m => ?_
  simp only [forall_seq, forall_map]
  intro properties hproperties descendants hdescendants
  refine seq_again (map_again ?_) ?_
  · exact required_again lossless_ids hproperties rfl
  · exact withDefault_again lossless_flag rfl hdescendants rfl

theorem lossless_ancestorOptions : Lossless readAncestorOptions writeAncestorOptions := by
  refine lossless_record fun m => ?_
  simp only [forall_seq, forall_map]
  intro mode hmode types htypes
  have hidsNull : ∀ ids, writeIds ids ≠ .null := fun _ => Json.noConfusion
  refine seq_again (map_again ?_) ?_
  · exact withDefault_again lossless_text rfl hmode rfl
  · exact withDefault_again (lossless_optional lossless_ids hidsNull) rfl htypes rfl

theorem lossless_ancestorFilterRequest :
    Lossless readAncestorFilterRequest writeAncestorFilterRequest := by
  refine lossless_record fun m => ?_
  simp only [forall_seq, forall_map]
  intro type htype properties hproperties descendants hdescendants mode hmode scope hscope
    every hevery
  refine seq_again (seq_again (seq_again (seq_again (seq_again (map_again ?_) ?_) ?_) ?_) ?_) ?_
  · exact required_again lossless_int htype rfl
  · exact required_again lossless_ids hproperties rfl
  · exact withDefault_again lossless_flag rfl hdescendants rfl
  · exact withDefault_again lossless_text rfl hmode rfl
  · exact withDefault_again lossless_text rfl hscope rfl
  · exact withDefault_again lossless_flag rfl hevery rfl

theorem lossless_request : Lossless readRequest writeRequest := by
  refine lossless_record fun m => ?_
  simp only [forall_seq, forall_map]
  intro first hfirst last hlast resources hresources groups hgroups filter hfilter
    ancestors hancestors filters hfilters minutes hminutes tail htail explain hexplain
  have hfilterNull : ∀ f, writePropertyFilter f ≠ .null := fun _ => Json.noConfusion
  have hancestorsNull : ∀ o, writeAncestorOptions o ≠ .null := fun _ => Json.noConfusion
  have hminutesNull : ∀ n, Json.int n ≠ .null := fun _ => Json.noConfusion
  refine seq_again (seq_again (seq_again (seq_again (seq_again (seq_again (seq_again (seq_again
    (seq_again (map_again ?_) ?_) ?_) ?_) ?_) ?_) ?_) ?_) ?_) ?_
  · exact required_again lossless_date hfirst rfl
  · exact required_again lossless_date hlast rfl
  · exact withDefault_again lossless_ids rfl hresources rfl
  · exact withDefault_again (lossless_list lossless_ids) rfl hgroups rfl
  · exact withDefault_again (lossless_optional lossless_propertyFilter hfilterNull) rfl hfilter rfl
  · exact withDefault_again (lossless_optional lossless_ancestorOptions hancestorsNull) rfl
      hancestors rfl
  · exact withDefault_again (lossless_list lossless_ancestorFilterRequest) rfl hfilters rfl
  · exact withDefault_again (lossless_optional lossless_int hminutesNull) rfl hminutes rfl
  · exact withDefault_again lossless_flag rfl htail rfl
  · exact withDefault_again lossless_flag rfl hexplain rfl

/-! ## The law -/

/-- A value that is read is written in a form that is read again, as the same value. So the form is
canonical: to read it and to write it once more changes nothing. -/
def RoundTrips (read : Reader α) (write : α → Json) : Prop :=
  ∀ j a, read j = .ok a →
    read (write a) = .ok a ∧ write <$> read (write a) = .ok (write a)

theorem roundTrips_of_lossless {read : Reader α} {write : α → Json} (h : Lossless read write) :
    RoundTrips read write := by
  intro j a hread
  have hagain := h j a hread
  refine ⟨hagain, ?_⟩
  rw [hagain]
  rfl

/-- Ranges, periods, rules, bookings, fixtures and requests are written in one form each, and that
form is read as the value it was written for, however the value was spelled when it was first read.
There is no range, no period and no moment that cannot be read. -/
theorem what_is_read_is_written_in_one_form :
    RoundTrips readTimeRange writeTimeRange ∧ RoundTrips readPeriod writePeriod ∧
      RoundTrips readRule writeRule ∧ RoundTrips readBusyEvent writeBusyEvent ∧
      RoundTrips readFixture writeFixture ∧ RoundTrips readRequest writeRequest ∧
      (∀ r, readTimeRange (writeTimeRange r) = .ok r) ∧
      (∀ p, readPeriod (writePeriod p) = .ok p) ∧
      ∀ m, readMoment (writeMoment m) = .ok m :=
  ⟨roundTrips_of_lossless lossless_timeRange, roundTrips_of_lossless lossless_period,
    roundTrips_of_lossless lossless_rule, roundTrips_of_lossless lossless_busyEvent,
    roundTrips_of_lossless lossless_fixture, roundTrips_of_lossless lossless_request,
    readTimeRange_write, readPeriod_write, readMoment_write⟩

end FreeTime.Wire

namespace FreeTime

open Wire

namespace Sample

/-- A fixture with one rule and one booking, spelled with blanks, without leading zeros, at an
offset, in a leap second, and with members in another order or left out. -/
def spelled : Json :=
  .object [
    ("busy_events", .array [.object [("end", .text "2016-12-31t23:59:60.25 z"), ("id", .int 3),
      ("resource_ids", .array [.int 7, .int 7]),
      ("start", .text "2017-1-1T05:00:00.000000001+05:30")]]),
    ("rules", .array [.object [("id", .int 1), ("kind", .text "weekly"),
      ("from", .text "+12345-1-2"), ("resource_ids", .array [.int 7]),
      ("time_range", .object [("start", .text " 9:5"), ("end", .text "24:00")])]])]

end Sample

/-- The fixture is read, and it is read again from its written form, where its moments, its date and
its hours stand like this. -/
theorem a_fixture_may_be_spelled_freely :
    ∃ f, readFixture Sample.spelled = .ok f ∧ readFixture (writeFixture f) = .ok f ∧
      f.busyEvents.map (fun e => (e.start.text, e.stop.text, e.resources)) =
        [("2016-12-31T23:30:00.000000001Z", "2016-12-31T23:59:60.250Z", [7, 7])] ∧
      f.rules.map (fun r => (r.first.map Date.text, r.hours.start.text, r.hours.stopText)) =
        [(some "+12345-01-02", "09:05:00", "24:00:00")] := by
  refine ⟨_, rfl, (what_is_read_is_written_in_one_form.2.2.2.2.1 Sample.spelled _ rfl).1, ?_, ?_⟩
  · decide +kernel
  · decide +kernel

end FreeTime
