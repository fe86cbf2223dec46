-- The laws of cutting. Cutting moves a cursor from block to block and keeps what it passes over in
-- between. Blocks may overlap, nest, touch, or start before the span that is cut: what is left are
-- always the widest pieces that keep clear of all of them, so there is nothing more to cut away.
import FreeTime.Proofs.Slots

namespace FreeTime

namespace Span

variable {base x : Span} {blocks : List Span}

/-! ## Pieces -/

/-- A span that holds an instant lies in the base and keeps clear of all blocks. -/
structure FreeIn (base : Span) (blocks : List Span) (x : Span) : Prop where
  proper : x.Proper
  inside : base.contains x = true
  clear : ∀ b ∈ blocks, b.overlaps x = false

/-- A span that is free in the base, and in no wider span that is. -/
structure WidestIn (base : Span) (blocks : List Span) (x : Span) : Prop
    extends FreeIn base blocks x where
  widest : ∀ y, FreeIn base blocks y → y.contains x = true → y = x

/-- To keep clear of blocks is to share no instant with them. -/
theorem freeIn_iff (hb : AllProper blocks) : FreeIn base blocks x ↔
    x.Proper ∧ ∀ t, x.Covers t → base.Covers t ∧ ¬ CoveredBy blocks t := by
  constructor
  · rintro ⟨hproper, hinside, hclear⟩
    rw [contains_iff] at hinside
    refine ⟨hproper, fun t ht => ⟨?_, ?_⟩⟩
    · simp only [Covers] at ht ⊢
      omega
    · rintro ⟨b, hmem, hbt⟩
      have hfalse := hclear b hmem
      simp only [overlaps, Bool.and_eq_false_iff, decide_eq_false_iff_not] at hfalse
      simp only [Covers] at ht hbt
      omega
  · rintro ⟨hproper, hfree⟩
    have hproper' : x.start < x.stop := hproper
    have hfirst := (hfree x.start ⟨Int.le_refl _, hproper'⟩).1
    have hlast := (hfree (x.stop - 1) ⟨by omega, by omega⟩).1
    refine ⟨hproper, contains_iff.mpr ⟨hfirst.1, by have := hlast.2; omega⟩, fun b hmem => ?_⟩
    rw [← Bool.not_eq_true]
    intro hover
    simp only [overlaps, Bool.and_eq_true, decide_eq_true_eq] at hover
    -- Where the later of the two starts, both are there.
    have hbproper : b.start < b.stop := hb b hmem
    exact (hfree (max b.start x.start) ⟨by omega, by omega⟩).2 ⟨b, hmem, by omega, by omega⟩

theorem le_start_of_mem_carve (blocks : List Span) {cursor stop : Int}
    (hx : x ∈ carve cursor stop blocks) : cursor ≤ x.start := by
  induction blocks generalizing cursor with
  | nil =>
    rcases List.mem_singleton.mp hx with rfl
    exact Int.le_refl _
  | cons block rest ih =>
    have hfree : x ∈ (if cursor < block.start then [(⟨cursor, block.start⟩ : Span)] else []) →
        cursor ≤ x.start := by
      intro hx
      split at hx
      · rcases List.mem_singleton.mp hx with rfl
        exact Int.le_refl _
      · cases hx
    simp only [carve] at hx
    split at hx
    · rcases List.mem_singleton.mp hx with rfl
      exact Int.le_refl _
    · split at hx
      · exact hfree hx
      · rcases List.mem_append.mp hx with hx | hx
        · exact hfree hx
        · have := ih hx
          omega

/-- Between two pieces lies at least the block that parts them. -/
theorem carve_apart (hb : AllProper blocks) (cursor stop : Int) :
    Apart (carve cursor stop blocks) := by
  induction blocks generalizing cursor with
  | nil => exact List.pairwise_singleton _ _
  | cons block rest ih =>
    have hblock : block.start < block.stop := hb block (by simp)
    have hrest := ih (fun b hmem => hb b (List.mem_cons_of_mem _ hmem))
    unfold carve
    split
    · exact List.pairwise_singleton _ _
    · by_cases hfree : cursor < block.start
      · simp only [hfree, if_true]
        split
        · exact List.pairwise_singleton _ _
        · refine List.pairwise_cons.mpr ⟨fun x hx => ?_, hrest _⟩
          have := le_start_of_mem_carve rest hx
          simp only
          omega
      · simp only [hfree, if_false, List.nil_append]
        split
        · exact List.Pairwise.nil
        · exact hrest _

theorem punch_apart (hb : AllProper blocks) (base : Span) : Apart (base.punch blocks) :=
  carve_apart (fun b hmem => hb b ((List.dropWhile_sublist _).mem hmem)) _ _

/-- A piece covers nothing but what the span covers and no block does. -/
theorem freeIn_of_mem_punch (hbase : base.Proper) (hb : AllProper blocks) (ho : ByStart blocks)
    (hx : x ∈ base.punch blocks) : FreeIn base blocks x :=
  (freeIn_iff hb).mpr ⟨punch_proper blocks hbase x hx, fun t ht =>
    (coveredBy_punch base ho t).mp ⟨x, hx, ht⟩⟩

/-- Every free span lies in one piece: it cannot reach over the block between two. -/
theorem exists_piece (hb : AllProper blocks) (ho : ByStart blocks) (hx : FreeIn base blocks x) :
    ∃ piece ∈ base.punch blocks, piece.contains x = true :=
  exists_contains_of_covered (punch_apart hb base) hx.proper fun t ht =>
    (coveredBy_punch base ho t).mpr (((freeIn_iff hb).mp hx).2 t ht)

/-- The pieces are the widest free spans. -/
theorem mem_punch_iff (hbase : base.Proper) (hb : AllProper blocks) (ho : ByStart blocks) :
    x ∈ base.punch blocks ↔ WidestIn base blocks x := by
  constructor
  · intro hx
    refine ⟨freeIn_of_mem_punch hbase hb ho hx, fun y hy hyx => ?_⟩
    obtain ⟨piece, hpiece, hpy⟩ := exists_piece hb ho hy
    have hproper : x.start < x.stop := punch_proper blocks hbase x hx
    rw [contains_iff] at hyx hpy
    obtain rfl | hgap := eq_or_related (punch_apart hb base) hx hpiece
    · exact Span.ext (by omega) (by omega)
    · omega
  · intro hx
    obtain ⟨piece, hpiece, hpx⟩ := exists_piece hb ho hx.toFreeIn
    exact hx.widest piece (freeIn_of_mem_punch hbase hb ho hpiece) hpx ▸ hpiece

/-- Nothing more is cut out of a piece. -/
theorem punch_of_mem_punch (hbase : base.Proper) (hb : AllProper blocks) (ho : ByStart blocks)
    (hx : x ∈ base.punch blocks) : x.punch blocks = [x] := by
  have hproper := punch_proper blocks hbase x hx
  apply eq_of_same_cover (punch_proper blocks hproper) (by simpa [AllProper] using hproper)
    (punch_apart hb x) (List.pairwise_singleton _ _)
  intro t
  have hfree := ((freeIn_iff hb).mp (freeIn_of_mem_punch hbase hb ho hx)).2 t
  rw [coveredBy_punch x ho, coveredBy_cons]
  simp only [not_coveredBy_nil, or_false]
  exact ⟨fun h => h.1, fun h => ⟨h, (hfree h).2⟩⟩

end Span

namespace Slot

variable {slots : List Slot} {blocks : List Span}

/-! ## Pieces of slots -/

theorem mem_subtract {m : Slot} : m ∈ subtract slots blocks ↔
    ∃ s ∈ slots, m.toSpan ∈ s.toSpan.punch blocks ∧ m.ids = s.ids := by
  rw [subtract_eq]
  simp only [List.mem_flatMap, List.mem_map, piece]
  constructor
  · rintro ⟨s, hs, x, hx, rfl⟩
    exact ⟨s, hs, hx, rfl⟩
  · rintro ⟨s, hs, hx, hids⟩
    exact ⟨s, hs, m.toSpan, hx, Slot.ext rfl rfl hids.symm⟩

theorem coveredBy_subtract_withSet (ho : ByStart blocks) (ids : IdSet) (t : Int) :
    CoveredBySlots (withSet ids (subtract slots blocks)) t ↔
      CoveredBySlots (withSet ids slots) t ∧ ¬ CoveredBy blocks t := by
  simp only [CoveredBySlots, mem_withSet, mem_subtract]
  constructor
  · rintro ⟨m, ⟨⟨s, hs, hm, hids⟩, rfl⟩, hc⟩
    obtain ⟨hsc, hfree⟩ := (Span.coveredBy_punch s.toSpan ho t).mp ⟨m.toSpan, hm, hc⟩
    exact ⟨⟨s, ⟨hs, hids.symm⟩, hsc⟩, hfree⟩
  · rintro ⟨⟨s, ⟨hs, rfl⟩, hsc⟩, hfree⟩
    obtain ⟨x, hx, hc⟩ := (Span.coveredBy_punch s.toSpan ho t).mpr ⟨hsc, hfree⟩
    exact ⟨⟨x, s.ids⟩, ⟨⟨s, hs, hx, rfl⟩, rfl⟩, hc⟩

/-- What was cut once is left as it is. -/
theorem subtract_subtract (hs : AllProper (spansOf slots)) (hb : AllProper blocks)
    (ho : ByStart blocks) : subtract (subtract slots blocks) blocks = subtract slots blocks := by
  have halone : ∀ m ∈ subtract slots blocks, (m.toSpan.punch blocks).map m.piece = [m] := by
    intro m hm
    obtain ⟨s, hmem, hx, _⟩ := mem_subtract.mp hm
    rw [Span.punch_of_mem_punch (hs _ (List.mem_map_of_mem hmem)) hb ho hx]
    rfl
  rw [subtract_eq (subtract slots blocks), List.flatMap_def, List.map_congr_left halone,
    ← List.flatMap_def, List.flatMap_singleton']

/-! ## The laws -/

/-- Where blocks that each hold an instant are cut, in the order of their starts, out of slots that
each hold one, every slot leaves its pieces with its own resources, slot by slot and in order: the
widest spans within it that no block overlaps. So with each set of resources what was covered is
still covered where no block is, and cutting once more changes nothing. -/
theorem cutting_leaves_the_widest_free_pieces (hs : AllProper (spansOf slots))
    (hb : AllProper blocks) (ho : ByStart blocks) :
    (subtract slots blocks =
        slots.flatMap fun s => (s.toSpan.punch blocks).map fun x => ⟨x, s.ids⟩) ∧
      (∀ s ∈ slots, Apart (s.toSpan.punch blocks) ∧
        ∀ x, x ∈ s.toSpan.punch blocks ↔ Span.WidestIn s.toSpan blocks x) ∧
      (∀ ids t, CoveredBySlots (withSet ids (subtract slots blocks)) t ↔
        CoveredBySlots (withSet ids slots) t ∧ ¬ CoveredBy blocks t) ∧
      subtract (subtract slots blocks) blocks = subtract slots blocks := by
  refine ⟨subtract_eq slots blocks, fun s hmem => ⟨Span.punch_apart hb s.toSpan, fun x => ?_⟩,
    coveredBy_subtract_withSet ho, subtract_subtract hs hb ho⟩
  exact Span.mem_punch_iff (hs _ (List.mem_map_of_mem hmem)) hb ho

/-- A block may reach over two slots, lie within another block, or only touch a slot. -/
theorem a_block_cuts_two_slots :
    let a := IdSet.singleton 1
    let b := IdSet.singleton 2
    let slots : List Slot := [⟨⟨0, 100⟩, a⟩, ⟨⟨50, 200⟩, b⟩, ⟨⟨200, 260⟩, a⟩]
    let blocks : List Span := [⟨-10, 0⟩, ⟨20, 90⟩, ⟨30, 40⟩, ⟨90, 95⟩, ⟨150, 200⟩]
    let left : List Slot :=
      [⟨⟨0, 20⟩, a⟩, ⟨⟨95, 100⟩, a⟩, ⟨⟨95, 150⟩, b⟩, ⟨⟨200, 260⟩, a⟩]
    AllProper (spansOf slots) ∧ AllProper blocks ∧ ByStart blocks ∧ subtract slots blocks = left ∧
      Span.WidestIn ⟨50, 200⟩ blocks ⟨95, 150⟩ ∧
      (∀ t, CoveredBySlots (withSet a left) t ↔
        CoveredBySlots (withSet a slots) t ∧ ¬ CoveredBy blocks t) ∧
      subtract left blocks = left := by
  intro a b slots blocks left
  have hs : AllProper (spansOf slots) := by decide
  have hb : AllProper blocks := by decide
  have ho : ByStart blocks := by decide
  have hleft : subtract slots blocks = left := by cbv
  obtain ⟨_, hpieces, hcovers, hagain⟩ := cutting_leaves_the_widest_free_pieces hs hb ho
  have hpiece : (⟨95, 150⟩ : Span) ∈ Span.punch ⟨50, 200⟩ blocks := by decide
  have hwidest := ((hpieces ⟨⟨50, 200⟩, b⟩ (by simp [slots])).2 ⟨95, 150⟩).mp hpiece
  rw [hleft] at hcovers hagain
  exact ⟨hs, hb, ho, hleft, hwidest, hcovers a, hagain⟩

end Slot

end FreeTime
