-- The laws of spans that follow one another: each starts where the one before it stops. Together
-- they cover what lies between their two ends. Days follow one another in this way, and so do the
-- pieces that a slot is cut into: both stand in a row of spans of one width.
import FreeTime.Proofs.Spans

namespace FreeTime

/-- The spans follow one another from `start` to `stop`, and each of them holds an instant. -/
def Tiles : Int → Int → List Span → Prop
  | start, stop, [] => start = stop
  | start, stop, s :: rest => s.start = start ∧ s.Proper ∧ Tiles s.stop stop rest

instance decidableTiles : (start stop : Int) → (spans : List Span) →
    Decidable (Tiles start stop spans)
  | start, stop, [] => inferInstanceAs (Decidable (start = stop))
  | start, stop, s :: rest =>
    have := decidableTiles s.stop stop rest
    inferInstanceAs (Decidable (s.start = start ∧ s.Proper ∧ Tiles s.stop stop rest))

/-- `count` spans of one width, one after the other from `start`. -/
def row (start width : Int) (count : Nat) : List Span :=
  (List.range count).map fun (i : Nat) => ⟨start + i * width, start + (i + 1) * width⟩

/-! ## Between the ends -/

section

variable {start stop : Int} {spans : List Span}

theorem Tiles.start_le (h : Tiles start stop spans) : start ≤ stop := by
  induction spans generalizing start with
  | nil => exact Int.le_of_eq h
  | cons s rest ih =>
    obtain ⟨rfl, hproper, hrest⟩ := h
    exact Int.le_trans (Int.le_of_lt hproper) (ih hrest)

theorem Tiles.append {middle : Int} {later : List Span} (h : Tiles start middle spans)
    (hlater : Tiles middle stop later) : Tiles start stop (spans ++ later) := by
  induction spans generalizing start with
  | nil =>
    obtain rfl : start = middle := h
    exact hlater
  | cons s rest ih => exact ⟨h.1, h.2.1, ih h.2.2⟩

/-- There is no gap: what lies between the ends is covered, and nothing else. -/
theorem coveredBy_of_tiles (h : Tiles start stop spans) (t : Int) :
    CoveredBy spans t ↔ start ≤ t ∧ t < stop := by
  induction spans generalizing start with
  | nil =>
    obtain rfl : start = stop := h
    simp
  | cons s rest ih =>
    obtain ⟨rfl, hproper, hrest⟩ := h
    have hproper : s.start < s.stop := hproper
    have hends := hrest.start_le
    rw [coveredBy_cons, ih hrest]
    simp only [Span.Covers]
    omega

end

/-! ## Rows -/

theorem row_succ (start width : Int) (count : Nat) :
    row start width (count + 1) =
      ⟨start, start + width⟩ :: row (start + width) width count := by
  unfold row
  rw [List.range_succ_eq_map, List.map_cons, List.map_map]
  congr 1
  · simp
  · refine List.map_congr_left fun i _ => Span.ext ?_ ?_
    all_goals
      simp only [Function.comp_apply, Nat.succ_eq_add_one, Int.natCast_add, Int.add_mul]
      omega

/-- The spans of a row follow one another. -/
theorem tiles_row {width : Int} (hpos : 0 < width) (start : Int) (count : Nat) :
    Tiles start (start + count * width) (row start width count) := by
  induction count generalizing start with
  | zero => simp [row, Tiles]
  | succ count ih =>
    rw [row_succ]
    refine ⟨rfl, ?_, ?_⟩
    · simp only [Span.Proper]
      omega
    · have hrest := ih (start + width)
      rwa [show start + width + count * width = start + (count + 1 : Nat) * width by
        rw [Int.natCast_add, Int.add_mul]
        omega] at hrest

theorem duration_of_mem_row {start width : Int} {count : Nat} {s : Span}
    (h : s ∈ row start width count) : s.duration = width := by
  obtain ⟨i, _, rfl⟩ := List.mem_map.mp h
  simp only [Span.duration, Int.add_mul]
  omega

end FreeTime
