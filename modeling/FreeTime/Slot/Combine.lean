-- Lists of slots cut against each other: what two lists share, and what is left of one when
-- blocks are cut out of it.
import FreeTime.Slot

namespace FreeTime

namespace Slot

/-- What two slots share, with the resources of both. -/
def intersection (a b : Slot) : Option Slot :=
  (a.toSpan.intersection b.toSpan).map fun span => ⟨span, a.ids.union b.ids⟩

/-- What two lists in order share. The slot that stops first is done with; of two that stop
together it is the one of the first list. -/
def intersect : List Slot → List Slot → List Slot
  | a :: as, b :: bs =>
    let rest := if a.stop ≤ b.stop then intersect as (b :: bs) else intersect (a :: as) bs
    (a.intersection b).toList ++ rest
  | [], _ => []
  | _, [] => []
termination_by as bs => as.length + bs.length

/-- A span that is left over, with the set of the slot it comes from. -/
def piece (s : Slot) (span : Span) : Slot := ⟨span, s.ids⟩

/-- Cut all the blocks out of one slot after another. The blocks `ahead` are those that may
still matter for slots from `reached` on: what stops before a slot starts is left behind. A slot
that starts before `reached` has all the blocks ahead again. -/
def subtractFrom (all : List Span) (reached : Int) (ahead : List Span) : List Slot → List Slot
  | [] => []
  | s :: rest =>
    let ahead := (if reached ≤ s.start then ahead else all).dropWhile fun b => b.stop ≤ s.start
    (Span.carve s.start s.stop ahead).map s.piece ++ subtractFrom all s.start ahead rest

/-- What is left of the slots when blocks, in the order of their starts, are cut out. Each
piece keeps the set of its slot. -/
def subtract (slots : List Slot) (blocks : List Span) : List Slot :=
  match slots with
  | [] => []
  | s :: rest => subtractFrom blocks s.start blocks (s :: rest)

/-- Blocks that were left behind at one instant are left behind at every later one. -/
theorem dropWhile_stop_le {t u : Int} (h : t ≤ u) (blocks : List Span) :
    (blocks.dropWhile fun b => b.stop ≤ t).dropWhile (fun b => b.stop ≤ u) =
      blocks.dropWhile fun b => b.stop ≤ u := by
  induction blocks with
  | nil => rfl
  | cons b blocks ih =>
    by_cases hb : b.stop ≤ t
    · have hu : b.stop ≤ u := Int.le_trans hb h
      simp [hb, hu, ih]
    · simp [hb]

theorem subtractFrom_eq {all ahead : List Span} {reached : Int}
    (h : ∀ t, reached ≤ t →
      (ahead.dropWhile fun b => b.stop ≤ t) = all.dropWhile fun b => b.stop ≤ t)
    (slots : List Slot) :
    subtractFrom all reached ahead slots =
      slots.flatMap fun s => (s.toSpan.punch all).map s.piece := by
  induction slots generalizing ahead reached with
  | nil => rfl
  | cons s rest ih =>
    have hahead : ((if reached ≤ s.start then ahead else all).dropWhile fun b => b.stop ≤ s.start) =
        all.dropWhile fun b => b.stop ≤ s.start := by
      split
      · exact h _ ‹_›
      · rfl
    simp only [subtractFrom, hahead, List.flatMap_cons, Span.punch]
    rw [ih fun t ht => dropWhile_stop_le ht all]
    rfl

/-- Cutting blocks out of a list of slots cuts them out of each. -/
theorem subtract_eq (slots : List Slot) (blocks : List Span) :
    subtract slots blocks = slots.flatMap fun s => (s.toSpan.punch blocks).map s.piece := by
  cases slots with
  | nil => rfl
  | cons s rest => exact subtractFrom_eq (fun _ _ => rfl) _

end Slot

end FreeTime
