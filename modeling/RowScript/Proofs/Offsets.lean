import Mathlib.Order.Interval.Set.Defs
import RowScript.Proofs.Slices

/-!
# Offsets and positions

A later offset has a later position: a line feed leads to the next line and any other character to
the next column. So a range between two offsets covers the positions of the offsets between them.
-/

namespace RowScript

open List Position

namespace Position

variable {text : List Char} {first second : Nat}

/-- The position of an offset is the position behind the text before it. -/
theorem ofOffset_eq_behind (hfirst : first ≤ text.length) :
    ofOffset text first = origin.behind (text.take first) := by
  have hlength : (text.take first).length = first := length_take_of_le hfirst
  rw [← ofOffset_length, hlength]
  simp only [ofOffset, take_take, min_self]

theorem ofOffset_lt_ofOffset (hlt : first < second) (hsecond : second ≤ text.length) :
    ofOffset text first < ofOffset text second := by
  rw [ofOffset_eq_behind hsecond, ofOffset_eq_behind (hlt.le.trans hsecond)]
  have hsplit := take_append_drop first (text.take second)
  rw [take_take, min_eq_left hlt.le] at hsplit
  rw [← hsplit, behind_append]
  -- what stands between the two offsets is not empty
  cases hbetween : (text.take second).drop first with
  | nil =>
    have hempty := congrArg length hbetween
    rw [length_drop, length_take_of_le hsecond, length_nil] at hempty
    omega
  | cons c rest => exact lt_behind_cons _ c rest

theorem strictMonoOn_ofOffset (text : List Char) :
    StrictMonoOn (ofOffset text) (Set.Iic text.length) :=
  fun _ _ _ hsecond hlt => ofOffset_lt_ofOffset hlt hsecond

end Position

/-- Positions are ordered like offsets, line by line and within a line column by column, and a
range between two offsets covers the position of an offset if the offset lies between them. -/
theorem Loc.contains_ofOffsets_iff (text : List Char) :
    (∀ first second, first < second → second ≤ text.length →
      Position.ofOffset text first < Position.ofOffset text second) ∧
    ∀ start stop offset, start ≤ stop → stop ≤ text.length → offset ≤ text.length →
      ((Loc.ofOffsets text start stop).contains (Position.ofOffset text offset).line
          (Position.ofOffset text offset).column = true ↔
        start ≤ offset ∧ offset ≤ stop) := by
  refine ⟨fun _ _ => ofOffset_lt_ofOffset, ?_⟩
  intro start stop offset hordered hstop hoffset
  have hstart : start ≤ text.length := hordered.trans hstop
  have hmono := strictMonoOn_ofOffset text
  have hloc : (Loc.ofOffsets text start stop).Ordered := (hmono.le_iff_le hstart hstop).mpr hordered
  rw [Loc.contains_iff hloc]
  exact and_congr (hmono.le_iff_le hstart hoffset) (hmono.le_iff_le hoffset hstop)

/-- A range that ends right behind the second of two line feeds covers the empty line before it
and the start of the last line, and no more of that line. -/
theorem Loc.contains_ofOffsets_blank_line :
    Position.ofOffset ['a', '\n', '\n', 'b'] 2 < Position.ofOffset ['a', '\n', '\n', 'b'] 3 ∧
      (Loc.ofOffsets ['a', '\n', '\n', 'b'] 1 3).contains 2 0 = true ∧
      (Loc.ofOffsets ['a', '\n', '\n', 'b'] 1 3).contains 3 0 = true ∧
      (Loc.ofOffsets ['a', '\n', '\n', 'b'] 1 3).contains 3 1 = false := by
  obtain ⟨hordered, hcontains⟩ := Loc.contains_ofOffsets_iff ['a', '\n', '\n', 'b']
  refine ⟨hordered 2 3 (by decide) (by decide), ?_, ?_, ?_⟩
  · exact (hcontains 1 3 2 (by decide) (by decide) (by decide)).mpr (by decide)
  · exact (hcontains 1 3 3 (by decide) (by decide) (by decide)).mpr (by decide)
  · rw [← Bool.not_eq_true]
    exact mt (hcontains 1 3 4 (by decide) (by decide) (by decide)).mp (by decide)

end RowScript
