/-
# PqcMigration.Lib.Interpolate — values at the integers, joined by straight lines.

`interpolate a` reads a sequence `a` between its places: at `x` it mixes the values at the two integers
around `x` in the proportion in which `x` lies between them. At an integer the two are one, and it is the
value there.

What is needed of it holds as far as the sequence is known, that is, between two integers `lo` and `hi`:
if the sequence rises there, so does the interpolation (`interpolate_monotoneOn`), across the integers as
well as between them; and raising values of the sequence never lowers it (`interpolate_mono`), whether the
sequence rises or not.
-/
import Mathlib.Algebra.Order.Floor.Ring
import Mathlib.Data.Int.ConditionallyCompleteOrder
import Mathlib.LinearAlgebra.AffineSpace.Ordered
import Mathlib.Tactic.Linarith

namespace PqcMigration.Lib

universe u

variable {K : Type u} [Field K] [LinearOrder K] [FloorRing K]

def interpolate (a : ℤ → K) (x : K) : K := a ⌊x⌋ + (a ⌈x⌉ - a ⌊x⌋) * Int.fract x

variable {a b : ℤ → K} {x y : K}

/-- It is the map along the segment between the two values. -/
theorem interpolate_eq_lineMap (a : ℤ → K) (x : K) :
    interpolate a x = AffineMap.lineMap (a ⌊x⌋) (a ⌈x⌉) (Int.fract x) := by
  unfold interpolate
  rw [AffineMap.lineMap_apply, vsub_eq_sub, vadd_eq_add, smul_eq_mul, mul_comm, add_comm]

theorem interpolate_of_floor_eq_ceil (h : ⌊x⌋ = ⌈x⌉) : interpolate a x = a ⌊x⌋ := by
  unfold interpolate
  rw [← h, sub_self, zero_mul, add_zero]

/-- Two places with no integer between them lie between the same two integers. -/
theorem same_segment (hle : x ≤ y) (h : ⌊y⌋ < ⌈x⌉) : ⌊y⌋ = ⌊x⌋ ∧ ⌈y⌉ = ⌈x⌉ := by
  have hfloor : ⌊x⌋ ≤ ⌊y⌋ := Int.floor_mono hle
  have hceil : ⌈x⌉ ≤ ⌈y⌉ := Int.ceil_mono hle
  have hx : ⌈x⌉ ≤ ⌊x⌋ + 1 := Int.ceil_le_floor_add_one x
  have hy : ⌈y⌉ ≤ ⌊y⌋ + 1 := Int.ceil_le_floor_add_one y
  omega

variable [IsStrictOrderedRing K]

@[simp] theorem interpolate_intCast (a : ℤ → K) (n : ℤ) : interpolate a (n : K) = a n := by
  rw [interpolate_of_floor_eq_ceil (by rw [Int.floor_intCast, Int.ceil_intCast]), Int.floor_intCast]

/-- Raising the values around a place does not lower what is read there. -/
theorem interpolate_mono (hfloor : a ⌊x⌋ ≤ b ⌊x⌋) (hceil : a ⌈x⌉ ≤ b ⌈x⌉) :
    interpolate a x ≤ interpolate b x := by
  rw [interpolate_eq_lineMap, interpolate_eq_lineMap]
  exact lineMap_mono_endpoints hfloor hceil (Int.fract_nonneg x) (Int.fract_lt_one x).le

theorem floor_le_interpolate (h : a ⌊x⌋ ≤ a ⌈x⌉) : a ⌊x⌋ ≤ interpolate a x := by
  have hpart : 0 ≤ (a ⌈x⌉ - a ⌊x⌋) * Int.fract x :=
    mul_nonneg (sub_nonneg.mpr h) (Int.fract_nonneg x)
  unfold interpolate
  linarith

theorem interpolate_le_ceil (h : a ⌊x⌋ ≤ a ⌈x⌉) : interpolate a x ≤ a ⌈x⌉ := by
  have hpart : (a ⌈x⌉ - a ⌊x⌋) * Int.fract x ≤ a ⌈x⌉ - a ⌊x⌋ :=
    mul_le_of_le_one_right (sub_nonneg.mpr h) (Int.fract_lt_one x).le
  unfold interpolate
  linarith

section Range

variable {lo hi : ℤ}

theorem floor_mem_Icc (hx : x ∈ Set.Icc (lo : K) hi) : ⌊x⌋ ∈ Set.Icc lo hi := by
  refine ⟨Int.le_floor.mpr hx.1, ?_⟩
  have hle : ((⌊x⌋ : ℤ) : K) ≤ hi := (Int.floor_le x).trans hx.2
  exact Int.cast_le.mp hle

theorem ceil_mem_Icc (hx : x ∈ Set.Icc (lo : K) hi) : ⌈x⌉ ∈ Set.Icc lo hi := by
  refine ⟨?_, Int.ceil_le.mpr hx.2⟩
  have hle : (lo : K) ≤ (⌈x⌉ : ℤ) := hx.1.trans (Int.le_ceil x)
  exact Int.cast_le.mp hle

theorem floor_le_ceil_of_monotoneOn (ha : MonotoneOn a (Set.Icc lo hi)) (hx : x ∈ Set.Icc (lo : K) hi) :
    a ⌊x⌋ ≤ a ⌈x⌉ :=
  ha (floor_mem_Icc hx) (ceil_mem_Icc hx) (Int.floor_le_ceil x)

/-- **The interpolation rises** where the sequence does. -/
theorem interpolate_monotoneOn (ha : MonotoneOn a (Set.Icc lo hi)) :
    MonotoneOn (interpolate a) (Set.Icc (lo : K) hi) := by
  intro x hx y hy hle
  have hsegx : a ⌊x⌋ ≤ a ⌈x⌉ := floor_le_ceil_of_monotoneOn ha hx
  have hsegy : a ⌊y⌋ ≤ a ⌈y⌉ := floor_le_ceil_of_monotoneOn ha hy
  rcases le_or_gt ⌈x⌉ ⌊y⌋ with hacross | hsame
  · -- an integer lies between the two: the value there does as well
    calc interpolate a x ≤ a ⌈x⌉ := interpolate_le_ceil hsegx
      _ ≤ a ⌊y⌋ := ha (ceil_mem_Icc hx) (floor_mem_Icc hy) hacross
      _ ≤ interpolate a y := floor_le_interpolate hsegy
  · -- on one segment it is the slope that counts
    obtain ⟨hfloor, hceil⟩ := same_segment hle hsame
    have hfract : Int.fract x ≤ Int.fract y := by
      show x - ⌊x⌋ ≤ y - ⌊y⌋
      rw [hfloor]
      exact sub_le_sub_right hle _
    unfold interpolate
    rw [hfloor, hceil]
    exact add_le_add_right (mul_le_mul_of_nonneg_left hfract (sub_nonneg.mpr hsegx)) _

end Range

end PqcMigration.Lib
