/-
# PqcMigration.Lib.LeastSquares — the least-squares line through finitely many points.

The line through the mean of the points whose slope is the covariance over the variance of the abscissae,
over any ordered field.

Points that rise from left to right give a line that rises (`slope_pos`), whatever their shape; that is all
that is true of them in general, and in particular the line may be far from all of them. Points on a line
give that line back (`lineAt_affine`).
-/
import Mathlib.Algebra.Order.BigOperators.Group.List
import Mathlib.Algebra.BigOperators.Ring.List
import Mathlib.Algebra.Order.Field.Basic
import Mathlib.Data.Finset.Max
import Mathlib.Tactic.Ring
import Mathlib.Tactic.FieldSimp
import Mathlib.Tactic.Linarith

namespace PqcMigration.Lib.LeastSquares

universe u

section Rising

variable {α : Type u} [LinearOrder α] {ps : List (α × α)}

/-- Points that rise from left to right, two of them apart. -/
structure Rising (ps : List (α × α)) : Prop where
  strict : ∀ p ∈ ps, ∀ q ∈ ps, p.1 < q.1 → p.2 < q.2
  single : ∀ p ∈ ps, ∀ q ∈ ps, p.1 = q.1 → p.2 = q.2
  apart : ∃ p ∈ ps, ∃ q ∈ ps, p.1 < q.1

theorem Rising.mono (h : Rising ps) {p q : α × α} (hp : p ∈ ps) (hq : q ∈ ps)
    (hle : p.1 ≤ q.1) : p.2 ≤ q.2 := by
  obtain hlt | heq := hle.lt_or_eq
  · exact (h.strict p hp q hq hlt).le
  · exact (h.single p hp q hq heq).le

end Rising

variable {K : Type u} [Field K]

def mean (xs : List K) : K := xs.sum / xs.length

def meanX (ps : List (K × K)) : K := mean (ps.map Prod.fst)

def meanY (ps : List (K × K)) : K := mean (ps.map Prod.snd)

/-- How the points vary together about their mean. -/
def covary (ps : List (K × K)) : K := (ps.map fun p => (p.1 - meanX ps) * (p.2 - meanY ps)).sum

def varyX (ps : List (K × K)) : K := (ps.map fun p => (p.1 - meanX ps) ^ 2).sum

def slope (ps : List (K × K)) : K := covary ps / varyX ps

def intercept (ps : List (K × K)) : K := meanY ps - slope ps * meanX ps

def lineAt (ps : List (K × K)) (x : K) : K := slope ps * x + intercept ps

variable {ps : List (K × K)}

theorem sum_map_sub_const (xs : List K) (c : K) : (xs.map fun x => x - c).sum = xs.sum - xs.length * c := by
  induction xs with
  | nil => simp
  | cons x xs ih =>
      rw [List.map_cons, List.sum_cons, ih, List.sum_cons, List.length_cons, Nat.cast_succ]
      ring

/-- One point has nothing to vary about. -/
theorem varyX_singleton (p : K × K) : varyX [p] = 0 := by
  simp [varyX, meanX, mean]

section Mean

variable [CharZero K]

theorem sum_sub_mean {xs : List K} (h : xs ≠ []) : (xs.map fun x => x - mean xs).sum = 0 := by
  have hlen : (xs.length : K) ≠ 0 := Nat.cast_ne_zero.mpr (List.length_pos_of_ne_nil h).ne'
  rw [sum_map_sub_const, mean, mul_div_cancel₀ _ hlen, sub_self]

theorem sum_fst_sub_meanX (h : ps ≠ []) : (ps.map fun p => p.1 - meanX ps).sum = 0 := by
  have := sum_sub_mean (mt List.map_eq_nil_iff.mp h : ps.map Prod.fst ≠ [])
  rwa [List.map_map] at this

/-- The ordinates may be measured from anywhere. -/
theorem covary_eq (h : ps ≠ []) (c : K) : covary ps = (ps.map fun p => (p.1 - meanX ps) * (p.2 - c)).sum := by
  have hshift : ∀ p : K × K, (p.1 - meanX ps) * (p.2 - meanY ps) =
      (p.1 - meanX ps) * (p.2 - c) + (p.1 - meanX ps) * (c - meanY ps) := fun p => by ring
  rw [covary, List.map_congr_left fun p _ => hshift p, List.sum_map_add, List.sum_map_mul_right,
    sum_fst_sub_meanX h, zero_mul, add_zero]

/-- Points on a line give that line back. -/
theorem lineAt_affine {a b : K} (h : ps ≠ []) (hvary : varyX ps ≠ 0)
    (haff : ∀ p ∈ ps, p.2 = a * p.1 + b) (x : K) : lineAt ps x = a * x + b := by
  have hslope : slope ps = a := by
    have hterm : ∀ p ∈ ps, (p.1 - meanX ps) * (p.2 - (a * meanX ps + b)) = a * (p.1 - meanX ps) ^ 2 :=
      fun p hp => by
        rw [haff p hp]
        ring
    rw [slope, covary_eq h (a * meanX ps + b), List.map_congr_left hterm, List.sum_map_mul_left,
      ← varyX, mul_div_cancel_right₀ _ hvary]
  have hlen : (ps.length : K) ≠ 0 := Nat.cast_ne_zero.mpr (List.length_pos_of_ne_nil h).ne'
  have hmean : meanY ps = a * meanX ps + b := by
    have hsum : (ps.map Prod.snd).sum = a * (ps.map Prod.fst).sum + ps.length * b := by
      rw [List.map_congr_left haff, List.sum_map_add, List.sum_map_mul_left, List.map_const',
        List.sum_replicate, nsmul_eq_mul]
    rw [meanY, meanX, mean, mean, hsum, List.length_map, List.length_map]
    field_simp
  rw [lineAt, intercept, hslope, hmean]
  ring

end Mean

section Order

variable [LinearOrder K] [IsStrictOrderedRing K]

/-- Not all the points lie to the right of their mean. -/
theorem exists_le_meanX (h : ps ≠ []) : ∃ p ∈ ps, p.1 ≤ meanX ps := by
  by_contra hall
  push Not at hall
  obtain ⟨p, ps', rfl⟩ := List.exists_cons_of_ne_nil h
  have hpos : ∀ d ∈ (p :: ps').map fun q => q.1 - meanX (p :: ps'), 0 ≤ d := fun d hd => by
    obtain ⟨q, hq, rfl⟩ := List.mem_map.mp hd
    exact (sub_pos.mpr (hall q hq)).le
  have hle := List.single_le_sum hpos _ (List.mem_map_of_mem List.mem_cons_self)
  rw [sum_fst_sub_meanX h] at hle
  exact (sub_pos.mpr (hall p List.mem_cons_self)).not_ge hle

/-- The last point that is not to the right of the mean. -/
theorem exists_last_le_meanX (h : ps ≠ []) :
    ∃ c ∈ ps, c.1 ≤ meanX ps ∧ ∀ p ∈ ps, p.1 ≤ meanX ps → p.1 ≤ c.1 := by
  classical
  obtain ⟨p, hp, hle⟩ := exists_le_meanX h
  obtain ⟨c, hc, hmax⟩ := Finset.exists_max_image (ps.toFinset.filter fun p => p.1 ≤ meanX ps) Prod.fst
    ⟨p, by simp [hp, hle]⟩
  simp only [Finset.mem_filter, List.mem_toFinset] at hc hmax
  exact ⟨c, hc.1, hc.2, fun q hq hqle => hmax q ⟨hq, hqle⟩⟩

theorem covary_pos (h : Rising ps) : 0 < covary ps := by
  obtain ⟨p, hp, q, hq, hlt⟩ := h.apart
  have hne : ps ≠ [] := List.ne_nil_of_mem hp
  obtain ⟨c, hc, hcle, hlast⟩ := exists_last_le_meanX hne
  -- measured from the ordinate of `c`, a point left of the mean is below and one right of it above
  have hright : ∀ r ∈ ps, meanX ps < r.1 → 0 < (r.1 - meanX ps) * (r.2 - c.2) := fun r hr hlt =>
    mul_pos (sub_pos.mpr hlt) (sub_pos.mpr (h.strict c hc r hr (hcle.trans_lt hlt)))
  have hterm : ∀ d ∈ ps.map fun r => (r.1 - meanX ps) * (r.2 - c.2), 0 ≤ d := fun d hd => by
    obtain ⟨r, hr, rfl⟩ := List.mem_map.mp hd
    obtain hle | hlt := le_or_gt r.1 (meanX ps)
    · exact mul_nonneg_of_nonpos_of_nonpos (sub_nonpos.mpr hle)
        (sub_nonpos.mpr (h.mono hr hc (hlast r hr hle)))
    · exact (hright r hr hlt).le
  rw [covary_eq hne c.2]
  obtain hle | hqlt := le_or_gt q.1 (meanX ps)
  · refine lt_of_lt_of_le ?_ (List.single_le_sum hterm _ (List.mem_map_of_mem hp))
    have hpc : p.2 < c.2 := h.strict p hp c hc (hlt.trans_le (hlast q hq hle))
    exact mul_pos_of_neg_of_neg (sub_neg.mpr (hlt.trans_le hle)) (sub_neg.mpr hpc)
  · exact lt_of_lt_of_le (hright q hq hqlt) (List.single_le_sum hterm _ (List.mem_map_of_mem hq))

/-- The variance is positive as soon as two points are apart. -/
theorem varyX_pos (h : ∃ p ∈ ps, ∃ q ∈ ps, p.1 < q.1) : 0 < varyX ps := by
  obtain ⟨p, hp, q, hq, hlt⟩ := h
  have hterm : ∀ d ∈ ps.map fun r => (r.1 - meanX ps) ^ 2, 0 ≤ d := fun d hd => by
    obtain ⟨r, -, rfl⟩ := List.mem_map.mp hd
    exact sq_nonneg _
  obtain hne | hne : p.1 ≠ meanX ps ∨ q.1 ≠ meanX ps := by
    by_contra hcon
    push Not at hcon
    exact hlt.ne (hcon.1.trans hcon.2.symm)
  · exact lt_of_lt_of_le (sq_pos_of_ne_zero (sub_ne_zero.mpr hne))
      (List.single_le_sum hterm _ (List.mem_map_of_mem hp))
  · exact lt_of_lt_of_le (sq_pos_of_ne_zero (sub_ne_zero.mpr hne))
      (List.single_le_sum hterm _ (List.mem_map_of_mem hq))

theorem slope_pos (h : Rising ps) : 0 < slope ps := div_pos (covary_pos h) (varyX_pos h.apart)

end Order

end PqcMigration.Lib.LeastSquares
