/-
# PqcMigration.Lib.Bisect — bisection between a point that fits and one that does not.

Two bounds close in on each other: the point halfway is tried, and becomes the lower bound if it fits and
the upper one if it does not. `ends` is the pair of bounds at the end and `mids` the points that were tried,
in order.

Nothing is assumed of which points fit. At the end the bounds are neighbours; the lower one fits unless it
was never moved, and the upper one does not unless it was never moved (`ends_spec`). Only where what fits is
closed downwards is the lower bound the greatest point that fits (`le_ends_of_fits`).
-/
import Mathlib.Order.Lattice
import Mathlib.Tactic.Common

namespace PqcMigration.Lib.Bisect

def mid (lo hi : ℕ) : ℕ := (lo + hi) / 2

variable {fits : ℕ → Bool} {lo hi x : ℕ}

theorem lt_mid (h : lo + 1 < hi) : lo < mid lo hi := by
  unfold mid
  omega

theorem mid_lt (h : lo + 1 < hi) : mid lo hi < hi := by
  unfold mid
  omega

-- the two halves, as the recursions below need them
theorem sub_mid_lt (h : lo + 1 < hi) : hi - mid lo hi < hi - lo := by
  have := lt_mid h
  omega

theorem mid_sub_lt (h : lo + 1 < hi) : mid lo hi - lo < hi - lo := by
  have := mid_lt h
  omega

/-- The bounds when nothing is left between them. -/
def ends (fits : ℕ → Bool) (lo hi : ℕ) : ℕ × ℕ :=
  if _h : lo + 1 < hi then
    if fits (mid lo hi) then ends fits (mid lo hi) hi else ends fits lo (mid lo hi)
  else (lo, hi)
termination_by hi - lo
decreasing_by
  · exact sub_mid_lt _h
  · exact mid_sub_lt _h

/-- The points that were tried. -/
def mids (fits : ℕ → Bool) (lo hi : ℕ) : List ℕ :=
  if _h : lo + 1 < hi then
    if fits (mid lo hi) then mid lo hi :: mids fits (mid lo hi) hi
    else mid lo hi :: mids fits lo (mid lo hi)
  else []
termination_by hi - lo
decreasing_by
  · exact sub_mid_lt _h
  · exact mid_sub_lt _h

theorem ends_of_fits (h : lo + 1 < hi) (hfits : fits (mid lo hi) = true) :
    ends fits lo hi = ends fits (mid lo hi) hi := by
  rw [ends, dif_pos h, if_pos hfits]

theorem ends_of_over (h : lo + 1 < hi) (hover : fits (mid lo hi) = false) :
    ends fits lo hi = ends fits lo (mid lo hi) := by
  rw [ends, dif_pos h, if_neg (by simp [hover])]

theorem ends_of_near (h : ¬ lo + 1 < hi) : ends fits lo hi = (lo, hi) := by
  rw [ends, dif_neg h]

theorem mids_of_fits (h : lo + 1 < hi) (hfits : fits (mid lo hi) = true) :
    mids fits lo hi = mid lo hi :: mids fits (mid lo hi) hi := by
  rw [mids, dif_pos h, if_pos hfits]

theorem mids_of_over (h : lo + 1 < hi) (hover : fits (mid lo hi) = false) :
    mids fits lo hi = mid lo hi :: mids fits lo (mid lo hi) := by
  rw [mids, dif_pos h, if_neg (by simp [hover])]

theorem mids_of_near (h : ¬ lo + 1 < hi) : mids fits lo hi = [] := by
  rw [mids, dif_neg h]

/-- Only points strictly between the bounds are tried. -/
theorem mids_between (hx : x ∈ mids fits lo hi) : lo < x ∧ x < hi := by
  fun_induction mids fits lo hi with
  | case1 lo hi h hfits ih =>
      obtain rfl | hx := List.mem_cons.mp hx
      · exact ⟨lt_mid h, mid_lt h⟩
      · exact ⟨(lt_mid h).trans (ih hx).1, (ih hx).2⟩
  | case2 lo hi h hover ih =>
      obtain rfl | hx := List.mem_cons.mp hx
      · exact ⟨lt_mid h, mid_lt h⟩
      · exact ⟨(ih hx).1, (ih hx).2.trans (mid_lt h)⟩
  | case3 => cases hx

/-- What is left at the end: neighbours, each of them a bound of the beginning or a point that was tried. -/
structure Closed (fits : ℕ → Bool) (lo hi : ℕ) : Prop where
  next : (ends fits lo hi).2 = (ends fits lo hi).1 + 1
  lower : (ends fits lo hi).1 = lo ∨
    (ends fits lo hi).1 ∈ mids fits lo hi ∧ fits (ends fits lo hi).1 = true
  upper : (ends fits lo hi).2 = hi ∨
    (ends fits lo hi).2 ∈ mids fits lo hi ∧ fits (ends fits lo hi).2 = false

theorem ends_spec (hlt : lo < hi) : Closed fits lo hi := by
  fun_induction ends fits lo hi with
  | case1 lo hi h hfits ih =>
      obtain ⟨next, lower, upper⟩ := ih (mid_lt h)
      refine ⟨?_, .inr ?_, ?_⟩ <;> rw [ends_of_fits h hfits]
      · exact next
      · rw [mids_of_fits h hfits]
        obtain heq | ⟨hmem, hlow⟩ := lower
        · rw [heq]
          exact ⟨List.mem_cons_self, hfits⟩
        · exact ⟨List.mem_cons_of_mem _ hmem, hlow⟩
      · rw [mids_of_fits h hfits]
        exact upper.imp_right (And.imp_left (List.mem_cons_of_mem _))
  | case2 lo hi h hover ih =>
      have hover : fits (mid lo hi) = false := by simpa using hover
      obtain ⟨next, lower, upper⟩ := ih (lt_mid h)
      refine ⟨?_, ?_, .inr ?_⟩ <;> rw [ends_of_over h hover]
      · exact next
      · rw [mids_of_over h hover]
        exact lower.imp_right (And.imp_left (List.mem_cons_of_mem _))
      · rw [mids_of_over h hover]
        obtain heq | ⟨hmem, hup⟩ := upper
        · rw [heq]
          exact ⟨List.mem_cons_self, hover⟩
        · exact ⟨List.mem_cons_of_mem _ hmem, hup⟩
  | case3 lo hi h =>
      have heq : hi = lo + 1 := by omega
      refine ⟨?_, .inl ?_, .inl ?_⟩ <;> rw [ends_of_near h]
      exact heq

theorem le_ends (hlt : lo < hi) : lo ≤ (ends fits lo hi).1 := by
  obtain heq | ⟨hmem, -⟩ := (ends_spec hlt).lower
  · exact heq.ge
  · exact (mids_between hmem).1.le

theorem ends_lt (hlt : lo < hi) : (ends fits lo hi).1 < hi := by
  obtain heq | ⟨hmem, -⟩ := (ends_spec hlt).lower
  · exact heq.trans_lt hlt
  · exact (mids_between hmem).2

/-- Where what fits is closed downwards, nothing above the lower bound fits. -/
theorem le_ends_of_fits (hlt : lo < hi) (hhi : fits hi = false)
    (hdown : ∀ a b, lo ≤ a → a ≤ b → b ≤ hi → fits b = true → fits a = true) (hxhi : x ≤ hi)
    (hx : fits x = true) : x ≤ (ends fits lo hi).1 := by
  have hclosed : Closed fits lo hi := ends_spec hlt
  have hover : fits (ends fits lo hi).2 = false := by
    obtain heq | ⟨-, hover⟩ := hclosed.upper
    · rw [heq]
      exact hhi
    · exact hover
  by_contra hcon
  have hle : (ends fits lo hi).2 ≤ x := by
    rw [hclosed.next]
    omega
  have hlo : lo ≤ (ends fits lo hi).2 := by
    have : lo ≤ (ends fits lo hi).1 := le_ends hlt
    rw [hclosed.next]
    omega
  rw [hdown _ x hlo hle hxhi hx] at hover
  cases hover

end PqcMigration.Lib.Bisect
