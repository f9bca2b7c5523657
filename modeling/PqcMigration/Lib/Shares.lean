/-
# PqcMigration.Lib.Shares — `n` things dealt to `W` workers in contiguous shares.

Each worker gets `n / W` of them and the first `n % W` workers one more; a worker's share starts where
the shares before it end. The shares cover everything, do not overlap and are as large as each other but for
one.
-/
import Mathlib.Algebra.BigOperators.Fin

namespace PqcMigration.Lib

universe u

variable {n W i i' j j' : ℕ}

/-- `n // W + (1 if i < n % W else 0)` -/
def share (n W i : ℕ) : ℕ := n / W + if i < n % W then 1 else 0

/-- `sum(shares[:i])` -/
def shareStart (n W i : ℕ) : ℕ := ∑ j ∈ Finset.range i, share n W j

theorem shareStart_succ (n W i : ℕ) : shareStart n W (i + 1) = shareStart n W i + share n W i :=
  Finset.sum_range_succ _ _

theorem shareStart_eq (n W i : ℕ) : shareStart n W i = i * (n / W) + min i (n % W) := by
  induction i with
  | zero => simp [shareStart]
  | succ i ih =>
      rw [shareStart_succ, ih, share, Nat.succ_mul]
      split <;> omega

/-- Together the shares are everything. -/
theorem shareStart_self (hW : 0 < W) : shareStart n W W = n := by
  have hmod := Nat.mod_lt n hW
  rw [shareStart_eq, Nat.min_eq_right (by omega)]
  exact Nat.div_add_mod n W

theorem shareStart_mono (h : i ≤ i') : shareStart n W i ≤ shareStart n W i' := by
  have hmul : i * (n / W) ≤ i' * (n / W) := Nat.mul_le_mul_right _ h
  rw [shareStart_eq, shareStart_eq]
  omega

/-- A worker's share lies before the next worker's. -/
theorem shareStart_add_share_le (h : i < i') : shareStart n W i + share n W i ≤ shareStart n W i' := by
  rw [← shareStart_succ]
  exact shareStart_mono h

theorem shareStart_add_lt (hi : i < W) (hj : j < share n W i) : shareStart n W i + j < n := by
  have hend : shareStart n W i + share n W i ≤ shareStart n W W := shareStart_add_share_le hi
  rw [shareStart_self (by omega)] at hend
  omega

/-- No place is in two shares. -/
theorem share_unique (hj : j < share n W i) (hj' : j' < share n W i')
    (h : shareStart n W i + j = shareStart n W i' + j') : i = i' ∧ j = j' := by
  rcases Nat.lt_trichotomy i i' with hlt | rfl | hlt
  · have hend : shareStart n W i + share n W i ≤ shareStart n W i' := shareStart_add_share_le hlt
    omega
  · exact ⟨rfl, by omega⟩
  · have hend : shareStart n W i' + share n W i' ≤ shareStart n W i := shareStart_add_share_le hlt
    omega

/-- Every place is in a share. -/
theorem exists_share (hW : 0 < W) (h : i < n) : ∃ a < W, ∃ j < share n W a, i = shareStart n W a + j := by
  have hupto : ∀ m, i < shareStart n W m → ∃ a < m, ∃ j < share n W a, i = shareStart n W a + j := by
    intro m
    induction m with
    | zero => exact fun hlt => absurd hlt (Nat.not_lt_zero i)
    | succ m ih =>
        intro hlt
        by_cases hbefore : i < shareStart n W m
        · obtain ⟨a, ha, hj⟩ := ih hbefore
          exact ⟨a, by omega, hj⟩
        · rw [shareStart_succ] at hlt
          exact ⟨m, Nat.lt_succ_self m, i - shareStart n W m, by omega, by omega⟩
  exact hupto W (by rwa [shareStart_self hW])

/-- No share is larger than another by more than one. -/
theorem share_le_succ (n W i i' : ℕ) : share n W i ≤ share n W i' + 1 := by
  unfold share
  split <;> split <;> omega

theorem sum_share (hW : 0 < W) : ∑ i : Fin W, share n W i = n := by
  rw [Fin.sum_univ_eq_sum_range (fun i => share n W i) W]
  exact shareStart_self hW

/-- What worker `i` gets of a list. -/
def shareOf {α : Type u} (l : List α) (W i : ℕ) : List α :=
  (l.drop (shareStart l.length W i)).take (share l.length W i)

/-- The shares, one after another, are the list. -/
theorem flatMap_shareOf {α : Type u} (l : List α) (hW : 0 < W) :
    (List.finRange W).flatMap (fun i : Fin W => shareOf l W i) = l := by
  have hupto : ∀ m, (List.range m).flatMap (shareOf l W) = l.take (shareStart l.length W m) := by
    intro m
    induction m with
    | zero => simp [shareStart]
    | succ m ih =>
        rw [List.range_succ, List.flatMap_append, ih, shareStart_succ, List.take_add]
        simp [shareOf]
  have hall := hupto W
  rw [shareStart_self hW, List.take_length, ← List.map_coe_finRange_eq_range, List.flatMap_map] at hall
  exact hall

end PqcMigration.Lib
