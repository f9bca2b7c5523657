/-
# PqcMigration.Lib.Slices — a list cut into pieces of one length.

`slices n l` is what a loop over `0, n, 2n, …` with `l[i : i + n]` collects: the last piece may be
shorter, none is empty, and put together again in order they are the list.
-/
import Mathlib.Data.List.Flatten
import Mathlib.Data.List.Range

namespace PqcMigration.Lib

universe u v

variable {α : Type u} {β : Type v}

def slices (n : ℕ) (l : List α) : List (List α) :=
  (List.range ((l.length + n - 1) / n)).map fun k => (l.drop (k * n)).take n

/-- The first pieces are the first elements. -/
theorem flatten_take_slices (n k : ℕ) (l : List α) :
    ((List.range k).map fun k => (l.drop (k * n)).take n).flatten = l.take (k * n) := by
  induction k with
  | zero => simp
  | succ k ih =>
      rw [List.range_succ, List.map_append, List.flatten_append, ih, Nat.succ_mul, List.take_add]
      simp

@[simp]
theorem slices_nil (n : ℕ) : slices n ([] : List α) = [] := by
  have hzero : (0 + n - 1) / n = 0 := by
    rcases Nat.eq_zero_or_pos n with rfl | hpos
    · rfl
    · exact Nat.div_eq_of_lt (by omega)
  rw [slices, List.length_nil, hzero]
  rfl

variable {n : ℕ} {l piece : List α}

theorem flatten_slices (hn : 1 ≤ n) : (slices n l).flatten = l := by
  rw [slices, flatten_take_slices]
  apply List.take_of_length_le
  have hdiv := Nat.div_add_mod (l.length + n - 1) n
  have hmod := Nat.mod_lt (l.length + n - 1) hn
  rw [Nat.mul_comm] at hdiv
  omega

/-- A piece starts at a multiple of `n` inside the list. -/
theorem mem_slices (hn : 1 ≤ n) :
    piece ∈ slices n l ↔ ∃ k, k * n < l.length ∧ piece = (l.drop (k * n)).take n := by
  rw [slices, List.mem_map]
  apply exists_congr
  intro k
  rw [List.mem_range, eq_comm (b := piece)]
  apply and_congr_left'
  rw [Nat.lt_iff_add_one_le, Nat.le_div_iff_mul_le hn, Nat.succ_mul]
  omega

theorem ne_nil_of_mem_slices (hn : 1 ≤ n) (hpiece : piece ∈ slices n l) : piece ≠ [] := by
  obtain ⟨k, hk, rfl⟩ := (mem_slices hn).mp hpiece
  apply List.ne_nil_of_length_pos
  rw [List.length_take, List.length_drop]
  omega

theorem slices_ne_nil (hn : 1 ≤ n) (hl : l ≠ []) : slices n l ≠ [] := by
  intro hnil
  have hflat : (slices n l).flatten = l := flatten_slices hn
  rw [hnil] at hflat
  exact hl hflat.symm

/-- Some of the pieces of a list, none of them empty, hold as much as all of them only if they are all
of them. -/
theorem eq_of_sublist_of_length_flatten_le {some all : List α} (f : α → List β)
    (hsub : some.Sublist all) (hne : ∀ a ∈ all, f a ≠ [])
    (hle : (all.map f).flatten.length ≤ (some.map f).flatten.length) : some = all := by
  induction hsub with
  | slnil => rfl
  | @cons some all a hsub _ =>
      have hpos := List.length_pos_of_ne_nil (hne a List.mem_cons_self)
      have hless := (hsub.map f).flatten.length_le
      rw [List.map_cons, List.flatten_cons, List.length_append] at hle
      omega
  | @cons_cons some all a hsub ih =>
      simp only [List.map_cons, List.flatten_cons, List.length_append] at hle
      rw [ih (fun b hb => hne b (List.mem_cons_of_mem _ hb)) (by omega)]

end PqcMigration.Lib
