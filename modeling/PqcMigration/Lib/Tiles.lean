/-
# PqcMigration.Lib.Tiles — slices that follow one another without a gap.

A slice is a place and a length. `Tiles a ss b` says that the slices, in order, lead from `a` to `b`. A loop
that advances an offset past what it handed out keeps such a chain, and chains are joined at their ends
(`Tiles.append`); what is asked of the slices afterwards, that no place is in two of them and that every place
from `a` to `b` is in one, follows from the chain.
-/
import Mathlib.Data.List.Range
import Mathlib.Tactic.Common

namespace PqcMigration.Lib

/-- Where it starts, and how long it is. -/
abbrev Slice := Int × ℕ

def InSlice (i : Int) (s : Slice) : Prop := s.1 ≤ i ∧ i < s.1 + s.2

inductive Tiles : Int → List Slice → Int → Prop where
  | nil (a : Int) : Tiles a [] a
  | cons {a b : Int} {ss : List Slice} (n : ℕ) (h : Tiles (a + n) ss b) : Tiles a ((a, n) :: ss) b

namespace Tiles

variable {a b c : Int} {ss ts : List Slice}

theorem append (h : Tiles a ss b) (h' : Tiles b ts c) : Tiles a (ss ++ ts) c := by
  induction h with
  | nil a => exact h'
  | cons n _ ih => exact .cons n (ih h')

theorem singleton (a : Int) (n : ℕ) : Tiles a [(a, n)] (a + n) := .cons n (.nil _)

/-- Slices of one length, at multiples of it. -/
theorem replicate (a : Int) (n k : ℕ) :
    Tiles a ((List.range k).map fun i : ℕ => (a + (i * n : ℕ), n)) (a + (k * n : ℕ)) := by
  induction k with
  | zero =>
      rw [Nat.zero_mul, Int.natCast_zero, Int.add_zero]
      exact .nil a
  | succ k ih =>
      have hend : a + ((k + 1) * n : ℕ) = a + (k * n : ℕ) + n := by
        rw [Nat.succ_mul, Int.natCast_add, Int.add_assoc]
      rw [List.range_succ, List.map_append, hend]
      exact ih.append (.singleton _ _)

theorem bounds (h : Tiles a ss b) : a ≤ b ∧ ∀ s ∈ ss, a ≤ s.1 ∧ s.1 + s.2 ≤ b := by
  induction h with
  | nil a => exact ⟨Int.le_refl a, fun _ hs => absurd hs List.not_mem_nil⟩
  | @cons a b ss n _ ih =>
      obtain ⟨hle, hall⟩ := ih
      refine ⟨by omega, List.forall_mem_cons.mpr ⟨⟨Int.le_refl a, hle⟩, fun s hs => ?_⟩⟩
      have := hall s hs
      omega

/-- No place is in two of the slices. -/
theorem disjoint (h : Tiles a ss b) : ss.Pairwise fun s t => ∀ i, ¬ (InSlice i s ∧ InSlice i t) := by
  induction h with
  | nil => exact .nil
  | @cons a b ss n h ih =>
      refine List.pairwise_cons.mpr ⟨fun t ht i hi => ?_, ih⟩
      -- what comes later starts where this slice ends
      have hlater := (h.bounds.2 t ht).1
      obtain ⟨⟨-, hend⟩, hstart, -⟩ := hi
      dsimp only at hend
      omega

theorem covers (h : Tiles a ss b) (i : Int) : (∃ s ∈ ss, InSlice i s) ↔ a ≤ i ∧ i < b := by
  constructor
  · rintro ⟨s, hs, hlo, hhi⟩
    have := h.bounds.2 s hs
    omega
  · intro hi
    induction h with
    | nil a => omega
    | @cons a b ss n h ih =>
        by_cases hhere : i < a + n
        · exact ⟨(a, n), List.mem_cons_self, hi.1, hhere⟩
        · obtain ⟨s, hs, his⟩ := ih ⟨by omega, hi.2⟩
          exact ⟨s, List.mem_cons_of_mem _ hs, his⟩

end Tiles

end PqcMigration.Lib
