/-
# PqcMigration.Lib.Ladder — keys that climb a ladder one rung at a time, and never come down.

The abstract shape of every "exactly once, in this order" protocol: each key `s` stands on a rung
`f s : ℕ`; the move `⟨s, k⟩` is enabled only while `s` stands on rung `k`, and puts it on `k + 1`.
The one theorem that matters is `count_climb`: along ANY run the number of moves `⟨s, k⟩` is `1` if
the run carried `s` across rung `k` and `0` otherwise. "At most once", "never again" and "only after
the rungs below" are all read off from it.
-/
import Mathlib.Logic.Function.Basic
import PqcMigration.Lib.Run

namespace PqcMigration.Lib

universe u

/-- The move that takes `key` from `rung` to the next one. -/
structure Climb (σ : Type u) where
  key : σ
  rung : ℕ
  deriving DecidableEq

namespace Ladder

variable {σ : Type u} [DecidableEq σ]

/-- One move: enabled exactly on its own rung. -/
def climb (f : σ → ℕ) (m : Climb σ) : Option (σ → ℕ) :=
  if f m.key = m.rung then some (Function.update f m.key (m.rung + 1)) else none

theorem climb_eq_some {f g : σ → ℕ} {m : Climb σ} :
    climb f m = some g ↔ f m.key = m.rung ∧ Function.update f m.key (m.rung + 1) = g := by
  unfold climb
  split <;> simp [*]

/-- Nobody comes down. -/
theorem le_of_run {f g : σ → ℕ} {ms : List (Climb σ)} (hrun : run climb f ms = some g) (s : σ) :
    f s ≤ g s := by
  refine run_rel (I := fun _ => True) (R := fun f g : σ → ℕ => f s ≤ g s)
    (fun _ => Nat.le_refl _) (fun _ _ _ => Nat.le_trans) (fun _ _ _ _ _ => trivial) ?_ trivial hrun
  intro f m g _ hm
  obtain ⟨hrung, rfl⟩ := climb_eq_some.mp hm
  by_cases hs : s = m.key
  · subst hs
    rw [Function.update_self]
    omega
  · exact Nat.le_of_eq (Function.update_of_ne hs _ f).symm

/-- **Each rung is crossed exactly once.** The moves `⟨s, k⟩` in a run from `f` to `g` number `1`
when `f s ≤ k < g s`, and `0` otherwise. -/
theorem count_climb {f g : σ → ℕ} {ms : List (Climb σ)} (hrun : run climb f ms = some g)
    (s : σ) (k : ℕ) : ms.count ⟨s, k⟩ = if f s ≤ k ∧ k < g s then 1 else 0 := by
  induction ms generalizing f with
  | nil =>
      obtain rfl : f = g := by simpa using hrun
      rw [if_neg (by omega)]
      rfl
  | cons m ms ih =>
      obtain ⟨f', hm, hrest⟩ := run_cons_eq_some.mp hrun
      obtain ⟨hrung, rfl⟩ := climb_eq_some.mp hm
      have hle := le_of_run hrest s
      by_cases hs : s = m.key
      · -- the move is on this key: it is `⟨s, f s⟩`, and the rest of the run starts at `f s + 1`
        subst hs
        rw [Function.update_self] at hle
        by_cases hk : m.rung = k
        · subst hk
          rw [List.count_cons_self, ih hrest, Function.update_self, if_neg (by omega),
            if_pos (by omega)]
        · have hmk : m ≠ ⟨m.key, k⟩ := fun h => hk (congrArg Climb.rung h)
          have hiff : (m.rung + 1 ≤ k ∧ k < g m.key) ↔ (f m.key ≤ k ∧ k < g m.key) := by omega
          rw [List.count_cons_of_ne hmk, ih hrest, Function.update_self, if_congr hiff rfl rfl]
      · -- a move on another key changes neither side
        have hmk : m ≠ ⟨s, k⟩ := fun h => hs (congrArg Climb.key h).symm
        rw [List.count_cons_of_ne hmk, ih hrest, Function.update_of_ne hs]

/-- A move occurs exactly when its rung was crossed. -/
theorem mem_iff_crossed {f g : σ → ℕ} {ms : List (Climb σ)} (hrun : run climb f ms = some g)
    (s : σ) (k : ℕ) : ⟨s, k⟩ ∈ ms ↔ f s ≤ k ∧ k < g s := by
  rw [← List.count_pos_iff, count_climb hrun s k]
  split <;> simp_all

/-- **In order.** Whatever rung lies between the start and a move was crossed before that move. -/
theorem mem_before {f g : σ → ℕ} {ms rest : List (Climb σ)} {s : σ} {k : ℕ}
    (hrun : run climb f (ms ++ ⟨s, k⟩ :: rest) = some g) {j : ℕ} (hfj : f s ≤ j) (hjk : j < k) :
    ⟨s, j⟩ ∈ ms := by
  obtain ⟨f', hleft, hright⟩ := run_append_eq_some.mp hrun
  obtain ⟨f'', hm, -⟩ := run_cons_eq_some.mp hright
  obtain ⟨hrung, -⟩ := climb_eq_some.mp hm
  exact (mem_iff_crossed hleft s j).mpr ⟨hfj, by simpa [hrung] using hjk⟩

end Ladder

end PqcMigration.Lib
