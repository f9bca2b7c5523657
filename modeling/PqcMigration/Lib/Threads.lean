/-
# PqcMigration.Lib.Threads — the program counters of several threads, one of which moves.

A system of threads keeps `pc : ι → P`, and the step of thread `i` is `Function.update pc i p`. What
is known about a thread afterwards is known about the one that moved or was known before; and a sum
over the threads changes by what the one that moved contributes.
-/
import Mathlib.Algebra.BigOperators.Group.Finset.Piecewise

namespace PqcMigration.Lib

universe u v

variable {ι : Type u} {P : Type v} [DecidableEq ι]

/-- What holds of thread `j` after thread `i` moved to `p` holds of `p`, or held of `j` before. -/
theorem of_update {pc : ι → P} {i j : ι} {p : P} {Q : P → Prop} (h : Q (Function.update pc i p j)) :
    (j = i ∧ Q p) ∨ (j ≠ i ∧ Q (pc j)) := by
  by_cases hji : j = i
  · subst hji
    rw [Function.update_self] at h
    exact Or.inl ⟨rfl, h⟩
  · rw [Function.update_of_ne hji] at h
    exact Or.inr ⟨hji, h⟩

/-- A fact no thread has at `p` is, after the move, a fact from before about another thread. -/
theorem of_update_of_not {pc : ι → P} {i j : ι} {p : P} {Q : P → Prop} (hp : ¬ Q p)
    (h : Q (Function.update pc i p j)) : j ≠ i ∧ Q (pc j) := by
  rcases of_update h with ⟨-, hmoved⟩ | hbefore
  · exact absurd hmoved hp
  · exact hbefore

/-- A fact that thread `i` has at `p` only if it had it before is a fact from before. -/
theorem of_update_of_imp {pc : ι → P} {i j : ι} {p : P} {Q : P → Prop} (hp : Q p → Q (pc i))
    (h : Q (Function.update pc i p j)) : Q (pc j) := by
  rcases of_update h with ⟨rfl, hmoved⟩ | ⟨-, hbefore⟩
  · exact hp hmoved
  · exact hbefore

/-- A sum over all threads after one of them moved. -/
theorem sum_update [Fintype ι] (f : ι → P → ℕ) (pc : ι → P) (i : ι) (p : P) :
    (∑ k, f k (Function.update pc i p k)) + f i (pc i) = (∑ k, f k (pc k)) + f i p := by
  have hmoved : (fun k => f k (Function.update pc i p k)) =
      Function.update (fun k => f k (pc k)) i (f i p) := by
    funext k
    exact Function.apply_update f pc i p k
  rw [hmoved, Finset.sum_update_of_mem (Finset.mem_univ i),
    ← Finset.add_sum_erase Finset.univ (fun k => f k (pc k)) (Finset.mem_univ i),
    Finset.sdiff_singleton_eq_erase]
  omega

end PqcMigration.Lib
