/-
# PqcMigration.Lib.While — a loop that may never leave.

`whileLoop n guard body s` runs a loop for at most `n` looks at its guard: it gives the state the loop
leaves in, or nothing if the guard still held at the last look. A loop that never leaves gives nothing for
every `n`, so a result is always a statement that there is some `n`.
-/
import Mathlib.Logic.Function.Iterate
import Mathlib.Tactic.Common

namespace PqcMigration.Lib

variable {S : Type}

def whileLoop (guard : S → Bool) (body : S → S) : ℕ → S → Option S
  | 0, _ => none
  | n + 1, s => if guard s then whileLoop guard body n (body s) else some s

variable {guard : S → Bool} {body : S → S} {s t : S}

/-- **Where a loop leaves.** After `k` turns, if its guard held before each of them and not after. -/
theorem whileLoop_of_turns {k : ℕ} (hheld : ∀ j < k, guard (body^[j] s) = true)
    (hleft : guard (body^[k] s) = false) : whileLoop guard body (k + 1) s = some (body^[k] s) := by
  induction k generalizing s with
  | zero =>
      have hnot : guard s = false := hleft
      show (if guard s then whileLoop guard body 0 (body s) else some s) = some s
      rw [hnot]
      rfl
  | succ k ih =>
      have hhead : guard s = true := hheld 0 (Nat.succ_pos k)
      rw [whileLoop, if_pos hhead, Function.iterate_succ_apply]
      exact ih (fun j hj => hheld (j + 1) (Nat.succ_lt_succ hj)) hleft

/-- The guard does not hold where a loop has left. -/
theorem guard_of_whileLoop {n : ℕ} (h : whileLoop guard body n s = some t) : guard t = false := by
  induction n generalizing s with
  | zero => cases h
  | succ n ih =>
      rw [whileLoop] at h
      split at h
      · exact ih h
      · next hnot =>
          obtain rfl := Option.some.inj h
          exact Bool.eq_false_iff.mpr hnot

end PqcMigration.Lib
