/-
# PqcMigration.Lib.Ever — how many items were ever in a state.

The items of a list go through states; the stages are the lists of states one after another. A count taken
from the last stage is the number of items that were ever in a state just if none of those has left the
states that are counted (`countP_eq_everCount_iff`).
-/
import Mathlib.Data.List.Basic
import Mathlib.Tactic.Common

namespace PqcMigration.Lib

variable {S : Type}

section

variable {α : Type} {p q : α → Bool}

/-- Of two counts, one over more than the other. -/
theorem countP_eq_countP_iff {l : List α} (hpq : ∀ x ∈ l, p x = true → q x = true) :
    l.countP p = l.countP q ↔ ∀ x ∈ l, q x = true → p x = true := by
  induction l with
  | nil => simp
  | cons x l ih =>
      have htail : ∀ y ∈ l, p y = true → q y = true := fun y hy => hpq y (List.mem_cons_of_mem x hy)
      have hle : l.countP p ≤ l.countP q := List.countP_mono_left htail
      rw [List.countP_cons, List.countP_cons, List.forall_mem_cons, ← ih htail]
      cases hp : p x with
      | true => simp [hpq x List.mem_cons_self hp]
      | false =>
          cases hq : q x with
          | true =>
              simp
              omega
          | false => simp

/-- A count by index. -/
theorem countP_eq_range (p : S → Bool) (l : List S) :
    l.countP p = (List.range l.length).countP fun i => l[i]?.any p := by
  induction l with
  | nil => rfl
  | cons x l ih =>
      rw [List.countP_cons, ih, List.length_cons, List.range_succ_eq_map, List.countP_cons, List.countP_map]
      rfl

end

/-! ## Stages -/

variable [DecidableEq S]

def wasEver (stages : List (List S)) (s : S) (i : ℕ) : Bool := stages.any fun stage => stage[i]? = some s

/-- How many of the `n` items were ever in the state. -/
def everCount (stages : List (List S)) (n : ℕ) (s : S) : ℕ := (List.range n).countP (wasEver stages s)

/-- At a stage where the item is in the state if it is at any. -/
theorem wasEver_iff {stages : List (List S)} {stage : List S} {s : S} {i : ℕ} (hstage : stage ∈ stages)
    (h : ∀ other ∈ stages, other[i]? = some s → stage[i]? = some s) :
    wasEver stages s i = true ↔ stage[i]? = some s := by
  simp only [wasEver, List.any_eq_true, decide_eq_true_eq]
  exact ⟨fun ⟨other, hother, hi⟩ => h other hother hi, fun hi => ⟨stage, hstage, hi⟩⟩

/-- **A count of the last states**, of states that are only come to through `s`. -/
theorem countP_eq_everCount_iff {stages : List (List S)} {final : List S} {s : S} {which : S → Bool}
    (hthrough : ∀ (i : ℕ) (t : S), final[i]? = some t → which t = true → wasEver stages s i = true) :
    final.countP which = everCount stages final.length s ↔
      ∀ (i : ℕ) (t : S), final[i]? = some t → wasEver stages s i = true → which t = true := by
  unfold everCount
  rw [countP_eq_range, countP_eq_countP_iff]
  · constructor
    · intro h i t ht hever
      obtain ⟨hi, -⟩ := List.getElem?_eq_some_iff.mp ht
      have hany := h i (List.mem_range.mpr hi) hever
      rw [ht] at hany
      exact hany
    · intro h i hi hever
      have ht : final[i]? = some _ := List.getElem?_eq_getElem (List.mem_range.mp hi)
      rw [ht]
      exact h i _ ht hever
  · intro i hi hany
    have ht : final[i]? = some _ := List.getElem?_eq_getElem (List.mem_range.mp hi)
    rw [ht] at hany
    exact hthrough i _ ht hany

end PqcMigration.Lib
