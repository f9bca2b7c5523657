/-
# PqcMigration.Lib.Rising — a value that steps may raise and never lower, and counting by a coarser sign.

Over a list of steps the value has risen just if one of them raised it (`lt_foldl_iff`): looking at the
two ends tells THAT there was one, not which. Who then counts everything in such lists instead of what
raised the value counts too much, unless the two are the same (`length_filter_eq_iff`).
-/
import Mathlib.Order.Lattice
import Mathlib.Tactic.Common

namespace PqcMigration.Lib

universe u v

section Foldl

variable {S : Type u} {A : Type v} [LinearOrder S] {f : S → A → S}

theorem le_foldl (hf : ∀ s a, s ≤ f s a) (l : List A) (s : S) : s ≤ l.foldl f s := by
  induction l generalizing s with
  | nil => exact le_refl s
  | cons a l ih => exact le_trans (hf s a) (ih (f s a))

/-- The value has risen just if some step, where it was taken, raised it. -/
theorem lt_foldl_iff (hf : ∀ s a, s ≤ f s a) (l : List A) (s : S) :
    s < l.foldl f s ↔ ∃ k a, l[k]? = some a ∧
      (l.take k).foldl f s < f ((l.take k).foldl f s) a := by
  induction l generalizing s with
  | nil => simp
  | cons a l ih =>
      rw [List.foldl_cons]
      constructor
      · intro hlt
        rcases lt_or_eq_of_le (hf s a) with hfirst | hsame
        · exact ⟨0, a, rfl, hfirst⟩
        · rw [← hsame] at hlt
          obtain ⟨k, b, hk, hraise⟩ := (ih s).mp hlt
          refine ⟨k + 1, b, hk, ?_⟩
          rw [List.take_succ_cons, List.foldl_cons, ← hsame]
          exact hraise
      · rintro ⟨k, b, hk, hraise⟩
        cases k with
        | zero =>
            obtain rfl : a = b := Option.some.inj hk
            exact lt_of_lt_of_le hraise (le_foldl hf l (f s a))
        | succ k =>
            rw [List.take_succ_cons, List.foldl_cons] at hraise
            exact lt_of_le_of_lt (hf s a) ((ih (f s a)).mpr ⟨k, b, hk, hraise⟩)

end Foldl

/-- A sign that everything counted has, and maybe more, gives the right count just if nothing else has
it. -/
theorem length_filter_eq_iff {A : Type u} {l : List A} {p q : A → Bool}
    (hqp : ∀ a ∈ l, q a = true → p a = true) :
    (l.filter p).length = (l.filter q).length ↔ ∀ a ∈ l, p a = true → q a = true := by
  have hboth : l.filter q = (l.filter p).filter q := by
    rw [List.filter_filter]
    apply List.filter_congr
    intro a ha
    cases hq : q a with
    | false => rfl
    | true =>
        rw [hqp a ha hq]
        rfl
  rw [eq_comm, hboth, List.filter_sublist.length_eq, List.filter_eq_self]
  simp only [List.mem_filter, and_imp]

end PqcMigration.Lib
