/-
# PqcMigration.Lib.Lines — a text in lines, and what is read from them last.

A reader takes a line for a value or for nothing, and the last value counts (`lastRead`). Two readers of the
same lines are compared at the last line that either of them reads (`Last`): after it nothing is left to
compare.

One program may see more line breaks than another. Its lines are then the lines of the lines
(`splitOnP_refine`).
-/
import Mathlib.Data.List.Induction
import Mathlib.Tactic.Common

namespace PqcMigration.Lib.Lines

universe u v w

variable {α : Type u} {β : Type v} {γ : Type w}

/-! ## The last value -/

def lastRead (f : α → Option β) (xs : List α) : Option β := (xs.filterMap f).getLast?

section LastRead

variable {f : α → Option β} {g : α → Option γ} {xs ys : List α} {x : α}

@[simp] theorem lastRead_nil : lastRead f [] = none := rfl

theorem lastRead_append : lastRead f (xs ++ ys) = (lastRead f ys).or (lastRead f xs) := by
  rw [lastRead, List.filterMap_append, List.getLast?_append]
  rfl

theorem lastRead_singleton : lastRead f [x] = f x := by
  unfold lastRead
  cases hx : f x with
  | none => rw [List.filterMap_cons_none hx, List.filterMap_nil, List.getLast?_nil]
  | some y => rw [List.filterMap_cons_some hx, List.filterMap_nil, List.getLast?_singleton]

theorem lastRead_cons : lastRead f (x :: xs) = (lastRead f xs).or (f x) := by
  rw [← List.singleton_append, lastRead_append, lastRead_singleton]

theorem lastRead_eq_none_iff : lastRead f xs = none ↔ ∀ x ∈ xs, f x = none := by
  rw [lastRead, List.getLast?_eq_none_iff, List.filterMap_eq_nil_iff]

/-- Each line may itself be lines. -/
theorem lastRead_flatMap (lines : γ → List α) (zs : List γ) :
    lastRead f (zs.flatMap lines) = lastRead (fun z => lastRead f (lines z)) zs := by
  induction zs with
  | nil => rfl
  | cons z zs ih => rw [List.flatMap_cons, lastRead_append, ih, lastRead_cons]

/-- Lines that are read as nothing may be left out. -/
theorem lastRead_filter {p : α → Bool} (h : ∀ x, p x = false → f x = none) :
    lastRead f (xs.filter p) = lastRead f xs := by
  induction xs with
  | nil => rfl
  | cons x xs ih =>
      cases hx : p x with
      | true => rw [List.filter_cons_of_pos hx, lastRead_cons, lastRead_cons, ih]
      | false => rw [List.filter_cons_of_neg (by simp [hx]), lastRead_cons, ih, h x hx, Option.or_none]

/-- `x` is the last line that one of the two readers reads. -/
structure Last (f : α → Option β) (g : α → Option γ) (xs before : List α) (x : α) : Prop where
  split : ∃ after, xs = before ++ x :: after ∧ ∀ y ∈ after, f y = none ∧ g y = none
  read : f x ≠ none ∨ g x ≠ none

theorem exists_last (h : lastRead f xs ≠ none) : ∃ before x, Last f g xs before x := by
  induction xs using List.reverseRecOn with
  | nil => exact absurd rfl h
  | append_singleton xs x ih =>
      by_cases hx : f x = none ∧ g x = none
      · obtain ⟨before, y, ⟨after, rfl, hafter⟩, hread⟩ := ih (by
          rwa [lastRead_append, lastRead_singleton, hx.1, Option.none_or] at h)
        refine ⟨before, y, ⟨after ++ [x], by simp, ?_⟩, hread⟩
        intro z hz
        obtain hz | hz := List.mem_append.mp hz
        · exact hafter z hz
        · rw [List.mem_singleton.mp hz]
          exact hx
      · exact ⟨xs, x, ⟨[], rfl, fun _ hy => absurd hy List.not_mem_nil⟩, by rwa [← not_and_or]⟩

theorem Last.left {before : List α} (h : Last f g xs before x) :
    lastRead f xs = (f x).or (lastRead f before) := by
  obtain ⟨after, rfl, hafter⟩ := h.split
  have hnone : lastRead f after = none := lastRead_eq_none_iff.mpr fun y hy => (hafter y hy).1
  rw [lastRead_append, lastRead_cons, hnone, Option.none_or]

theorem Last.right {before : List α} (h : Last f g xs before x) :
    lastRead g xs = (g x).or (lastRead g before) := by
  obtain ⟨after, rfl, hafter⟩ := h.split
  have hnone : lastRead g after = none := lastRead_eq_none_iff.mpr fun y hy => (hafter y hy).2
  rw [lastRead_append, lastRead_cons, hnone, Option.none_or]

end LastRead

/-! ## Lines of lines -/

section Split

variable {p q : α → Bool} {xs : List α}

theorem exists_splitOnP (p : α → Bool) (xs : List α) : ∃ piece pieces, xs.splitOnP p = piece :: pieces :=
  List.exists_cons_of_ne_nil (List.splitOnP_ne_nil p xs)

theorem splitOnP_of_sep {a : α} (ha : p a = true) (xs : List α) :
    (a :: xs).splitOnP p = [] :: xs.splitOnP p := by
  rw [List.splitOnP_cons_eq_if_modifyHead, if_pos ha]

theorem splitOnP_of_not_sep {a : α} (ha : p a = false) {piece : List α} {pieces : List (List α)}
    (h : xs.splitOnP p = piece :: pieces) : (a :: xs).splitOnP p = (a :: piece) :: pieces := by
  rw [List.splitOnP_cons_eq_if_modifyHead, if_neg (by simp [ha]), h, List.modifyHead_cons]

theorem splitOnP_of_none (h : ∀ a ∈ xs, p a = false) : xs.splitOnP p = [xs] := by
  induction xs with
  | nil => exact List.splitOnP_nil
  | cons a xs ih =>
      obtain ⟨ha, hxs⟩ := List.forall_mem_cons.mp h
      exact splitOnP_of_not_sep ha (ih hxs)

/-- The first piece is what stands before the first separator. -/
theorem head?_splitOnP (p : α → Bool) (xs : List α) :
    (xs.splitOnP p).head? = some (xs.takeWhile fun a => !p a) := by
  induction xs with
  | nil => rfl
  | cons a xs ih =>
      obtain ⟨piece, pieces, hsplit⟩ := exists_splitOnP p xs
      rw [hsplit, List.head?_cons, Option.some.injEq] at ih
      cases ha : p a with
      | true => rw [splitOnP_of_sep ha, List.takeWhile_cons_of_neg (by simp [ha]), List.head?_cons]
      | false =>
          rw [splitOnP_of_not_sep ha hsplit, List.takeWhile_cons_of_pos (by simp [ha]), List.head?_cons, ih]

theorem splitOnP_refine (h : ∀ a, p a = true → q a = true) (xs : List α) :
    xs.splitOnP q = (xs.splitOnP p).flatMap (List.splitOnP q) := by
  induction xs with
  | nil => rfl
  | cons a xs ih =>
      obtain ⟨piece, pieces, hp⟩ := exists_splitOnP p xs
      obtain ⟨first, rest, hq⟩ := exists_splitOnP q piece
      have hsplit : xs.splitOnP q = first :: (rest ++ pieces.flatMap (List.splitOnP q)) := by
        rw [ih, hp, List.flatMap_cons, hq, List.cons_append]
      cases hpa : p a with
      | true => rw [splitOnP_of_sep (h a hpa), splitOnP_of_sep hpa, List.flatMap_cons, ih, List.splitOnP_nil,
          List.singleton_append]
      | false =>
          rw [splitOnP_of_not_sep hpa hp, List.flatMap_cons]
          cases hqa : q a with
          | true => rw [splitOnP_of_sep hqa, splitOnP_of_sep hqa, hq, hsplit, List.cons_append, List.cons_append]
          | false => rw [splitOnP_of_not_sep hqa hsplit, splitOnP_of_not_sep hqa hq, List.cons_append]

end Split

end PqcMigration.Lib.Lines
