/-
# PqcMigration.Lib.Scan — scanning a text from left to right.

The pieces of a regular expression that needs no backtracking: a run of characters of one class that is as
long as possible (`token`), and a fixed text (`literal`). A scanner returns what is left of the text. What
it does depends on the characters of the text only (`token_congr`), and blanks at the end make no
difference to a scanner that ends in a fixed text (`literal_append`).

The second half is about fixed texts that begin with a separator: they are found where a separator stands
(`sep_infix_iff`).
-/
import Mathlib.Data.List.Infix
import Mathlib.Data.List.DropRight

namespace PqcMigration.Lib

universe u

variable {α : Type u} {p q : α → Bool} {s t rest : List α}

/-! ## Scanners -/

/-- `p+`: the run at the beginning, and what follows it. -/
def token (p : α → Bool) (s : List α) : Option (List α × List α) :=
  if s.takeWhile p = [] then none else some (s.takeWhile p, s.dropWhile p)

/-- A fixed text at the beginning. -/
def literal [DecidableEq α] (t s : List α) : Option (List α) :=
  if t <+: s then some (s.drop t.length) else none

theorem token_eq_some (h : token p s = some (t, rest)) : s = t ++ rest := by
  unfold token at h
  split at h
  · exact absurd h (by simp)
  · obtain ⟨rfl, rfl⟩ := Prod.mk.inj (Option.some.inj h)
    exact List.takeWhile_append_dropWhile.symm

/-- A run is found where it stands. -/
theorem token_append (ht : t ≠ []) (hall : ∀ c ∈ t, p c = true) (hrest : ∀ c ∈ rest.head?, p c = false) :
    token p (t ++ rest) = some (t, rest) := by
  have htake : rest.takeWhile p = [] := by
    cases rest with
    | nil => rfl
    | cons c rest => rw [List.takeWhile_cons_of_neg (by simp [hrest c rfl])]
  have hdrop : rest.dropWhile p = rest := by
    cases rest with
    | nil => rfl
    | cons c rest => rw [List.dropWhile_cons_of_neg (by simp [hrest c rfl])]
  unfold token
  rw [List.takeWhile_append_of_pos hall, List.dropWhile_append_of_pos hall, htake, hdrop, List.append_nil,
    if_neg ht]

theorem token_eq_none (h : ∀ c ∈ s.head?, p c = false) : token p s = none := by
  unfold token
  cases s with
  | nil => rfl
  | cons c s => rw [List.takeWhile_cons_of_neg (by simp [h c rfl]), if_pos rfl]

theorem token_isSuffix {x : List α × List α} (h : token p s = some x) : x.2 <:+ s :=
  ⟨x.1, (token_eq_some h).symm⟩

/-- A run that does not go to the end is the same when something is appended. -/
theorem token_append_right (h : s.dropWhile p ≠ []) (w : List α) :
    token p (s ++ w) = (token p s).map fun x => (x.1, x.2 ++ w) := by
  have htake : (s ++ w).takeWhile p = s.takeWhile p := by
    rw [List.takeWhile_append, if_neg]
    intro hlength
    refine h (List.eq_nil_of_length_eq_zero ?_)
    have hsplit := congrArg List.length (List.takeWhile_append_dropWhile (p := p) (l := s))
    rw [List.length_append] at hsplit
    omega
  have hdrop : (s ++ w).dropWhile p = s.dropWhile p ++ w := by
    rw [List.dropWhile_append, if_neg (by simpa using h)]
  unfold token
  rw [htake, hdrop]
  split <;> rfl

/-- A run that goes to the end leaves nothing. -/
theorem token_rest_eq_nil (h : ∀ c ∈ s, p c = true) {x : List α × List α} (hx : token p s = some x) :
    x.2 = [] := by
  unfold token at hx
  split at hx
  · exact absurd hx (by simp)
  · rw [← Option.some.inj hx]
    exact List.dropWhile_eq_nil_iff.mpr h

/-- Nor is a run lengthened by characters of other classes. -/
theorem token_append_of_none {w : List α} (hw : ∀ c ∈ w, p c = false) :
    token p (s ++ w) = (token p s).map fun x => (x.1, x.2 ++ w) := by
  by_cases h : s.dropWhile p = []
  · have hall : ∀ c ∈ s, p c = true := List.dropWhile_eq_nil_iff.mp h
    have hhead : ∀ c ∈ w.head?, p c = false := fun c hc => hw c (List.mem_of_head? hc)
    cases s with
    | nil => rw [List.nil_append, token_eq_none hhead]; rfl
    | cons c s =>
        have hself : token p (c :: s ++ []) = some (c :: s, []) :=
          token_append (List.cons_ne_nil c s) hall (by simp)
        rw [List.append_nil] at hself
        rw [token_append (List.cons_ne_nil c s) hall hhead, hself]
        rfl
  · exact token_append_right h w

/-- What follows a run may ignore that the run is lengthened at the end of the text, if it finds nothing in
the empty text. -/
theorem token_bind_append {β : Type u} {f : List α → Option β} {g : β → β} {w : List α}
    (hw : ∀ c ∈ w, p c = true) (hnil : f [] = none) (hf : ∀ r, f (r ++ w) = (f r).map g) :
    ((token p (s ++ w)).bind fun x => f x.2) = ((token p s).bind fun x => f x.2).map g := by
  by_cases h : s.dropWhile p = []
  · -- nothing is left in either
    have hall : ∀ c ∈ s, p c = true := List.dropWhile_eq_nil_iff.mp h
    have hnone : ∀ r : List α, (∀ c ∈ r, p c = true) → ((token p r).bind fun x => f x.2) = none := by
      intro r hr
      rw [Option.bind_eq_none_iff]
      intro x hx
      rw [token_rest_eq_nil hr hx, hnil]
    have hboth : ∀ c ∈ s ++ w, p c = true := by
      intro c hc
      exact (List.mem_append.mp hc).elim (hall c) (hw c)
    rw [hnone s hall, hnone (s ++ w) hboth, Option.map_none]
  · rw [token_append_right h]
    cases token p s with
    | none => rfl
    | some x => exact hf x.2

theorem token_congr (h : ∀ c ∈ s, p c = q c) : token p s = token q s := by
  have htake : s.takeWhile p = s.takeWhile q := by
    induction s with
    | nil => rfl
    | cons c s ih =>
        rw [List.takeWhile_cons, List.takeWhile_cons, h c List.mem_cons_self,
          ih fun d hd => h d (List.mem_cons_of_mem c hd)]
  have hdrop : s.dropWhile p = s.dropWhile q := by
    have hsame : s.takeWhile q ++ s.dropWhile p = s.takeWhile q ++ s.dropWhile q := by
      rw [← htake, List.takeWhile_append_dropWhile, htake, List.takeWhile_append_dropWhile]
    exact List.append_cancel_left hsame
  unfold token
  rw [htake, hdrop]

section Literal

variable [DecidableEq α]

@[simp] theorem literal_self_append (t s : List α) : literal t (t ++ s) = some s := by
  unfold literal
  rw [if_pos (List.prefix_append t s), List.drop_left]

theorem literal_eq_some (h : literal t s = some rest) : s = t ++ rest := by
  unfold literal at h
  split at h
  · next hprefix =>
    obtain ⟨r, rfl⟩ := hprefix
    rw [List.drop_left] at h
    rw [Option.some.inj h]
  · exact absurd h (by simp)

theorem literal_eq_none (h : ¬ t <+: s) : literal t s = none := if_neg h

/-- A fixed text is not found partly in what is appended, if that has none of its characters. -/
theorem literal_append {w : List α} (hw : ∀ c ∈ t, c ∉ w) :
    literal t (s ++ w) = (literal t s).map (· ++ w) := by
  by_cases ht : t <+: s
  · obtain ⟨r, rfl⟩ := ht
    rw [List.append_assoc, literal_self_append, literal_self_append, Option.map_some]
  · rw [literal_eq_none ht, Option.map_none]
    refine literal_eq_none fun hlong => ht ?_
    rcases List.prefix_or_prefix_of_prefix hlong (List.prefix_append s w) with hshort | ⟨r, rfl⟩
    · exact hshort
    · cases r with
      | nil => simp
      | cons c r =>
          -- what sticks out begins with a character that `w` does not have
          have hr : c :: r <+: w := (List.prefix_append_right_inj s).mp hlong
          exact absurd (hr.subset List.mem_cons_self) (hw c (by simp))

end Literal

/-! ## Separators -/

section Sep

variable {c : α} {x a b : List α}

/-- A text that begins with a separator is found where one stands. -/
theorem sep_infix_iff (ha : c ∉ a) : c :: x <:+: a ++ c :: b ↔ x <+: b ∨ c :: x <:+: b := by
  induction a with
  | nil => rw [List.nil_append, List.infix_cons_iff, List.cons_prefix_cons, and_iff_right rfl]
  | cons d a ih =>
      obtain ⟨hd, ha⟩ := not_or.mp (List.mem_cons.not.mp ha)
      rw [List.cons_append, List.infix_cons_iff, List.cons_prefix_cons, ih ha]
      simp [hd]

theorem not_isInfix_sep (hb : c ∉ b) : ¬ c :: x <:+: b := fun h => hb (h.subset List.mem_cons_self)

end Sep

/-! ## Blanks at the end -/

theorem rdropWhile_append_of_last {a b : List α} (ha : ∀ c ∈ a.getLast?, p c = false) :
    (a ++ b).rdropWhile p = a ++ b.rdropWhile p := by
  induction b using List.reverseRecOn with
  | nil =>
      rw [List.append_nil, List.rdropWhile_nil, List.append_nil, List.rdropWhile_eq_self_iff]
      intro hne
      simp [ha _ (List.getLast?_eq_some_getLast hne)]
  | append_singleton b c ih =>
      rw [← List.append_assoc, List.rdropWhile_concat, List.rdropWhile_concat, ih]
      split
      · rfl
      · rw [List.append_assoc]

/-! ## Fixed texts -/

/-- What a test shows of every item of a fixed text. -/
theorem forall_mem_of_all {P : α → Prop} [DecidablePred P] (h : (s.all fun c => decide (P c)) = true) :
    ∀ c ∈ s, P c :=
  fun c hc => of_decide_eq_true (List.all_eq_true.mp h c hc)

end PqcMigration.Lib
