/-
# PqcMigration.Lib.ExchangeSort — sorting in place by exchanges.

Two nested loops over the indices: for each place, every later place is looked at, and the two entries are
exchanged if they stand the wrong way round. After the inner loop the least of what was left stands at the
place, so the result is the sorted list (`exchangeSort_eq_mergeSort`).
-/
import Mathlib.Data.List.Sort
import Mathlib.Order.Lattice

namespace PqcMigration.Lib

universe u

variable {α : Type u} [LinearOrder α]

/-- `if xs[i] > xs[j] { xs[i], xs[j] = xs[j], xs[i] }` -/
def exchange (i j : ℕ) (xs : List α) : List α :=
  match xs[i]?, xs[j]? with
  | some x, some y => if y < x then (xs.set i y).set j x else xs
  | _, _ => xs

/-- `for j := i + 1; j < n; j++` -/
def exchangeWithLater (n i : ℕ) (xs : List α) : List α :=
  (List.range' (i + 1) (n - (i + 1))).foldl (fun xs j => exchange i j xs) xs

/-- `for i := 0; i < n - 1; i++` -/
def exchangeSort (xs : List α) : List α :=
  (List.range' 0 (xs.length - 1)).foldl (fun ys i => exchangeWithLater xs.length i ys) xs

theorem exchange_append (front mid : List α) (x y : α) (ys : List α) :
    exchange front.length (front.length + 1 + mid.length) (front ++ x :: (mid ++ y :: ys)) =
      front ++ min x y :: (mid ++ max x y :: ys) := by
  have hoffset : front.length + 1 + mid.length - front.length = mid.length + 1 := by omega
  have hi : (front ++ x :: (mid ++ y :: ys))[front.length]? = some x := by
    rw [List.getElem?_append_right (Nat.le_refl _), Nat.sub_self, List.getElem?_cons_zero]
  have hj : (front ++ x :: (mid ++ y :: ys))[front.length + 1 + mid.length]? = some y := by
    rw [List.getElem?_append_right (by omega), hoffset, List.getElem?_cons_succ,
      List.getElem?_append_right (Nat.le_refl _), Nat.sub_self, List.getElem?_cons_zero]
  unfold exchange
  rw [hi, hj]
  dsimp only
  split
  · next hlt =>
    rw [min_eq_right hlt.le, max_eq_left hlt.le]
    rw [List.set_append_right _ _ (Nat.le_refl _), Nat.sub_self, List.set_cons_zero,
      List.set_append_right _ _ (by omega), hoffset, List.set_cons_succ,
      List.set_append_right _ _ (Nat.le_refl _), Nat.sub_self, List.set_cons_zero]
  · next hle =>
    rw [min_eq_left (not_lt.mp hle), max_eq_right (not_lt.mp hle)]

/-- The inner loop, when it has passed `mid`: the place holds the least of what it has seen. -/
theorem foldl_exchange (front mid : List α) (x : α) (hx : ∀ z ∈ mid, x ≤ z) (ys : List α) :
    ∃ m zs, (List.range' (front.length + 1 + mid.length) ys.length).foldl
        (fun xs j => exchange front.length j xs) (front ++ x :: (mid ++ ys)) = front ++ m :: zs ∧
      (m :: zs).Perm (x :: (mid ++ ys)) ∧ ∀ z ∈ zs, m ≤ z := by
  induction ys generalizing x mid with
  | nil => exact ⟨x, mid, by simp, by simp, hx⟩
  | cons y ys ih =>
      have hmid : ∀ z ∈ mid ++ [max x y], min x y ≤ z := by
        intro z hz
        rcases List.mem_append.mp hz with hz | hz
        · exact (min_le_left x y).trans (hx z hz)
        · rw [List.mem_singleton.mp hz]
          exact (min_le_left x y).trans (le_max_left x y)
      obtain ⟨m, zs, hfold, hperm, hleast⟩ := ih (mid ++ [max x y]) (min x y) hmid
      refine ⟨m, zs, ?_, hperm.trans ?_, hleast⟩
      · rw [List.length_cons, List.range'_succ, List.foldl_cons, exchange_append]
        rw [List.length_append, List.length_singleton, List.append_assoc, List.singleton_append] at hfold
        exact hfold
      · rw [List.append_assoc, List.singleton_append]
        have hpair : [min x y, max x y].Perm [x, y] := by
          rcases le_total x y with hxy | hxy
          · rw [min_eq_left hxy, max_eq_right hxy]
          · rw [min_eq_right hxy, max_eq_left hxy]
            exact List.Perm.swap x y []
        have hmin : (min x y :: (mid ++ max x y :: ys)).Perm ([min x y, max x y] ++ (mid ++ ys)) :=
          List.Perm.cons _ List.perm_middle
        have hxy : (x :: (mid ++ y :: ys)).Perm ([x, y] ++ (mid ++ ys)) :=
          List.Perm.cons _ List.perm_middle
        exact hmin.trans ((hpair.append_right _).trans hxy.symm)

/-- The outer loop, when it has settled `front`. -/
theorem foldl_exchangeWithLater {n : ℕ} (front ys : List α) (hn : n = front.length + ys.length) :
    ∃ zs, (List.range' front.length (ys.length - 1)).foldl (fun xs i => exchangeWithLater n i xs)
        (front ++ ys) = front ++ zs ∧ zs.Perm ys ∧ zs.Pairwise (· ≤ ·) := by
  induction hk : ys.length generalizing front ys with
  | zero =>
      obtain rfl := List.eq_nil_of_length_eq_zero hk
      exact ⟨[], rfl, List.Perm.refl _, List.Pairwise.nil⟩
  | succ k ih =>
      obtain ⟨x, ys, rfl⟩ := List.exists_cons_of_length_eq_add_one hk
      have hlength : ys.length = k := Nat.succ_injective hk
      cases k with
      | zero =>
          obtain rfl := List.eq_nil_of_length_eq_zero hlength
          exact ⟨[x], rfl, List.Perm.refl _, List.pairwise_singleton _ x⟩
      | succ k =>
          obtain ⟨m, zs, hinner, hperm, hleast⟩ := foldl_exchange front [] x (by simp) ys
          have hzs : zs.length = k + 1 := by
            have := hperm.length_eq
            simp only [List.length_cons, List.nil_append] at this
            omega
          obtain ⟨ws, houter, hrest, hsorted⟩ := ih (front ++ [m]) zs (by simp [hzs, hn, hlength]; omega) hzs
          refine ⟨m :: ws, ?_, (List.Perm.cons m hrest).trans hperm, List.pairwise_cons.mpr ⟨?_, hsorted⟩⟩
          · -- the first turn of the outer loop settles `m`, the others are those after `front ++ [m]`
            have hcount : n - (front.length + 1) = ys.length := by simp [hn]; omega
            have hfirst : exchangeWithLater n front.length (front ++ x :: ys) = front ++ m :: zs := by
              unfold exchangeWithLater
              rw [hcount]
              simpa using hinner
            rw [Nat.add_sub_cancel, List.range'_succ, List.foldl_cons, hfirst]
            rw [List.length_append, List.length_singleton, Nat.add_sub_cancel, List.append_assoc,
              List.singleton_append, List.append_assoc, List.singleton_append] at houter
            exact houter
          · intro z hz
            exact hleast z (hrest.mem_iff.mp hz)

theorem exchangeSort_spec (xs : List α) :
    (exchangeSort xs).Perm xs ∧ (exchangeSort xs).Pairwise (· ≤ ·) := by
  obtain ⟨zs, hfold, hperm, hsorted⟩ := foldl_exchangeWithLater [] xs (Nat.zero_add xs.length).symm
  have hzs : exchangeSort xs = zs := hfold
  rw [hzs]
  exact ⟨hperm, hsorted⟩

/-- **The loops sort.** -/
theorem exchangeSort_eq_mergeSort (xs : List α) : exchangeSort xs = xs.mergeSort := by
  obtain ⟨hperm, hsorted⟩ := exchangeSort_spec xs
  have hsame : (exchangeSort xs).Perm xs.mergeSort := hperm.trans (List.mergeSort_perm xs _).symm
  exact hsame.eq_of_pairwise' hsorted (List.pairwise_mergeSort' (· ≤ ·) xs)

end PqcMigration.Lib
