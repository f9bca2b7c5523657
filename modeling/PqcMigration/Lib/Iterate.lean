/-
# PqcMigration.Lib.Iterate — a callback on the items of a list, by an iterator that may stop short.

An iterator hands the items to a callback, one after another. It returns an error where it cannot go on,
and the items from there on are passed over; the callback may end the program instead. `iterate` gives
what the callback returned for the items it was handed, and the iterator's error; `each` is a loop that
nothing but the callback ends.

Both number the items from `i`, so that what fails may depend on the place.
-/
import PqcMigration.Lib.Script

namespace PqcMigration.Lib

variable {α β γ ε ω : Type}

/-- `fails k` is the iterator's error before item `k`, or after the last. -/
def iterate (fails : ℕ → Option ω) (body : ℕ → α → Except ε β) :
    ℕ → List α → Except ε (List β × Option ω)
  | i, [] => .ok ([], fails i)
  | i, x :: xs =>
      match fails i with
      | some err => .ok ([], some err)
      | none => do
          let y ← body i x
          let r ← iterate fails body (i + 1) xs
          return (y :: r.1, r.2)

def each (body : ℕ → α → Except ε β) : ℕ → List α → Except ε (List β)
  | _, [] => .ok []
  | i, x :: xs => do
      let y ← body i x
      let ys ← each body (i + 1) xs
      return y :: ys

section

variable {fails : ℕ → Option ω} {body : ℕ → α → Except ε β} {f : α → β}

/-- A loop that comes to its end has handled every item. -/
theorem each_ok (hbody : ∀ i x y, body i x = .ok y → y = f x) {i : ℕ} {xs : List α} {ys : List β}
    (h : each body i xs = .ok ys) : ys = xs.map f := by
  induction xs generalizing i ys with
  | nil => exact (Except.ok.inj h).symm
  | cons x xs ih =>
      obtain ⟨y, hy, hrest⟩ := except_bind_eq_ok h
      obtain ⟨ys', hys', heq⟩ := except_bind_eq_ok hrest
      obtain rfl := Except.ok.inj heq
      rw [hbody i x y hy, ih hys', List.map_cons]

/-- A loop comes to its end just if its body returns at every place, and leaves what that returned there. -/
theorem each_eq_ok_iff {i : ℕ} {xs : List α} {ys : List β} :
    each body i xs = .ok ys ↔ ys.length = xs.length ∧
      ∀ (k : ℕ) (x : α), xs[k]? = some x → ∃ y, ys[k]? = some y ∧ body (i + k) x = .ok y := by
  induction xs generalizing i ys with
  | nil =>
      constructor
      · intro h
        obtain rfl : [] = ys := Except.ok.inj h
        simp
      · rintro ⟨hlength, -⟩
        rw [List.eq_nil_of_length_eq_zero hlength]
        rfl
  | cons x xs ih =>
      constructor
      · intro h
        obtain ⟨y, hy, hrest⟩ := except_bind_eq_ok h
        obtain ⟨ys', hys', heq⟩ := except_bind_eq_ok hrest
        obtain rfl := Except.ok.inj heq
        obtain ⟨hlength, hplaces⟩ := ih.mp hys'
        refine ⟨by simp [hlength], ?_⟩
        intro k x' hx'
        cases k with
        | zero =>
            obtain rfl : x = x' := Option.some.inj hx'
            exact ⟨y, rfl, hy⟩
        | succ k =>
            obtain ⟨y', hy', hbody⟩ := hplaces k x' hx'
            rw [Nat.add_right_comm] at hbody
            exact ⟨y', hy', hbody⟩
      · rintro ⟨hlength, hplaces⟩
        cases ys with
        | nil => cases hlength
        | cons y ys =>
            obtain ⟨y', hy', hbody⟩ := hplaces 0 x rfl
            obtain rfl : y = y' := Option.some.inj hy'
            have hrest : each body (i + 1) xs = .ok ys := by
              apply ih.mpr
              refine ⟨Nat.succ.inj hlength, ?_⟩
              intro k x' hx'
              obtain ⟨y', hy', hbody'⟩ := hplaces (k + 1) x' hx'
              rw [← Nat.add_assoc, Nat.add_right_comm] at hbody'
              exact ⟨y', hy', hbody'⟩
            rw [each]
            rw [Nat.add_zero] at hbody
            rw [hbody, hrest]
            rfl

/-- A loop whose body returns at every place comes to its end. -/
theorem exists_each {i : ℕ} {xs : List α}
    (h : ∀ (k : ℕ) (x : α), xs[k]? = some x → ∃ y, body (i + k) x = .ok y) :
    ∃ ys, each body i xs = .ok ys := by
  induction xs generalizing i with
  | nil => exact ⟨[], rfl⟩
  | cons x xs ih =>
      obtain ⟨y, hy⟩ := h 0 x rfl
      have hrest : ∀ (k : ℕ) (x' : α), xs[k]? = some x' → ∃ y, body (i + 1 + k) x' = .ok y := by
        intro k x' hx'
        rw [Nat.add_right_comm]
        exact h (k + 1) x' hx'
      obtain ⟨ys, hys⟩ := ih hrest
      rw [Nat.add_zero] at hy
      refine ⟨y :: ys, ?_⟩
      rw [each, hy, hys]
      rfl

/-- A loop with more to do at each place after it. Where both return, the loop comes to its end, and the
rest returns for what it leaves. -/
theorem exists_each_bind {next : ℕ → β → Except ε γ} {i : ℕ} {xs : List α}
    (h : ∀ (k : ℕ) (x : α), xs[k]? = some x → ∃ z, (body (i + k) x).bind (next k) = .ok z) :
    ∃ ys, each body i xs = .ok ys ∧
      ∀ (k : ℕ) (y : β), ys[k]? = some y → ∃ z, next k y = .ok z := by
  have hbody : ∀ (k : ℕ) (x : α), xs[k]? = some x → ∃ y, body (i + k) x = .ok y := by
    intro k x hx
    obtain ⟨z, hz⟩ := h k x hx
    obtain ⟨y, hy, -⟩ := except_bind_eq_ok hz
    exact ⟨y, hy⟩
  obtain ⟨ys, hys⟩ := exists_each hbody
  obtain ⟨hlength, hplaces⟩ := each_eq_ok_iff.mp hys
  refine ⟨ys, hys, ?_⟩
  intro k y hy
  obtain ⟨hk, -⟩ := List.getElem?_eq_some_iff.mp hy
  rw [hlength] at hk
  have hx : xs[k]? = some xs[k] := List.getElem?_eq_getElem hk
  obtain ⟨y', hy', hstep⟩ := hplaces k _ hx
  obtain rfl : y' = y := Option.some.inj (hy'.symm.trans hy)
  obtain ⟨z, hz⟩ := h k _ hx
  rw [hstep] at hz
  exact ⟨z, hz⟩

/-- **An iterator that returns.** It has handled the items up to some place: all of them just if it did
not fail before one, and all of them if it returned no error. -/
theorem iterate_ok (hbody : ∀ i x y, body i x = .ok y → y = f x) {i : ℕ} {xs : List α}
    {r : List β × Option ω} (h : iterate fails body i xs = .ok r) :
    ∃ n ≤ xs.length, r.1 = (xs.take n).map f ∧
      (n = xs.length ↔ ∀ j < xs.length, fails (i + j) = none) ∧ (r.2 = none → n = xs.length) := by
  induction xs generalizing i r with
  | nil =>
      obtain rfl := Except.ok.inj h
      exact ⟨0, Nat.le_refl 0, rfl, by simp, fun _ => rfl⟩
  | cons x xs ih =>
      rw [iterate] at h
      cases hfails : fails i with
      | some err =>
          rw [hfails] at h
          obtain rfl := Except.ok.inj h
          refine ⟨0, Nat.zero_le _, rfl, ?_, fun hnone => by cases hnone⟩
          constructor
          · intro hzero
            cases hzero
          · intro hall
            have hhead := hall 0 (Nat.succ_pos _)
            rw [Nat.add_zero, hfails] at hhead
            cases hhead
      | none =>
          rw [hfails] at h
          obtain ⟨y, hy, hrest⟩ := except_bind_eq_ok h
          obtain ⟨r', hr', heq⟩ := except_bind_eq_ok hrest
          obtain rfl := Except.ok.inj heq
          obtain ⟨n, hn, hdone, hall, hnone⟩ := ih hr'
          refine ⟨n + 1, Nat.succ_le_succ hn, ?_, ?_, fun herr => congrArg Nat.succ (hnone herr)⟩
          · show y :: r'.1 = _
            rw [hdone, hbody i x y hy, List.take_succ_cons, List.map_cons]
          · rw [List.length_cons, Nat.add_right_cancel_iff, hall, Nat.forall_lt_succ_left]
            simp only [hfails, true_and, Nat.add_zero, Nat.add_assoc, Nat.add_comm 1]

/-- An iterator that returns no error has handled every item. -/
theorem iterate_ok_none (hbody : ∀ i x y, body i x = .ok y → y = f x) {i : ℕ} {xs : List α} {ys : List β}
    (h : iterate fails body i xs = .ok (ys, none)) : ys = xs.map f := by
  obtain ⟨n, -, hdone, -, hnone⟩ := iterate_ok hbody h
  rw [hnone rfl, List.take_length] at hdone
  exact hdone

end

end PqcMigration.Lib
