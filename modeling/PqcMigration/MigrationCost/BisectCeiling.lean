/-
# PqcMigration.MigrationCost.BisectCeiling — `bisect_ceiling` of `find_recv_ceiling.py`.

How many messages does a transaction of at most `limit` bytes take? The size of a signed transaction is
measured, not computed, so the search is a bisection that measures as little as it can and keeps what it
measured: `probes` is read by its caller afterwards, at the point that was returned and for a line through
all of them.

A measurement is `tx sign` and `tx encode` on the first `n` messages; `encodedSize` is its result. What the
search logs is left out.
-/
import PqcMigration.Lib.Bisect
import PqcMigration.MigrationCost.RelayRecvBatch

namespace PqcMigration.MigrationCost

open Lib Lib.Bisect

/-- The sizes measured so far, in the order they were measured. -/
abbrev Probes := List (ℕ × ℕ)

/-- `size_at`: each size is measured once. -/
def sizeAt (encodedSize : ℕ → Except Text ℕ) (n : ℕ) (probes : Probes) : Except Text (ℕ × Probes) :=
  match probes.lookup n with
  | some b => .ok (b, probes)
  | none =>
      match encodedSize n with
      | .ok b => .ok (b, probes ++ [(n, b)])
      | .error err => .error ("could not size N=".toList ++ digits n ++ ": ".toList ++ err)

/-- `while hi - lo > 1` -/
def bisectLoop (encodedSize : ℕ → Except Text ℕ) (limit lo hi : ℕ) (probes : Probes) :
    Except Text (ℕ × Probes) :=
  if _h : lo + 1 < hi then do
    let r ← sizeAt encodedSize (mid lo hi) probes
    if r.1 ≤ limit then bisectLoop encodedSize limit (mid lo hi) hi r.2
    else bisectLoop encodedSize limit lo (mid lo hi) r.2
  else .ok (lo, probes)
termination_by hi - lo
decreasing_by
  · exact sub_mid_lt _h
  · exact mid_sub_lt _h

/-- What `bisect_ceiling` returns. -/
structure Ceiling where
  n : ℕ
  probes : Probes
  exact : Bool
  deriving DecidableEq

def bisectCeiling (encodedSize : ℕ → Except Text ℕ) (lo hi limit : ℕ) : Except Text Ceiling := do
  let atHi ← sizeAt encodedSize hi []
  if atHi.1 ≤ limit then .ok ⟨hi, atHi.2, false⟩
  else
    let atLo ← sizeAt encodedSize lo atHi.2
    if limit < atLo.1 then .error ("even N=".toList ++ digits lo ++ " exceeds the limit".toList)
    else
      let r ← bisectLoop encodedSize limit lo hi atLo.2
      .ok ⟨r.1, r.2, true⟩

/-! ## Where every size can be measured -/

section Measured

variable {size : ℕ → ℕ} {limit lo hi n : ℕ} {probes : Probes}

/-- No measurement fails. -/
def measured (size : ℕ → ℕ) : ℕ → Except Text ℕ := fun n => .ok (size n)

/-- A point and its size, as a probe records it. -/
def sized (size : ℕ → ℕ) (n : ℕ) : ℕ × ℕ := (n, size n)

def within (size : ℕ → ℕ) (limit n : ℕ) : Bool := size n ≤ limit

theorem sizeAt_new (h : ∀ p ∈ probes, p.1 ≠ n) :
    sizeAt (measured size) n probes = .ok (size n, probes ++ [sized size n]) := by
  have hnone : probes.lookup n = none := by
    rw [List.lookup_eq_none_iff]
    exact fun p hp => by simpa using (h p hp).symm
  rw [sizeAt, hnone]
  rfl

/-- What was measured before lies outside the bounds, so a bisection never asks for a size it has. -/
def Outside (lo hi : ℕ) (probes : Probes) : Prop := ∀ p ∈ probes, p.1 ≤ lo ∨ hi ≤ p.1

theorem Outside.ne_mid (hout : Outside lo hi probes) (h : lo + 1 < hi) {p : ℕ × ℕ} (hp : p ∈ probes) :
    p.1 ≠ mid lo hi := by
  have := hout p hp
  have := lt_mid h
  have := mid_lt h
  omega

theorem Outside.upper (hout : Outside lo hi probes) (h : lo + 1 < hi) :
    Outside (mid lo hi) hi (probes ++ [sized size (mid lo hi)]) := by
  intro p hp
  obtain hp | hp := List.mem_append.mp hp
  · exact (hout p hp).imp_left fun hle => hle.trans (lt_mid h).le
  · exact .inl (List.mem_singleton.mp hp ▸ le_rfl)

theorem Outside.lower (hout : Outside lo hi probes) (h : lo + 1 < hi) :
    Outside lo (mid lo hi) (probes ++ [sized size (mid lo hi)]) := by
  intro p hp
  obtain hp | hp := List.mem_append.mp hp
  · exact (hout p hp).imp_right fun hle => (mid_lt h).le.trans hle
  · exact .inr (List.mem_singleton.mp hp ▸ le_rfl)

theorem bisectLoop_measured (hout : Outside lo hi probes) :
    bisectLoop (measured size) limit lo hi probes =
      .ok ((ends (within size limit) lo hi).1,
        probes ++ (mids (within size limit) lo hi).map (sized size)) := by
  fun_induction ends (within size limit) lo hi generalizing probes with
  | case1 lo hi h hfits ih =>
      rw [bisectLoop, dif_pos h, sizeAt_new fun _ => hout.ne_mid h, mids_of_fits h hfits]
      show (if size (mid lo hi) ≤ limit then _ else _) = _
      rw [if_pos (of_decide_eq_true hfits), ih (hout.upper h), List.map_cons, List.append_assoc,
        List.singleton_append]
  | case2 lo hi h hover ih =>
      have hover : within size limit (mid lo hi) = false := by simpa using hover
      rw [bisectLoop, dif_pos h, sizeAt_new fun _ => hout.ne_mid h, mids_of_over h hover]
      show (if size (mid lo hi) ≤ limit then _ else _) = _
      rw [if_neg (of_decide_eq_false hover), ih (hout.lower h), List.map_cons, List.append_assoc,
        List.singleton_append]
  | case3 lo hi h => rw [bisectLoop, dif_neg h, mids_of_near h, List.map_nil, List.append_nil]

/-- The whole batch fits: one measurement, and nothing is known above it. -/
theorem bisectCeiling_of_fits (hhi : size hi ≤ limit) :
    bisectCeiling (measured size) lo hi limit = .ok ⟨hi, [sized size hi], false⟩ := by
  show (if size hi ≤ limit then _ else _) = _
  rw [if_pos hhi]
  rfl

/-- Otherwise the bounds are measured first and bisected between. -/
theorem bisectCeiling_of_over (hlt : lo < hi) (hlo : size lo ≤ limit) (hhi : limit < size hi) :
    bisectCeiling (measured size) lo hi limit =
      .ok ⟨(ends (within size limit) lo hi).1,
        (hi :: lo :: mids (within size limit) lo hi).map (sized size), true⟩ := by
  have hnew : ∀ p ∈ [sized size hi], p.1 ≠ lo := fun p hp => by
    rw [List.mem_singleton.mp hp]
    exact hlt.ne'
  have hout : Outside lo hi ([sized size hi] ++ [sized size lo]) := fun p hp => by
    obtain hp | hp := List.mem_append.mp hp
    · exact .inr (List.mem_singleton.mp hp ▸ le_rfl)
    · exact .inl (List.mem_singleton.mp hp ▸ le_rfl)
  show (if size hi ≤ limit then _ else sizeAt (measured size) lo [sized size hi] >>= _) = _
  rw [if_neg hhi.not_ge, sizeAt_new hnew]
  show (if limit < size lo then _ else
    bisectLoop (measured size) limit lo hi ([sized size hi] ++ [sized size lo]) >>= _) = _
  rw [if_neg hlo.not_gt, bisectLoop_measured hout]
  rfl

theorem ends_within (hlt : lo < hi) (hlo : size lo ≤ limit) :
    size (ends (within size limit) lo hi).1 ≤ limit := by
  obtain heq | ⟨-, hfits⟩ := (ends_spec hlt).lower
  · rw [heq]
    exact hlo
  · exact of_decide_eq_true hfits

theorem ends_over (hlt : lo < hi) (hhi : limit < size hi) :
    limit < size (ends (within size limit) lo hi).2 := by
  obtain heq | ⟨-, hover⟩ := (ends_spec hlt).upper
  · rw [heq]
    exact hhi
  · exact not_le.mp (of_decide_eq_false hover)

/-- Both ends were measured. -/
theorem ends_probed (hlt : lo < hi) :
    (ends (within size limit) lo hi).1 ∈ hi :: lo :: mids (within size limit) lo hi ∧
      (ends (within size limit) lo hi).2 ∈ hi :: lo :: mids (within size limit) lo hi := by
  obtain ⟨-, lower, upper⟩ : Closed (within size limit) lo hi := ends_spec hlt
  constructor
  · obtain heq | ⟨hmem, -⟩ := lower
    · rw [heq]
      exact List.mem_cons_of_mem _ List.mem_cons_self
    · exact List.mem_cons_of_mem _ (List.mem_cons_of_mem _ hmem)
  · obtain heq | ⟨hmem, -⟩ := upper
    · rw [heq]
      exact List.mem_cons_self
    · exact List.mem_cons_of_mem _ (List.mem_cons_of_mem _ hmem)

/-- Where sizes do not decrease, the bisection finds the greatest number that fits. -/
theorem le_ends_within (hlt : lo < hi) (hhi : limit < size hi) (hmono : MonotoneOn size (Set.Icc lo hi))
    (hnhi : n ≤ hi) (hfits : size n ≤ limit) : n ≤ (ends (within size limit) lo hi).1 := by
  refine le_ends_of_fits hlt (decide_eq_false hhi.not_ge) ?_ hnhi (decide_eq_true hfits)
  intro a b ha hab hb hfits
  have hle : size a ≤ size b := hmono ⟨ha, hab.trans hb⟩ ⟨ha.trans hab, hb⟩ hab
  exact decide_eq_true (hle.trans (of_decide_eq_true hfits))

/-- What is known of a result, whatever the sizes are; `greatest` takes sizes that do not decrease. -/
structure Bisected (size : ℕ → ℕ) (lo hi limit : ℕ) (r : Ceiling) : Prop where
  inside : ∀ p ∈ r.probes, lo ≤ p.1 ∧ p.1 ≤ hi ∧ p.2 = size p.1
  lower : lo ≤ r.n
  upper : r.n ≤ hi
  fits : size r.n ≤ limit
  recorded : sized size r.n ∈ r.probes
  next : r.exact = true → sized size (r.n + 1) ∈ r.probes ∧ limit < size (r.n + 1)
  openEnd : r.exact = false → r.n = hi
  greatest : MonotoneOn size (Set.Icc lo hi) → ∀ n, lo ≤ n → n ≤ hi → size n ≤ limit → n ≤ r.n

theorem Bisected.of_fits (hle : lo ≤ hi) (hhi : size hi ≤ limit) :
    Bisected size lo hi limit ⟨hi, [sized size hi], false⟩ where
  inside p hp := by
    rw [List.mem_singleton.mp hp]
    exact ⟨hle, le_rfl, rfl⟩
  lower := hle
  upper := le_rfl
  fits := hhi
  recorded := List.mem_singleton_self _
  next := by rintro ⟨⟩
  openEnd _ := rfl
  greatest _ _ _ hn _ := hn

theorem Bisected.of_over (hlt : lo < hi) (hlo : size lo ≤ limit) (hhi : limit < size hi) :
    Bisected size lo hi limit ⟨(ends (within size limit) lo hi).1,
      (hi :: lo :: mids (within size limit) lo hi).map (sized size), true⟩ where
  inside p hp := by
    obtain ⟨n, hn, rfl⟩ := List.mem_map.mp hp
    obtain rfl | hn := List.mem_cons.mp hn
    · exact ⟨hlt.le, le_rfl, rfl⟩
    obtain rfl | hn := List.mem_cons.mp hn
    · exact ⟨le_rfl, hlt.le, rfl⟩
    · exact ⟨(mids_between hn).1.le, (mids_between hn).2.le, rfl⟩
  lower := le_ends hlt
  upper := (ends_lt hlt).le
  fits := ends_within hlt hlo
  recorded := List.mem_map_of_mem (ends_probed hlt).1
  next _ := by
    show sized size ((ends (within size limit) lo hi).1 + 1) ∈ _ ∧
      limit < size ((ends (within size limit) lo hi).1 + 1)
    rw [← (ends_spec hlt).next]
    exact ⟨List.mem_map_of_mem (ends_probed hlt).2, ends_over hlt hhi⟩
  openEnd := by rintro ⟨⟩
  greatest hmono _ _ hnhi := le_ends_within hlt hhi hmono hnhi

theorem bisectCeiling_bisected (hle : lo ≤ hi) (hlo : size lo ≤ limit) :
    ∃ r, bisectCeiling (measured size) lo hi limit = .ok r ∧ Bisected size lo hi limit r := by
  by_cases hhi : size hi ≤ limit
  · exact ⟨_, bisectCeiling_of_fits hhi, .of_fits hle hhi⟩
  · have hhi : limit < size hi := not_le.mp hhi
    have hlt : lo < hi := hle.lt_of_ne fun heq => (heq ▸ hlo).not_gt hhi
    exact ⟨_, bisectCeiling_of_over hlt hlo hhi, .of_over hlt hlo hhi⟩

end Measured

/-! ## What the search returns -/

/-- The search ends. It measures nothing outside its bounds; what it returns lies between them, was measured
and fits. If it calls its result exact the next number was measured and does not fit, and otherwise the
result is the upper bound. Only that it is the greatest number that fits takes sizes that do not decrease. -/
theorem bisectCeiling_spec (size : ℕ → ℕ) (lo hi limit : ℕ) (hle : lo ≤ hi) (hlo : size lo ≤ limit) :
    ∃ r, bisectCeiling (measured size) lo hi limit = .ok r ∧
      (∀ p ∈ r.probes, lo ≤ p.1 ∧ p.1 ≤ hi ∧ p.2 = size p.1) ∧
      (lo ≤ r.n ∧ r.n ≤ hi ∧ size r.n ≤ limit ∧ (r.n, size r.n) ∈ r.probes) ∧
      (r.exact = true → (r.n + 1, size (r.n + 1)) ∈ r.probes ∧ limit < size (r.n + 1)) ∧
      (r.exact = false → r.n = hi) ∧
      (MonotoneOn size (Set.Icc lo hi) → ∀ n, lo ≤ n → n ≤ hi → size n ≤ limit → n ≤ r.n) := by
  obtain ⟨r, hr, h⟩ := bisectCeiling_bisected hle hlo
  exact ⟨r, hr, h.inside, ⟨h.lower, h.upper, h.fits, h.recorded⟩, h.next, h.openEnd, h.greatest⟩

/-- Sizes that go down and up again: `4` fits, and so does `9`, which is never measured. -/
theorem bisectCeiling_spec_uneven :
    ∃ r, bisectCeiling (measured fun n => if n = 9 then 0 else 10 * n) 1 10 45 = .ok r ∧
      (∀ p ∈ r.probes, 1 ≤ p.1 ∧ p.1 ≤ 10 ∧ p.2 = if p.1 = 9 then 0 else 10 * p.1) :=
  (bisectCeiling_spec (fun n => if n = 9 then 0 else 10 * n) 1 10 45 (by decide) (by decide)).imp
    fun _ hr => ⟨hr.1, hr.2.1⟩

end PqcMigration.MigrationCost
