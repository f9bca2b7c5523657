/-
# PqcMigration.BatchScaling.Latency — the latency statistics of `batch_scaling/loadgen.py`.

`_percentile` reads a sorted list between its places. `_distribution` sorts the latencies of a group that
are positive and reports their mean, median, 95th percentile and range; `_compute_latency_stats` does so
for the way to the other chain and for the way there and back.

For a fraction between 0 and 1 the percentile is `Lib.interpolate` of the list (`percentile_eq`), which
gives all there is to know of it: it reads no place outside the list, lies in its range, rises with the
fraction and with the list. So the figures of a distribution always stand in their order
(`distribution_ordered`).

Floating-point arithmetic is exact here.
-/
import Mathlib.Data.List.GetD
import Mathlib.Data.List.Sort
import Mathlib.Data.Rat.Floor
import PqcMigration.BatchScaling.Packet
import PqcMigration.Lib.Interpolate

namespace PqcMigration.BatchScaling

open Lib

/-! ## Percentiles -/

inductive IndexError where
  | outOfRange
  deriving DecidableEq

/-- `xs[i]`; a negative index counts from the end. -/
def item (xs : List ℚ) (i : ℤ) : Except IndexError ℚ :=
  let place := if i < 0 then i + xs.length else i
  if place < 0 then .error .outOfRange
  else
    match xs[place.toNat]? with
    | some x => .ok x
    | none => .error .outOfRange

/-- `int(k)` drops the fraction. -/
def truncate (k : ℚ) : ℤ := if 0 ≤ k then ⌊k⌋ else ⌈k⌉

/-- The place `k` of a percentile in the list. -/
def rank (xs : List ℚ) (p : ℚ) : ℚ := ((xs.length : ℚ) - 1) * p

/-- `_percentile`; `none` is NaN. -/
def percentile (xs : List ℚ) (p : ℚ) : Except IndexError (Option ℚ) :=
  if xs = [] then .ok none
  else
    let k := rank xs p
    let f := ⌊k⌋
    let c := ⌈k⌉
    if f = c then do
      let x ← item xs (truncate k)
      return some x
    else do
      let lower ← item xs f
      let upper ← item xs c
      return some (lower + (upper - lower) * (k - f))

/-! ## Distributions -/

/-- The figures of a distribution that is not empty; a percentile is `none` if it is NaN. -/
structure Figures where
  n : ℕ
  mean : ℚ
  median : Option ℚ
  p95 : Option ℚ
  min : ℚ
  max : ℚ

/-- `sorted(v for v in values if v is not None and v > 0)` -/
def positives (values : List (Option ℚ)) : List ℚ :=
  (values.filterMap fun v => v.filter fun x => 0 < x).mergeSort

/-- `_distribution`; `none` is the dictionary with `n = 0` and `None` for everything else. -/
def distribution (values : List (Option ℚ)) : Except IndexError (Option Figures) :=
  let xs := positives values
  if xs = [] then .ok none
  else do
    let median ← percentile xs (1 / 2)
    let p95 ← percentile xs (95 / 100)
    let first ← item xs 0
    let last ← item xs (-1)
    return some ⟨xs.length, xs.sum / xs.length, median, p95, first, last⟩

structure LatencyStats where
  credit : Option Figures
  roundTrip : Option Figures

/-- `[p.<ts> - p.submit_ts for p in packets if p.<ts> and p.submit_ts]` -/
def latencies (ts : Packet → Time) (packets : List Packet) : List (Option ℚ) :=
  (packets.filter fun p => ts p ≠ 0 ∧ p.submitTs ≠ 0).map fun p => some ((ts p : ℚ) - p.submitTs)

/-- `_compute_latency_stats` -/
def computeLatencyStats (packets : List Packet) : Except IndexError LatencyStats := do
  let credit ← distribution (latencies Packet.creditedTs packets)
  let roundTrip ← distribution (latencies Packet.ackTs packets)
  return ⟨credit, roundTrip⟩

/-! ## The list as a sequence -/

/-- The values of a list at its places. -/
def valueAt (xs : List ℚ) (i : ℤ) : ℚ := xs.getD i.toNat 0

section Sequence

variable {xs ys : List ℚ}

theorem valueAt_of_lt {i : ℕ} (hi : i < xs.length) : valueAt xs i = xs[i] := by
  unfold valueAt
  rw [Int.toNat_natCast, List.getD_eq_getElem _ _ hi]

/-- An index within the list is read where it is. -/
theorem item_of_mem {i : ℤ} (hi : i ∈ Set.Icc (0 : ℤ) (xs.length - 1)) : item xs i = .ok (valueAt xs i) := by
  obtain ⟨hnonneg, hle⟩ := hi
  obtain ⟨n, rfl⟩ := Int.eq_ofNat_of_zero_le hnonneg
  have hn : n < xs.length := by omega
  unfold item
  rw [valueAt_of_lt hn]
  simp [hn, not_lt.mpr hnonneg]

theorem item_neg_one (hne : xs ≠ []) : item xs (-1) = .ok (xs.getLast hne) := by
  have hlen : 0 < xs.length := List.length_pos_iff.mpr hne
  have hplace : (-1 + (xs.length : ℤ)).toNat = xs.length - 1 := by omega
  have hnot : ¬ (-1 + (xs.length : ℤ)) < 0 := by omega
  unfold item
  simp only [Int.reduceNeg, Int.reduceLT, if_true, hnot, if_false, hplace]
  rw [List.getElem?_eq_getElem (by omega), List.getLast_eq_getElem]

theorem valueAt_zero (hne : xs ≠ []) : valueAt xs 0 = xs.head hne := by
  rw [List.head_eq_getElem]
  exact valueAt_of_lt (List.length_pos_iff.mpr hne)

theorem valueAt_last (hne : xs ≠ []) : valueAt xs (xs.length - 1) = xs.getLast hne := by
  have hlen : 0 < xs.length := List.length_pos_iff.mpr hne
  have hplace : (xs.length : ℤ) - 1 = (xs.length - 1 : ℕ) := by omega
  rw [hplace, valueAt_of_lt (by omega), List.getLast_eq_getElem]

theorem valueAt_monotoneOn (hsorted : xs.Pairwise (· ≤ ·)) :
    MonotoneOn (valueAt xs) (Set.Icc (0 : ℤ) (xs.length - 1)) := by
  intro i hi j hj hle
  obtain ⟨m, rfl⟩ := Int.eq_ofNat_of_zero_le hi.1
  obtain ⟨n, rfl⟩ := Int.eq_ofNat_of_zero_le hj.1
  have hm : m < xs.length := by have := hi.2; omega
  have hn : n < xs.length := by have := hj.2; omega
  rw [valueAt_of_lt hm, valueAt_of_lt hn]
  have hfin : (⟨m, hm⟩ : Fin xs.length) ≤ ⟨n, hn⟩ := Int.ofNat_le.mp hle
  exact hsorted.rel_get_of_le hfin

theorem valueAt_le_of_forall₂ (h : List.Forall₂ (· ≤ ·) xs ys) (i : ℤ) : valueAt xs i ≤ valueAt ys i := by
  obtain ⟨hlength, hplaces⟩ := List.forall₂_iff_get.mp h
  unfold valueAt
  by_cases hi : i.toNat < xs.length
  · rw [List.getD_eq_getElem _ _ hi, List.getD_eq_getElem _ _ (hlength ▸ hi)]
    exact hplaces i.toNat hi (hlength ▸ hi)
  · have hx := List.getD_eq_default xs (0 : ℚ) (not_lt.mp hi)
    have hy := List.getD_eq_default ys (0 : ℚ) (hlength ▸ not_lt.mp hi)
    rw [hx, hy]

end Sequence

/-! ## What a percentile is -/

section Percentile

variable {xs ys : List ℚ} {p q : ℚ}

theorem truncate_of_nonneg {k : ℚ} (hk : 0 ≤ k) : truncate k = ⌊k⌋ := if_pos hk

/-- The place of a fraction between 0 and 1 lies within the list. -/
theorem rank_mem (hne : xs ≠ []) (hp : 0 ≤ p) (hp' : p ≤ 1) :
    rank xs p ∈ Set.Icc ((0 : ℤ) : ℚ) ((xs.length - 1 : ℤ) : ℚ) := by
  have hlen : (1 : ℚ) ≤ xs.length := Nat.one_le_cast.mpr (List.length_pos_iff.mpr hne)
  have hlast : (0 : ℚ) ≤ xs.length - 1 := sub_nonneg.mpr hlen
  push_cast
  exact ⟨mul_nonneg hlast hp, mul_le_of_le_one_right hlast hp'⟩

theorem rank_mono (hne : xs ≠ []) (hle : p ≤ q) : rank xs p ≤ rank xs q := by
  have hlen : (1 : ℚ) ≤ xs.length := Nat.one_le_cast.mpr (List.length_pos_iff.mpr hne)
  exact mul_le_mul_of_nonneg_left hle (sub_nonneg.mpr hlen)

/-- The places that are read are places of the list. -/
theorem places_mem (hne : xs ≠ []) (hp : 0 ≤ p) (hp' : p ≤ 1) :
    ∀ i ∈ [⌊rank xs p⌋, ⌈rank xs p⌉, truncate (rank xs p)], i ∈ Set.Icc (0 : ℤ) (xs.length - 1) := by
  have hrank := rank_mem hne hp hp'
  have hfloor := floor_mem_Icc hrank
  rw [truncate_of_nonneg (by simpa using hrank.1)]
  simp only [List.forall_mem_cons, List.not_mem_nil, false_imp_iff, implies_true, and_true]
  exact ⟨hfloor, ceil_mem_Icc hrank, hfloor⟩

/-- **A percentile is read off the list** as off a sequence whose values are joined by straight lines. -/
theorem percentile_eq (hne : xs ≠ []) (hp : 0 ≤ p) (hp' : p ≤ 1) :
    percentile xs p = .ok (some (interpolate (valueAt xs) (rank xs p))) := by
  have hrank := rank_mem hne hp hp'
  have hfloor : item xs ⌊rank xs p⌋ = _ := item_of_mem (floor_mem_Icc hrank)
  have hceil : item xs ⌈rank xs p⌉ = _ := item_of_mem (ceil_mem_Icc hrank)
  have htrunc : truncate (rank xs p) = ⌊rank xs p⌋ := truncate_of_nonneg (by simpa using hrank.1)
  unfold percentile
  rw [if_neg hne]
  show (if ⌊rank xs p⌋ = ⌈rank xs p⌉ then _ else _) = _
  split
  · next hsame =>
      rw [htrunc, hfloor, interpolate_of_floor_eq_ceil hsame]
      rfl
  · rw [hfloor, hceil]
    rfl

/-- The two ends of the list are those of the percentiles. -/
theorem interpolate_rank_zero (hne : xs ≠ []) :
    interpolate (valueAt xs) (rank xs 0) = xs.head hne := by
  have hrank : rank xs 0 = ((0 : ℤ) : ℚ) := by simp [rank]
  rw [hrank, interpolate_intCast, valueAt_zero hne]

theorem interpolate_rank_one (hne : xs ≠ []) :
    interpolate (valueAt xs) (rank xs 1) = xs.getLast hne := by
  have hrank : rank xs 1 = ((xs.length - 1 : ℤ) : ℚ) := by simp [rank]
  rw [hrank, interpolate_intCast, valueAt_last hne]

/-- In a sorted list a percentile rises with the fraction. -/
theorem interpolate_rank_mono (hne : xs ≠ []) (hsorted : xs.Pairwise (· ≤ ·)) (hp : 0 ≤ p) (hle : p ≤ q)
    (hq : q ≤ 1) :
    interpolate (valueAt xs) (rank xs p) ≤ interpolate (valueAt xs) (rank xs q) :=
  interpolate_monotoneOn (valueAt_monotoneOn hsorted) (rank_mem hne hp (hle.trans hq))
    (rank_mem hne (hp.trans hle) hq) (rank_mono hne hle)

/-- It rises with the list as well, whether that is sorted or not. -/
theorem interpolate_rank_le_of_forall₂ (h : List.Forall₂ (· ≤ ·) xs ys) (p : ℚ) :
    interpolate (valueAt xs) (rank xs p) ≤ interpolate (valueAt ys) (rank ys p) := by
  have hrank : rank ys p = rank xs p := by
    unfold rank
    rw [h.length_eq]
  rw [hrank]
  exact interpolate_mono (valueAt_le_of_forall₂ h _) (valueAt_le_of_forall₂ h _)

/-- **Percentiles are well behaved.** In a sorted list that is not empty, for a fraction between 0 and 1: the
places that are read are places of the list; the percentile lies between the minimum and the maximum, does
not fall when the fraction grows, is the first element at 0 and the last at 1, and does not fall when
elements of the list are raised. -/
theorem percentile_well_behaved (xs : List ℚ) (hne : xs ≠ []) (hsorted : xs.Pairwise (· ≤ ·)) (p : ℚ)
    (hp : 0 ≤ p) (hp' : p ≤ 1) :
    (∀ i ∈ [⌊rank xs p⌋, ⌈rank xs p⌉, truncate (rank xs p)], 0 ≤ i ∧ i < xs.length) ∧
    ∃ v, percentile xs p = .ok (some v) ∧ xs.min hne ≤ v ∧ v ≤ xs.max hne ∧
      (∀ q, p ≤ q → q ≤ 1 → ∃ w, percentile xs q = .ok (some w) ∧ v ≤ w) ∧
      (p = 0 → v = xs.head hne) ∧ (p = 1 → v = xs.getLast hne) ∧
      ∀ ys, List.Forall₂ (· ≤ ·) xs ys → ys.Pairwise (· ≤ ·) →
        ∃ w, percentile ys p = .ok (some w) ∧ v ≤ w := by
  constructor
  · intro i hi
    obtain ⟨hnonneg, hle⟩ := places_mem hne hp hp' i hi
    exact ⟨hnonneg, Int.lt_of_le_sub_one hle⟩
  refine ⟨_, percentile_eq hne hp hp', ?_, ?_, ?_, ?_, ?_, ?_⟩
  · calc xs.min hne ≤ xs.head hne := List.min_le_of_mem (List.head_mem hne)
      _ = interpolate (valueAt xs) (rank xs 0) := (interpolate_rank_zero hne).symm
      _ ≤ interpolate (valueAt xs) (rank xs p) := interpolate_rank_mono hne hsorted (le_refl 0) hp hp'
  · calc interpolate (valueAt xs) (rank xs p)
        ≤ interpolate (valueAt xs) (rank xs 1) := interpolate_rank_mono hne hsorted hp hp' (le_refl 1)
      _ = xs.getLast hne := interpolate_rank_one hne
      _ ≤ xs.max hne := List.le_max_of_mem (List.getLast_mem hne)
  · intro q hle hq
    exact ⟨_, percentile_eq hne (hp.trans hle) hq, interpolate_rank_mono hne hsorted hp hle hq⟩
  · rintro rfl
    exact interpolate_rank_zero hne
  · rintro rfl
    exact interpolate_rank_one hne
  · intro ys hys _
    have hne' : ys ≠ [] := by
      rintro rfl
      exact hne (List.forall₂_nil_right_iff.mp hys)
    exact ⟨_, percentile_eq hne' hp hp', interpolate_rank_le_of_forall₂ hys p⟩

/-- The median of 1, 2 and 4. -/
theorem percentile_well_behaved_three :
    ∃ v, percentile [1, 2, 4] (1 / 2) = .ok (some v) ∧
      ([1, 2, 4] : List ℚ).min (List.cons_ne_nil _ _) ≤ v ∧
      v ≤ ([1, 2, 4] : List ℚ).max (List.cons_ne_nil _ _) := by
  obtain ⟨v, hv, hmin, hmax, -⟩ := (percentile_well_behaved [1, 2, 4] (List.cons_ne_nil _ _)
    (by norm_num) (1 / 2) (by norm_num) (by norm_num)).2
  exact ⟨v, hv, hmin, hmax⟩

end Percentile

/-! ## The figures of a distribution -/

/-- The percentiles are numbers, and the figures stand in their order. -/
structure Figures.Ordered (d : Figures) : Prop where
  percentiles : ∃ m q, d.median = some m ∧ d.p95 = some q ∧ d.min ≤ m ∧ m ≤ q ∧ q ≤ d.max
  mean_mem : d.mean ∈ Set.Icc d.min d.max
  positive : 0 < d.min

section Distribution

variable {xs : List ℚ} {values : List (Option ℚ)}

theorem positives_sorted (values : List (Option ℚ)) : (positives values).Pairwise (· ≤ ·) :=
  List.pairwise_mergeSort' (· ≤ ·) _

theorem pos_of_mem_positives {x : ℚ} (hx : x ∈ positives values) : 0 < x := by
  obtain ⟨v, -, hv⟩ := List.mem_filterMap.mp (List.mem_mergeSort.mp hx)
  exact of_decide_eq_true (Option.filter_eq_some_iff.mp hv).2

/-- The mean of a list lies between two bounds of its elements. -/
theorem mean_mem_Icc (hne : xs ≠ []) {lo hi : ℚ} (hxs : ∀ x ∈ xs, x ∈ Set.Icc lo hi) :
    xs.sum / xs.length ∈ Set.Icc lo hi := by
  have hlen : (0 : ℚ) < xs.length := Nat.cast_pos.mpr (List.length_pos_iff.mpr hne)
  have hlower := List.card_nsmul_le_sum xs lo fun x hx => (hxs x hx).1
  have hupper := List.sum_le_card_nsmul xs hi fun x hx => (hxs x hx).2
  rw [nsmul_eq_mul, mul_comm] at hlower hupper
  exact ⟨(le_div_iff₀ hlen).mpr hlower, (div_le_iff₀ hlen).mpr hupper⟩

/-- A sorted list lies between its ends. -/
theorem mem_Icc_of_mem (hne : xs ≠ []) (hsorted : xs.Pairwise (· ≤ ·)) {x : ℚ} (hx : x ∈ xs) :
    x ∈ Set.Icc (xs.head hne) (xs.getLast hne) := by
  obtain ⟨i, hi, rfl⟩ := List.getElem_of_mem hx
  have hmono := valueAt_monotoneOn hsorted
  have hmem : (i : ℤ) ∈ Set.Icc (0 : ℤ) (xs.length - 1) := ⟨by omega, by omega⟩
  rw [← valueAt_zero hne, ← valueAt_last hne, ← valueAt_of_lt hi]
  exact ⟨hmono ⟨le_refl 0, hmem.1.trans hmem.2⟩ hmem hmem.1, hmono hmem ⟨hmem.1.trans hmem.2, le_refl _⟩ hmem.2⟩

/-- **The figures of a distribution stand in their order**, and there are some just if some latency is
positive. -/
theorem distribution_ordered (values : List (Option ℚ)) :
    ∃ found, distribution values = .ok found ∧ (found = none ↔ positives values = []) ∧
      ∀ d ∈ found, d.Ordered ∧ d.n = (positives values).length := by
  unfold distribution
  by_cases hne : positives values = []
  · rw [if_pos hne]
    exact ⟨none, rfl, iff_of_true rfl hne, fun d hd => by cases hd⟩
  · have hsorted := positives_sorted values
    have hfirst : item (positives values) 0 = .ok ((positives values).head hne) := by
      rw [item_of_mem, valueAt_zero hne]
      have hlen : 0 < (positives values).length := List.length_pos_iff.mpr hne
      exact ⟨le_refl 0, by omega⟩
    rw [if_neg hne, percentile_eq hne (by norm_num) (by norm_num),
      percentile_eq hne (by norm_num) (by norm_num), hfirst, item_neg_one hne]
    refine ⟨_, rfl, iff_of_false (Option.some_ne_none _) hne, ?_⟩
    rintro d ⟨⟩
    refine ⟨⟨⟨_, _, rfl, rfl, ?_, ?_, ?_⟩, ?_, ?_⟩, rfl⟩
    · show (positives values).head hne ≤ _
      rw [← interpolate_rank_zero hne]
      exact interpolate_rank_mono hne hsorted (le_refl 0) (by norm_num) (by norm_num)
    · exact interpolate_rank_mono hne hsorted (by norm_num) (by norm_num) (by norm_num)
    · show _ ≤ (positives values).getLast hne
      rw [← interpolate_rank_one hne]
      exact interpolate_rank_mono hne hsorted (by norm_num) (by norm_num) (le_refl 1)
    · exact mean_mem_Icc hne fun x hx => mem_Icc_of_mem hne hsorted hx
    · exact pos_of_mem_positives (List.head_mem hne)

end Distribution

end PqcMigration.BatchScaling
