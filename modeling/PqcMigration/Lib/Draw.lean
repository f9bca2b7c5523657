/-
# PqcMigration.Lib.Draw — drawing a label by running totals.

A table of labels and widths is turned into running totals; a number is drawn, and the label is the first
one whose total is not below it, or a last resort past them all. `allotted` says what a label gets: the
entries take their widths off the room there is, first come, first served. `volume_draws` is the length
of the draws that give a label.
-/
import Mathlib.MeasureTheory.Measure.Lebesgue.Basic

namespace PqcMigration.Lib.Draw

open MeasureTheory

variable {α : Type}

/-- The running totals from `lo` on. -/
def totals (lo : ℚ) : List (α × ℚ) → List (α × ℚ)
  | [] => []
  | (a, w) :: entries => (a, lo + w) :: totals (lo + w) entries

/-- The first label whose total is not below `r`. -/
def drawn {K : Type} [LE K] [DecidableLE K] [RatCast K] (table : List (α × ℚ)) (last : Option α) (r : K) :
    Option α :=
  ((table.find? fun e => r ≤ (e.2 : K)).map (·.1)).or last

/-- What the entries of `a` take off the room. -/
def allotted [DecidableEq α] (room : ℚ) : List (α × ℚ) → α → ℚ
  | [], _ => 0
  | (b, w) :: entries, a => (if b = a then min room w else 0) + allotted (room - min room w) entries a

/-- The room nobody takes. -/
def unallotted (room : ℚ) : List (α × ℚ) → ℚ
  | [] => room
  | (_, w) :: entries => unallotted (room - min room w) entries

section

variable [DecidableEq α] {entries : List (α × ℚ)} {room : ℚ}

theorem sub_min_nonneg (room w : ℚ) : 0 ≤ room - min room w := sub_nonneg.mpr (min_le_left room w)

omit [DecidableEq α] in
theorem unallotted_nonneg (hroom : 0 ≤ room) : 0 ≤ unallotted room entries := by
  induction entries generalizing room with
  | nil => exact hroom
  | cons e entries ih => exact ih (sub_min_nonneg room e.2)

theorem allotted_nonneg (hroom : 0 ≤ room) (hentries : ∀ e ∈ entries, 0 ≤ e.2) (a : α) :
    0 ≤ allotted room entries a := by
  induction entries generalizing room with
  | nil => exact le_refl 0
  | cons e entries ih =>
      have htake : 0 ≤ min room e.2 := le_min hroom (hentries e List.mem_cons_self)
      have hrest := ih (sub_min_nonneg room e.2) fun e' he' => hentries e' (List.mem_cons_of_mem e he')
      show 0 ≤ (if e.1 = a then min room e.2 else 0) + allotted (room - min room e.2) entries a
      split <;> linarith

/-- Nothing comes of no room. -/
theorem allotted_zero (hentries : ∀ e ∈ entries, 0 ≤ e.2) (a : α) : allotted 0 entries a = 0 := by
  induction entries with
  | nil => rfl
  | cons e entries ih =>
      have hmin : min 0 e.2 = 0 := min_eq_left (hentries e List.mem_cons_self)
      show (if e.1 = a then min 0 e.2 else 0) + allotted (0 - min 0 e.2) entries a = 0
      rw [hmin, ite_self, sub_zero, zero_add]
      exact ih fun e' he' => hentries e' (List.mem_cons_of_mem e he')

omit [DecidableEq α] in
theorem unallotted_zero (hentries : ∀ e ∈ entries, 0 ≤ e.2) : unallotted 0 entries = 0 := by
  induction entries with
  | nil => rfl
  | cons e entries ih =>
      have hmin : min 0 e.2 = 0 := min_eq_left (hentries e List.mem_cons_self)
      show unallotted (0 - min 0 e.2) entries = 0
      rw [hmin, sub_zero]
      exact ih fun e' he' => hentries e' (List.mem_cons_of_mem e he')

/-- All room goes to a label or to nobody. -/
theorem sum_allotted [Fintype α] (room : ℚ) (entries : List (α × ℚ)) :
    ∑ a, allotted room entries a + unallotted room entries = room := by
  induction entries generalizing room with
  | nil =>
      show ∑ _a : α, (0 : ℚ) + room = room
      rw [Finset.sum_const_zero, zero_add]
  | cons e entries ih =>
      show ∑ a, ((if e.1 = a then min room e.2 else 0) + allotted (room - min room e.2) entries a) +
        unallotted (room - min room e.2) entries = room
      rw [Finset.sum_add_distrib, Finset.sum_ite_eq, if_pos (Finset.mem_univ _), add_assoc, ih]
      exact add_sub_cancel _ _

/-- Where there is room for all entries, each takes its width. -/
theorem allotted_of_sum_le (hentries : ∀ e ∈ entries, 0 ≤ e.2) (hsum : (entries.map (·.2)).sum ≤ room)
    (a : α) : allotted room entries a = ((entries.filter (·.1 = a)).map (·.2)).sum := by
  induction entries generalizing room with
  | nil => rfl
  | cons e entries ih =>
      have hlater : ∀ e' ∈ entries, 0 ≤ e'.2 := fun e' he' => hentries e' (List.mem_cons_of_mem e he')
      have hpos : 0 ≤ (entries.map (·.2)).sum := by
        apply List.sum_nonneg
        intro w hw
        obtain ⟨e', he', rfl⟩ := List.mem_map.mp hw
        exact hlater e' he'
      rw [List.map_cons, List.sum_cons] at hsum
      have hmin : min room e.2 = e.2 := min_eq_right (by linarith)
      show (if e.1 = a then min room e.2 else 0) + allotted (room - min room e.2) entries a = _
      rw [hmin, ih hlater (by linarith), List.filter_cons]
      by_cases ha : e.1 = a <;> simp [ha]

end

/-! ## The length of the draws -/

section

variable {table : List (α × ℚ)} {last : Option α} {a : α} {w : ℚ}

theorem drawn_cons_of_le {r : ℝ} (hle : r ≤ w) : drawn ((a, w) :: table) last r = some a := by
  simp [drawn, hle]

theorem drawn_cons_of_lt {r : ℝ} (hlt : w < r) :
    drawn ((a, w) :: table) last r = drawn table last r := by
  simp [drawn, not_le.mpr hlt]

/-- The draws between `lo` and `hi` that give `a`. -/
def draws (table : List (α × ℚ)) (last : Option α) (lo hi : ℚ) (a : α) : Set ℝ :=
  Set.Ioc (lo : ℝ) hi ∩ {r | drawn table last r = some a}

/-- Up to its total, the first entry is drawn. -/
theorem draws_cons_of_le [DecidableEq α] {b : α} {lo hi : ℚ} (hle : hi ≤ w) :
    draws ((b, w) :: table) last lo hi a = if b = a then Set.Ioc (lo : ℝ) hi else ∅ := by
  have hle' : (hi : ℝ) ≤ w := Rat.cast_le.mpr hle
  ext r
  by_cases hb : b = a
  · rw [if_pos hb, draws, Set.mem_inter_iff, and_iff_left_iff_imp]
    intro hr
    show drawn _ _ _ = some a
    rw [drawn_cons_of_le (hr.2.trans hle'), hb]
  · rw [if_neg hb]
    refine iff_of_false ?_ (Set.notMem_empty r)
    rintro ⟨hr, hdrawn⟩
    rw [Set.mem_ofPred_eq, drawn_cons_of_le (hr.2.trans hle')] at hdrawn
    exact hb (Option.some.inj hdrawn)

/-- The draws below a place and those above it. -/
theorem draws_split {lo mid hi : ℚ} (hlo : lo ≤ mid) (hhi : mid ≤ hi) :
    draws table last lo hi a = draws table last lo mid a ∪ draws table last mid hi a := by
  unfold draws
  rw [← Set.union_inter_distrib_right, Set.Ioc_union_Ioc_eq_Ioc (Rat.cast_le.mpr hlo) (Rat.cast_le.mpr hhi)]

/-- Past its total, the first entry is passed over. -/
theorem draws_cons_above {b : α} {hi : ℚ} :
    draws ((b, w) :: table) last w hi a = draws table last w hi a := by
  ext r
  unfold draws
  simp only [Set.mem_inter_iff, Set.mem_ofPred_eq]
  constructor
  · rintro ⟨hr, hdrawn⟩
    rw [drawn_cons_of_lt hr.1] at hdrawn
    exact ⟨hr, hdrawn⟩
  · rintro ⟨hr, hdrawn⟩
    rw [← @drawn_cons_of_lt _ _ _ b _ _ hr.1] at hdrawn
    exact ⟨hr, hdrawn⟩

/-- The first entry is drawn up to its total, and the rest of the table past it. -/
theorem volume_draws_cons [DecidableEq α] {b : α} {lo hi : ℚ} (hlo : lo ≤ w) (hhi : w ≤ hi) :
    volume (draws ((b, w) :: table) last lo hi a) =
      ENNReal.ofReal ((if b = a then w - lo else 0 : ℚ) : ℝ) + volume (draws table last w hi a) := by
  have hdisjoint : Disjoint (draws ((b, w) :: table) last lo w a) (draws ((b, w) :: table) last w hi a) :=
    (Set.Ioc_disjoint_Ioc_of_le (le_refl _)).mono Set.inter_subset_left Set.inter_subset_left
  have hmeasurable : MeasurableSet (if b = a then Set.Ioc (lo : ℝ) w else ∅) := by
    split
    · exact measurableSet_Ioc
    · exact MeasurableSet.empty
  rw [draws_split hlo hhi]
  rw [draws_cons_above, draws_cons_of_le (le_refl _)] at hdisjoint ⊢
  rw [measure_union' hdisjoint hmeasurable]
  by_cases hb : b = a
  · simp [hb]
  · simp [hb]

end

/-- **What a label is drawn for.** The length of its draws is what it is allotted; what nobody is allotted
goes to the last resort. -/
theorem volume_draws [DecidableEq α] {entries : List (α × ℚ)} (hentries : ∀ e ∈ entries, 0 ≤ e.2) {lo hi : ℚ}
    (hle : lo ≤ hi) (last : Option α) (a : α) :
    volume (draws (totals lo entries) last lo hi a) = ENNReal.ofReal
      ((allotted (hi - lo) entries a +
        if last = some a then unallotted (hi - lo) entries else 0 : ℚ) : ℝ) := by
  induction entries generalizing lo with
  | nil =>
      show volume (Set.Ioc (lo : ℝ) hi ∩ {_r | last = some a}) = ENNReal.ofReal
        ((0 + if last = some a then hi - lo else 0 : ℚ) : ℝ)
      by_cases hlast : last = some a
      · simp [hlast]
      · simp [hlast]
  | cons e entries ih =>
      obtain ⟨b, w⟩ := e
      have hw : 0 ≤ w := hentries (b, w) List.mem_cons_self
      have hlater : ∀ e ∈ entries, 0 ≤ e.2 := fun e he => hentries e (List.mem_cons_of_mem _ he)
      show volume (draws ((b, lo + w) :: totals (lo + w) entries) last lo hi a) = ENNReal.ofReal
        (((if b = a then min (hi - lo) w else 0) + allotted (hi - lo - min (hi - lo) w) entries a +
          if last = some a then unallotted (hi - lo - min (hi - lo) w) entries else 0 : ℚ) : ℝ)
      rcases le_total hi (lo + w) with hend | hmid
      · -- The entry takes all the room.
        have hmin : min (hi - lo) w = hi - lo := min_eq_left (by linarith)
        rw [hmin, sub_self, allotted_zero hlater, unallotted_zero hlater, ite_self, add_zero, add_zero,
          draws_cons_of_le hend]
        by_cases hb : b = a
        · simp [hb]
        · simp [hb]
      · have hmin : min (hi - lo) w = w := min_eq_right (by linarith)
        have hroom : hi - lo - w = hi - (lo + w) := by ring
        have hwidth : 0 ≤ if b = a then w else 0 := by
          split
          · exact hw
          · exact le_refl 0
        have hrest : 0 ≤ allotted (hi - (lo + w)) entries a +
            if last = some a then unallotted (hi - (lo + w)) entries else 0 := by
          have hroom' : 0 ≤ hi - (lo + w) := by linarith
          have htaken := allotted_nonneg hroom' hlater a
          have hleft : 0 ≤ unallotted (hi - (lo + w)) entries := unallotted_nonneg hroom'
          split <;> linarith
        rw [hmin, hroom, volume_draws_cons (le_add_of_nonneg_right hw) hmid, ih hlater hmid, add_sub_cancel_left,
          ← ENNReal.ofReal_add (Rat.cast_nonneg.mpr hwidth) (Rat.cast_nonneg.mpr hrest), ← Rat.cast_add,
          add_assoc]

end PqcMigration.Lib.Draw
