/-
# PqcMigration.Throughput.Saturation — the saturation verdict of `migration_throughput/aggregate.py`.

The runs are grouped by the load they offered; each group has a mean and the half-width of a confidence
interval, and either may be NaN: a single repeat has no interval, and a run without a window has no rate.
`detect_saturation` looks at the loads in order and returns the one before the first step whose gain is
within the noise. A step that cannot be compared is passed over, and at the end it counts for nothing:
`verdict_justified_iff` says when the verdict is nevertheless one the numbers bear out.

NaN is `none`, and the numbers are exact. The half-width of two repeats or more takes a square root; here
it is any function of them (`halfWidth`). So is the `:.2f` of a number (`fmt`).
-/
import Mathlib.Algebra.Order.Ring.Rat
import Mathlib.Data.List.Basic
import PqcMigration.BatchScaling.Packet

namespace PqcMigration.Throughput

open BatchScaling (Text digits)

/-! ## The groups -/

/-- `mean`: one NaN makes it NaN, and so does an empty list. -/
def mean (xs : List (Option ℚ)) : Option ℚ :=
  if xs = [] then none else (xs.mapM id).map fun ys => ys.sum / ys.length

/-- `ci95` -/
def ci95 (halfWidth : List ℚ → ℚ) (xs : List (Option ℚ)) : Option ℚ :=
  if xs.length < 2 then none else (xs.mapM id).map halfWidth

/-- One load with the mean and the half-width of its runs: an index of `ns`, `per_window_mean` and
`per_window_ci`. -/
structure Load where
  n : ℕ
  perWindowMean : Option ℚ
  perWindowCi : Option ℚ
  deriving DecidableEq, Repr

/-- What `write_summary` makes of the rates of a load. -/
def summarize (halfWidth : List ℚ → ℚ) (group : ℕ × List (Option ℚ)) : Load :=
  ⟨group.1, mean group.2, ci95 halfWidth group.2⟩

/-! ## The scan -/

def gain (a b : Load) : Option ℚ := do return (← b.perWindowMean) - (← a.perWindowMean)

def noise (a b : Load) : Option ℚ := do return (← b.perWindowCi) + (← a.perWindowCi)

def kneeReason (fmt : ℚ → Text) (a b : Load) (gain noise : ℚ) : Text :=
  "acks/window rose by ".toList ++ fmt gain ++ " going from N=".toList ++ digits a.n ++ " to N=".toList ++
    digits b.n ++ ", which is within the combined 95 % CI (+/-".toList ++ fmt noise ++
    ") — not distinguishable from noise".toList

def scalingReason : Text :=
  "acks/window still scaling at the largest N tested; the batching ceiling is above the swept range".toList

def detectSaturation (fmt : ℚ → Text) : List Load → Option ℕ × Text
  | a :: b :: loads =>
      match gain a b, noise a b with
      | some gain, some noise =>
          if gain ≤ noise then (some a.n, kneeReason fmt a b gain noise)
          else detectSaturation fmt (b :: loads)
      -- `math.isnan(gain) or math.isnan(noise)`
      | _, _ => detectSaturation fmt (b :: loads)
  | _ => (none, scalingReason)

/-! ## What the verdict should say -/

/-- The consecutive loads. -/
def steps (loads : List Load) : List (Load × Load) := loads.zip loads.tail

/-- The gain of a step and its noise, if both are known. -/
def compared (s : Load × Load) : Option (ℚ × ℚ) := do return (← gain s.1 s.2, ← noise s.1 s.2)

/-- A step with a known gain that is at most its known noise. -/
def Saturates (s : Load × Load) : Prop := ∃ p, compared s = some p ∧ p.1 ≤ p.2

/-- A step with a known gain that exceeds its known noise. -/
def Scales (s : Load × Load) : Prop := ∃ p, compared s = some p ∧ p.2 < p.1

def Known (s : Load × Load) : Prop := ∃ p, compared s = some p

/-- The first step of the list that saturates. -/
def FirstSaturating (l : List (Load × Load)) (s : Load × Load) : Prop :=
  ∃ before after, l = before ++ s :: after ∧ Saturates s ∧ ∀ s' ∈ before, ¬Saturates s'

/-- The load returned is the one before the first step that saturates; and still scaling is reported only
if every step is known to scale. -/
structure Justified (loads : List Load) (verdict : Option ℕ × Text) : Prop where
  knee : ∀ n, verdict.1 = some n ↔ ∃ s, FirstSaturating (steps loads) s ∧ n = s.1.n
  scaling : verdict.1 = none → ∀ s ∈ steps loads, Scales s

/-! ## The scan, as a search -/

def saturates (s : Load × Load) : Bool :=
  match compared s with
  | some p => decide (p.1 ≤ p.2)
  | none => false

theorem saturates_iff (s : Load × Load) : saturates s = true ↔ Saturates s := by
  unfold saturates Saturates
  cases compared s with
  | none => simp
  | some p => simp

/-- A known step saturates or scales. -/
theorem Known.scales {s : Load × Load} (hknown : Known s) (hnot : ¬Saturates s) : Scales s := by
  obtain ⟨p, hp⟩ := hknown
  refine ⟨p, hp, ?_⟩
  apply lt_of_not_ge
  intro hle
  exact hnot ⟨p, hp, hle⟩

/-- One turn of the scan. -/
theorem detectSaturation_cons (fmt : ℚ → Text) (a b : Load) (loads : List Load) :
    (detectSaturation fmt (a :: b :: loads)).1 =
      if saturates (a, b) then some a.n else (detectSaturation fmt (b :: loads)).1 := by
  rw [detectSaturation]
  unfold saturates compared
  cases hgain : gain a b with
  | none => rfl
  | some g =>
      cases hnoise : noise a b with
      | none => rfl
      | some n =>
          by_cases hle : g ≤ n
          · simp [hle]
          · simp [hle]

/-- The scan returns the load before the first step that saturates. -/
theorem detectSaturation_fst (fmt : ℚ → Text) (loads : List Load) :
    (detectSaturation fmt loads).1 = ((steps loads).find? saturates).map (·.1.n) := by
  induction loads with
  | nil => rfl
  | cons a loads ih =>
      cases loads with
      | nil => rfl
      | cons b loads =>
          rw [detectSaturation_cons, ih]
          show _ = (((a, b) :: steps (b :: loads)).find? saturates).map (·.1.n)
          by_cases hsat : saturates (a, b) = true
          · rw [if_pos hsat, List.find?_cons_of_pos hsat]
            rfl
          · rw [if_neg hsat, List.find?_cons_of_neg hsat]

theorem find?_saturates_iff (l : List (Load × Load)) (s : Load × Load) :
    l.find? saturates = some s ↔ FirstSaturating l s := by
  rw [List.find?_eq_some_iff_append, saturates_iff]
  unfold FirstSaturating
  constructor
  · rintro ⟨hsat, before, after, hl, hbefore⟩
    refine ⟨before, after, hl, hsat, fun s' hs' hsat' => ?_⟩
    have hnot := hbefore s' hs'
    rw [(saturates_iff s').mpr hsat'] at hnot
    cases hnot
  · rintro ⟨before, after, hl, hsat, hbefore⟩
    refine ⟨hsat, before, after, hl, fun s' hs' => ?_⟩
    rw [Bool.not_eq_true', ← Bool.not_eq_true, saturates_iff]
    exact hbefore s' hs'

/-- **When the verdict is justified.** When some step is known to gain no more than its noise, or every
step is known. -/
theorem verdict_justified_iff (fmt : ℚ → Text) (loads : List Load) :
    Justified loads (detectSaturation fmt loads) ↔
      (∃ s ∈ steps loads, Saturates s) ∨ ∀ s ∈ steps loads, Known s := by
  have hfst := detectSaturation_fst fmt loads
  constructor
  · intro hjust
    by_cases hsat : ∃ s ∈ steps loads, Saturates s
    · exact .inl hsat
    · right
      intro s hs
      have hnone : (detectSaturation fmt loads).1 = none := by
        rw [hfst, Option.map_eq_none_iff, List.find?_eq_none]
        intro s' hs' hsat'
        exact hsat ⟨s', hs', (saturates_iff s').mp hsat'⟩
      obtain ⟨p, hp, -⟩ := hjust.scaling hnone s hs
      exact ⟨p, hp⟩
  · intro hcond
    constructor
    · intro n
      rw [hfst, Option.map_eq_some_iff]
      constructor
      · rintro ⟨s, hs, rfl⟩
        exact ⟨s, (find?_saturates_iff _ s).mp hs, rfl⟩
      · rintro ⟨s, hs, rfl⟩
        exact ⟨s, (find?_saturates_iff _ s).mpr hs, rfl⟩
    · intro hnone s hs
      rw [hfst, Option.map_eq_none_iff, List.find?_eq_none] at hnone
      have hnot : ∀ s' ∈ steps loads, ¬Saturates s' := fun s' hs' hsat =>
        hnone s' hs' ((saturates_iff s').mpr hsat)
      rcases hcond with ⟨s', hs', hsat⟩ | hknown
      · exact absurd hsat (hnot s' hs')
      · exact (hknown s hs).scales (hnot s hs)

/-- Two loads, each run once, with no gain between them: reported as still scaling, though no half-width
is known. -/
theorem verdict_not_justified :
    detectSaturation (fun _ => []) ([(10, [some 5]), (20, [some 5])].map (summarize fun _ => 0)) =
        (none, scalingReason) ∧
      ¬Justified ([(10, [some 5]), (20, [some 5])].map (summarize fun _ => 0))
        (detectSaturation (fun _ => []) ([(10, [some 5]), (20, [some 5])].map (summarize fun _ => 0))) := by
  refine ⟨rfl, fun hjust => ?_⟩
  obtain ⟨p, hp, -⟩ := hjust.scaling rfl _ List.mem_cons_self
  cases hp

end PqcMigration.Throughput
