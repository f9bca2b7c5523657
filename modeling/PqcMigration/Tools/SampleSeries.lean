/-
# PqcMigration.Tools.SampleSeries — the series `tools/storage_sim/main.go` samples.

`logSamplePoints` gives the transaction counts at which a sample is taken: all of them if there are few,
and otherwise the values of a rounded power, held between 1 and the last count, and that count. `run`
steps the simulator and takes a sample when the count it has come to is the next point; a point that is
passed over would hold up all later ones.

The power is floating-point in the source; here it is any function (`pow`).
-/
import Mathlib.Data.Finset.Sort
import Mathlib.Data.List.Sort
import PqcMigration.Lib.While
import PqcMigration.Tools.StorageSim

namespace PqcMigration.Tools.StorageSim

open PqcMigration.Lib

/-! ## The points -/

/-- The two bounds a point is held between. -/
def clampPoint (max : ℕ) (p : ℤ) : ℕ := if p < 1 then 1 else if p > max then max else p.toNat

/-- The keys of a map come in any order; sorted, they come in one. -/
def logSamplePoints (max n : ℕ) (pow : ℕ → ℤ) : List ℕ :=
  if max ≤ 0 then []
  else if max ≤ n then (List.range max).map (· + 1)
  else (insert max ((Finset.range n).image fun i => clampPoint max (pow i))).sort

theorem clampPoint_bounds {max : ℕ} (hmax : 0 < max) (p : ℤ) :
    1 ≤ clampPoint max p ∧ clampPoint max p ≤ max := by
  unfold clampPoint
  split
  · exact ⟨Nat.le_refl 1, hmax⟩
  · split <;> omega

section

variable {max n : ℕ} {pow : ℕ → ℤ}

theorem logSamplePoints_sorted (max n : ℕ) (pow : ℕ → ℤ) :
    (logSamplePoints max n pow).Pairwise (· < ·) := by
  unfold logSamplePoints
  split
  · exact List.Pairwise.nil
  · split
    · rw [List.pairwise_map]
      exact List.pairwise_lt_range.imp fun hlt => Nat.succ_lt_succ hlt
    · exact (Finset.sortedLT_sort _).pairwise

theorem mem_logSamplePoints_bounds {p : ℕ} (hp : p ∈ logSamplePoints max n pow) : 1 ≤ p ∧ p ≤ max := by
  unfold logSamplePoints at hp
  split at hp
  · cases hp
  · next hpos =>
      have hmax : 0 < max := Nat.lt_of_not_le hpos
      split at hp
      · obtain ⟨i, hi, rfl⟩ := List.mem_map.mp hp
        have hlt := List.mem_range.mp hi
        omega
      · rw [Finset.mem_sort, Finset.mem_insert, Finset.mem_image] at hp
        rcases hp with rfl | ⟨i, -, rfl⟩
        · exact ⟨hmax, Nat.le_refl _⟩
        · exact clampPoint_bounds hmax (pow i)

theorem last_mem_logSamplePoints (hmax : 0 < max) : max ∈ logSamplePoints max n pow := by
  unfold logSamplePoints
  rw [if_neg (Nat.not_le_of_lt hmax)]
  split
  · exact List.mem_map.mpr ⟨max - 1, List.mem_range.mpr (by omega), Nat.sub_add_cancel hmax⟩
  · rw [Finset.mem_sort]
    exact Finset.mem_insert_self _ _

/-- The last point is the last count. -/
theorem getLast?_logSamplePoints (hmax : 0 < max) :
    (logSamplePoints max n pow).getLast? = some max := by
  have hmem : max ∈ logSamplePoints max n pow := last_mem_logSamplePoints hmax
  have hne := List.ne_nil_of_mem hmem
  have hsorted := logSamplePoints_sorted max n pow
  rw [List.getLast?_eq_some_getLast hne]
  -- A point after the greatest one would be greater.
  rw [← List.dropLast_append_getLast hne, List.pairwise_append] at hsorted
  rw [← List.dropLast_append_getLast hne, List.mem_append, List.mem_singleton] at hmem
  rcases hmem with hinit | hlast
  · have hlt := hsorted.2.2 max hinit _ (List.mem_singleton_self _)
    have hle := (mem_logSamplePoints_bounds (List.getLast_mem hne)).2
    omega
  · rw [← hlast]

end

/-! ## The run -/

structure Sample where
  txCount : ℕ
  totalStateBytes : Int64
  totalTxBytes : Int64
  uniqueAccounts : Int64
  stateBytesAfterFirstSignature : Int64
  deriving DecidableEq, Repr

/-- `Sample{}` -/
def Sample.origin : Sample := ⟨0, 0, 0, 0, 0⟩

def Simulator.snapshot (s : Simulator) : Sample where
  txCount := s.txCount
  totalStateBytes := s.totalStateBytes
  totalTxBytes := s.totalTxBytes
  uniqueAccounts := s.uniqueAccounts
  stateBytesAfterFirstSignature := s.stateAfterFirstSignature

/-- The inner loop of `run`: the samples it takes, and the points that are left. -/
def takeSamples (s : Simulator) : List ℕ → List Sample × List ℕ
  | [] => ([], [])
  | p :: ps =>
      if s.txCount = p then
        let r := takeSamples s ps
        (s.snapshot :: r.1, r.2)
      else ([], p :: ps)

/-- Where `run` is: `rest` is `points[pIdx:]`. -/
structure Sampling where
  sim : Simulator
  out : List Sample
  rest : List ℕ
  deriving DecidableEq, Repr

namespace Sampling

/-- `s.txCount < s.numTx` -/
def more (st : Sampling) : Bool := st.sim.txCount < st.sim.numTx

/-- One turn of `run`, which draws the next of `msgs`. -/
def turn (curve : ℕ → Int64) (msgs : ℕ → Msg) (st : Sampling) : Sampling :=
  let sim := st.sim.step curve (msgs st.sim.txCount)
  let r := takeSamples sim st.rest
  ⟨sim, st.out ++ r.1, r.2⟩

end Sampling

/-- `run`, for at most `fuel` looks at the guard of its loop: the simulator it leaves and the series. -/
def run (fuel : ℕ) (curve : ℕ → Int64) (msgs : ℕ → Msg) (pow : ℕ → ℤ) (nSamples : ℕ) (s : Simulator) :
    Option (Simulator × List Sample) :=
  (whileLoop Sampling.more (Sampling.turn curve msgs) fuel
    ⟨s, [.origin], logSamplePoints s.numTx nSamples pow⟩).map fun st => (st.sim, st.out)

/-- The numbers `main` reports. -/
structure SimResult where
  numTx : ℕ
  finalStateBytes : Int64
  finalTxBytes : Int64
  finalUniqueAccounts : Int64
  finalRecvAccounts : Int64
  finalStateAfterSign : Int64
  series : List Sample
  deriving DecidableEq, Repr

def report (numTx : ℕ) (sim : Simulator) (series : List Sample) : SimResult where
  numTx := numTx
  finalStateBytes := sim.totalStateBytes
  finalTxBytes := sim.totalTxBytes
  finalUniqueAccounts := sim.uniqueAccounts
  finalRecvAccounts := sim.recvAccounts
  finalStateAfterSign := sim.stateAfterFirstSignature
  series := series

/-- `main`, past its flags: a new simulator is run and reported. -/
def simulate (fuel : ℕ) (curve : ℕ → Int64) (msgs : ℕ → Msg) (pow : ℕ → ℤ) (numTx : ℕ) (pub sig : Int64)
    (nSamples : ℕ) :
    Option SimResult :=
  (run fuel curve msgs pow nSamples (.new numTx pub sig)).map fun r => report numTx r.1 r.2

/-! ## The series -/

/-- No sample is taken before the next point. -/
theorem takeSamples_of_lt {s : Simulator} {rest : List ℕ} (hahead : ∀ p ∈ rest, s.txCount < p) :
    takeSamples s rest = ([], rest) := by
  cases rest with
  | nil => rfl
  | cons p ps => rw [takeSamples, if_neg (Nat.ne_of_lt (hahead p List.mem_cons_self))]

/-- The points left in ascending order: the next count is the first of them, or all are still ahead of it. -/
theorem next_or_ahead {rest : List ℕ} {k : ℕ} (hsorted : rest.Pairwise (· < ·)) (hahead : ∀ p ∈ rest, k < p) :
    (∃ ps, rest = (k + 1) :: ps ∧ ∀ p ∈ ps, k + 1 < p) ∨ ∀ p ∈ rest, k + 1 < p := by
  cases rest with
  | nil => exact .inr fun p hp => by cases hp
  | cons p ps =>
      obtain ⟨hlater, -⟩ := List.pairwise_cons.mp hsorted
      rcases Nat.eq_or_lt_of_le (hahead p List.mem_cons_self) with rfl | hlt
      · exact .inl ⟨ps, rfl, hlater⟩
      · refine .inr fun q hq => ?_
        rcases List.mem_cons.mp hq with rfl | hmem
        · exact hlt
        · exact Nat.lt_trans hlt (hlater q hmem)

theorem Sampling.turn_eq {curve : ℕ → Int64} {msgs : ℕ → Msg} {st : Sampling} {sim : Simulator}
    {new : List Sample} {rest : List ℕ} (hsim : st.sim.step curve (msgs st.sim.txCount) = sim)
    (htake : takeSamples sim st.rest = (new, rest)) :
    st.turn curve msgs = ⟨sim, st.out ++ new, rest⟩ := by
  simp only [Sampling.turn, hsim, htake]

section

variable (curve : ℕ → Int64) (msgs : ℕ → Msg) (numTx : ℕ) (pub sig : Int64)

/-- The simulator after the first `k` draws. -/
def simAt (k : ℕ) : Simulator := (Simulator.new numTx pub sig).after curve ((List.range k).map msgs)

theorem simAt_succ (k : ℕ) : simAt curve msgs numTx pub sig (k + 1) =
    (simAt curve msgs numTx pub sig k).step curve (msgs k) := by
  unfold simAt Simulator.after
  rw [List.range_succ, List.map_append, List.foldl_append]
  rfl

theorem simAt_txCount (k : ℕ) : (simAt curve msgs numTx pub sig k).txCount = k := by
  have hdrawn := (@Accounted.after curve numTx pub sig ((List.range k).map msgs)).drawn
  rwa [List.length_map, List.length_range] at hdrawn

theorem simAt_numTx (k : ℕ) : (simAt curve msgs numTx pub sig k).numTx = numTx :=
  (Accounted.after ((List.range k).map msgs)).numTx_eq

/-- Where `run` is after `k` turns: the points it has left are those after `k`, and it has a sample for
each of the others. -/
structure Sampled (points : List ℕ) (k : ℕ) (st : Sampling) : Prop where
  sim_eq : st.sim = simAt curve msgs numTx pub sig k
  out_eq : ∃ done, points = done ++ st.rest ∧
    st.out = .origin :: done.map fun p => (simAt curve msgs numTx pub sig p).snapshot
  ahead : ∀ p ∈ st.rest, k < p

variable {curve msgs numTx pub sig}

theorem Sampled.turn {points : List ℕ} {k : ℕ} {st : Sampling} (hsorted : points.Pairwise (· < ·))
    (h : Sampled curve msgs numTx pub sig points k st) :
    Sampled curve msgs numTx pub sig points (k + 1) (st.turn curve msgs) := by
  obtain ⟨hsim, ⟨done, hpoints, hout⟩, hahead⟩ := h
  have hnext : st.sim.step curve (msgs st.sim.txCount) = simAt curve msgs numTx pub sig (k + 1) := by
    rw [hsim, simAt_txCount, simAt_succ]
  have hrest : st.rest.Pairwise (· < ·) := by
    rw [hpoints] at hsorted
    exact (List.pairwise_append.mp hsorted).2.1
  have hcount := simAt_txCount curve msgs numTx pub sig (k + 1)
  rcases next_or_ahead hrest hahead with ⟨ps, hps, hlater⟩ | hstill
  · have htake : takeSamples (simAt curve msgs numTx pub sig (k + 1)) st.rest =
        ([(simAt curve msgs numTx pub sig (k + 1)).snapshot], ps) := by
      rw [hps, takeSamples, if_pos hcount]
      rw [← hcount] at hlater
      rw [takeSamples_of_lt hlater]
    rw [hps] at hpoints
    rw [Sampling.turn_eq hnext htake]
    refine ⟨rfl, ⟨done ++ [k + 1], ?_, ?_⟩, hlater⟩
    · rw [hpoints, List.append_assoc]
      rfl
    · rw [hout, List.map_append]
      rfl
  · have hnone : ∀ q ∈ st.rest, (simAt curve msgs numTx pub sig (k + 1)).txCount < q := by
      rw [hcount]
      exact hstill
    rw [Sampling.turn_eq hnext (takeSamples_of_lt hnone)]
    exact ⟨rfl, ⟨done, hpoints, by rw [hout, List.append_nil]⟩, hstill⟩

/-- Where `run` is after any number of turns. -/
theorem sampled_turns (nSamples : ℕ) (pow : ℕ → ℤ) (k : ℕ) :
    Sampled curve msgs numTx pub sig (logSamplePoints numTx nSamples pow) k
      ((Sampling.turn curve msgs)^[k]
        ⟨.new numTx pub sig, [.origin], logSamplePoints numTx nSamples pow⟩) := by
  induction k with
  | zero =>
      refine ⟨rfl, ⟨[], rfl, rfl⟩, ?_⟩
      intro p hp
      exact (mem_logSamplePoints_bounds hp).1
  | succ k ih =>
      rw [Function.iterate_succ_apply']
      exact ih.turn (logSamplePoints_sorted _ _ _)

/-- The guard, before turn `k`. -/
theorem Sampled.more_eq {points : List ℕ} {k : ℕ} {st : Sampling}
    (h : Sampled curve msgs numTx pub sig points k st) : st.more = decide (k < numTx) := by
  unfold Sampling.more
  rw [h.sim_eq, simAt_txCount, simAt_numTx]

/-- What `run` returns: the origin, and a sample for each point. -/
theorem run_eq (nSamples : ℕ) (pow : ℕ → ℤ) :
    run (numTx + 1) curve msgs pow nSamples (.new numTx pub sig) =
      some (simAt curve msgs numTx pub sig numTx, .origin ::
        (logSamplePoints numTx nSamples pow).map fun p =>
          (simAt curve msgs numTx pub sig p).snapshot) := by
  have hsampled : ∀ k, Sampled curve msgs numTx pub sig _ k _ := sampled_turns nSamples pow
  have hheld : ∀ j < numTx, Sampling.more _ = true := fun j hj =>
    (hsampled j).more_eq.trans (decide_eq_true hj)
  have hleft := (hsampled numTx).more_eq.trans (decide_eq_false (Nat.lt_irrefl numTx))
  obtain ⟨hsim, ⟨done, hpoints, hout⟩, hahead⟩ := hsampled numTx
  unfold run
  show (whileLoop _ _ _ (Sampling.mk _ _ (logSamplePoints numTx nSamples pow))).map _ = _
  rw [whileLoop_of_turns hheld hleft, Option.map_some, hsim, hout]
  -- No point is past the last count, so none is left.
  generalize hst : (Sampling.turn curve msgs)^[numTx] _ = st at hpoints hahead
  have hnone : st.rest = [] := by
    apply List.eq_nil_iff_forall_not_mem.mpr
    intro p hp
    have hmem : p ∈ logSamplePoints numTx nSamples pow := by
      rw [hpoints]
      exact List.mem_append_right done hp
    exact Nat.not_lt_of_le (mem_logSamplePoints_bounds hmem).2 (hahead p hp)
  rw [hnone, List.append_nil] at hpoints
  rw [hpoints]

end

/-- **The series is complete.** The run ends; its series starts at 0 and goes on, in increasing order, with
the sample points and nothing else, up to the transaction count; and its last sample is what is reported
as final. -/
theorem series_complete (curve : ℕ → Int64) (msgs : ℕ → Msg) (pow : ℕ → ℤ) (numTx : ℕ) (pub sig : Int64)
    (nSamples : ℕ) (hnum : 0 < numTx) :
    ∃ fuel res last, simulate fuel curve msgs pow numTx pub sig nSamples = some res ∧
      res.series.map (·.txCount) = 0 :: logSamplePoints numTx nSamples pow ∧
      (res.series.map (·.txCount)).Pairwise (· < ·) ∧
      res.series.getLast? = some last ∧
      last = ⟨numTx, res.finalStateBytes, res.finalTxBytes, res.finalUniqueAccounts,
        res.finalStateAfterSign⟩ := by
  have hcounts : ∀ points : List ℕ, (Sample.origin :: points.map fun p =>
      (simAt curve msgs numTx pub sig p).snapshot).map (·.txCount) = 0 :: points := by
    intro points
    rw [List.map_cons, List.map_map]
    have hcomp : (fun s : Sample => s.txCount) ∘
        (fun p => (simAt curve msgs numTx pub sig p).snapshot) = id :=
      funext fun p => simAt_txCount curve msgs numTx pub sig p
    rw [hcomp, List.map_id]
    rfl
  refine ⟨numTx + 1, _, (simAt curve msgs numTx pub sig numTx).snapshot,
    by rw [simulate, run_eq]; rfl, hcounts _, ?_, ?_, ?_⟩
  · show List.Pairwise _ (List.map _ (Sample.origin :: _))
    rw [hcounts, List.pairwise_cons]
    exact ⟨fun p hp => (mem_logSamplePoints_bounds hp).1, logSamplePoints_sorted _ _ _⟩
  · show (Sample.origin :: (logSamplePoints numTx nSamples pow).map _).getLast? = _
    rw [List.getLast?_cons, List.getLast?_map, getLast?_logSamplePoints hnum]
    rfl
  · show _ = Sample.mk numTx _ _ _ _
    rw [Simulator.snapshot, simAt_txCount]
    rfl

/-- Three transactions, two samples. -/
theorem series_complete_three :
    ∃ fuel res last, simulate fuel Int64.ofNat (fun _ => .recv) (fun _ => 1) 3 33 64 2 = some res ∧
      res.series.map (·.txCount) = 0 :: logSamplePoints 3 2 (fun _ => 1) ∧
      (res.series.map (·.txCount)).Pairwise (· < ·) ∧
      res.series.getLast? = some last ∧
      last = ⟨3, res.finalStateBytes, res.finalTxBytes, res.finalUniqueAccounts,
        res.finalStateAfterSign⟩ :=
  series_complete Int64.ofNat (fun _ => .recv) (fun _ => 1) 3 33 64 2 (by decide)

end PqcMigration.Tools.StorageSim
