/-
# PqcMigration.BatchScaling.RelayCeiling — the search of `find_relay_ceiling.py`.

How many packets fit into one relay transaction under geth's cap? The committed transfers are bisected: the
relay transaction of the first `mid` of them is built and signed, and its size compared with the cap. Two
variables keep the last probe that fitted and the last that did not, and the report is made from the two.

`best` is overwritten whenever the lower bound moves and `first_over` whenever the upper one does, so they
are the two bounds themselves: just below `lo` and just above `hi` (`search_eq`). That makes the report
about neighbouring counts however the sizes behave.

`sizes_cache` makes a probe a function of the count. The calibration points at `50`, `100`, `112` and `130`
only fill it, and are left out with the log. A probe that fails ends the program; here none does.
-/
import PqcMigration.BatchScaling.Packet
import PqcMigration.Lib.Bisect

namespace PqcMigration.BatchScaling

open Lib Lib.Bisect

def txMaxSize : ℕ := 131072

/-- What `probe-relay-size.js` prints. -/
structure SizeProbe where
  count : ℕ
  signedTxBytes : ℕ
  deriving DecidableEq

def probe (size : ℕ → ℕ) (n : ℕ) : SizeProbe := ⟨n, size n⟩

/-- The two variables the loop leaves behind. -/
structure Found where
  best : Option SizeProbe
  firstOver : Option SizeProbe
  deriving DecidableEq

/-- `(lo + hi) // 2` -/
def midpoint (lo hi : Int) : Int := (lo + hi) / 2

theorem upper_shrinks {lo hi : Int} (h : lo ≤ hi) :
    (hi + 1 - (midpoint lo hi + 1)).toNat < (hi + 1 - lo).toNat := by
  unfold midpoint
  omega

theorem lower_shrinks {lo hi : Int} (h : lo ≤ hi) :
    (midpoint lo hi - 1 + 1 - lo).toNat < (hi + 1 - lo).toNat := by
  unfold midpoint
  omega

/-- `while lo <= hi` -/
def searchCeiling (size : ℕ → ℕ) (lo hi : Int) (s : Found) : Found :=
  if _h : lo ≤ hi then
    let res := probe size (midpoint lo hi).toNat
    if res.signedTxBytes < txMaxSize then
      searchCeiling size (midpoint lo hi + 1) hi { s with best := some res }
    else searchCeiling size lo (midpoint lo hi - 1) { s with firstOver := some res }
  else s
termination_by (hi + 1 - lo).toNat
decreasing_by
  · exact upper_shrinks _h
  · exact lower_shrinks _h

/-- `results/relay_ceiling.json` -/
structure CeilingReport where
  ceiling : ℕ
  txMaxSize : ℕ
  signedTxBytesAtCeiling : ℕ
  signedTxBytesAtCeilingPlusOne : Option ℕ
  marginalBytesPerPacket : Option Int
  deriving DecidableEq

/-- `per_packet` -/
def perPacket (best : SizeProbe) : Option SizeProbe → Option Int
  | some above =>
      if best.count ≠ above.count then some ((above.signedTxBytes : Int) - best.signedTxBytes) else none
  | none => none

def noneFits : Text :=
  "even n=1 exceeds ".toList ++ digits txMaxSize ++
    "B — something is wrong; check calldata shape".toList

def ceilingReport (s : Found) : Except Text CeilingReport :=
  match s.best with
  | none => .error noneFits
  | some best =>
      .ok ⟨best.count, txMaxSize, best.signedTxBytes, s.firstOver.map (·.signedTxBytes),
        perPacket best s.firstOver⟩

/-- `main`, from the `n` committed transfers on: the variables, and the report made from them. -/
def ceilingSearch (size : ℕ → ℕ) (n : ℕ) : Found := searchCeiling size 1 n ⟨none, none⟩

def findRelayCeiling (size : ℕ → ℕ) (n : ℕ) : Except Text CeilingReport :=
  ceilingReport (ceilingSearch size n)

/-! ## The variables are the bounds -/

section Search

variable {size : ℕ → ℕ} {n a b : ℕ}

def underCap (size : ℕ → ℕ) (n : ℕ) : Bool := size n < txMaxSize

/-- Between `lo` and `hi`, both included, there is the same point halfway as strictly between the two points
outside them. -/
theorem midpoint_eq : midpoint ((a : Int) + 1) ((b : Int) - 1) = (mid a b : ℕ) := by
  unfold midpoint mid
  omega

/-- A variable that was given a value at `x`, or has kept the one it had. -/
def keptOr (size : ℕ → ℕ) (x start : ℕ) (old : Option SizeProbe) : Option SizeProbe :=
  if x = start then old else some (probe size x)

theorem keptOr_of_ne {x start : ℕ} {old : Option SizeProbe} (h : x ≠ start) :
    keptOr size x start old = some (probe size x) := if_neg h

theorem keptOr_probe (x start : ℕ) : keptOr size x start (some (probe size start)) = some (probe size x) := by
  unfold keptOr
  split
  · next heq => rw [heq]
  · rfl

theorem search_eq (h : a < b) (s : Found) :
    searchCeiling size ((a : Int) + 1) ((b : Int) - 1) s =
      ⟨keptOr size (ends (underCap size) a b).1 a s.best,
        keptOr size (ends (underCap size) a b).2 b s.firstOver⟩ := by
  fun_induction ends (underCap size) a b generalizing s with
  | case1 a b hab hfits ih =>
      have hne : (ends (underCap size) (mid a b) b).1 ≠ a :=
        ((lt_mid hab).trans_le (le_ends (mid_lt hab))).ne'
      rw [searchCeiling, dif_pos (by omega), midpoint_eq]
      show (if size (mid a b) < txMaxSize then _ else _) = _
      rw [if_pos (of_decide_eq_true hfits), Int.toNat_natCast, ih (mid_lt hab), keptOr_of_ne hne]
      show Found.mk (keptOr size _ (mid a b) (some (probe size (mid a b)))) _ = _
      rw [keptOr_probe]
  | case2 a b hab hover ih =>
      have hover : underCap size (mid a b) = false := by simpa using hover
      have hne : (ends (underCap size) a (mid a b)).2 ≠ b := by
        rw [(ends_spec (lt_mid hab)).next]
        exact (Nat.succ_le_of_lt (ends_lt (lt_mid hab))).trans_lt (mid_lt hab) |>.ne
      rw [searchCeiling, dif_pos (by omega), midpoint_eq]
      show (if size (mid a b) < txMaxSize then _ else _) = _
      rw [if_neg (of_decide_eq_false hover), Int.toNat_natCast, ih (lt_mid hab), keptOr_of_ne hne]
      show Found.mk _ (keptOr size _ (mid a b) (some (probe size (mid a b)))) = _
      rw [keptOr_probe]
  | case3 a b hab =>
      rw [searchCeiling, dif_neg (by omega)]
      unfold keptOr
      rw [if_pos rfl, if_pos rfl]

/-- The last count that fitted, `0` where none did. -/
def lastFit (size : ℕ → ℕ) (n : ℕ) : ℕ := (ends (underCap size) 0 (n + 1)).1

theorem lastFit_le : lastFit size n ≤ n := Nat.le_of_lt_succ (ends_lt (Nat.succ_pos n))

theorem ceilingSearch_eq :
    ceilingSearch size n =
      ⟨if lastFit size n = 0 then none else some (probe size (lastFit size n)),
        if lastFit size n = n then none else some (probe size (lastFit size n + 1))⟩ := by
  have heq := @search_eq size 0 (n + 1) (Nat.succ_pos n) ⟨none, none⟩
  have hhi : ((n + 1 : ℕ) : Int) - 1 = n := by omega
  rw [(ends_spec (Nat.succ_pos n)).next, hhi] at heq
  show searchCeiling size (((0 : ℕ) : Int) + 1) n ⟨none, none⟩ = _
  rw [heq]
  simp only [keptOr, Nat.add_right_cancel_iff]
  rfl

/-- Where nothing fitted, the lower bound never moved, and so the upper one ends at `1`. -/
theorem over_of_lastFit_eq_zero (hn : 1 ≤ n) (h : lastFit size n = 0) : txMaxSize ≤ size 1 := by
  obtain ⟨next, -, upper⟩ : Closed (underCap size) 0 (n + 1) := ends_spec (Nat.succ_pos n)
  have hone : (ends (underCap size) 0 (n + 1)).2 = 1 := by
    rw [next]
    exact congrArg (· + 1) h
  rw [hone] at upper
  obtain heq | ⟨-, hover⟩ := upper
  · omega
  · exact not_lt.mp (of_decide_eq_false hover)

theorem findRelayCeiling_zero : findRelayCeiling size 0 = .error noneFits := by
  have hzero : lastFit size 0 = 0 := Nat.le_zero.mp lastFit_le
  rw [findRelayCeiling, ceilingSearch_eq, hzero]
  rfl

end Search

/-! ## The report -/

/-- Where both variables are set they are at neighbouring counts, and the report gives the next size and the
difference for those; where nothing was over the cap the ceiling is all of them; the program gives up only
where a single packet is over the cap. This holds for every number of committed transfers but none: then it
gives up whatever a single packet takes, and blames a size that was not measured. -/
theorem relayCeiling_adjacent_iff (size : ℕ → ℕ) (n : ℕ) :
    ((∀ best above, (ceilingSearch size n).best = some best → (ceilingSearch size n).firstOver = some above →
        above.count = best.count + 1 ∧
        findRelayCeiling size n = .ok ⟨best.count, txMaxSize, size best.count, some (size (best.count + 1)),
          some ((size (best.count + 1) : Int) - size best.count)⟩) ∧
      (∀ report, findRelayCeiling size n = .ok report → (ceilingSearch size n).firstOver = none →
        report.ceiling = n) ∧
      (∀ e, findRelayCeiling size n = .error e → txMaxSize ≤ size 1)) ↔ 1 ≤ n ∨ txMaxSize ≤ size 1 := by
  constructor
  · rintro ⟨-, -, hfails⟩
    obtain rfl | hn := Nat.eq_zero_or_pos n
    · exact Or.inr (hfails noneFits findRelayCeiling_zero)
    · exact Or.inl hn
  · intro hn
    refine ⟨?_, ?_, ?_⟩
    · intro best above hbest hover
      rw [findRelayCeiling, ceilingSearch_eq]
      rw [ceilingSearch_eq] at hbest hover
      have hfit : lastFit size n ≠ 0 := fun h => by simp [h] at hbest
      have hall : lastFit size n ≠ n := fun h => by simp [h] at hover
      simp only [if_neg hfit, if_neg hall, Option.some.injEq] at hbest hover ⊢
      subst hbest hover
      refine ⟨rfl, ?_⟩
      have hne : (probe size (lastFit size n)).count ≠ (probe size (lastFit size n + 1)).count :=
        Nat.succ_ne_self _ |>.symm
      simp only [ceilingReport, perPacket, if_pos hne]
      rfl
    · intro report hok hnone
      rw [findRelayCeiling, ceilingSearch_eq] at hok
      rw [ceilingSearch_eq] at hnone
      have hall : lastFit size n = n := by
        by_contra hall
        simp [hall] at hnone
      have hfit : lastFit size n ≠ 0 := by
        intro hzero
        simp [hzero, ceilingReport] at hok
      simp only [if_neg hfit, ceilingReport, Except.ok.injEq] at hok
      rw [← hok]
      exact hall
    · intro e herr
      obtain hn | hover := hn
      · apply over_of_lastFit_eq_zero hn
        by_contra hfit
        rw [findRelayCeiling, ceilingSearch_eq] at herr
        simp [hfit, ceilingReport] at herr
      · exact hover

/-- No transfer committed: the program says that one packet exceeds the cap, though it is far below. -/
theorem relayCeiling_none_committed :
    findRelayCeiling (fun n => 2000 * n) 0 = .error noneFits ∧ ¬ txMaxSize ≤ 2000 * 1 :=
  ⟨findRelayCeiling_zero, by decide⟩

end PqcMigration.BatchScaling
