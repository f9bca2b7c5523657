/-
# PqcMigration.MigrationCost.RecvCeiling — the broadcast ceiling of `find_recv_ceiling.py`.

For each signing key the program bisects twice. The first bisection is for `max_tx_bytes`, over all the
messages. A line is fitted through the sizes it measured, and where that line meets what the RPC's body
limit leaves for a transaction, eight more is the upper bound of the second bisection, which is for that
limit and gives `broadcast_ceiling`.

The second bisection looks no further than its upper bound, so the result is right only if the line comes
out high enough; and there is no line at all through the single size the first bisection measures where all
the messages fit into `max_tx_bytes`. `broadcastCeiling_iff` says exactly when the result is right. Sizes
that grow by the same amount with each message lie on the line themselves, which then is high enough
(`lineReaches_of_affine`).

Floating-point arithmetic is exact here. A division by zero is an error with Python's text; the dictionary
of probes is read at keys it has.
-/
import Mathlib.Algebra.Order.Round
import Mathlib.Data.Rat.Floor
import PqcMigration.Lib.LeastSquares
import PqcMigration.MigrationCost.BisectCeiling

namespace PqcMigration.MigrationCost

open Lib Lib.Bisect Lib.LeastSquares

/-- CometBFT's mempool limit, `MAX_TX_BYTES`. -/
def maxTxBytes : ℕ := 4194304

/-- CometBFT's RPC limit, `RPC_MAX_BODY_BYTES`. -/
def rpcMaxBodyBytes : ℕ := 1000000

/-- `RPC_MAX_BODY_BYTES * 3 // 4` -/
def usableBody : ℕ := rpcMaxBodyBytes * 3 / 4

/-- `b64_len` -/
def b64Len (raw : ℕ) : ℕ := (raw + 2) / 3 * 4

def zeroDivision : Text := "float division by zero".toList

/-- `fit`. The order of the points does not matter to exact sums. -/
def fit (points : Probes) : Except Text (ℚ × ℚ) :=
  let n : ℚ := points.length
  let mx := (points.map fun p => (p.1 : ℚ)).sum / n
  let my := (points.map fun p => (p.2 : ℚ)).sum / n
  let sxy := (points.map fun p => ((p.1 : ℚ) - mx) * ((p.2 : ℚ) - my)).sum
  let sxx := (points.map fun p => ((p.1 : ℚ) - mx) ^ 2).sum
  if sxx = 0 then .error zeroDivision
  else .ok (sxy / sxx, my - sxy / sxx * mx)

/-- `int(q)` drops the fraction. -/
def truncate (q : ℚ) : ℤ := if 0 ≤ q then ⌊q⌋ else ⌈q⌉

/-- `bmax`, for `n` messages and the line. -/
def upperBound (n : ℕ) (slope intercept : ℚ) : Except Text ℕ :=
  if slope = 0 then .error zeroDivision
  else .ok (min (n : ℤ) (max 1 (truncate ((usableBody - intercept) / slope) + 8))).toNat

/-- `probes[n]` -/
def probed (probes : Probes) (n : ℕ) : Except Text ℕ :=
  match probes.lookup n with
  | some b => .ok b
  | none => .error (digits n)

/-- `while bceiling > 1 and b64_len(bprobes[bceiling]) > RPC_MAX_BODY_BYTES` -/
def stepDown (bprobes : Probes) : ℕ → Except Text ℕ
  | 0 => .ok 0
  | 1 => .ok 1
  | n + 2 => do
      let b ← probed bprobes (n + 2)
      if rpcMaxBodyBytes < b64Len b then stepDown bprobes (n + 1) else .ok (n + 2)

/-- What is reported for a key. -/
structure KeyEntry where
  ceiling : ℕ
  ceilingIsExact : Bool
  bytesAtCeiling : ℕ
  broadcastCeiling : ℕ
  broadcastBytesRaw : Option ℕ
  broadcastBytesB64 : ℕ
  slopeBytesPerPacket : ℚ
  interceptBytes : ℚ
  probes : Probes

/-- `entry` -/
def keyEntry (first : Ceiling) (line : ℚ × ℚ) (bytes : ℕ) (second : Ceiling) (bceiling : ℕ) : KeyEntry where
  ceiling := first.n
  ceilingIsExact := first.exact
  bytesAtCeiling := bytes
  broadcastCeiling := bceiling
  broadcastBytesRaw := second.probes.lookup bceiling
  broadcastBytesB64 := b64Len ((second.probes.lookup bceiling).getD 0)
  slopeBytesPerPacket := line.1
  interceptBytes := line.2
  probes := first.probes

/-- The body of `for key_name in args.keys.split(",")`, for `n` messages. -/
def keyCeilings (encodedSize : ℕ → Except Text ℕ) (n : ℕ) : Except Text KeyEntry := do
  let first ← bisectCeiling encodedSize 1 n maxTxBytes
  let line ← fit first.probes
  let bmax ← upperBound n line.1 line.2
  let second ← bisectCeiling encodedSize 1 bmax usableBody
  let bceiling ← stepDown second.probes second.n
  let bytes ← probed first.probes first.n
  .ok (keyEntry first line bytes second bceiling)

/-! ## The line -/

/-- A probe as a point of the plane. -/
def point (p : ℕ × ℕ) : ℚ × ℚ := (p.1, p.2)

theorem fit_eq (points : Probes) :
    fit points = if varyX (points.map point) = 0 then .error zeroDivision
      else .ok (slope (points.map point), intercept (points.map point)) := by
  simp only [fit, LeastSquares.slope, intercept, covary, varyX, meanX, meanY, mean, List.map_map,
    List.length_map, Function.comp_def, point]

theorem fit_singleton (p : ℕ × ℕ) : fit [p] = .error zeroDivision := by
  rw [fit_eq, if_pos]
  exact varyX_singleton _

/-- A whole number is reached by `int(q)` if `q` reaches it; below zero, if `q` is less than one short. -/
theorem le_truncate {z : ℤ} {q : ℚ} :
    z ≤ truncate q ↔ (0 < z ∧ (z : ℚ) ≤ q) ∨ (z ≤ 0 ∧ (z : ℚ) - 1 < q) := by
  unfold truncate
  split
  · next hq =>
      rw [Int.le_floor]
      constructor
      · intro hle
        obtain hz | hz := lt_or_ge 0 z
        · exact .inl ⟨hz, hle⟩
        · exact .inr ⟨hz, by linarith⟩
      · rintro (⟨-, hle⟩ | ⟨hz, -⟩)
        · exact hle
        · exact le_trans (by exact_mod_cast hz) hq
  · next hq =>
      have hceil : ⌈q⌉ ≤ 0 := Int.ceil_le.mpr (by push_cast; linarith)
      have hiff : z ≤ ⌈q⌉ ↔ (z : ℚ) - 1 < q := by
        rw [← Int.sub_one_lt_iff, Int.lt_ceil]
        push_cast
        rfl
      rw [hiff]
      constructor
      · exact fun h => .inr ⟨(hiff.mpr h).trans hceil, h⟩
      · rintro (⟨hz, hle⟩ | ⟨-, h⟩)
        · have : (0 : ℚ) < z := by exact_mod_cast hz
          linarith
        · exact h

section Ceiling

variable {size : ℕ → ℕ} {n : ℕ}

/-- The sizes at the numbers that a bisection for `max_tx_bytes` looks at. -/
def firstPoints (size : ℕ → ℕ) (n : ℕ) : List (ℚ × ℚ) :=
  ((n :: 1 :: mids (within size maxTxBytes) 1 n).map (sized size)).map point

/-- The greatest number of messages whose transaction the RPC takes. -/
def trueCeiling (size : ℕ → ℕ) (n : ℕ) : ℕ := Nat.findGreatest (fun k => size k ≤ usableBody) n

/-- The sizes of the first `n` messages: each message adds to them, and one message fits both limits. -/
structure Sizes (size : ℕ → ℕ) (n : ℕ) : Prop where
  one_le : 1 ≤ n
  strictMono : StrictMonoOn size (Set.Icc 1 n)
  one_fits : size 1 ≤ usableBody ∧ size 1 ≤ maxTxBytes

theorem Sizes.isGreatest (h : Sizes size n) :
    IsGreatest {k | 1 ≤ k ∧ k ≤ n ∧ size k ≤ usableBody} (trueCeiling size n) := by
  constructor
  · exact ⟨Nat.le_findGreatest h.one_le h.one_fits.1, Nat.findGreatest_le n,
      @Nat.findGreatest_spec 1 (fun k => size k ≤ usableBody) _ n h.one_le h.one_fits.1⟩
  · exact fun k hk => Nat.le_findGreatest hk.2.1 hk.2.2

theorem Sizes.one_lt (h : Sizes size n) (hover : maxTxBytes < size n) : 1 < n :=
  h.one_le.lt_of_ne fun heq => (heq ▸ h.one_fits.2).not_gt hover

theorem Sizes.mem_Icc (h : Sizes size n) {k : ℕ} (hk : k ∈ n :: 1 :: mids (within size maxTxBytes) 1 n) :
    k ∈ Set.Icc 1 n := by
  obtain rfl | hk := List.mem_cons.mp hk
  · exact ⟨h.one_le, le_rfl⟩
  obtain rfl | hk := List.mem_cons.mp hk
  · exact ⟨le_rfl, h.one_le⟩
  · exact ⟨(mids_between hk).1.le, (mids_between hk).2.le⟩

theorem mem_firstPoints {p : ℚ × ℚ} : p ∈ firstPoints size n ↔
    ∃ k ∈ n :: 1 :: mids (within size maxTxBytes) 1 n, ((k : ℚ), (size k : ℚ)) = p := by
  rw [firstPoints, List.map_map]
  exact List.mem_map

theorem Sizes.rising (h : Sizes size n) (hover : maxTxBytes < size n) : Rising (firstPoints size n) where
  strict := by
    intro p hp q hq hlt
    obtain ⟨k, hk, rfl⟩ := mem_firstPoints.mp hp
    obtain ⟨l, hl, rfl⟩ := mem_firstPoints.mp hq
    have hkl : k < l := Nat.cast_lt.mp (show (k : ℚ) < l from hlt)
    exact Nat.cast_lt.mpr (h.strictMono (h.mem_Icc hk) (h.mem_Icc hl) hkl)
  single := by
    intro p hp q hq heq
    obtain ⟨k, hk, rfl⟩ := mem_firstPoints.mp hp
    obtain ⟨l, hl, rfl⟩ := mem_firstPoints.mp hq
    rw [Nat.cast_injective (show (k : ℚ) = l from heq)]
  apart := by
    refine ⟨_, mem_firstPoints.mpr ⟨1, List.mem_cons_of_mem _ List.mem_cons_self, rfl⟩, _,
      mem_firstPoints.mpr ⟨n, List.mem_cons_self, rfl⟩, ?_⟩
    exact Nat.cast_lt.mpr (h.one_lt hover)

/-! ## The second bisection -/

theorem b64Len_le {raw : ℕ} (h : raw ≤ usableBody) : b64Len raw ≤ rpcMaxBodyBytes := by
  unfold usableBody rpcMaxBodyBytes at h
  unfold b64Len rpcMaxBodyBytes
  omega

/-- What was recorded is found. -/
theorem lookup_recorded {lo hi limit : ℕ} {r : Ceiling} (h : Bisected size lo hi limit r) :
    r.probes.lookup r.n = some (size r.n) := by
  cases hlookup : r.probes.lookup r.n with
  | none =>
      have := List.lookup_eq_none_iff.mp hlookup _ h.recorded
      simp [sized] at this
  | some b =>
      obtain ⟨_, _, heq, -⟩ := List.lookup_eq_some_iff.mp hlookup
      have hmem : (r.n, b) ∈ r.probes := heq ▸ List.mem_append_right _ List.mem_cons_self
      exact congrArg some (h.inside _ hmem).2.2

/-- The sizes of the second bisection fit in base64 as they are. -/
theorem stepDown_bisected {lo hi : ℕ} {r : Ceiling} (h : Bisected size lo hi usableBody r) :
    stepDown r.probes r.n = .ok r.n := by
  have hlookup := lookup_recorded h
  generalize hn : r.n = m at hlookup
  match m with
  | 0 => rfl
  | 1 => rfl
  | m + 2 =>
      have hle : b64Len (size (m + 2)) ≤ rpcMaxBodyBytes := b64Len_le (hn ▸ h.fits)
      rw [stepDown, probed, hlookup]
      exact if_neg hle.not_gt

/-- The upper bound of the second bisection. -/
def boundFor (size : ℕ → ℕ) (n : ℕ) : ℕ :=
  (min (n : ℤ) (max 1 (truncate ((usableBody - intercept (firstPoints size n)) /
    slope (firstPoints size n)) + 8))).toNat

/-- All the messages fit into `max_tx_bytes`: one size was measured, and no line goes through it. -/
theorem keyCeilings_of_fits (hfits : size n ≤ maxTxBytes) :
    keyCeilings (measured size) n = .error zeroDivision := by
  rw [keyCeilings, bisectCeiling_of_fits hfits]
  show (fit [sized size n] >>= _) = _
  rw [fit_singleton]
  rfl

theorem keyCeilings_eq {encodedSize : ℕ → Except Text ℕ} {first second : Ceiling} {line : ℚ × ℚ}
    {bmax bytes : ℕ} (hfirst : bisectCeiling encodedSize 1 n maxTxBytes = .ok first)
    (hline : fit first.probes = .ok line) (hbmax : upperBound n line.1 line.2 = .ok bmax)
    (hsecond : bisectCeiling encodedSize 1 bmax usableBody = .ok second)
    (hdown : stepDown second.probes second.n = .ok second.n)
    (hbytes : first.probes.lookup first.n = some bytes) :
    keyCeilings encodedSize n = .ok (keyEntry first line bytes second second.n) := by
  have hprobed : probed first.probes first.n = .ok bytes := by
    rw [probed, hbytes]
  rw [keyCeilings, hfirst]
  show (fit first.probes >>= _) = _
  rw [hline]
  show (upperBound n line.1 line.2 >>= _) = _
  rw [hbmax]
  show (bisectCeiling encodedSize 1 bmax usableBody >>= _) = _
  rw [hsecond]
  show (stepDown second.probes second.n >>= _) = _
  rw [hdown]
  show (probed first.probes first.n >>= _) = _
  rw [hprobed]
  rfl

/-- Otherwise the second bisection is reached, and its result is the one that is reported. -/
theorem keyCeilings_of_over (h : Sizes size n) (hover : maxTxBytes < size n) :
    ∃ entry r, keyCeilings (measured size) n = .ok entry ∧ entry.broadcastCeiling = r.n ∧
      Bisected size 1 (boundFor size n) usableBody r := by
  have hlt : 1 < n := h.one_lt hover
  have hrising := h.rising hover
  have hline : fit ((n :: 1 :: mids (within size maxTxBytes) 1 n).map (sized size)) =
      .ok (slope (firstPoints size n), intercept (firstPoints size n)) := by
    rw [fit_eq]
    exact if_neg (varyX_pos hrising.apart).ne'
  have hbmax : upperBound n (slope (firstPoints size n)) (intercept (firstPoints size n)) =
      .ok (boundFor size n) := if_neg (slope_pos hrising).ne'
  have hone : 1 ≤ boundFor size n := by
    unfold boundFor
    omega
  obtain ⟨r, hr, hbisected⟩ := bisectCeiling_bisected hone h.one_fits.1
  exact ⟨_, r, keyCeilings_eq (bisectCeiling_of_over hlt h.one_fits.2 hover) hline hbmax hr
    (stepDown_bisected hbisected) (lookup_recorded (.of_over hlt h.one_fits.2 hover)), rfl, hbisected⟩

/-- On sizes that grow the second bisection finds the greatest number that fits, as far as it looks. -/
theorem eq_trueCeiling_iff (h : Sizes size n) {r : Ceiling}
    (hr : Bisected size 1 (boundFor size n) usableBody r) :
    r.n = trueCeiling size n ↔ trueCeiling size n ≤ boundFor size n := by
  have hle : boundFor size n ≤ n := by
    unfold boundFor
    omega
  have hmono : MonotoneOn size (Set.Icc 1 (boundFor size n)) :=
    h.strictMono.monotoneOn.mono (Set.Icc_subset_Icc_right hle)
  obtain ⟨hone, -, hfits⟩ := h.isGreatest.1
  constructor
  · exact fun heq => heq ▸ hr.upper
  · intro hbound
    exact le_antisymm (h.isGreatest.2 ⟨hr.lower, hr.upper.trans hle, hr.fits⟩)
      (hr.greatest hmono _ hone hbound hfits)

/-- The line comes out high enough: eight below the greatest number that fits it has not passed the limit.
From there downwards to zero and below it, where `int` rounds up, nine below will do. -/
def LineReaches (size : ℕ → ℕ) (n : ℕ) : Prop :=
  trueCeiling size n = 1 ∨
    (8 < trueCeiling size n ∧
      lineAt (firstPoints size n) ((trueCeiling size n : ℚ) - 8) ≤ usableBody) ∨
    (trueCeiling size n ≤ 8 ∧
      lineAt (firstPoints size n) ((trueCeiling size n : ℚ) - 9) < usableBody)

theorem trueCeiling_le_boundFor_iff (h : Sizes size n) (hover : maxTxBytes < size n) :
    trueCeiling size n ≤ boundFor size n ↔ LineReaches size n := by
  have hslope : 0 < slope (firstPoints size n) := slope_pos (h.rising hover)
  obtain ⟨hone, hle, -⟩ := h.isGreatest.1
  have hbound : trueCeiling size n ≤ boundFor size n ↔ trueCeiling size n = 1 ∨
      (trueCeiling size n : ℤ) - 8 ≤ truncate ((usableBody - intercept (firstPoints size n)) /
        slope (firstPoints size n)) := by
    unfold boundFor
    omega
  rw [hbound, LineReaches, le_truncate, le_div_iff₀ hslope, lt_div_iff₀ hslope]
  unfold lineAt
  push_cast
  refine or_congr Iff.rfl (or_congr (and_congr (by omega) ?_) (and_congr (by omega) ?_))
  · constructor <;> intro hline <;> linarith
  · constructor <;> intro hline <;> linarith

/-- For sizes that grow with each message: the search ends with the greatest number of messages that the RPC
takes exactly if the whole batch is over `max_tx_bytes` and the line comes out high enough. -/
theorem broadcastCeiling_iff (size : ℕ → ℕ) (n : ℕ) (hn : 1 ≤ n)
    (hmono : StrictMonoOn size (Set.Icc 1 n)) (hone : size 1 ≤ usableBody ∧ size 1 ≤ maxTxBytes) :
    (∃ entry, keyCeilings (measured size) n = .ok entry ∧
        IsGreatest {k | 1 ≤ k ∧ k ≤ n ∧ size k ≤ usableBody} entry.broadcastCeiling) ↔
      maxTxBytes < size n ∧ LineReaches size n := by
  have h : Sizes size n := ⟨hn, hmono, hone⟩
  constructor
  · rintro ⟨entry, hok, hgreatest⟩
    obtain hfits | hover := le_or_gt (size n) maxTxBytes
    · rw [keyCeilings_of_fits hfits] at hok
      cases hok
    · obtain ⟨entry', r, hok', hentry, hr⟩ := keyCeilings_of_over h hover
      obtain rfl : entry' = entry := Except.ok.inj (hok'.symm.trans hok)
      refine ⟨hover, (trueCeiling_le_boundFor_iff h hover).mp ((eq_trueCeiling_iff h hr).mp ?_)⟩
      rw [← hentry]
      exact hgreatest.unique h.isGreatest
  · rintro ⟨hover, hline⟩
    obtain ⟨entry, r, hok, hentry, hr⟩ := keyCeilings_of_over h hover
    refine ⟨entry, hok, ?_⟩
    rw [hentry, (eq_trueCeiling_iff h hr).mpr ((trueCeiling_le_boundFor_iff h hover).mpr hline)]
    exact h.isGreatest

/-- Sizes that grow by the same amount with each message lie on the line. -/
theorem lineReaches_of_affine {a b : ℕ} (ha : 0 < a) (h : Sizes (fun k => a * k + b) n)
    (hover : maxTxBytes < a * n + b) : LineReaches (fun k => a * k + b) n := by
  have hrising := h.rising hover
  have hline : ∀ x : ℚ, lineAt (firstPoints (fun k => a * k + b) n) x = a * x + b := by
    refine lineAt_affine ?_ (varyX_pos hrising.apart).ne' ?_
    · exact List.cons_ne_nil _ _
    · intro p hp
      obtain ⟨k, -, rfl⟩ := mem_firstPoints.mp hp
      show ((a * k + b : ℕ) : ℚ) = a * (k : ℚ) + b
      push_cast
      rfl
  obtain ⟨-, -, hfits⟩ := h.isGreatest.1
  have hfits : (a : ℚ) * trueCeiling (fun k => a * k + b) n + b ≤ usableBody := by exact_mod_cast hfits
  have ha : (0 : ℚ) < a := Nat.cast_pos.mpr ha
  unfold LineReaches
  rw [hline, hline]
  obtain h8 | h8 := lt_or_ge 8 (trueCeiling (fun k => a * k + b) n)
  · exact .inr (.inl ⟨h8, by linarith⟩)
  · exact .inr (.inr ⟨h8, by linarith⟩)

end Ceiling

/-- A thousand messages of 5000 bytes, over `max_tx_bytes` together. -/
theorem broadcastCeiling_thousand :
    ∃ entry, keyCeilings (measured fun k => 5000 * k + 3000) 1000 = .ok entry ∧
      IsGreatest {k | 1 ≤ k ∧ k ≤ 1000 ∧ 5000 * k + 3000 ≤ usableBody} entry.broadcastCeiling := by
  have hmono : StrictMonoOn (fun k => 5000 * k + 3000) (Set.Icc 1 1000) := fun k _ l _ hkl => by
    show 5000 * k + 3000 < 5000 * l + 3000
    omega
  have hone : 5000 * 1 + 3000 ≤ usableBody ∧ 5000 * 1 + 3000 ≤ maxTxBytes := by decide
  exact (broadcastCeiling_iff (fun k => 5000 * k + 3000) 1000 (by decide) hmono hone).mpr
    ⟨by decide, lineReaches_of_affine (by decide) ⟨by decide, hmono, hone⟩ (by decide)⟩

/-- Small messages, and a sixteenth that is enormous. -/
def lateJump (k : ℕ) : ℕ := if k < 16 then k else 1000000000000

theorem keyCeilings_lateJump :
    ∃ entry, keyCeilings (measured lateJump) 16 = .ok entry ∧ entry.broadcastCeiling = 13 := by
  have hmids : mids (within lateJump maxTxBytes) 1 16 = [8, 12, 14, 15] := by
    simp +decide [mids, mid]
  have hends : ends (within lateJump maxTxBytes) 1 16 = (15, 16) := by
    simp +decide [ends, mid]
  have hfirst := @bisectCeiling_of_over lateJump maxTxBytes 1 16 (by decide) (by decide) (by decide)
  rw [hmids, hends] at hfirst
  -- the last size lifts the line so steeply that it meets the limit between five and six
  have hline : fit ([16, 1, 8, 12, 14, 15].map (sized lateJump)) =
      .ok (62500000001 / 2, -354166666661 / 2) := by
    norm_num [fit, sized, lateJump]
  have hbmax : upperBound 16 (62500000001 / 2) (-354166666661 / 2) = .ok 13 := by
    norm_num [upperBound, truncate, usableBody, rpcMaxBodyBytes]
    rfl
  exact ⟨_, keyCeilings_eq hfirst hline hbmax (bisectCeiling_of_fits (by decide)) rfl rfl, rfl⟩

/-- A hundred messages that fit into `max_tx_bytes` together end the program with a division by zero, and
where the last of sixteen is enormous thirteen are reported though fifteen fit. -/
theorem broadcastCeiling_fails :
    keyCeilings (measured fun k => 5000 * k + 3000) 100 = .error zeroDivision ∧
      (∃ entry, keyCeilings (measured lateJump) 16 = .ok entry ∧ entry.broadcastCeiling = 13) ∧
      lateJump 15 ≤ usableBody :=
  ⟨keyCeilings_of_fits (by decide), keyCeilings_lateJump, by decide⟩

end PqcMigration.MigrationCost
