/-
# PqcMigration.Tools.BlockPacking — how many transactions a block takes.

`tools/block_packing/main.go` packs transactions of one size into the bytes a block leaves for them, one
at a time. The numbers are Go's `int64`, so the additions wrap, the one in the loop's guard included.

The loop asks `used+txBytes <= maxData`. Near the top of the range the sum wraps to a negative number and
the guard holds once more, so the block that is full goes on being packed: `packs_iff` says for which
sizes the answer is the exact one.
-/
import PqcMigration.Lib.While
import Mathlib.Algebra.Order.Ring.Int
import Mathlib.Tactic.Linarith

namespace PqcMigration.Tools.BlockPacking

open PqcMigration.Lib

/-! ## The sizes -/

def maxHeaderBytes : Int64 := 626

def maxOverheadForBlock : Int64 := 11

def commitOverhead : Int64 := 94

def commitPerValidator : Int64 := 109

def cometBFTGenesisDefaultMaxBytes : Int64 := 22020096

def txEnvelopeOverhead : Int64 := 110

def msgSend1In1OutBytes : Int64 := 112

inductive Scheme where
  | secp256k1
  | mldsa65
  deriving DecidableEq, Repr

def Scheme.pubKeyBytes : Scheme → Int64
  | .secp256k1 => 33
  | .mldsa65 => 1952

def Scheme.sigBytes : Scheme → Int64
  | .secp256k1 => 64
  | .mldsa65 => 3309

/-- Only the two schemes have a size; `main` asks for no other. -/
def txSize (scheme : Scheme) : Int64 :=
  txEnvelopeOverhead + msgSend1In1OutBytes + scheme.pubKeyBytes + scheme.sigBytes

def maxCommitBytes (validators : Int64) : Int64 := commitOverhead + validators * commitPerValidator

/-- What CometBFT leaves for transactions in a block of `maxBytes`. -/
def maxDataBytes (maxBytes evidenceBytes validators : Int64) : Int64 :=
  let d := maxBytes - maxOverheadForBlock - maxHeaderBytes - maxCommitBytes validators - evidenceBytes
  if d < 0 then 0 else d

/-! ## The packing -/

structure Packed where
  count : Int64
  used : Int64
  deriving DecidableEq, Repr

namespace Packed

def empty : Packed := ⟨0, 0⟩

/-- `used+txBytes <= maxData` -/
def fits (txBytes maxData : Int64) (p : Packed) : Bool := p.used + txBytes ≤ maxData

def pack (txBytes : Int64) (p : Packed) : Packed := ⟨p.count + 1, p.used + txBytes⟩

end Packed

/-- `packBlock`, for at most `fuel` looks at the guard of its loop. -/
def packBlock (fuel : ℕ) (txBytes maxData : Int64) : Option Packed :=
  if txBytes ≤ 0 ∨ maxData ≤ 0 then some .empty
  else whileLoop (Packed.fits txBytes maxData) (Packed.pack txBytes) fuel .empty

/-- The block is packed exactly: it holds `count` transactions and no other would fit. -/
structure Packed.Exact (txBytes maxData : Int64) (p : Packed) : Prop where
  used_eq : p.used.toInt = p.count.toInt * txBytes.toInt
  le_max : p.used.toInt ≤ maxData.toInt
  full : maxData.toInt - p.used.toInt < txBytes.toInt

/-! ## Wrapping -/

theorem toInt_add_of_lt {a b : Int64} (ha : 0 ≤ a.toInt) (hb : 0 ≤ b.toInt)
    (hlt : a.toInt + b.toInt < 2 ^ 63) : (a + b).toInt = a.toInt + b.toInt := by
  rw [Int64.toInt_add]
  exact Int.bmod_eq_of_le (by omega) (by omega)

/-- A sum of two numbers that leaves the range comes back as a negative one. -/
theorem toInt_add_neg_of_le {a b : Int64} (hle : 2 ^ 63 ≤ a.toInt + b.toInt) : (a + b).toInt < 0 := by
  have ha := a.toInt_lt
  have hb := b.toInt_lt
  rw [Int64.toInt_add, Int.bmod_eq_emod, Int.emod_eq_of_lt (by omega) (by omega)]
  split <;> omega

section

variable {txBytes maxData : Int64} {p : Packed}

/-- The guard, where the sum does not wrap. -/
theorem fits_iff_of_lt (htx : 0 < txBytes.toInt) (hused : 0 ≤ p.used.toInt)
    (hlt : p.used.toInt + txBytes.toInt < 2 ^ 63) :
    p.fits txBytes maxData = true ↔ p.used.toInt + txBytes.toInt ≤ maxData.toInt := by
  rw [Packed.fits, decide_eq_true_iff, Int64.le_iff_toInt_le, toInt_add_of_lt hused htx.le hlt]

/-- Where it wraps, the guard holds whatever the block has room for. -/
theorem fits_of_le (hmax : 0 < maxData.toInt) (hle : 2 ^ 63 ≤ p.used.toInt + txBytes.toInt) :
    p.fits txBytes maxData = true := by
  have hneg := toInt_add_neg_of_le hle
  rw [Packed.fits, decide_eq_true_iff, Int64.le_iff_toInt_le]
  omega

/-- The block after `k` turns, as long as neither number has left the range. -/
theorem pack_turns (htx : 0 < txBytes.toInt) {k : ℕ} (hlt : k * txBytes.toInt < 2 ^ 63) :
    (((Packed.pack txBytes)^[k] .empty).count.toInt = k) ∧
      ((Packed.pack txBytes)^[k] .empty).used.toInt = k * txBytes.toInt := by
  induction k with
  | zero => simp [Packed.empty]
  | succ k ih =>
      have hsucc : ((k + 1 : ℕ) : ℤ) * txBytes.toInt = k * txBytes.toInt + txBytes.toInt := by
        rw [Nat.cast_succ, add_mul, one_mul]
      rw [hsucc] at hlt ⊢
      have hk : (k : ℤ) ≤ k * txBytes.toInt := le_mul_of_one_le_right (Int.natCast_nonneg k) htx
      obtain ⟨hcount, hused⟩ := ih (by omega)
      rw [Function.iterate_succ_apply']
      constructor
      · show (_ + 1 : Int64).toInt = _
        have hone : (1 : Int64).toInt = 1 := rfl
        rw [toInt_add_of_lt (by omega) (by omega) (by omega), hcount, hone]
        push_cast
        rfl
      · show (_ + txBytes).toInt = _
        rw [toInt_add_of_lt (by omega) (by omega) (by omega), hused]

theorem packBlock_eq (htx : 0 < txBytes.toInt) (hmax : 0 < maxData.toInt) (fuel : ℕ) :
    packBlock fuel txBytes maxData =
      whileLoop (Packed.fits txBytes maxData) (Packed.pack txBytes) fuel .empty := by
  unfold packBlock
  rw [if_neg]
  rw [Int64.le_iff_toInt_le, Int64.le_iff_toInt_le]
  show ¬(txBytes.toInt ≤ 0 ∨ maxData.toInt ≤ 0)
  omega

/-- The block the loop would leave with in exact numbers. -/
theorem packBlock_of_lt (htx : 0 < txBytes.toInt) (hmax : 0 < maxData.toInt)
    (hlt : (maxData.toInt / txBytes.toInt + 1) * txBytes.toInt < 2 ^ 63) :
    ∃ fuel p, packBlock fuel txBytes maxData = some p ∧ p.Exact txBytes maxData := by
  obtain ⟨q, hq⟩ := Int.eq_ofNat_of_zero_le (Int.ediv_nonneg hmax.le htx.le)
  have hle : (q : ℤ) * txBytes.toInt ≤ maxData.toInt := by
    rw [← hq]
    exact Int.ediv_mul_le _ htx.ne'
  have hover : maxData.toInt < q * txBytes.toInt + txBytes.toInt := by
    have hdiv := Int.lt_ediv_add_one_mul_self maxData.toInt htx
    rwa [hq, add_mul, one_mul] at hdiv
  rw [hq, add_mul, one_mul] at hlt
  obtain ⟨hcount, hused⟩ := pack_turns htx (k := q) (by omega)
  have hheld : ∀ j < q, Packed.fits txBytes maxData ((Packed.pack txBytes)^[j] .empty) = true := by
    intro j hj
    have hnext : (j : ℤ) * txBytes.toInt + txBytes.toInt ≤ q * txBytes.toInt := by
      have hmul : ((j : ℤ) + 1) * txBytes.toInt ≤ q * txBytes.toInt :=
        mul_le_mul_of_nonneg_right (by omega) htx.le
      rwa [add_mul, one_mul] at hmul
    have hnonneg : 0 ≤ (j : ℤ) * txBytes.toInt := mul_nonneg (Int.natCast_nonneg j) htx.le
    have hturn := (pack_turns htx (k := j) (by omega)).2
    rw [fits_iff_of_lt htx (by omega) (by omega), hturn]
    omega
  have hnonneg : 0 ≤ (q : ℤ) * txBytes.toInt := mul_nonneg (Int.natCast_nonneg q) htx.le
  have hleft : Packed.fits txBytes maxData ((Packed.pack txBytes)^[q] .empty) = false := by
    rw [← Bool.not_eq_true, fits_iff_of_lt htx (by omega) (by omega), hused]
    omega
  refine ⟨q + 1, (Packed.pack txBytes)^[q] .empty, ?_, ?_⟩
  · rw [packBlock_eq htx hmax, whileLoop_of_turns hheld hleft]
  · exact ⟨by rw [hcount, hused], by omega, by omega⟩

/-- A block that was left exact left room for no wrap. -/
theorem lt_of_packBlock (htx : 0 < txBytes.toInt) (hmax : 0 < maxData.toInt) {fuel : ℕ}
    (hpacked : packBlock fuel txBytes maxData = some p) (hexact : p.Exact txBytes maxData) :
    (maxData.toInt / txBytes.toInt + 1) * txBytes.toInt < 2 ^ 63 := by
  rw [packBlock_eq htx hmax] at hpacked
  have hleft := guard_of_whileLoop hpacked
  obtain ⟨hused, hle, hfull⟩ := hexact
  have hquot : maxData.toInt / txBytes.toInt = p.count.toInt := by
    rw [Int.ediv_eq_iff_of_pos htx]
    constructor <;> nlinarith
  rw [hquot, add_mul, one_mul, ← hused]
  by_contra hwrap
  rw [fits_of_le hmax (by omega)] at hleft
  cases hleft

end

/-- **Which blocks are packed exactly.** The loop ends with the exact count just if the first multiple of
the transaction size past the block is still an `int64`. -/
theorem packs_iff (txBytes maxData : Int64) (htx : 0 < txBytes) (hmax : 0 < maxData) :
    (∃ fuel p, packBlock fuel txBytes maxData = some p ∧ p.Exact txBytes maxData) ↔
      (maxData.toInt / txBytes.toInt + 1) * txBytes.toInt < 2 ^ 63 := by
  have htx' : 0 < txBytes.toInt := Int64.lt_iff_toInt_lt.mp htx
  have hmax' : 0 < maxData.toInt := Int64.lt_iff_toInt_lt.mp hmax
  constructor
  · rintro ⟨fuel, p, hpacked, hexact⟩
    exact lt_of_packBlock htx' hmax' hpacked hexact
  · exact packBlock_of_lt htx' hmax'

/-- One ML-DSA-65 block of the default limits. -/
theorem packs_default :
    ∃ fuel p, packBlock fuel (txSize .mldsa65) (maxDataBytes cometBFTGenesisDefaultMaxBytes 0 100) = some p ∧
      p.Exact (txSize .mldsa65) (maxDataBytes cometBFTGenesisDefaultMaxBytes 0 100) :=
  (packs_iff (txSize .mldsa65) (maxDataBytes cometBFTGenesisDefaultMaxBytes 0 100)
    (by decide) (by decide)).mpr (by decide)

/-- With `--max-bytes=9223372036854775807 --validators=1` the ML-DSA-65 block is never packed exactly: its
last transaction ends 1243 bytes past the range. -/
theorem not_packs_maxInt64 :
    ¬∃ fuel p, packBlock fuel (txSize .mldsa65) (maxDataBytes 9223372036854775807 0 1) = some p ∧
      p.Exact (txSize .mldsa65) (maxDataBytes 9223372036854775807 0 1) := by
  rintro ⟨fuel, p, hpacked, hexact⟩
  have hlt := lt_of_packBlock (by decide) (by decide) hpacked hexact
  revert hlt
  decide

end PqcMigration.Tools.BlockPacking
