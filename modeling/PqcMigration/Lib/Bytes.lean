/-
# PqcMigration.Lib.Bytes — byte strings: their order, and fixed-width big-endian numbers.

A byte string is a list of `UInt8`. Go, Python and JavaScript all compare byte strings
lexicographically by unsigned byte value, which is the order `List` inherits from `UInt8` here.
-/
import Mathlib.Algebra.Group.Nat.Defs
import Mathlib.Data.List.Lex
import Mathlib.Tactic.Common

namespace PqcMigration.Lib

/-- A byte string. -/
abbrev Bytes := List UInt8

/-- Bytes are ordered by their unsigned value. -/
instance instLinearOrderByte : LinearOrder UInt8 where
  le_refl := UInt8.le_refl
  le_trans _ _ _ := UInt8.le_trans
  lt_iff_le_not_ge a b := by
    rw [UInt8.le_iff_toNat_le, UInt8.le_iff_toNat_le, UInt8.lt_iff_toNat_lt]
    omega
  le_antisymm _ _ := UInt8.le_antisymm
  le_total a b := by
    rw [UInt8.le_iff_toNat_le, UInt8.le_iff_toNat_le]
    omega
  toDecidableLE := inferInstance
  toDecidableLT := inferInstance
  toDecidableEq := inferInstance

theorem zero_le_byte (b : UInt8) : 0 ≤ b := by
  rw [UInt8.le_iff_toNat_le]
  exact Nat.zero_le _

/-- A byte string of 32 bytes: a digest, or an SSZ chunk. -/
abbrev Bytes32 := { bs : Bytes // bs.length = 32 }

/-! ## Big-endian numbers -/

/-- The number a byte string writes, most significant byte first. -/
def beNat (bs : Bytes) : ℕ := bs.foldl (fun n b => 256 * n + b.toNat) 0

/-- The `k` low bytes of `n`, most significant first, in front of `acc`. -/
def beBytesOnto : ℕ → ℕ → Bytes → Bytes
  | 0, _, acc => acc
  | k + 1, n, acc => beBytesOnto k (n / 256) (UInt8.ofNat n :: acc)

/-- The `k` low bytes of `n`, most significant first. -/
def beBytes (k n : ℕ) : Bytes := beBytesOnto k n []

theorem beBytesOnto_eq (k n : ℕ) (acc : Bytes) : beBytesOnto k n acc = beBytes k n ++ acc := by
  induction k generalizing n acc with
  | zero => rfl
  | succ k ih =>
      show beBytesOnto k (n / 256) (UInt8.ofNat n :: acc) = beBytesOnto k (n / 256) [_] ++ acc
      rw [ih, ih _ [UInt8.ofNat n], List.append_assoc]
      rfl

theorem beBytes_succ (k n : ℕ) : beBytes (k + 1) n = beBytes k (n / 256) ++ [UInt8.ofNat n] :=
  beBytesOnto_eq k (n / 256) [UInt8.ofNat n]

@[simp] theorem length_beBytes (k n : ℕ) : (beBytes k n).length = k := by
  induction k generalizing n with
  | zero => rfl
  | succ k ih => simp [beBytes_succ, ih]

theorem beNat_concat (bs : Bytes) (b : UInt8) : beNat (bs ++ [b]) = 256 * beNat bs + b.toNat := by
  simp [beNat]

theorem beNat_beBytes {k n : ℕ} (h : n < 256 ^ k) : beNat (beBytes k n) = n := by
  induction k generalizing n with
  | zero =>
      have hn : n = 0 := by simpa using h
      rw [hn]
      rfl
  | succ k ih =>
      have hdiv : n / 256 < 256 ^ k := Nat.div_lt_of_lt_mul (by rwa [Nat.pow_succ'] at h)
      rw [beBytes_succ, beNat_concat, ih hdiv, UInt8.toNat_ofNat']
      omega

/-- Leading zeros write nothing. -/
theorem beNat_replicate_zero_append (k : ℕ) (bs : Bytes) :
    beNat (List.replicate k 0 ++ bs) = beNat bs := by
  induction k with
  | zero => rfl
  | succ k ih =>
      rw [List.replicate_succ, List.cons_append]
      exact ih

end PqcMigration.Lib
