/-
# PqcMigration.Lib.Int32 — JavaScript's 32-bit integers, and the bits they are spelled with.

The shifts of JavaScript take 32-bit integers: `<<` drops what leaves at the top, `>>` keeps the sign,
and the distance counts modulo 32. `lowBits` spells the low bits of a number, the highest one first; a
list of numbers of one width is then a list of bits (`stream`), which is what regrouping preserves.
-/
import Mathlib.Algebra.Group.Nat.Defs
import Mathlib.Data.List.Flatten
import Mathlib.Tactic.Common

namespace PqcMigration.Lib.Int32

/-- `x << n` -/
def shl (x : BitVec 32) (n : ℕ) : BitVec 32 := x <<< (n % 32)

/-- `x >> n` -/
def shr (x : BitVec 32) (n : ℕ) : BitVec 32 := x.sshiftRight (n % 32)

/-- `(1 << n) - 1` -/
def mask (n : ℕ) : BitVec 32 := shl 1#32 n - 1#32

variable {x y v : BitVec 32} {m n i : ℕ}

theorem getLsbD_shl (hn : n < 32) (hi : i < 32) :
    (shl x n).getLsbD i = (!decide (i < n) && x.getLsbD (i - n)) := by
  rw [shl, Nat.mod_eq_of_lt hn, BitVec.getLsbD_shiftLeft, decide_eq_true hi, Bool.true_and]

theorem getLsbD_shr (h : n + i < 32) : (shr x n).getLsbD i = x.getLsbD (n + i) := by
  rw [shr, Nat.mod_eq_of_lt (by omega), BitVec.getLsbD_sshiftRight, if_pos h,
    decide_eq_false (by omega), Bool.not_false, Bool.true_and]

theorem getLsbD_mask (hn : n < 32) : (mask n).getLsbD i = decide (i < n) := by
  have hpow : 2 ^ n < 2 ^ 32 := Nat.pow_lt_pow_right (by decide) hn
  have hone : 1 ≤ 2 ^ n := Nat.one_le_two_pow
  have hnat : (mask n).toNat = 2 ^ n - 1 := by
    rw [mask, shl, Nat.mod_eq_of_lt hn, BitVec.toNat_sub, BitVec.toNat_shiftLeft]
    have hval : (1#32).toNat = 1 := rfl
    rw [hval, Nat.one_shiftLeft, Nat.mod_eq_of_lt hpow]
    omega
  rw [BitVec.getLsbD, hnat, Nat.testBit_two_pow_sub_one]

theorem xor_and_distrib (x y m : BitVec 32) : (x ^^^ y) &&& m = (x &&& m) ^^^ (y &&& m) := by
  apply BitVec.eq_of_getLsbD_eq
  intro i _
  simp only [BitVec.getLsbD_and, BitVec.getLsbD_xor, Bool.and_xor_distrib_right]

theorem xor_eq_self_iff : x ^^^ y = x ↔ y = 0#32 :=
  ⟨fun h => (BitVec.xor_right_inj x).mp (h.trans BitVec.xor_zero.symm), fun h => by
    rw [h, BitVec.xor_zero]⟩

/-! ## Numbers of a width -/

/-- The number has no bit at `w` or above. -/
def Fits (w : ℕ) (v : BitVec 32) : Prop := ∀ i, w ≤ i → v.getLsbD i = false

theorem fits_of_lt (h : v.toNat < 2 ^ n) : Fits n v := fun _ hi =>
  Nat.testBit_lt_two_pow (Nat.lt_of_lt_of_le h (Nat.pow_le_pow_right (by decide) hi))

theorem Fits.lt (h : Fits n v) : v.toNat < 2 ^ n :=
  Nat.lt_pow_two_of_testBit v.toNat h

theorem Fits.mono (h : Fits m v) (hmn : m ≤ n) : Fits n v := fun i hi => h i (Nat.le_trans hmn hi)

theorem Fits.xor (hx : Fits n x) (hy : Fits n y) : Fits n (x ^^^ y) := by
  intro i hi
  rw [BitVec.getLsbD_xor, hx i hi, hy i hi, Bool.xor_false]

theorem fits_mask (hn : n < 32) : Fits n (x &&& mask n) := by
  intro i hi
  rw [BitVec.getLsbD_and, getLsbD_mask hn, decide_eq_false (by omega), Bool.and_false]

theorem Fits.shr_eq_zero (h : Fits n v) (hn : n < 32) : shr v n = 0#32 := by
  have hmsb : v.msb = false := by rw [BitVec.msb_eq_getLsbD_last]; exact h _ (by omega)
  apply BitVec.eq_of_getLsbD_eq
  intro i _
  rw [shr, Nat.mod_eq_of_lt hn, BitVec.sshiftRight_eq_of_msb_false hmsb,
    BitVec.getLsbD_ushiftRight, h _ (by omega), BitVec.getLsbD_zero]

theorem Fits.not_slt_zero (h : Fits n v) (hn : n < 32) : v.slt 0#32 = false := by
  have hmsb : v.msb = false := by rw [BitVec.msb_eq_getLsbD_last]; exact h _ (by omega)
  rw [BitVec.slt_zero_eq_msb, hmsb]

/-! ## The spelling -/

/-- The low `n` bits, the highest one first. -/
def lowBits : ℕ → BitVec 32 → List Bool
  | 0, _ => []
  | n + 1, x => x.getLsbD n :: lowBits n x

@[simp] theorem length_lowBits (n : ℕ) (x : BitVec 32) : (lowBits n x).length = n := by
  induction n with
  | zero => rfl
  | succ n ih => rw [lowBits, List.length_cons, ih]

theorem lowBits_eq_iff : lowBits n x = lowBits n y ↔ ∀ i < n, x.getLsbD i = y.getLsbD i := by
  induction n with
  | zero => simp [lowBits]
  | succ n ih =>
      rw [lowBits, lowBits, List.cons.injEq, ih]
      constructor
      · rintro ⟨hn, hlow⟩ i hi
        rcases Nat.lt_succ_iff_lt_or_eq.mp hi with hi | rfl
        · exact hlow i hi
        · exact hn
      · exact fun h => ⟨h n (Nat.lt_succ_self n), fun i hi => h i (Nat.lt_succ_of_lt hi)⟩

theorem lowBits_eq_replicate_iff :
    lowBits n x = List.replicate n false ↔ ∀ i < n, x.getLsbD i = false := by
  have hzero : lowBits n 0#32 = List.replicate n false := by
    induction n with
    | zero => rfl
    | succ n ih => rw [lowBits, ih, BitVec.getLsbD_zero, List.replicate_succ]
  rw [← hzero, lowBits_eq_iff]
  simp only [BitVec.getLsbD_zero]

/-- The high part is what a shift brings down. -/
theorem lowBits_add (h : m + n ≤ 32) : lowBits (m + n) x = lowBits m (shr x n) ++ lowBits n x := by
  induction m with
  | zero => rw [Nat.zero_add]; rfl
  | succ m ih =>
      rw [Nat.add_right_comm, lowBits, lowBits, ih (by omega), getLsbD_shr (by omega),
        Nat.add_comm n m, List.cons_append]

/-- A number shifted up and another put below it. -/
theorem lowBits_shl_or (h : m + n ≤ 32) (hn : n < 32) (hv : Fits n v) :
    lowBits (m + n) (shl x n ||| v) = lowBits m x ++ lowBits n v := by
  rw [lowBits_add h]
  congr 1
  · rw [lowBits_eq_iff]
    intro i hi
    rw [getLsbD_shr (by omega), BitVec.getLsbD_or, getLsbD_shl hn (by omega), hv _ (by omega),
      decide_eq_false (by omega), Nat.add_sub_cancel_left, Bool.or_false, Bool.not_false,
      Bool.true_and]
  · rw [lowBits_eq_iff]
    intro i hi
    rw [BitVec.getLsbD_or, getLsbD_shl hn (by omega), decide_eq_true hi, Bool.not_true,
      Bool.false_and, Bool.false_or]

theorem lowBits_and_mask (hn : n < 32) : lowBits n (x &&& mask n) = lowBits n x := by
  rw [lowBits_eq_iff]
  intro i hi
  rw [BitVec.getLsbD_and, getLsbD_mask hn, decide_eq_true hi, Bool.and_true]

/-- The low bits shifted up to fill a group, with zeros below them. -/
theorem lowBits_shl_mask (hm : m + n < 32) :
    lowBits (m + n) (shl x n &&& mask (m + n)) = lowBits m x ++ List.replicate n false := by
  have hzero : lowBits n 0#32 = List.replicate n false :=
    lowBits_eq_replicate_iff.mpr fun i _ => BitVec.getLsbD_zero
  rw [lowBits_and_mask hm, ← hzero,
    ← lowBits_shl_or (Nat.le_of_lt hm) (by omega) (fun i _ => BitVec.getLsbD_zero), BitVec.or_zero]

theorem Fits.eq_of_lowBits (hx : Fits n x) (hy : Fits n y) (h : lowBits n x = lowBits n y) : x = y := by
  apply BitVec.eq_of_getLsbD_eq
  intro i _
  rcases Nat.lt_or_ge i n with hi | hi
  · exact lowBits_eq_iff.mp h i hi
  · rw [hx i hi, hy i hi]

/-! ## Lists of numbers -/

/-- Numbers of width `w`, one after the other. -/
def stream (w : ℕ) (xs : List (BitVec 32)) : List Bool := xs.flatMap (lowBits w)

@[simp] theorem stream_nil (w : ℕ) : stream w [] = [] := rfl

theorem stream_append (w : ℕ) (xs ys : List (BitVec 32)) :
    stream w (xs ++ ys) = stream w xs ++ stream w ys := List.flatMap_append

theorem stream_singleton (w : ℕ) (x : BitVec 32) : stream w [x] = lowBits w x :=
  List.flatMap_singleton (lowBits w) x

theorem stream_cons (w : ℕ) (x : BitVec 32) (xs : List (BitVec 32)) :
    stream w (x :: xs) = lowBits w x ++ stream w xs := rfl

theorem length_stream (w : ℕ) (xs : List (BitVec 32)) : (stream w xs).length = w * xs.length := by
  induction xs with
  | nil => rfl
  | cons x xs ih =>
      rw [stream_cons, List.length_append, length_lowBits, ih, List.length_cons, Nat.mul_succ,
        Nat.add_comm]

theorem eq_of_stream {w : ℕ} {xs ys : List (BitVec 32)} (hxs : ∀ x ∈ xs, Fits w x)
    (hys : ∀ y ∈ ys, Fits w y) (hlen : xs.length = ys.length) (h : stream w xs = stream w ys) :
    xs = ys := by
  induction xs generalizing ys with
  | nil => exact (List.length_eq_zero_iff.mp hlen.symm).symm
  | cons x xs ih =>
      obtain ⟨y, ys, rfl⟩ := List.exists_cons_of_length_eq_add_one hlen.symm
      rw [stream_cons, stream_cons] at h
      obtain ⟨hhead, htail⟩ := List.append_inj h (by rw [length_lowBits, length_lowBits])
      have hxy : x = y :=
        (hxs x List.mem_cons_self).eq_of_lowBits (hys y List.mem_cons_self) hhead
      rw [hxy, ih (fun z hz => hxs z (List.mem_cons_of_mem _ hz))
        (fun z hz => hys z (List.mem_cons_of_mem _ hz)) (Nat.succ.inj hlen) htail]

end PqcMigration.Lib.Int32
