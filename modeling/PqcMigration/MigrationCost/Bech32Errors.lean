/-
# PqcMigration.MigrationCost.Bech32Errors — the errors that the checksum of `bech32.js` detects.

A symbol replaced after the separator changes one digit that the register is fed with, so it moves the
result by a power of `polymodNext` at the difference of the digits (`Lib.feed_set`). One difference is
never lost: `polymodNext` is injective on registers of 30 bits, since its five taps differ in their low
five bits. Two differences cancel only if the power between them takes one digit to another; up to 89
steps, and 90 symbols are not further apart, no digit comes back to a digit (`strays_digit`).
-/
import PqcMigration.MigrationCost.Bech32Canonical

namespace PqcMigration.MigrationCost.Bech32

open Lib Lib.Int32

/-! ## The register loses nothing -/

/-- The five taps are told apart by their low bits. -/
theorem taps_low : ∀ a b c d e : Bool,
    (tap a 0x3b6a57b2#32 ^^^ tap b 0x26508e6d#32 ^^^ tap c 0x1ea119fa#32 ^^^ tap d 0x3d4233dd#32 ^^^
      tap e 0x2a1462b3#32) &&& 31#32 = 0#32 →
    a = false ∧ b = false ∧ c = false ∧ d = false ∧ e = false := by
  decide

theorem shl_low (x : BitVec 32) : shl x 5 &&& 31#32 = 0#32 := by
  have h31 : 31#32 = mask 5 := rfl
  apply BitVec.eq_of_getLsbD_eq
  intro i hi
  rw [BitVec.getLsbD_and, getLsbD_shl (by decide) hi, h31, getLsbD_mask (by decide),
    BitVec.getLsbD_zero]
  by_cases hlow : i < 5 <;> simp [hlow]

/-- **Only the empty register is emptied.** -/
theorem polymodNext_eq_zero {x : BitVec 32} (hx : Fits 30 x) (h : polymodNext x = 0#32) :
    x = 0#32 := by
  have hlow : (tap (x.getLsbD 25) 0x3b6a57b2#32 ^^^ tap (x.getLsbD 26) 0x26508e6d#32 ^^^
      tap (x.getLsbD 27) 0x1ea119fa#32 ^^^ tap (x.getLsbD 28) 0x3d4233dd#32 ^^^
      tap (x.getLsbD 29) 0x2a1462b3#32) &&& 31#32 = 0#32 := by
    have hmasked := congrArg (· &&& 31#32) h
    simp only [polymodNext, BitVec.xor_assoc, BitVec.zero_and] at hmasked ⊢
    rwa [xor_and_distrib, shl_low, BitVec.zero_xor] at hmasked
  obtain ⟨h25, h26, h27, h28, h29⟩ := taps_low _ _ _ _ _ hlow
  -- no tap is on, so the register has only moved up
  have hfits : Fits 25 x := by
    intro i hi
    rcases Nat.lt_or_ge i 30 with hi' | hi'
    · obtain rfl | rfl | rfl | rfl | rfl : i = 25 ∨ i = 26 ∨ i = 27 ∨ i = 28 ∨ i = 29 := by omega
      all_goals assumption
    · exact hx i hi'
  rw [polymodNext_of_fits hfits] at h
  apply BitVec.eq_of_getLsbD_eq
  intro i _
  rcases Nat.lt_or_ge i 25 with hi' | hi'
  · have hbit := congrArg (·.getLsbD (i + 5)) h
    simp only [getLsbD_shl (show 5 < 32 by decide) (show i + 5 < 32 by omega)] at hbit
    simpa using hbit
  · rw [hfits i hi', BitVec.getLsbD_zero]

theorem fits_iterate {x : BitVec 32} (hx : Fits 30 x) (k : ℕ) : Fits 30 (polymodNext^[k] x) := by
  cases k with
  | zero => exact hx
  | succ k =>
      rw [Function.iterate_succ_apply']
      exact fits_polymodNext _

theorem iterate_xor (k : ℕ) (x y : BitVec 32) :
    polymodNext^[k] (x ^^^ y) = polymodNext^[k] x ^^^ polymodNext^[k] y := by
  induction k generalizing x y with
  | zero => rfl
  | succ k ih => rw [Function.iterate_succ_apply, polymodNext_xor, ih]; rfl

theorem iterate_eq_zero {k : ℕ} {x : BitVec 32} (hx : Fits 30 x)
    (h : polymodNext^[k] x = 0#32) : x = 0#32 := by
  induction k with
  | zero => exact h
  | succ k ih =>
      rw [Function.iterate_succ_apply'] at h
      exact ih (polymodNext_eq_zero (fits_iterate hx k) h)

/-! ## No digit comes back -/

/-- For so many steps, the register holds more than a digit. -/
def strays : ℕ → BitVec 32 → Bool
  | 0, _ => true
  | k + 1, x => decide (32 ≤ (polymodNext x).toNat) && strays k (polymodNext x)

theorem strays_digit : ∀ d < 32, 0 < d → strays 89 (BitVec.ofNat 32 d) = true := by
  decide +kernel

theorem le_iterate_of_strays {n k : ℕ} {x : BitVec 32} (h : strays n x = true) (hk : k < n) :
    32 ≤ (polymodNext^[k + 1] x).toNat := by
  induction n generalizing k x with
  | zero => exact absurd hk (Nat.not_lt_zero k)
  | succ n ih =>
      obtain ⟨hnow, hlater⟩ := (Bool.and_eq_true _ _).mp h
      cases k with
      | zero => exact of_decide_eq_true hnow
      | succ k =>
          rw [Function.iterate_succ_apply]
          exact ih hlater (by omega)

/-- **Up to 89 steps, no digit but 0 is taken to a digit.** -/
theorem iterate_ne_digit {d e : BitVec 32} (hd : Fits 5 d) (he : Fits 5 e) (hne : d ≠ 0#32) {k : ℕ}
    (hpos : 0 < k) (hk : k ≤ 89) : polymodNext^[k] d ≠ e := by
  intro heq
  have hnat : d.toNat ≠ 0 := fun h => hne (BitVec.eq_of_toNat_eq h)
  have hstrays := strays_digit d.toNat hd.lt (Nat.pos_of_ne_zero hnat)
  rw [BitVec.ofNat_toNat, BitVec.setWidth_eq] at hstrays
  have hle := le_iterate_of_strays hstrays (show k - 1 < 89 by omega)
  rw [Nat.sub_add_cancel hpos, heq] at hle
  exact absurd he.lt (Nat.not_lt.mpr hle)

/-! ## Digits replaced -/

theorem xor_ne_zero {x y : BitVec 32} (h : x ≠ y) : x ^^^ y ≠ 0#32 := fun h0 =>
  h (BitVec.xor_eq_zero_iff.mp h0)

section Digits

variable {values ds : List (BitVec 32)} (hds : ∀ d ∈ ds, Fits 5 d)

/-- A replaced digit adds a power of its difference to the checksum. -/
theorem polymod_set {i : ℕ} (hi : i < ds.length) (d : BitVec 32) :
    polymod (values ++ ds.set i d) =
      polymod (values ++ ds) ^^^ polymodNext^[ds.length - 1 - i] (ds[i] ^^^ d) := by
  rw [polymod_eq_feed, polymod_eq_feed, feed_append, feed_append]
  exact feed_set polymodNext_xor (fun a => BitVec.zero_xor) (fun a => BitVec.xor_self) _ d hi

include hds in
/-- One digit. -/
theorem polymod_set_ne {i : ℕ} (hi : i < ds.length) {d : BitVec 32} (hd : Fits 5 d)
    (hne : ds[i] ≠ d) : polymod (values ++ ds.set i d) ≠ polymod (values ++ ds) := by
  intro hsame
  rw [polymod_set hi, xor_eq_self_iff] at hsame
  have hfits : Fits 5 (ds[i] ^^^ d) := (hds _ (List.getElem_mem hi)).xor hd
  exact xor_ne_zero hne (iterate_eq_zero (hfits.mono (by decide)) hsame)

include hds in
/-- Two digits that are not too far apart: what they add is a power of one sum, and the sum is not 0. -/
theorem polymod_set_set_ne {i j : ℕ} (hij : i < j) (hj : j < ds.length) (hfar : j - i ≤ 89)
    {d e : BitVec 32} (hd : Fits 5 d) (he : Fits 5 e) (hne : ds[i] ≠ d) :
    polymod (values ++ (ds.set i d).set j e) ≠ polymod (values ++ ds) := by
  have hi : i < ds.length := Nat.lt_trans hij hj
  have hj' : j < (ds.set i d).length := by rwa [List.length_set]
  have hget : (ds.set i d)[j] = ds[j] := List.getElem_set_of_ne (Nat.ne_of_lt hij) _ _
  have hfits : Fits 5 (ds[i] ^^^ d) := (hds _ (List.getElem_mem hi)).xor hd
  have hfits' : Fits 5 (ds[j] ^^^ e) := (hds _ (List.getElem_mem hj)).xor he
  have hsplit : ds.length - 1 - i = (ds.length - 1 - j) + (j - i) := by omega
  intro hsame
  rw [polymod_set hj', polymod_set hi, hget, List.length_set, BitVec.xor_assoc, xor_eq_self_iff,
    hsplit, Function.iterate_add_apply, ← iterate_xor] at hsame
  have hmeet : polymodNext^[j - i] (ds[i] ^^^ d) ^^^ (ds[j] ^^^ e) = 0#32 :=
    iterate_eq_zero ((fits_iterate (hfits.mono (by decide)) _).xor (hfits'.mono (by decide))) hsame
  exact iterate_ne_digit hfits hfits' (xor_ne_zero hne) (by omega) hfar
    (BitVec.xor_eq_zero_iff.mp hmeet)

end Digits

/-! ## Symbols replaced -/

theorem getElem?_spell {ds : List (BitVec 32)} (hds : ∀ d ∈ ds, Fits 5 d) {i : ℕ}
    (hi : i < ds.length) : (spell ds)[i]? = charset[ds[i].toNat]? := by
  induction ds generalizing i with
  | nil => exact absurd hi (Nat.not_lt_zero i)
  | cons d ds ih =>
      obtain ⟨hd, hds⟩ := List.forall_mem_cons.mp hds
      obtain ⟨u, hu, -⟩ := charset_spec hd
      rw [spell_cons hu]
      cases i with
      | zero => exact hu.symm
      | succ i => exact ih hds (Nat.lt_of_succ_lt_succ hi)

theorem spell_set {ds : List (BitVec 32)} (hds : ∀ d ∈ ds, Fits 5 d) {d : BitVec 32} {u : UInt16}
    (hu : charset[d.toNat]? = some u) (i : ℕ) : (spell ds).set i u = spell (ds.set i d) := by
  induction ds generalizing i with
  | nil => rfl
  | cons v ds ih =>
      obtain ⟨hv, hds⟩ := List.forall_mem_cons.mp hds
      obtain ⟨w, hw, -⟩ := charset_spec hv
      rw [spell_cons hw]
      cases i with
      | zero => rw [List.set_cons_zero, List.set_cons_zero, spell_cons hu]
      | succ i => rw [List.set_cons_succ, List.set_cons_succ, spell_cons hw, ih hds]

theorem fits_set {ds : List (BitVec 32)} (hds : ∀ d ∈ ds, Fits 5 d) {d : BitVec 32} (hd : Fits 5 d)
    (i : ℕ) : ∀ v ∈ ds.set i d, Fits 5 v := by
  intro v hv
  rcases List.mem_or_eq_of_mem_set hv with hv | rfl
  · exact hds v hv
  · exact hd

/-- A symbol of the charset that is put in another's place spells another digit. -/
theorem symbol_digit {ds : List (BitVec 32)} (hds : ∀ d ∈ ds, Fits 5 d) {i : ℕ} (hi : i < ds.length)
    {u : UInt16} (hu : u ∈ charset) (hne : (spell ds)[i]? ≠ some u) :
    ∃ d, Fits 5 d ∧ ds[i] ≠ d ∧ charset[d.toNat]? = some u := by
  obtain ⟨k, hk, hget⟩ := List.getElem_of_mem hu
  have hlt : k < 2 ^ 5 := hk
  have hnat : (BitVec.ofNat 32 k).toNat = k := Nat.mod_eq_of_lt (Nat.lt_trans hlt (by decide))
  have hchar : charset[(BitVec.ofNat 32 k).toNat]? = some u := by
    rw [hnat, List.getElem?_eq_getElem hk, hget]
  refine ⟨BitVec.ofNat 32 k, fits_of_lt (by rwa [hnat]), ?_, hchar⟩
  intro hsame
  exact hne (by rw [getElem?_spell hds hi, hsame, hchar])

theorem decode_badChecksum {ds : List (BitVec 32)} (hds : ∀ d ∈ ds, Fits 5 d) {hrp : JsString}
    (h : polymod (hrpExpand hrp ++ ds) ≠ 1#32) :
    decode (hrp ++ separator :: spell ds) = .error .badChecksum := by
  obtain ⟨hread, hmem⟩ := spell_spec ds hds
  simp only [decode, splitAddr_append hmem, hread, bind, Except.bind, if_pos h]

/-- The symbols after the separator. -/
theorem getElem?_data (hrp text : JsString) (i : ℕ) :
    (hrp ++ separator :: text)[hrp.length + 1 + i]? = text[i]? := by
  rw [Nat.add_assoc, List.getElem?_append_right (Nat.le_add_right _ _), Nat.add_sub_cancel_left,
    Nat.add_comm 1 i, List.getElem?_cons_succ]

theorem set_data (hrp text : JsString) (i : ℕ) (u : UInt16) :
    (hrp ++ separator :: text).set (hrp.length + 1 + i) u = hrp ++ separator :: text.set i u := by
  rw [Nat.add_assoc, List.set_append_right _ _ (Nat.le_add_right _ _), Nat.add_sub_cancel_left,
    Nat.add_comm 1 i, List.set_cons_succ]

/-- **The checksum detects** every symbol replaced after the separator, in an address of any length;
and every two, if there are at most 90. -/
theorem checksum_detects {addr : JsString} {pos : ℕ} {result : JsString × List UInt8}
    (hpos : lastIndexOf separator addr = some pos) (h : decode addr = .ok result) :
    (∀ i u, pos < i → i < addr.length → u ∈ charset → addr[i]? ≠ some u →
      decode (addr.set i u) = .error .badChecksum) ∧
    (addr.length - (pos + 1) ≤ 90 → ∀ i j u v, pos < i → i < j → j < addr.length →
      u ∈ charset → v ∈ charset → addr[i]? ≠ some u → addr[j]? ≠ some v →
      decode ((addr.set i u).set j v) = .error .badChecksum) := by
  obtain ⟨hrp, bytes⟩ := result
  obtain ⟨ds, values, haccepted⟩ := accepted_of_decode h
  have hds := haccepted.fits
  have hsum := haccepted.checksum
  have hsep : separator ∈ addr := by
    by_contra hnot
    rw [lastIndexOf_eq_none_iff.mpr hnot] at hpos
    exact nomatch hpos
  obtain rfl := haccepted.addr_eq hsep
  rw [lastIndexOf_append (spell_spec ds hds).2] at hpos
  obtain rfl := Option.some.inj hpos
  have hlen : (hrp ++ separator :: spell ds).length = hrp.length + 1 + ds.length := by
    rw [List.length_append, List.length_cons, length_spell hds]
    omega
  rw [hlen, Nat.add_sub_cancel_left]
  constructor
  · intro i u hi hlt hu hne
    obtain ⟨i, rfl⟩ := Nat.exists_eq_add_of_le (Nat.succ_le_of_lt hi)
    have hi' : i < ds.length := Nat.lt_of_add_lt_add_left hlt
    rw [Nat.succ_eq_add_one, getElem?_data] at hne
    obtain ⟨d, hd, hdne, hchar⟩ := symbol_digit hds hi' hu hne
    rw [Nat.succ_eq_add_one, set_data, spell_set hds hchar]
    apply decode_badChecksum (fits_set hds hd i)
    rw [← hsum]
    exact polymod_set_ne hds hi' hd hdne
  · intro hshort i j u v hi hij hlt hu hv hne hne'
    obtain ⟨i, rfl⟩ := Nat.exists_eq_add_of_le (Nat.succ_le_of_lt hi)
    obtain ⟨j, rfl⟩ := Nat.exists_eq_add_of_le (Nat.succ_le_of_lt (Nat.lt_trans hi hij))
    have hij' : i < j := Nat.lt_of_add_lt_add_left hij
    have hj' : j < ds.length := Nat.lt_of_add_lt_add_left hlt
    rw [Nat.succ_eq_add_one, getElem?_data] at hne hne'
    obtain ⟨d, hd, hdne, hchar⟩ := symbol_digit hds (Nat.lt_trans hij' hj') hu hne
    obtain ⟨e, he, -, hchar'⟩ := symbol_digit hds hj' hv hne'
    rw [Nat.succ_eq_add_one, set_data, set_data, spell_set hds hchar,
      spell_set (fits_set hds hd i) hchar']
    apply decode_badChecksum (fits_set (fits_set hds hd i) he j)
    rw [← hsum]
    exact polymod_set_set_ne hds hij' hj' (by omega) hd he hdne

/-- The last two symbols of an encoding of no bytes, swapped. -/
theorem checksum_detects_swap :
    lastIndexOf separator (units "a12uel5l") = some 1 ∧
      decode (units "a12uel5l") = .ok (units "a", []) ∧
      decode (units "a12uell5") = .error .badChecksum := by
  have hpos : lastIndexOf separator (units "a12uel5l") = some 1 := by decide
  have h : decode (units "a12uel5l") = .ok (units "a", []) := by decide +kernel
  exact ⟨hpos, h, (checksum_detects hpos h).2 (by decide) 6 7 108 53 (by decide) (by decide)
    (by decide) (by decide) (by decide) (by decide) (by decide)⟩

end PqcMigration.MigrationCost.Bech32
