/-
# PqcMigration.MigrationCost.Bech32 — `bech32.js`, and the receivers of `submit-migrations.js`.

A JavaScript string is a list of 16-bit units, and its numbers are 32-bit integers as soon as they are
shifted (`Lib.Int32`). Two things are to be seen. Regrouping loses nothing: what the accumulator drops
at its top has been pushed long before, so bytes and groups spell the same bits up to padding. And the
checksum is accepted: `polymod` is a linear register (`Lib.Register`), fed with any text for a
human-readable part.

So decoding undoes encoding for every human-readable part, also one that contains the separator; and
receivers are distinct when the addresses are (`bech32_round_trip`).
-/
import PqcMigration.Lib.Hex
import PqcMigration.Lib.Int32
import PqcMigration.Lib.Register

namespace PqcMigration.MigrationCost.Bech32

open Lib Lib.Int32

/-- A JavaScript string, by its units. -/
abbrev JsString := List UInt16

/-- The units of a text that needs only one for each character. -/
def units (s : String) : JsString := s.toList.map fun c => UInt16.ofNat c.toNat

inductive Error where
  | invalidValue
  | invalidPadding
  | badChar (c : JsString)
  | badChecksum
  deriving DecidableEq

/-! ## Text -/

/-- `CHARSET` -/
def charset : JsString := units "qpzry9x8gf2tvdw0s3jn54khce6mua7l"

/-- The unit of `"1"`. -/
def separator : UInt16 := 49

/-- `[...s]`: a high and a low surrogate go together, every other unit is by itself. -/
def codePoints : JsString → List JsString
  | [] => []
  | [u] => [[u]]
  | u :: v :: rest =>
      if (0xd800 ≤ u ∧ u < 0xdc00) ∧ (0xdc00 ≤ v ∧ v < 0xe000) then [u, v] :: codePoints rest
      else [u] :: codePoints (v :: rest)

/-- `c.charCodeAt(0)` of a string that is not empty. -/
def charCode (c : JsString) : BitVec 32 := (c.headD 0).toBitVec.setWidth 32

/-- `s.lastIndexOf(u)`; `none` for -1. -/
def lastIndexOf (u : UInt16) : JsString → Option ℕ
  | [] => none
  | v :: s =>
      match lastIndexOf u s with
      | some i => some (i + 1)
      | none => if v = u then some 0 else none

/-- `s.indexOf(c)`; `none` for -1. -/
def indexOf (c : JsString) : JsString → Option ℕ
  | [] => if c = [] then some 0 else none
  | u :: s => if c.isPrefixOf (u :: s) then some 0 else (indexOf c s).map (· + 1)

/-! ## `polymod` -/

def gen : List (BitVec 32) := [0x3b6a57b2#32, 0x26508e6d#32, 0x1ea119fa#32, 0x3d4233dd#32, 0x2a1462b3#32]

/-- One turn of the loop over the values. -/
def polymodStep (chk v : BitVec 32) : BitVec 32 :=
  let top := shr chk 25
  gen.zipIdx.foldl (fun chk g => if shr top g.2 &&& 1#32 ≠ 0#32 then chk ^^^ g.1 else chk)
    (shl (chk &&& 0x1ffffff#32) 5 ^^^ v)

def polymod (values : List (BitVec 32)) : BitVec 32 := values.foldl polymodStep 1#32

def hrpExpand (hrp : JsString) : List (BitVec 32) :=
  (codePoints hrp).map (fun c => shr (charCode c) 5) ++ [0#32] ++
    (codePoints hrp).map fun c => charCode c &&& 31#32

/-! ## `convertBits` -/

/-- `while (bits >= to)`: the groups pushed, and the bits left. Here `into` is positive, as in every call. -/
def pushGroups (into : ℕ) (acc : BitVec 32) (bits : ℕ) : List (BitVec 32) × ℕ :=
  if 0 < into ∧ into ≤ bits then
    let rest := pushGroups into acc (bits - into)
    ((shr acc (bits - into) &&& mask into) :: rest.1, rest.2)
  else ([], bits)
termination_by bits

structure Grouping where
  acc : BitVec 32
  bits : ℕ
  ret : List (BitVec 32)

/-- One turn of the loop over the data. -/
def convertStep (width into : ℕ) (s : Grouping) (value : BitVec 32) : Except Error Grouping :=
  if value.slt 0#32 ∨ shr value width ≠ 0#32 then .error .invalidValue
  else
    let acc := shl s.acc width ||| value
    let pushed := pushGroups into acc (s.bits + width)
    .ok ⟨acc, pushed.2, s.ret ++ pushed.1⟩

def convertBits (data : List (BitVec 32)) (width into : ℕ) (pad : Bool) :
    Except Error (List (BitVec 32)) := do
  let s ← data.foldlM (convertStep width into) ⟨0#32, 0, []⟩
  let last := shl s.acc (into - s.bits) &&& mask into
  if pad then
    .ok (if 0 < s.bits then s.ret ++ [last] else s.ret)
  else if width ≤ s.bits ∨ last ≠ 0#32 then .error .invalidPadding
  else .ok s.ret

/-! ## `encode`, `decode` and `receiverFor` -/

/-- The six groups of a checksum. -/
def checksumOf (chk : BitVec 32) : List (BitVec 32) :=
  (List.range 6).map fun i => shr chk (5 * (5 - i)) &&& 31#32

/-- `CHARSET[d]`, joined: an index out of range adds nothing. -/
def spell (data : List (BitVec 32)) : JsString := data.flatMap fun d => charset[d.toNat]?.toList

def encode (hrp : JsString) (dataBytes : List UInt8) : Except Error JsString := do
  let data ← convertBits (dataBytes.map fun b => b.toBitVec.setWidth 32) 8 5 true
  let chk := polymod (hrpExpand hrp ++ data ++ List.replicate 6 0#32) ^^^ 1#32
  .ok (hrp ++ separator :: spell (data ++ checksumOf chk))

/-- The value of a character. -/
def charValue (c : JsString) : Except Error (BitVec 32) :=
  match indexOf c charset with
  | some i => .ok (BitVec.ofNat 32 i)
  | none => .error (.badChar c)

/-- `addr.slice(0, pos)` and `addr.slice(pos + 1)`. With no separator, `pos` is -1: all but the last
unit is taken for the human-readable part, and everything for data. -/
def splitAddr (addr : JsString) : JsString × JsString :=
  match lastIndexOf separator addr with
  | some pos => (addr.take pos, addr.drop (pos + 1))
  | none => (addr.dropLast, addr)

def decode (addr : JsString) : Except Error (JsString × List UInt8) := do
  let parts := splitAddr addr
  let data ← (codePoints parts.2).mapM charValue
  if polymod (hrpExpand parts.1 ++ data) ≠ 1#32 then .error .badChecksum
  else
    let bytes ← convertBits (data.take (data.length - 6)) 5 8 false
    .ok (parts.1, bytes.map fun v => UInt8.ofBitVec (v.setWidth 8))

/-- `receiverFor`, of the text of an address. -/
def receiverFor (evmAddress : List Char) : Except Error JsString :=
  encode (units "cosmos") (Hex.parse (evmAddress.drop 2))

/-! ## Regrouping -/

section Regroup

variable {width into : ℕ}

theorem pushGroups_spec (hpos : 0 < into) (hinto : into < 32) (acc : BitVec 32) {bits : ℕ}
    (hbits : bits ≤ 32) :
    lowBits bits acc =
        stream into (pushGroups into acc bits).1 ++ lowBits (pushGroups into acc bits).2 acc ∧
      (pushGroups into acc bits).2 < into ∧ ∀ g ∈ (pushGroups into acc bits).1, Fits into g := by
  induction bits using Nat.strong_induction_on with
  | _ bits ih =>
      rw [pushGroups]
      by_cases h : into ≤ bits
      · rw [if_pos ⟨hpos, h⟩]
        obtain ⟨hbits', hlt, hfits⟩ := ih (bits - into) (by omega) (by omega)
        refine ⟨?_, hlt, List.forall_mem_cons.mpr ⟨fits_mask hinto, hfits⟩⟩
        rw [stream_cons, lowBits_and_mask hinto, List.append_assoc, ← hbits', ← lowBits_add (by omega),
          Nat.add_sub_cancel' h]
      · rw [if_neg fun hle => h hle.2]
        exact ⟨rfl, Nat.lt_of_not_le h, fun g hg => absurd hg List.not_mem_nil⟩

/-- Where the loop over the data stands: the groups pushed and the bits in hand spell the data. -/
structure Regrouped (width into : ℕ) (data : List (BitVec 32)) (s : Grouping) : Prop where
  stream_eq : stream width data = stream into s.ret ++ lowBits s.bits s.acc
  bits_lt : s.bits < into
  fits : ∀ g ∈ s.ret, Fits into g

/-- One turn: no bit in hand is lost at the top, as width and hand fit into 32 bits together. -/
theorem Regrouped.step (hpos : 0 < into) (hsum : width + into ≤ 32) {data : List (BitVec 32)}
    {s : Grouping} (h : Regrouped width into data s) (hwidth : 0 < width) {value : BitVec 32}
    (hvalue : Fits width value) :
    ∃ s', convertStep width into s value = .ok s' ∧ Regrouped width into (data ++ [value]) s' := by
  have hlt := h.bits_lt
  have hfine : ¬ (value.slt 0#32 = true ∨ shr value width ≠ 0#32) := by
    rw [hvalue.not_slt_zero (by omega), hvalue.shr_eq_zero (by omega)]
    simp
  obtain ⟨hbits, hleft, hfits⟩ :=
    pushGroups_spec hpos (by omega) (shl s.acc width ||| value) (by omega : s.bits + width ≤ 32)
  refine ⟨_, if_neg hfine, ?_, hleft, ?_⟩
  · rw [stream_append, stream_singleton, h.stream_eq, stream_append, List.append_assoc,
      List.append_assoc, ← hbits, lowBits_shl_or (by omega) (by omega) hvalue]
  · intro g hg
    rcases List.mem_append.mp hg with hg | hg
    · exact h.fits g hg
    · exact hfits g hg

theorem Regrouped.run (hpos : 0 < into) (hsum : width + into ≤ 32) (hwidth : 0 < width)
    (more : List (BitVec 32)) (hmore : ∀ v ∈ more, Fits width v) {data : List (BitVec 32)}
    {s : Grouping} (h : Regrouped width into data s) :
    ∃ s', more.foldlM (convertStep width into) s = .ok s' ∧
      Regrouped width into (data ++ more) s' := by
  induction more generalizing data s with
  | nil => exact ⟨s, rfl, by rwa [List.append_nil]⟩
  | cons v more ih =>
      obtain ⟨hv, hmore⟩ := List.forall_mem_cons.mp hmore
      obtain ⟨s₁, hs₁, h₁⟩ := h.step hpos hsum hwidth hv
      obtain ⟨s₂, hs₂, h₂⟩ := ih hmore h₁
      refine ⟨s₂, ?_, by rwa [List.append_assoc] at h₂⟩
      rw [List.foldlM_cons, hs₁]
      exact hs₂

theorem regrouped_all (hpos : 0 < into) (hsum : width + into ≤ 32) (hwidth : 0 < width)
    {data : List (BitVec 32)} (hdata : ∀ v ∈ data, Fits width v) :
    ∃ s, data.foldlM (convertStep width into) ⟨0#32, 0, []⟩ = .ok s ∧
      Regrouped width into data s := by
  have hstart : Regrouped width into [] ⟨0#32, 0, []⟩ :=
    ⟨rfl, hpos, fun g hg => absurd hg List.not_mem_nil⟩
  exact hstart.run hpos hsum hwidth data hdata

/-- The last group: what is in hand, moved up, and zeros. -/
theorem lowBits_last {s : Grouping} (hlt : s.bits < into) (hinto : into < 32) :
    lowBits into (shl s.acc (into - s.bits) &&& mask into) =
      lowBits s.bits s.acc ++ List.replicate (into - s.bits) false := by
  have hadd : s.bits + (into - s.bits) = into := by omega
  have hlast := lowBits_shl_mask (x := s.acc) (m := s.bits) (n := into - s.bits) (by omega)
  rwa [hadd] at hlast

/-- Padded, the groups spell the data and fewer zeros than a group has. -/
theorem convertBits_pad (into : ℕ) (hpos : 0 < into) (hsum : width + into ≤ 32) (hwidth : 0 < width)
    {data : List (BitVec 32)} (hdata : ∀ v ∈ data, Fits width v) :
    ∃ groups, convertBits data width into true = .ok groups ∧ (∀ g ∈ groups, Fits into g) ∧
      ∃ zeros < into, stream into groups = stream width data ++ List.replicate zeros false := by
  obtain ⟨s, hs, h⟩ := regrouped_all hpos hsum hwidth hdata
  have hlt := h.bits_lt
  rw [convertBits, hs]
  by_cases hbits : 0 < s.bits
  · refine ⟨_, congrArg Except.ok (if_pos hbits), ?_, into - s.bits, by omega, ?_⟩
    · intro g hg
      rcases List.mem_append.mp hg with hg | hg
      · exact h.fits g hg
      · rw [List.mem_singleton.mp hg]
        exact fits_mask (by omega)
    · rw [stream_append, stream_singleton, lowBits_last hlt (by omega), h.stream_eq,
        List.append_assoc]
  · refine ⟨_, congrArg Except.ok (if_neg hbits), h.fits, 0, hpos, ?_⟩
    rw [h.stream_eq, Nat.eq_zero_of_not_pos hbits, lowBits, List.append_nil, List.replicate_zero,
      List.append_nil]

/-- Groups that spell the data and fewer zeros than a group has give back the data. -/
theorem convertBits_unpad (hsum : width + into ≤ 32) (hle : width ≤ into) {zeros : ℕ}
    (hzeros : zeros < width) {groups data : List (BitVec 32)} (hgroups : ∀ g ∈ groups, Fits width g)
    (hdata : ∀ v ∈ data, Fits into v)
    (hstream : stream width groups = stream into data ++ List.replicate zeros false) :
    convertBits groups width into false = .ok data := by
  obtain ⟨s, hs, h⟩ := regrouped_all (by omega) hsum (by omega) hgroups
  have hlt := h.bits_lt
  rw [h.stream_eq] at hstream
  -- both sides are whole groups and less than one more, so they split at the same place
  have hlen : into * s.ret.length + s.bits = into * data.length + zeros := by
    have := congrArg List.length hstream
    rwa [List.length_append, List.length_append, length_stream, length_stream, length_lowBits,
      List.length_replicate] at this
  have hcount : s.ret.length = data.length := by
    have hdiv := congrArg (· / into) hlen
    simp only [Nat.mul_add_div (by omega : 0 < into)] at hdiv
    rwa [Nat.div_eq_of_lt hlt, Nat.div_eq_of_lt (by omega), Nat.add_zero, Nat.add_zero] at hdiv
  have hbits : s.bits = zeros := by
    rw [hcount] at hlen
    exact Nat.add_left_cancel hlen
  obtain ⟨hret, hleft⟩ := List.append_inj hstream (by rw [length_stream, length_stream, hcount])
  have hlast : shl s.acc (into - s.bits) &&& mask into = 0#32 := by
    have hzero : lowBits into (0#32) = List.replicate into false :=
      lowBits_eq_replicate_iff.mpr fun i _ => BitVec.getLsbD_zero
    apply (fits_mask (by omega)).eq_of_lowBits (n := into) (fun i _ => BitVec.getLsbD_zero)
    rw [lowBits_last hlt (by omega), hleft, hzero, ← hbits, List.replicate_append_replicate,
      Nat.add_sub_cancel' hlt.le]
  have hok : ¬ (width ≤ s.bits ∨ shl s.acc (into - s.bits) &&& mask into ≠ 0#32) := by
    rw [hlast, hbits]
    simp [hzeros]
  rw [convertBits, hs]
  have hdone : s.ret = data := eq_of_stream h.fits hdata hcount hret
  rw [← hdone]
  exact if_neg hok

end Regroup

/-! ## The checksum -/

/-- `g`, where the bit selects it. -/
def tap (b : Bool) (g : BitVec 32) : BitVec 32 := if b then g else 0#32

/-- What a turn of the loop does to the register, before the value is added. -/
def polymodNext (chk : BitVec 32) : BitVec 32 :=
  shl (chk &&& mask 25) 5 ^^^ tap (chk.getLsbD 25) 0x3b6a57b2#32 ^^^ tap (chk.getLsbD 26) 0x26508e6d#32 ^^^
    tap (chk.getLsbD 27) 0x1ea119fa#32 ^^^ tap (chk.getLsbD 28) 0x3d4233dd#32 ^^^
    tap (chk.getLsbD 29) 0x2a1462b3#32

theorem and_one_ne_zero_iff (x : BitVec 32) : x &&& 1#32 ≠ 0#32 ↔ x.getLsbD 0 = true := by
  rw [BitVec.and_one_eq_setWidth_ofBool_getLsbD]
  cases x.getLsbD 0 <;> decide

/-- The bit of `top` that the loop asks for. -/
theorem top_bit (chk : BitVec 32) {i : ℕ} (hi : i < 5) :
    shr (shr chk 25) i &&& 1#32 ≠ 0#32 ↔ chk.getLsbD (25 + i) = true := by
  rw [and_one_ne_zero_iff, getLsbD_shr (by omega), getLsbD_shr (by omega), Nat.add_zero]

theorem ite_xor_tap (b : Bool) (x g : BitVec 32) :
    (if b = true then x ^^^ g else x) = x ^^^ tap b g := by
  cases b
  · exact BitVec.xor_zero.symm
  · rfl

theorem polymodStep_eq (chk v : BitVec 32) : polymodStep chk v = polymodNext chk ^^^ v := by
  have hmask : mask 25 = 0x1ffffff#32 := rfl
  simp only [polymodStep, gen, List.zipIdx_cons, List.zipIdx_nil, List.foldl_cons, List.foldl_nil,
    Nat.reduceAdd, top_bit chk (show 0 < 5 by decide), top_bit chk (show 1 < 5 by decide),
    top_bit chk (show 2 < 5 by decide), top_bit chk (show 3 < 5 by decide),
    top_bit chk (show 4 < 5 by decide), ite_xor_tap]
  rw [polymodNext, hmask]
  ac_rfl

theorem tap_xor (a b : Bool) (g : BitVec 32) : tap (a ^^ b) g = tap a g ^^^ tap b g := by
  cases a <;> cases b <;> simp [tap]

/-- **The register is linear.** -/
theorem polymodNext_xor (a b : BitVec 32) :
    polymodNext (a ^^^ b) = polymodNext a ^^^ polymodNext b := by
  have hlow : shl ((a ^^^ b) &&& mask 25) 5 = shl (a &&& mask 25) 5 ^^^ shl (b &&& mask 25) 5 := by
    rw [xor_and_distrib, shl, shl, shl, BitVec.shiftLeft_xor_distrib]
  simp only [polymodNext, hlow, BitVec.getLsbD_xor, tap_xor]
  ac_rfl

theorem polymod_eq_feed (values : List (BitVec 32)) :
    polymod values = feed (· ^^^ ·) polymodNext 1#32 values := by
  rw [polymod, feed]
  congr 1
  funext chk v
  exact polymodStep_eq chk v

theorem fits_tap {b : Bool} {g : BitVec 32} {n : ℕ} (hg : Fits n g) : Fits n (tap b g) := by
  cases b
  · exact fun i _ => BitVec.getLsbD_zero
  · exact hg

theorem fits_polymodNext (chk : BitVec 32) : Fits 30 (polymodNext chk) := by
  have hlow : Fits 30 (shl (chk &&& mask 25) 5) := by
    intro i hi
    rcases Nat.lt_or_ge i 32 with hi' | hi'
    · rw [getLsbD_shl (by decide) hi', fits_mask (by decide) _ (by omega), Bool.and_false]
    · exact BitVec.getLsbD_of_ge _ _ hi'
  refine ((((hlow.xor (fits_tap ?_)).xor (fits_tap ?_)).xor (fits_tap ?_)).xor (fits_tap ?_)).xor
    (fits_tap ?_)
  all_goals exact fits_of_lt (by decide)

theorem fits_polymod {values : List (BitVec 32)} (hvalues : ∀ v ∈ values, Fits 30 v) :
    Fits 30 (polymod values) := by
  rw [polymod]
  apply List.foldlRecOn (motive := fun chk => Fits 30 chk)
  · exact fits_of_lt (by decide)
  · intro chk _ v hv
    rw [polymodStep_eq]
    exact (fits_polymodNext chk).xor (hvalues v hv)

/-- A register that is not full only moves up. -/
theorem polymodNext_shift {x : BitVec 32} (hx : Fits 30 x) :
    polymodNext (x >>> 5) ^^^ (x &&& 31#32) = x := by
  have htap (i : ℕ) (hi : 25 ≤ i) (g : BitVec 32) : tap ((x >>> 5).getLsbD i) g = 0#32 := by
    rw [BitVec.getLsbD_ushiftRight, hx _ (by omega)]
    rfl
  have h31 : 31#32 = mask 5 := rfl
  rw [polymodNext, htap 25 (by omega), htap 26 (by omega), htap 27 (by omega), htap 28 (by omega),
    htap 29 (by omega), h31]
  simp only [BitVec.xor_zero]
  apply BitVec.eq_of_getLsbD_eq
  intro i hi
  rw [BitVec.getLsbD_xor, getLsbD_shl (by decide) hi, BitVec.getLsbD_and, BitVec.getLsbD_ushiftRight,
    getLsbD_mask (by decide), BitVec.getLsbD_and, getLsbD_mask (by decide)]
  by_cases hlow : i < 5
  · simp [hlow]
  · have hback : 5 + (i - 5) = i := by omega
    rw [hback]
    by_cases hhigh : i < 30
    · simp [hlow, show i - 5 < 25 by omega]
    · simp [hx i (by omega)]

/-- The check digits bring an empty register to what they were taken from. -/
theorem feed_checksumOf {chk : BitVec 32} (hchk : Fits 30 chk) :
    feed (· ^^^ ·) polymodNext 0#32 (checksumOf chk) = chk := by
  have hfits (n : ℕ) : Fits 30 (chk >>> n) := by
    intro i hi
    rw [BitVec.getLsbD_ushiftRight]
    exact hchk _ (by omega)
  have hmsb : chk.msb = false := by
    rw [BitVec.msb_eq_getLsbD_last]
    exact hchk _ (by decide)
  have hshr (n : ℕ) (hn : n < 32) : shr chk n = chk >>> n := by
    rw [shr, Nat.mod_eq_of_lt hn, BitVec.sshiftRight_eq_of_msb_false hmsb]
  have hstep (n : ℕ) : polymodNext (chk >>> (n + 5)) ^^^ (chk >>> n &&& 31#32) = chk >>> n := by
    rw [BitVec.shiftRight_add]
    exact polymodNext_shift (hfits n)
  have hempty : 0#32 = chk >>> 30 := by
    apply BitVec.eq_of_getLsbD_eq
    intro i _
    rw [BitVec.getLsbD_ushiftRight, hchk _ (by omega), BitVec.getLsbD_zero]
  have hgroups : checksumOf chk = [chk >>> 25 &&& 31#32, chk >>> 20 &&& 31#32, chk >>> 15 &&& 31#32,
      chk >>> 10 &&& 31#32, chk >>> 5 &&& 31#32, chk >>> 0 &&& 31#32] := by
    rw [← hshr 25 (by decide), ← hshr 20 (by decide), ← hshr 15 (by decide), ← hshr 10 (by decide),
      ← hshr 5 (by decide), ← hshr 0 (by decide)]
    rfl
  rw [hgroups, hempty]
  simp only [feed_cons, hstep 25, hstep 20, hstep 15, hstep 10, hstep 5, hstep 0]
  exact BitVec.ushiftRight_zero chk

/-- **The checksum is accepted**, whatever the values before it are. -/
theorem polymod_checksum (values : List (BitVec 32)) (hvalues : ∀ v ∈ values, Fits 30 v) :
    polymod (values ++ checksumOf (polymod (values ++ List.replicate 6 0#32) ^^^ 1#32)) = 1#32 := by
  have hpadded : Fits 30 (polymod (values ++ List.replicate 6 0#32)) := by
    apply fits_polymod
    intro v hv
    rcases List.mem_append.mp hv with hv | hv
    · exact hvalues v hv
    · rw [List.eq_of_mem_replicate hv]
      exact fits_of_lt (by decide)
  rw [polymod_eq_feed, feed_append]
  apply feed_check polymodNext_xor (fun a => BitVec.zero_xor) fun a => BitVec.xor_self
  rw [feed_checksumOf (hpadded.xor (fits_of_lt (by decide))), polymod_eq_feed, feed_append]
  rfl

theorem fits_hrpExpand (hrp : JsString) : ∀ v ∈ hrpExpand hrp, Fits 30 v := by
  have hcode (c : JsString) : Fits 16 (charCode c) := by
    apply fits_of_lt
    rw [charCode, BitVec.toNat_setWidth]
    exact Nat.lt_of_le_of_lt (Nat.mod_le _ _) (c.headD 0).toBitVec.isLt
  intro v hv
  rw [hrpExpand, List.mem_append, List.mem_append, List.mem_map, List.mem_map] at hv
  rcases hv with (⟨c, -, rfl⟩ | hv) | ⟨c, -, rfl⟩
  · have hmsb : (charCode c).msb = false := by
      rw [BitVec.msb_eq_getLsbD_last]
      exact hcode c _ (by decide)
    intro i hi
    rw [shr, BitVec.sshiftRight_eq_of_msb_false hmsb, BitVec.getLsbD_ushiftRight]
    exact hcode c _ (by omega)
  · rw [List.mem_singleton.mp hv]
    exact fits_of_lt (by decide)
  · intro i hi
    rw [BitVec.getLsbD_and, hcode c i (by omega), Bool.false_and]

theorem length_checksumOf (chk : BitVec 32) : (checksumOf chk).length = 6 := rfl

theorem fits_checksumOf (chk : BitVec 32) : ∀ v ∈ checksumOf chk, Fits 5 v := by
  intro v hv
  obtain ⟨i, -, rfl⟩ := List.mem_map.mp hv
  have h31 : 31#32 = mask 5 := rfl
  rw [h31]
  exact fits_mask (by decide)

/-! ## Characters -/

/-- A group's character: not a surrogate, not the separator, and it has the group's value. -/
theorem charset_spec {d : BitVec 32} (hd : Fits 5 d) :
    ∃ u, charset[d.toNat]? = some u ∧ u < 0xd800 ∧ u ≠ separator ∧ charValue [u] = .ok d := by
  have hall : ∀ i < 2 ^ 5, charset[i]? = some (charset.getD i 0) ∧ charset.getD i 0 < 0xd800 ∧
      charset.getD i 0 ≠ separator ∧ indexOf [charset.getD i 0] charset = some i := by decide
  obtain ⟨hchar, hu, hsep, hindex⟩ := hall d.toNat hd.lt
  refine ⟨_, hchar, hu, hsep, ?_⟩
  rw [charValue, hindex]
  dsimp only
  rw [BitVec.ofNat_toNat, BitVec.setWidth_eq]

theorem codePoints_cons {u : UInt16} (hu : u < 0xd800) (s : JsString) :
    codePoints (u :: s) = [u] :: codePoints s := by
  cases s with
  | nil => rfl
  | cons v rest =>
      rw [codePoints, if_neg]
      rintro ⟨⟨hhigh, -⟩, -⟩
      exact absurd hu (UInt16.not_lt.mpr hhigh)

/-- Spelled groups are read back, and the separator is not among their characters. -/
theorem spell_spec (ds : List (BitVec 32)) (hds : ∀ d ∈ ds, Fits 5 d) :
    (codePoints (spell ds)).mapM charValue = .ok ds ∧ separator ∉ spell ds := by
  induction ds with
  | nil => exact ⟨rfl, List.not_mem_nil⟩
  | cons d ds ih =>
      obtain ⟨hd, hds⟩ := List.forall_mem_cons.mp hds
      obtain ⟨u, hchar, hu, hsep, hvalue⟩ := charset_spec hd
      obtain ⟨hread, hmem⟩ := ih hds
      have hspell : spell (d :: ds) = u :: spell ds := by
        rw [spell, List.flatMap_cons, hchar]
        rfl
      rw [hspell]
      constructor
      · rw [codePoints_cons hu, List.mapM_cons, hvalue, hread]
        rfl
      · exact List.not_mem_cons_of_ne_of_not_mem hsep.symm hmem

theorem lastIndexOf_eq_none_iff {u : UInt16} {s : JsString} : lastIndexOf u s = none ↔ u ∉ s := by
  induction s with
  | nil => exact ⟨fun _ => List.not_mem_nil, fun _ => rfl⟩
  | cons v s ih =>
      rw [lastIndexOf, List.mem_cons, not_or, ← ih]
      cases lastIndexOf u s with
      | some i => simp
      | none => simp [eq_comm]

theorem lastIndexOf_append {u : UInt16} {tail : JsString} (htail : u ∉ tail) (s : JsString) :
    lastIndexOf u (s ++ u :: tail) = some s.length := by
  induction s with
  | nil =>
      rw [List.nil_append, lastIndexOf, lastIndexOf_eq_none_iff.mpr htail]
      exact if_pos rfl
  | cons v s ih => rw [List.cons_append, lastIndexOf, ih, List.length_cons]

theorem splitAddr_append {tail : JsString} (htail : separator ∉ tail) (hrp : JsString) :
    splitAddr (hrp ++ separator :: tail) = (hrp, tail) := by
  have hdrop : (hrp ++ separator :: tail).drop (hrp.length + 1) = tail := by
    rw [← List.drop_drop, List.drop_left]
    rfl
  rw [splitAddr, lastIndexOf_append htail]
  dsimp only
  rw [hdrop, List.take_left]

/-! ## Round trip -/

theorem fits_byte (b : UInt8) : Fits 8 (b.toBitVec.setWidth 32) := by
  apply fits_of_lt
  rw [BitVec.toNat_setWidth]
  exact Nat.lt_of_le_of_lt (Nat.mod_le _ _) b.toBitVec.isLt

theorem byte_of_value (b : UInt8) : UInt8.ofBitVec ((b.toBitVec.setWidth 32).setWidth 8) = b := by
  rw [BitVec.setWidth_setWidth_of_le _ (by decide), BitVec.setWidth_eq]

theorem decode_encode (hrp : JsString) (bytes : List UInt8) :
    ∃ addr, encode hrp bytes = .ok addr ∧ decode addr = .ok (hrp, bytes) := by
  have hbytes : ∀ v ∈ bytes.map (fun b => b.toBitVec.setWidth 32), Fits 8 v := by
    intro v hv
    obtain ⟨b, -, rfl⟩ := List.mem_map.mp hv
    exact fits_byte b
  obtain ⟨data, hdata, hfits, zeros, hzeros, hstream⟩ :=
    convertBits_pad 5 (by decide) (by decide) (by decide) hbytes
  have hback := convertBits_unpad (by decide) (by decide) hzeros hfits hbytes hstream
  have haccepted := polymod_checksum (hrpExpand hrp ++ data) (by
    intro v hv
    rcases List.mem_append.mp hv with hv | hv
    · exact fits_hrpExpand hrp v hv
    · exact (hfits v hv).mono (by decide))
  generalize hchk : polymod (hrpExpand hrp ++ data ++ List.replicate 6 0#32) ^^^ 1#32 = chk at haccepted
  refine ⟨hrp ++ separator :: spell (data ++ checksumOf chk), ?_, ?_⟩
  · rw [encode, hdata, ← hchk]
    rfl
  · obtain ⟨hread, hmem⟩ := spell_spec (data ++ checksumOf chk) (by
      intro v hv
      rcases List.mem_append.mp hv with hv | hv
      · exact hfits v hv
      · exact fits_checksumOf chk v hv)
    have htake : (data ++ checksumOf chk).take ((data ++ checksumOf chk).length - 6) = data := by
      rw [List.length_append, length_checksumOf, Nat.add_sub_cancel, List.take_left]
    rw [List.append_assoc] at haccepted
    simp only [decode, splitAddr_append hmem, hread, bind, Except.bind, haccepted, htake, hback, ne_eq,
      not_true_eq_false, if_false, List.map_map]
    have hid : (fun v => UInt8.ofBitVec (v.setWidth 8)) ∘ (fun b => b.toBitVec.setWidth 32) = id :=
      funext byte_of_value
    rw [hid, List.map_id]

/-- An address of an account, with a text for it: `0x` and hexadecimal digits of any case. -/
structure EvmAddress where
  bytes : List UInt8
  length_bytes : bytes.length = 20
  digits : List Char
  hexOf : Hex.HexOf digits bytes

def EvmAddress.text (a : EvmAddress) : List Char := '0' :: 'x' :: a.digits

theorem receiverFor_text (a : EvmAddress) :
    ∃ receiver, receiverFor a.text = .ok receiver ∧ decode receiver = .ok (units "cosmos", a.bytes) := by
  have hparse : Hex.parse (a.text.drop 2) = a.bytes := Hex.parse_of_hexOf a.hexOf
  rw [receiverFor, hparse]
  exact decode_encode _ _

/-- **Decoding undoes encoding**, for every human-readable part and every bytes; so two addresses have
one receiver just when they are one address. -/
theorem bech32_round_trip :
    (∀ (hrp : JsString) (bytes : List UInt8),
      ∃ addr, encode hrp bytes = .ok addr ∧ decode addr = .ok (hrp, bytes)) ∧
    ∀ a b : EvmAddress, ∃ ra rb, receiverFor a.text = .ok ra ∧ receiverFor b.text = .ok rb ∧
      (ra = rb ↔ a.bytes = b.bytes) := by
  refine ⟨decode_encode, fun a b => ?_⟩
  obtain ⟨ra, hra, hdecode⟩ := receiverFor_text a
  obtain ⟨rb, hrb, hdecode'⟩ := receiverFor_text b
  refine ⟨ra, rb, hra, hrb, ?_, ?_⟩
  · rintro rfl
    rw [hdecode] at hdecode'
    exact (Prod.mk.inj (Except.ok.inj hdecode')).2
  · intro hbytes
    have hsame : receiverFor a.text = receiverFor b.text := by
      rw [receiverFor, receiverFor, EvmAddress.text, EvmAddress.text]
      change encode _ (Hex.parse a.digits) = encode _ (Hex.parse b.digits)
      rw [Hex.parse_of_hexOf a.hexOf, Hex.parse_of_hexOf b.hexOf, hbytes]
    rw [hra, hrb] at hsame
    exact Except.ok.inj hsame

end PqcMigration.MigrationCost.Bech32
