/-
# PqcMigration.MigrationCost.Bech32Canonical — what `bech32.decode` accepts.

Reading is inverted step by step: characters that are read are the spelling of what was read, groups
that pass the padding check are the groups of their bytes, and six digits that bring the register to 1
are THE checksum, since an empty register fed with at most six groups spells them.

What `decode` does not check is that there is a separator, and that six digits come after it:
`data.slice(0, -6)` of fewer is empty, and all of them are checked as if they were a checksum. So an
accepted address is the encoding of its result exactly if it has both (`decode_canonical_iff`).
-/
import PqcMigration.MigrationCost.Bech32
import Mathlib.Data.List.Induction

namespace PqcMigration.MigrationCost.Bech32

open Lib Lib.Int32

/-! ## Characters -/

theorem indexOf_spec {c s : JsString} {k : ℕ} (h : indexOf c s = some k) : c <+: s.drop k := by
  induction s generalizing k with
  | nil =>
      rw [indexOf] at h
      by_cases hc : c = []
      · rw [hc]
        exact List.nil_prefix
      · rw [if_neg hc] at h
        exact nomatch h
  | cons u s ih =>
      rw [indexOf] at h
      by_cases hc : c.isPrefixOf (u :: s) = true
      · rw [if_pos hc] at h
        obtain rfl := Option.some.inj h
        exact List.isPrefixOf_iff_prefix.mp hc
      · rw [if_neg hc] at h
        obtain ⟨i, hi, rfl⟩ := Option.map_eq_some_iff.mp h
        exact ih hi

/-- A character that has a value begins with the unit of that value. -/
theorem charValue_cons {u : UInt16} {rest : JsString} {d : BitVec 32}
    (h : charValue (u :: rest) = .ok d) : Fits 5 d ∧ charset[d.toNat]? = some u := by
  rw [charValue] at h
  cases hindex : indexOf (u :: rest) charset with
  | none =>
      rw [hindex] at h
      cases h
  | some k =>
      rw [hindex] at h
      obtain rfl := Except.ok.inj h
      obtain ⟨after, hafter⟩ := indexOf_spec hindex
      have hk : charset[k]? = some u := by
        rw [← List.head?_drop, ← hafter]
        rfl
      have hlt : k < 2 ^ 5 := (List.getElem?_eq_some_iff.mp hk).1
      have hnat : (BitVec.ofNat 32 k).toNat = k :=
        Nat.mod_eq_of_lt (Nat.lt_trans hlt (by decide))
      rw [hnat]
      exact ⟨fits_of_lt (by rwa [hnat]), hk⟩

theorem spell_cons {d : BitVec 32} {u : UInt16} (h : charset[d.toNat]? = some u)
    (ds : List (BitVec 32)) : spell (d :: ds) = u :: spell ds := by
  rw [spell, List.flatMap_cons, h]
  rfl

theorem length_spell {ds : List (BitVec 32)} (hds : ∀ d ∈ ds, Fits 5 d) :
    (spell ds).length = ds.length := by
  induction ds with
  | nil => rfl
  | cons d ds ih =>
      obtain ⟨hd, hds⟩ := List.forall_mem_cons.mp hds
      obtain ⟨u, hu, -⟩ := charset_spec hd
      rw [spell_cons hu, List.length_cons, ih hds, List.length_cons]

/-- The first character begins with the first unit. -/
theorem codePoints_head (u : UInt16) (s : JsString) :
    ∃ rest more, codePoints (u :: s) = (u :: rest) :: more := by
  cases s with
  | nil => exact ⟨[], [], rfl⟩
  | cons v s =>
      rw [codePoints]
      by_cases h : (0xd800 ≤ u ∧ u < 0xdc00) ∧ (0xdc00 ≤ v ∧ v < 0xe000)
      · exact ⟨[v], codePoints s, if_pos h⟩
      · exact ⟨[], codePoints (v :: s), if_neg h⟩

/-- Characters that are read are the spelling of what was read. -/
theorem spell_of_read {text : JsString} {ds : List (BitVec 32)}
    (h : (codePoints text).mapM charValue = .ok ds) : text = spell ds ∧ ∀ d ∈ ds, Fits 5 d := by
  induction text generalizing ds with
  | nil =>
      obtain rfl := Except.ok.inj h
      exact ⟨rfl, fun d hd => absurd hd List.not_mem_nil⟩
  | cons u text ih =>
      -- the first character has a value, so it is not half of a pair
      obtain ⟨rest, more, hhead⟩ := codePoints_head u text
      have hlow : u < 0xd800 := by
        rw [hhead, List.mapM_cons] at h
        cases hvalue : charValue (u :: rest) with
        | error err =>
            rw [hvalue] at h
            exact nomatch h
        | ok d =>
            obtain ⟨hd, hu⟩ := charValue_cons hvalue
            obtain ⟨u', hu', hlow, -⟩ := charset_spec hd
            rw [hu] at hu'
            rwa [Option.some.inj hu']
      rw [codePoints_cons hlow, List.mapM_cons] at h
      cases hvalue : charValue [u] with
      | error err =>
          rw [hvalue] at h
          exact nomatch h
      | ok d =>
          cases hmore : (codePoints text).mapM charValue with
          | error err =>
              rw [hvalue, hmore] at h
              exact nomatch h
          | ok more =>
              rw [hvalue, hmore] at h
              obtain rfl := Except.ok.inj h
              obtain ⟨hd, hu⟩ := charValue_cons hvalue
              obtain ⟨htext, hfits⟩ := ih hmore
              exact ⟨by rw [spell_cons hu, ← htext], List.forall_mem_cons.mpr ⟨hd, hfits⟩⟩

/-! ## Groups -/

section Regroup

variable {width into : ℕ}

/-- Groups that pass the padding check spell the values and fewer zeros than a group has. -/
theorem stream_of_unpad (hsum : width + into ≤ 32) (hwidth : 0 < width) (hpos : 0 < into)
    {groups values : List (BitVec 32)} (hgroups : ∀ g ∈ groups, Fits width g)
    (h : convertBits groups width into false = .ok values) :
    (∀ v ∈ values, Fits into v) ∧
      ∃ zeros < width, stream width groups = stream into values ++ List.replicate zeros false := by
  obtain ⟨s, hs, hregroup⟩ := regrouped_all hpos hsum hwidth hgroups
  have hlt := hregroup.bits_lt
  have hfinish : (if width ≤ s.bits ∨ shl s.acc (into - s.bits) &&& mask into ≠ 0#32 then
      Except.error Error.invalidPadding else .ok s.ret) = .ok values := by
    rw [← h, convertBits, hs]
    rfl
  by_cases hbad : width ≤ s.bits ∨ shl s.acc (into - s.bits) &&& mask into ≠ 0#32
  · rw [if_pos hbad] at hfinish
    cases hfinish
  · rw [if_neg hbad] at hfinish
    obtain rfl := Except.ok.inj hfinish
    obtain ⟨hbits, hlast⟩ := not_or.mp hbad
    have hhand : lowBits s.bits s.acc = List.replicate s.bits false := by
      have hspelled := lowBits_last hlt (by omega)
      have hzero : lowBits into (0#32) = List.replicate into false :=
        lowBits_eq_replicate_iff.mpr fun i _ => BitVec.getLsbD_zero
      have hsplit : List.replicate into false =
          List.replicate s.bits false ++ List.replicate (into - s.bits) false := by
        rw [List.replicate_append_replicate, Nat.add_sub_cancel' hlt.le]
      rw [not_not.mp hlast, hzero, hsplit] at hspelled
      exact (List.append_cancel_right hspelled).symm
    exact ⟨hregroup.fits, s.bits, by omega, by rw [hregroup.stream_eq, hhand]⟩

/-- Two ways to fill up one text with fewer zeros than a group has are one. -/
theorem groups_unique {text : List Bool} {g g' : List (BitVec 32)} {zeros zeros' : ℕ}
    (hg : ∀ x ∈ g, Fits width x) (hg' : ∀ x ∈ g', Fits width x) (hzeros : zeros < width)
    (hzeros' : zeros' < width) (h : stream width g = text ++ List.replicate zeros false)
    (h' : stream width g' = text ++ List.replicate zeros' false) : g = g' := by
  have hlen : width * g.length = text.length + zeros := by
    rw [← length_stream, h, List.length_append, List.length_replicate]
  have hlen' : width * g'.length = text.length + zeros' := by
    rw [← length_stream, h', List.length_append, List.length_replicate]
  have hcount : g.length = g'.length := by
    rcases Nat.lt_trichotomy g.length g'.length with hlt | heq | hlt
    · have := Nat.mul_le_mul_left width (Nat.succ_le_of_lt hlt)
      rw [Nat.mul_succ] at this
      omega
    · exact heq
    · have := Nat.mul_le_mul_left width (Nat.succ_le_of_lt hlt)
      rw [Nat.mul_succ] at this
      omega
  have hsame : zeros = zeros' := by
    rw [hcount] at hlen
    omega
  exact eq_of_stream hg hg' hcount (by rw [h, h', hsame])

end Regroup

/-! ## The checksum -/

/-- A register with its upper five bits empty only moves up. -/
theorem polymodNext_of_fits {x : BitVec 32} (hx : Fits 25 x) : polymodNext x = shl x 5 := by
  have hmask : x &&& mask 25 = x := by
    apply BitVec.eq_of_getLsbD_eq
    intro i _
    rw [BitVec.getLsbD_and, getLsbD_mask (by decide)]
    by_cases hi : i < 25
    · rw [decide_eq_true hi, Bool.and_true]
    · rw [hx i (by omega), Bool.false_and]
  rw [polymodNext, hmask, hx 25 (by decide), hx 26 (by decide), hx 27 (by decide),
    hx 28 (by decide), hx 29 (by decide)]
  simp only [tap, Bool.false_eq_true, if_false, BitVec.xor_zero]

/-- **An empty register spells up to six groups it is fed with.** -/
theorem feed_spells (ds : List (BitVec 32)) (hlen : ds.length ≤ 6) (hds : ∀ d ∈ ds, Fits 5 d) :
    Fits (5 * ds.length) (feed (· ^^^ ·) polymodNext 0#32 ds) ∧
      lowBits (5 * ds.length) (feed (· ^^^ ·) polymodNext 0#32 ds) = stream 5 ds := by
  induction ds using List.reverseRecOn with
  | nil => exact ⟨fun i _ => BitVec.getLsbD_zero, rfl⟩
  | append_singleton ds d ih =>
      rw [List.length_append, List.length_singleton] at hlen ⊢
      obtain ⟨hfits, hspelled⟩ := ih (by omega) fun v hv => hds v (List.mem_append_left _ hv)
      have hd : Fits 5 d := hds d (List.mem_append_right _ List.mem_cons_self)
      rw [feed_append, stream_append, stream_singleton, ← hspelled]
      generalize feed (· ^^^ ·) polymodNext 0#32 ds = x at hfits ⊢
      have hstep : feed (· ^^^ ·) polymodNext x [d] = shl x 5 ||| d := by
        show polymodNext x ^^^ d = _
        rw [polymodNext_of_fits (hfits.mono (by omega))]
        apply BitVec.eq_of_getLsbD_eq
        intro i hi
        rw [BitVec.getLsbD_xor, BitVec.getLsbD_or, getLsbD_shl (by decide) hi]
        by_cases hlow : i < 5
        · simp [hlow]
        · simp [hd i (by omega)]
      rw [hstep, Nat.mul_add, Nat.mul_one]
      refine ⟨?_, lowBits_shl_or (by omega) (by decide) hd⟩
      intro i hi
      rcases Nat.lt_or_ge i 32 with hi' | hi'
      · rw [BitVec.getLsbD_or, getLsbD_shl (by decide) hi', hfits _ (by omega), hd i (by omega),
          Bool.and_false, Bool.or_false]
      · exact BitVec.getLsbD_of_ge _ _ hi'

/-- **The checksum is unique** after any values. -/
theorem checksum_unique (values : List (BitVec 32)) {check check' : List (BitVec 32)}
    (hlen : check.length = 6) (hlen' : check'.length = 6) (hcheck : ∀ d ∈ check, Fits 5 d)
    (hcheck' : ∀ d ∈ check', Fits 5 d)
    (h : polymod (values ++ check) = polymod (values ++ check')) : check = check' := by
  rw [polymod_eq_feed, polymod_eq_feed, feed_append, feed_append] at h
  have hempty := feed_empty_congr polymodNext_xor (fun a => BitVec.zero_xor)
    (fun a => BitVec.xor_self) (hlen.trans hlen'.symm) h
  obtain ⟨-, hspelled⟩ := feed_spells check (by omega) hcheck
  obtain ⟨-, hspelled'⟩ := feed_spells check' (by omega) hcheck'
  apply eq_of_stream hcheck hcheck' (hlen.trans hlen'.symm)
  rw [← hspelled, ← hspelled', hempty, hlen, hlen']

/-! ## Addresses -/

theorem lastIndexOf_spec {u : UInt16} {s : JsString} {pos : ℕ} (h : lastIndexOf u s = some pos) :
    s = s.take pos ++ u :: s.drop (pos + 1) ∧ u ∉ s.drop (pos + 1) := by
  induction s generalizing pos with
  | nil => cases h
  | cons v s ih =>
      rw [lastIndexOf] at h
      cases hs : lastIndexOf u s with
      | some i =>
          rw [hs] at h
          obtain rfl := Option.some.inj h
          obtain ⟨hcut, hmem⟩ := ih hs
          exact ⟨congrArg (v :: ·) hcut, hmem⟩
      | none =>
          rw [hs] at h
          by_cases hv : v = u
          · rw [if_pos hv] at h
            obtain rfl := Option.some.inj h
            exact ⟨by rw [hv]; rfl, lastIndexOf_eq_none_iff.mp hs⟩
          · rw [if_neg hv] at h
            cases h

/-- What `decode` has found out about an address that it accepts. -/
structure Accepted (addr hrp : JsString) (bytes : List UInt8) (data values : List (BitVec 32)) :
    Prop where
  split : splitAddr addr = (hrp, spell data)
  fits : ∀ d ∈ data, Fits 5 d
  checksum : polymod (hrpExpand hrp ++ data) = 1#32
  regroup : convertBits (data.take (data.length - 6)) 5 8 false = .ok values
  bytes_eq : bytes = values.map fun v => UInt8.ofBitVec (v.setWidth 8)

theorem accepted_of_decode {addr hrp : JsString} {bytes : List UInt8}
    (h : decode addr = .ok (hrp, bytes)) : ∃ data values, Accepted addr hrp bytes data values := by
  unfold decode at h
  cases hread : (codePoints (splitAddr addr).2).mapM charValue with
  | error err =>
      simp only [hread, bind, Except.bind] at h
      exact nomatch h
  | ok data =>
      simp only [hread, bind, Except.bind] at h
      by_cases hsum : polymod (hrpExpand (splitAddr addr).1 ++ data) = 1#32
      · rw [if_neg (not_not.mpr hsum)] at h
        cases hvalues : convertBits (data.take (data.length - 6)) 5 8 false with
        | error err =>
            rw [hvalues] at h
            exact nomatch h
        | ok values =>
            rw [hvalues] at h
            obtain ⟨rfl, rfl⟩ := Prod.mk.inj (Except.ok.inj h)
            obtain ⟨htext, hfits⟩ := spell_of_read hread
            exact ⟨data, values, Prod.ext rfl htext, hfits, hsum, hvalues, rfl⟩
      · rw [if_pos hsum] at h
        exact nomatch h

section Accepted

variable {addr hrp : JsString} {bytes : List UInt8} {data values : List (BitVec 32)}

/-- The digits of the checksum that `encode` adds to the groups. -/
def expected (hrp : JsString) (groups : List (BitVec 32)) : List (BitVec 32) :=
  checksumOf (polymod (hrpExpand hrp ++ groups ++ List.replicate 6 0#32) ^^^ 1#32)

theorem value_of_byte {v : BitVec 32} (hv : Fits 8 v) :
    (UInt8.ofBitVec (v.setWidth 8)).toBitVec.setWidth 32 = v := by
  show (v.setWidth 8).setWidth 32 = v
  apply BitVec.eq_of_getLsbD_eq
  intro i hi
  rw [BitVec.getLsbD_setWidth, BitVec.getLsbD_setWidth, decide_eq_true hi, Bool.true_and]
  by_cases hlow : i < 8
  · rw [decide_eq_true hlow, Bool.true_and]
  · rw [hv i (by omega), Bool.and_false]

/-- The result is encoded with the groups that were read, and a checksum of its own. -/
theorem Accepted.encode_eq (h : Accepted addr hrp bytes data values) :
    encode hrp bytes = .ok (hrp ++ separator ::
      spell (data.take (data.length - 6) ++ expected hrp (data.take (data.length - 6)))) := by
  have hgroups : ∀ g ∈ data.take (data.length - 6), Fits 5 g := fun g hg =>
    h.fits g (List.mem_of_mem_take hg)
  obtain ⟨hfits, zeros, hzeros, hstream⟩ :=
    stream_of_unpad (by decide) (by decide) (by decide) hgroups h.regroup
  have hvalues : bytes.map (fun b => b.toBitVec.setWidth 32) = values := by
    rw [h.bytes_eq, List.map_map]
    conv_rhs => rw [← List.map_id values]
    exact List.map_congr_left fun v hv => value_of_byte (hfits v hv)
  obtain ⟨groups, hpad, hfits', zeros', hzeros', hstream'⟩ :=
    convertBits_pad 5 (by decide) (by decide) (by decide) hfits
  have hsame : groups = data.take (data.length - 6) :=
    groups_unique hfits' hgroups hzeros' hzeros hstream' hstream
  rw [encode, hvalues, hpad, hsame]
  rfl

/-- Six digits that are accepted are the ones expected. -/
theorem Accepted.check_eq (h : Accepted addr hrp bytes data values) (hsix : 6 ≤ data.length) :
    data.drop (data.length - 6) = expected hrp (data.take (data.length - 6)) := by
  have hfits : ∀ v ∈ hrpExpand hrp ++ data.take (data.length - 6), Fits 30 v := by
    intro v hv
    rcases List.mem_append.mp hv with hv | hv
    · exact fits_hrpExpand hrp v hv
    · exact (h.fits v (List.mem_of_mem_take hv)).mono (by decide)
  apply checksum_unique (hrpExpand hrp ++ data.take (data.length - 6))
  · rw [List.length_drop]
    omega
  · exact length_checksumOf _
  · exact fun d hd => h.fits d (List.mem_of_mem_drop hd)
  · exact fits_checksumOf _
  · rw [expected, polymod_checksum _ hfits, List.append_assoc, List.take_append_drop, h.checksum]

theorem Accepted.addr_eq (h : Accepted addr hrp bytes data values) (hsep : separator ∈ addr) :
    addr = hrp ++ separator :: spell data := by
  have hsplit := h.split
  rw [splitAddr] at hsplit
  cases hpos : lastIndexOf separator addr with
  | none => exact absurd hsep (lastIndexOf_eq_none_iff.mp hpos)
  | some pos =>
      rw [hpos] at hsplit
      obtain ⟨hhrp, hdata⟩ := Prod.mk.inj hsplit
      rw [← hhrp, ← hdata]
      exact (lastIndexOf_spec hpos).1

/-- **An accepted address is the encoding of its result** exactly if it has the separator, and six
symbols after it. -/
theorem decode_canonical_iff (h : decode addr = .ok (hrp, bytes)) :
    encode hrp bytes = .ok addr ↔ separator ∈ addr ∧ 6 ≤ (splitAddr addr).2.length := by
  obtain ⟨data, values, haccepted⟩ := accepted_of_decode h
  have hgroups : ∀ g ∈ data.take (data.length - 6), Fits 5 g := fun g hg =>
    haccepted.fits g (List.mem_of_mem_take hg)
  have hfits : ∀ d ∈ data.take (data.length - 6) ++ expected hrp (data.take (data.length - 6)),
      Fits 5 d := by
    intro d hd
    rcases List.mem_append.mp hd with hd | hd
    · exact hgroups d hd
    · exact fits_checksumOf _ d hd
  rw [haccepted.encode_eq]
  constructor
  · intro henc
    obtain rfl := Except.ok.inj henc
    refine ⟨List.mem_append_right _ List.mem_cons_self, ?_⟩
    rw [splitAddr_append (spell_spec _ hfits).2, length_spell hfits, List.length_append, expected,
      length_checksumOf]
    exact Nat.le_add_left _ _
  · rintro ⟨hsep, hsix⟩
    rw [haccepted.split, length_spell haccepted.fits] at hsix
    rw [← haccepted.check_eq hsix, List.take_append_drop, ← haccepted.addr_eq hsep]

/-- Three bytes. -/
theorem decode_canonical_iff_cosmos :
    decode (units "cosmos1qrlsw0d7f03") = .ok (units "cosmos", [0, 255, 7]) ∧
      encode (units "cosmos") [0, 255, 7] = .ok (units "cosmos1qrlsw0d7f03") := by
  have h : decode (units "cosmos1qrlsw0d7f03") = .ok (units "cosmos", [0, 255, 7]) := by decide +kernel
  exact ⟨h, (decode_canonical_iff h).mpr (by decide)⟩

/-- **Accepted, and not an encoding**: five symbols after the separator, and no separator at all. -/
theorem decode_short_accepted :
    (decode (units "s1vcsyn") = .ok (units "s", []) ∧
      encode (units "s") [] ≠ .ok (units "s1vcsyn")) ∧
    decode (units "9p5fqy") = .ok (units "9p5fq", []) ∧
      encode (units "9p5fq") [] ≠ .ok (units "9p5fqy") := by
  decide +kernel

end Accepted

end PqcMigration.MigrationCost.Bech32
