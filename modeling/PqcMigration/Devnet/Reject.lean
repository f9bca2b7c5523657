/-
# PqcMigration.Devnet.Reject — which byte strings the packet decoder refuses.

The reader never looks at the end of its buffer. A varint that runs past it is cut off, a length prefix
larger than the bytes remaining is clamped, and the cursor then stands at the end or beyond, where the
loop stops as if the message were complete. What the code refuses is one thing only, a wire type it
cannot skip; and whether it meets one can be read off the bytes (`decodePacket_error_iff`): the tag
byte after a run of COMPLETE fields, in the packet or in a payload.

So a malformed packet is refused exactly when it is malformed in that way (`malformed_rejected_iff`);
one that merely ends too early is returned as a packet (`truncated_packet_accepted`).
-/
import PqcMigration.Devnet.Decode

namespace PqcMigration.Devnet

open Lib Lib.Wire

/-! ## Complete fields, and what may follow them -/

/-- Complete fields one after another, whatever their numbers. -/
inductive IsFields : Bytes → Prop
  | nil : IsFields []
  | cons {num : ℕ} {v : Value} {tag bs rest : Bytes} :
      IsVarint (num * 8 + v.wireType) tag → IsValue v bs → IsFields rest →
      IsFields (tag ++ (bs ++ rest))

/-- The low three bits of a tag's first byte are its wire type; these the reader cannot skip. -/
def Unskippable (b : UInt8) : Prop := b.toNat % 8 ∉ [0, 1, 2, 5]

instance (b : UInt8) : Decidable (Unskippable b) := inferInstanceAs (Decidable (¬ _))

/-- After complete fields, a tag of a wire type the reader cannot skip. -/
def Stray (bs : Bytes) : Prop :=
  ∃ pre b rest, IsFields pre ∧ bs = pre ++ b :: rest ∧ Unskippable b

/-- After complete fields, a payload with such a tag. Of a payload that runs past the end, what is
there counts. -/
def StrayPayload (bs : Bytes) : Prop :=
  ∃ pre tag n len rest, IsFields pre ∧ bs = pre ++ (tag ++ (n ++ rest)) ∧
    IsVarint (5 * 8 + 2) tag ∧ IsVarint len n ∧ Stray (rest.take len)

/-! ## The reader at the end of its buffer -/

/-- A varint is complete, or every byte there is asks for another. -/
theorem exists_isVarint_or (rest : Bytes) :
    (∃ v bs rest', IsVarint v bs ∧ rest = bs ++ rest') ∨ ∀ b ∈ rest, 0x80 ≤ b.toNat := by
  induction rest with
  | nil => exact Or.inr fun b hb => absurd hb List.not_mem_nil
  | cons b rest ih =>
      by_cases hb : b.toNat < 0x80
      · exact Or.inl ⟨b.toNat, [b], rest, .last hb, rfl⟩
      · rw [Nat.not_lt] at hb
        rcases ih with ⟨v, bs, rest', hv, rfl⟩ | hall
        · exact Or.inl ⟨_, b :: bs, rest', .more hb hv, rfl⟩
        · refine Or.inr fun c hc => ?_
          rcases List.mem_cons.mp hc with rfl | hc
          · exact hb
          · exact hall c hc

theorem varintLoop_of_all_more {rest : Bytes} (h : ∀ b ∈ rest, 0x80 ≤ b.toNat) (x shift : ℕ) :
    (varintLoop x shift rest).2 = [] := by
  induction rest generalizing x shift with
  | nil => rfl
  | cons b rest ih =>
      have hb : ¬ (b.toNat &&& 0x80 = 0) := by
        rw [and_80_eq_zero_iff]
        exact Nat.not_lt.mpr (h b List.mem_cons_self)
      rw [varintLoop, if_neg hb]
      exact ih (fun c hc => h c (List.mem_cons_of_mem _ hc)) _ _

/-- The reader takes a complete varint, or everything. -/
theorem varint_cases (rest : Bytes) :
    (∃ bs, IsVarint (varint rest).1 bs ∧ rest = bs ++ (varint rest).2) ∨ (varint rest).2 = [] := by
  rcases exists_isVarint_or rest with ⟨v, bs, rest', hv, rfl⟩ | hall
  · left
    rw [varint_of_isVarint hv]
    exact ⟨bs, hv, rfl⟩
  · exact Or.inr (varintLoop_of_all_more hall 0 0)

theorem bytes_cases (rest : Bytes) :
    (∃ n, IsVarint (bytes rest).1.length n ∧ rest = n ++ ((bytes rest).1 ++ (bytes rest).2)) ∨
      (bytes rest).2 = [] := by
  rcases varint_cases rest with ⟨n, hn, hrest⟩ | hnil
  · by_cases hlen : (varint rest).1 ≤ (varint rest).2.length
    · left
      refine ⟨n, ?_, ?_⟩
      · have htake : (bytes rest).1.length = (varint rest).1 := by
          show ((varint rest).2.take _).length = _
          rw [List.length_take, Nat.min_eq_left hlen]
        rw [htake]
        exact hn
      · show rest = n ++ ((varint rest).2.take _ ++ (varint rest).2.drop _)
        rw [List.take_append_drop]
        exact hrest
    · exact Or.inr (List.drop_of_length_le (Nat.le_of_not_le hlen))
  · right
    show (varint rest).2.drop _ = []
    rw [hnil, List.drop_nil]

/-- Skipping steps over a complete value, or to the end. -/
theorem skip_cases {wire : ℕ} {rest rest' : Bytes} (h : skip wire rest = .ok rest') :
    (∃ v bs, v.wireType = wire ∧ IsValue v bs ∧ rest = bs ++ rest') ∨ rest' = [] := by
  have hfixed : ∀ (n : ℕ), n ≤ rest.length → (rest.take n).length = n ∧
      rest = rest.take n ++ rest.drop n := by
    intro n hn
    exact ⟨by rw [List.length_take, Nat.min_eq_left hn], (List.take_append_drop n rest).symm⟩
  unfold skip at h
  split at h
  · cases h
    subst wire
    rcases varint_cases rest with ⟨bs, hbs, hrest⟩ | hnil
    · exact Or.inl ⟨.varint _, bs, rfl, .varint hbs, hrest⟩
    · exact Or.inr hnil
  split at h
  · cases h
    subst wire
    rcases bytes_cases rest with ⟨n, hn, hrest⟩ | hnil
    · refine Or.inl ⟨.len (bytes rest).1, n ++ (bytes rest).1, rfl, .len hn, ?_⟩
      rw [List.append_assoc]
      exact hrest
    · exact Or.inr hnil
  split at h
  · cases h
    subst wire
    by_cases hlen : 4 ≤ rest.length
    · obtain ⟨htake, hrest⟩ := hfixed 4 hlen
      exact Or.inl ⟨.fixed32 (rest.take 4), rest.take 4, rfl, .fixed32 htake, hrest⟩
    · exact Or.inr (List.drop_of_length_le (by omega))
  split at h
  · cases h
    subst wire
    by_cases hlen : 8 ≤ rest.length
    · obtain ⟨htake, hrest⟩ := hfixed 8 hlen
      exact Or.inl ⟨.fixed64 (rest.take 8), rest.take 8, rfl, .fixed64 htake, hrest⟩
    · exact Or.inr (List.drop_of_length_le (by omega))
  · cases h

theorem skip_error_iff {wire : ℕ} (rest : Bytes) :
    (∃ err, skip wire rest = .error err) ↔ wire ∉ [0, 1, 2, 5] := by
  unfold skip
  split_ifs <;> simp_all

/-- A key is read from a complete tag, or from everything. -/
theorem key_cases (rest : Bytes) :
    (∃ tag, IsVarint ((key rest).1.field * 8 + (key rest).1.wire) tag ∧
        rest = tag ++ (key rest).2) ∨ (key rest).2 = [] := by
  rcases varint_cases rest with ⟨tag, htag, hrest⟩ | hnil
  · have hsplit : (key rest).1.field * 8 + (key rest).1.wire = (varint rest).1 := by
      show (varint rest).1 >>> 3 * 8 + ((varint rest).1 &&& 7) = (varint rest).1
      rw [Nat.shiftRight_eq_div_pow, show (7 : ℕ) = 2 ^ 3 - 1 from rfl,
        Nat.and_two_pow_sub_one_eq_mod]
      omega
    rw [hsplit]
    exact Or.inl ⟨tag, htag, hrest⟩
  · exact Or.inr hnil

/-- Later bytes of a varint leave its low bits alone. -/
theorem varintLoop_mod_eight {x shift : ℕ} (hx : x < 2 ^ shift) (hshift : 3 ≤ shift) (rest : Bytes) :
    (varintLoop x shift rest).1 % 8 = x % 8 := by
  induction rest generalizing x shift with
  | nil => simp [varintLoop]
  | cons b rest ih =>
      obtain ⟨k, rfl⟩ := Nat.exists_eq_add_of_le hshift
      have hpow : 2 ^ (3 + k) = 8 * 2 ^ k := Nat.pow_add 2 3 k
      have hlow : b.toNat &&& 0x7f < 0x80 := Nat.and_lt_two_pow b.toNat (by decide : 0x7f < 2 ^ 7)
      have hstep : x ||| ((b.toNat &&& 0x7f) <<< (3 + k)) =
          x + (b.toNat &&& 0x7f) * 2 ^ (3 + k) := or_shiftLeft hx _
      have hmod : (x + (b.toNat &&& 0x7f) * 2 ^ (3 + k)) % 8 = x % 8 := by
        rw [hpow, Nat.mul_left_comm, Nat.add_mul_mod_self_left]
      have hlt : x + (b.toNat &&& 0x7f) * 2 ^ (3 + k) < 2 ^ (3 + k + 7) := by
        have hmul : ((b.toNat &&& 0x7f) + 1) * 2 ^ (3 + k) ≤ 0x80 * 2 ^ (3 + k) :=
          Nat.mul_le_mul_right _ hlow
        rw [Nat.add_mul, Nat.one_mul] at hmul
        rw [Nat.pow_add 2 (3 + k) 7]
        omega
      rw [varintLoop, hstep]
      split
      · exact hmod
      · rw [ih hlt (by omega), hmod]

/-- The wire type is in the first byte. -/
theorem wire_key_cons (b : UInt8) (rest : Bytes) : (key (b :: rest)).1.wire = b.toNat % 8 := by
  show (varintLoop 0 0 (b :: rest)).1 &&& 7 = _
  have hfirst : 0 ||| ((b.toNat &&& 0x7f) <<< 0) = b.toNat % 0x80 := by
    rw [Nat.zero_or, Nat.shiftLeft_zero, and_7f]
  have hmod : b.toNat % 0x80 % 8 = b.toNat % 8 := Nat.mod_mod_of_dvd _ (by decide)
  rw [show (7 : ℕ) = 2 ^ 3 - 1 from rfl, Nat.and_two_pow_sub_one_eq_mod, varintLoop, hfirst]
  split
  · exact hmod
  · have hlt : b.toNat % 0x80 < 2 ^ (0 + 7) := Nat.mod_lt _ (by decide)
    rw [show (2 ^ 3 : ℕ) = 8 from rfl, varintLoop_mod_eight hlt (by decide)]
    exact hmod

/-! ## When a decoding loop fails -/

section Loop

variable {σ : Type} {body : Body σ}

theorem untilDone_of_error {s : σ} {rest : Bytes} {err : ReadError} (hrest : rest ≠ [])
    (hbody : body.run s (key rest).1 (key rest).2 = .error err) :
    untilDone body s rest = .error err := by
  rw [untilDone, dif_neg hrest]
  split
  · rename_i herr
    rw [hbody] at herr
    cases herr
    rfl
  · rename_i hok
    rw [hbody] at hok
    cases hok

/-- **A loop fails after complete fields, at a field its body refuses.** The body is told by two facts:
where it goes on, `skip` would have gone on too; and which keys it refuses. -/
theorem untilDone_error_iff (body : Body σ) (Bad : Key → Bytes → Prop)
    (hskip : ∀ {s k rest r}, body.run s k rest = .ok r → skip k.wire rest = .ok r.2)
    (hbad : ∀ {s k rest}, (∃ err, body.run s k rest = .error err) ↔ Bad k rest) (s : σ)
    (bs : Bytes) :
    (∃ err, untilDone body s bs = .error err) ↔
      ∃ pre tail, IsFields pre ∧ bs = pre ++ tail ∧ tail ≠ [] ∧ Bad (key tail).1 (key tail).2 := by
  constructor
  · -- the loop gets past a field that is not the last only if the field is complete
    intro herr
    induction hlen : bs.length using Nat.strong_induction_on generalizing s bs with
    | _ n ih =>
        obtain ⟨err, herr⟩ := herr
        by_cases hnil : bs = []
        · rw [hnil, untilDone_nil] at herr
          cases herr
        cases hrun : body.run s (key bs).1 (key bs).2 with
        | error e => exact ⟨[], bs, .nil, rfl, hnil, hbad.mp ⟨e, hrun⟩⟩
        | ok r =>
            rw [untilDone_of_ok hnil hrun] at herr
            have hshort : r.2.length < n := by
              rw [← hlen]
              exact (body.length_le hrun).trans_lt (key_length_lt hnil)
            obtain ⟨pre, tail, hpre, hsplit, htail, hrefused⟩ := ih _ hshort r.1 r.2 ⟨err, herr⟩ rfl
            have hmore : r.2 ≠ [] := by simp [hsplit, htail]
            obtain ⟨v, vbs, hwire, hv, hrest⟩ := (skip_cases (hskip hrun)).resolve_right hmore
            have hkey : (key bs).2 ≠ [] := by simp [hrest, hmore]
            obtain ⟨tag, htag, hbs⟩ := (key_cases bs).resolve_right hkey
            refine ⟨tag ++ (vbs ++ pre), tail, .cons (hwire ▸ htag) hv hpre, ?_, htail, hrefused⟩
            rw [hbs, hrest, hsplit]
            simp only [List.append_assoc]
  · rintro ⟨pre, tail, hpre, rfl, htail, hrefused⟩
    induction hpre generalizing s with
    | nil =>
        obtain ⟨err, herr⟩ := hbad.mpr hrefused
        exact ⟨err, untilDone_of_error htail herr⟩
    | @cons num v tag vbs rest htag hv _ ih =>
        have hne : tag ++ (vbs ++ rest) ++ tail ≠ [] := by simp [htag.ne_nil]
        have hkey : key (tag ++ (vbs ++ rest) ++ tail) =
            (⟨num, v.wireType⟩, vbs ++ (rest ++ tail)) := by
          rw [List.append_assoc, List.append_assoc]
          exact key_of_isVarint (f := ⟨num, v⟩) htag _
        cases hrun : body.run s (key (tag ++ (vbs ++ rest) ++ tail)).1
            (key (tag ++ (vbs ++ rest) ++ tail)).2 with
        | error err => exact ⟨err, untilDone_of_error hne hrun⟩
        | ok r =>
            have hnext : r.2 = rest ++ tail := by
              have hr := hskip hrun
              rw [hkey, skip_of_isValue hv] at hr
              exact (Except.ok.inj hr).symm
            obtain ⟨err, herr⟩ := ih r.1
            refine ⟨err, ?_⟩
            rw [untilDone_of_ok hne hrun, hnext]
            exact herr

end Loop

/-! ## `decodePayload` -/

theorem payloadField_error_iff {p : Payload} {k : Key} {rest : Bytes} :
    (∃ err, payloadField p k rest = .error err) ↔ k.wire ∉ [0, 1, 2, 5] := by
  rw [← skip_error_iff rest]
  unfold payloadField
  split
  · cases skip k.wire rest <;> simp
  · rename_i hwire
    rw [not_not] at hwire
    simp [skip, hwire]

/-- Complete fields and then a tag, as the loops see it. -/
theorem stray_iff {bs : Bytes} :
    Stray bs ↔ ∃ pre tail, IsFields pre ∧ bs = pre ++ tail ∧ tail ≠ [] ∧
      (key tail).1.wire ∉ [0, 1, 2, 5] := by
  constructor
  · rintro ⟨pre, b, rest, hpre, hbs, hb⟩
    refine ⟨pre, b :: rest, hpre, hbs, List.cons_ne_nil _ _, ?_⟩
    rw [wire_key_cons]
    exact hb
  · rintro ⟨pre, tail, hpre, hbs, htail, hwire⟩
    obtain ⟨b, rest, rfl⟩ := List.exists_cons_of_ne_nil htail
    rw [wire_key_cons] at hwire
    exact ⟨pre, b, rest, hpre, hbs, hwire⟩

/-- A payload is refused just for a stray tag. -/
theorem decodePayload_error_iff (bs : Bytes) :
    (∃ err, decodePayload bs = .error err) ↔ Stray bs := by
  rw [stray_iff]
  exact untilDone_error_iff payloadBody (fun k _ => k.wire ∉ [0, 1, 2, 5])
    skip_of_payloadField payloadField_error_iff .empty bs

/-! ## `decodePacket` -/

/-- The keys the packet loop refuses. -/
def PacketRefuses (k : Key) (rest : Bytes) : Prop :=
  k.wire ∉ [0, 1, 2, 5] ∨ (k.field = 5 ∧ k.wire = 2 ∧ Stray (bytes rest).1)

theorem packetField_error_iff {pkt : Packet} {k : Key} {rest : Bytes} :
    (∃ err, packetField pkt k rest = .error err) ↔ PacketRefuses k rest := by
  unfold PacketRefuses
  rw [← decodePayload_error_iff, ← skip_error_iff rest]
  unfold packetField
  by_cases h5 : k.field = 5 ∧ k.wire = 2
  · cases hpayload : decodePayload (bytes rest).1 <;> simp [h5, skip]
  · cases hskip : skip k.wire rest <;> split_ifs <;> simp_all [skip]

theorem bytes_nil : bytes [] = ([], []) := rfl

theorem not_stray_nil : ¬ Stray [] := by
  rintro ⟨pre, b, rest, -, hbs, -⟩
  simp at hbs

theorem bytes_of_length_varint {len : ℕ} {n : Bytes} (h : IsVarint len n) (rest : Bytes) :
    bytes (n ++ rest) = (rest.take len, rest.drop len) := by
  unfold bytes
  rw [varint_of_isVarint h]

/-- A stray tag in a payload, as the packet loop sees it. -/
theorem strayPayload_iff {bs : Bytes} :
    StrayPayload bs ↔ ∃ pre tail, IsFields pre ∧ bs = pre ++ tail ∧ tail ≠ [] ∧
      (key tail).1.field = 5 ∧ (key tail).1.wire = 2 ∧ Stray (bytes (key tail).2).1 := by
  constructor
  · rintro ⟨pre, tag, n, len, rest, hpre, hbs, htag, hn, hstray⟩
    refine ⟨pre, tag ++ (n ++ rest), hpre, hbs, by simp [htag.ne_nil], ?_⟩
    have hkey : key (tag ++ (n ++ rest)) = (⟨5, 2⟩, n ++ rest) :=
      key_of_isVarint (f := ⟨5, .len []⟩) htag _
    rw [hkey, bytes_of_length_varint hn]
    exact ⟨rfl, rfl, hstray⟩
  · rintro ⟨pre, tail, hpre, hbs, -, hfield, hwire, hstray⟩
    -- neither the tag nor the length ends the buffer: the payload would be empty
    have hkey : (key tail).2 ≠ [] := by
      intro hnil
      rw [hnil, bytes_nil] at hstray
      exact not_stray_nil hstray
    obtain ⟨tag, htag, htail⟩ := (key_cases tail).resolve_right hkey
    have hlen : (varint (key tail).2).2 ≠ [] := by
      intro hnil
      have hempty : (bytes (key tail).2).1 = [] := by
        show (varint (key tail).2).2.take _ = []
        rw [hnil, List.take_nil]
      rw [hempty] at hstray
      exact not_stray_nil hstray
    obtain ⟨n, hn, hrest⟩ := (varint_cases (key tail).2).resolve_right hlen
    rw [hfield, hwire] at htag
    refine ⟨pre, tag, n, (varint (key tail).2).1, (varint (key tail).2).2, hpre, ?_, htag, hn, hstray⟩
    rw [← hrest, ← htail]
    exact hbs

/-- **The decoder refuses a stray tag and nothing else.** -/
theorem decodePacket_error_iff {hex : String} {bs : Bytes} (hhex : IsHexText hex bs) :
    (∃ err, decodePacket hex = .error err) ↔ Stray bs ∨ StrayPayload bs := by
  rw [decodePacket, parse_strip0x hhex, stray_iff, strayPayload_iff]
  rw [untilDone_error_iff packetBody PacketRefuses skip_of_packetField
    packetField_error_iff]
  constructor
  · rintro ⟨pre, tail, hpre, hbs, htail, hwire | hpayload⟩
    · exact Or.inl ⟨pre, tail, hpre, hbs, htail, hwire⟩
    · exact Or.inr ⟨pre, tail, hpre, hbs, htail, hpayload⟩
  · rintro (⟨pre, tail, hpre, hbs, htail, hwire⟩ | ⟨pre, tail, hpre, hbs, htail, hpayload⟩)
    · exact ⟨pre, tail, hpre, hbs, htail, Or.inl hwire⟩
    · exact ⟨pre, tail, hpre, hbs, htail, Or.inr hpayload⟩

/-! ## Malformed packets -/

/-- A message whose payload fields are messages. -/
def WellFormedPacket (bs : Bytes) : Prop :=
  ∃ fs, IsMessage fs bs ∧ ∀ payload ∈ allLen 5 fs, ∃ fs', IsMessage fs' payload

/-- A well-formed packet is never refused. -/
theorem WellFormedPacket.accepted {bs : Bytes} (h : WellFormedPacket bs) {hex : String}
    (hhex : IsHexText hex bs) : ∃ pkt, decodePacket hex = .ok pkt := by
  obtain ⟨fs, hmsg, hpayloads⟩ := h
  have hok : ∀ f ∈ fs, ∀ b ∈ f.len? 5, ∃ p, decodePayload b = .ok p := by
    intro f hf b hb
    obtain ⟨fs', hmsg'⟩ := hpayloads b (List.mem_filterMap.mpr ⟨f, hf, hb⟩)
    have hloop : untilDone payloadBody .empty b = .ok _ := untilDone_message hmsg'
      (fun f _ q vbs rest hval => payloadField_of_isValue q f vbs rest hval) _
    exact ⟨_, hloop⟩
  rw [decodePacket, parse_strip0x hhex]
  have hloop : untilDone packetBody .empty bs = .ok _ := untilDone_message hmsg
    (fun f hf q vbs rest hval => packetField_of_isValue q f vbs rest hval (hok f hf)) _
  exact ⟨_, hloop⟩

/-- **Which malformed packets are refused**: those with a stray tag, in the packet or in a payload.
Every other malformed packet is returned as if it were complete; and a well-formed one is returned. -/
theorem malformed_rejected_iff (bs : Bytes) (hex : String) (hhex : IsHexText hex bs) :
    (¬ WellFormedPacket bs →
      ((∃ err, decodePacket hex = .error err) ↔ Stray bs ∨ StrayPayload bs)) ∧
      (WellFormedPacket bs → ∃ pkt, decodePacket hex = .ok pkt) :=
  ⟨fun _ => decodePacket_error_iff hhex, fun h => h.accepted hhex⟩

/-- The text of a hexadecimal string is hexadecimal text. -/
theorem isHexText_text (h : HexString) : IsHexText h.text h.bytes :=
  ⟨_, Hex.hexOf_toHex h.bytes, Or.inl rfl⟩

/-- A start-group tag. -/
theorem malformed_rejected_group :
    ∃ err, decodePacket (HexString.text ⟨[0x0b]⟩) = .error err := by
  have hstray : Stray [0x0b] := ⟨[], 0x0b, [], .nil, rfl, by decide⟩
  have hbad : ¬ WellFormedPacket [0x0b] := by
    intro h
    obtain ⟨pkt, hpkt⟩ := h.accepted (isHexText_text ⟨[0x0b]⟩)
    obtain ⟨err, herr⟩ := (decodePacket_error_iff (isHexText_text ⟨[0x0b]⟩)).mpr (Or.inl hstray)
    rw [hpkt] at herr
    cases herr
  exact ((malformed_rejected_iff _ _ (isHexText_text ⟨[0x0b]⟩)).1 hbad).mpr (Or.inl hstray)

/-- A source client of five bytes, of which one is there. -/
def shortClient : Bytes := [0x12, 5, 0x61]

/-- In a message, a length prefix is at most the bytes remaining. -/
theorem length_le_of_isMessage {fs : List Field} {bs : Bytes} (h : IsMessage fs bs) (hne : bs ≠ [])
    (hwire : (key bs).1.wire = 2) :
    (varint (key bs).2).1 ≤ (varint (key bs).2).2.length := by
  cases h with
  | nil => exact absurd rfl hne
  | @cons f fs field rest hf _ =>
      cases hf with
      | @mk tag vbs _ _ htag hval =>
          rw [List.append_assoc, key_of_isVarint htag] at hwire ⊢
          generalize f.val = val at hwire hval
          cases hval with
          | len hlen =>
              rw [List.append_assoc, varint_of_isVarint hlen, List.length_append]
              exact Nat.le_add_right _ _
          | varint | fixed64 | fixed32 => cases hwire

theorem shortClient_malformed : ¬ WellFormedPacket shortClient := by
  rintro ⟨fs, hmsg, -⟩
  have hle := length_le_of_isMessage hmsg (by decide) (by decide)
  exact absurd hle (by decide)

/-- The packet is returned, with what there is of the client. -/
theorem truncated_packet_accepted :
    ¬ WellFormedPacket shortClient ∧
      decodePacket (HexString.text ⟨shortClient⟩) = .ok ⟨0, "a", "", 0, []⟩ := by
  refine ⟨shortClient_malformed, ?_⟩
  rw [decodePacket, parse_strip0x (isHexText_text _)]
  have hstep : packetBody.run .empty (key shortClient).1 (key shortClient).2 =
      .ok (⟨0, "a", "", 0, []⟩, []) := by decide
  show untilDone packetBody .empty shortClient = _
  rw [untilDone_of_ok (by decide) hstep, untilDone_nil]

end PqcMigration.Devnet
