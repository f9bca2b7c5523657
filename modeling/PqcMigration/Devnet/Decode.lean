/-
# PqcMigration.Devnet.Decode — the packet decoder returns what was encoded.

`EncodesPacket pkt bs` is the schema of `ibc.core.channel.v2.Packet` over the wire grammar: it asks
for no field order, no shortest varints, no absence of unknown fields, and it reads repeated scalars
as the last one. The decoder is related to it in two steps. The reader parses one field of the
grammar at a time, so each loop is a left fold over the FIELDS (`untilDone_message`);
and that fold computes the schema's views.
-/
import PqcMigration.Devnet.Packet
import PqcMigration.Lib.Wire

namespace PqcMigration.Devnet

open Lib Lib.Wire

/-! ## The schema -/

/-- The fields `fs` of a message carry the payload `p`. -/
structure CarriesPayload (p : Payload) (fs : List Field) : Prop where
  sourcePort : lastLen 1 [] fs = Utf8.encode p.sourcePort
  destPort : lastLen 2 [] fs = Utf8.encode p.destPort
  version : lastLen 3 [] fs = Utf8.encode p.version
  encoding : lastLen 4 [] fs = Utf8.encode p.encoding
  value : lastLen 5 [] fs = p.value.bytes

/-- `bs` is an encoding of the payload `p`. -/
def EncodesPayload (p : Payload) (bs : Bytes) : Prop :=
  ∃ fs, IsMessage fs bs ∧ CarriesPayload p fs

/-- The fields `fs` of a message carry the packet `pkt`. -/
structure CarriesPacket (pkt : Packet) (fs : List Field) : Prop where
  sequence : lastVarint 1 0 fs = pkt.sequence
  sourceClient : lastLen 2 [] fs = Utf8.encode pkt.sourceClient
  destClient : lastLen 3 [] fs = Utf8.encode pkt.destClient
  timeoutTimestamp : lastVarint 4 0 fs = pkt.timeoutTimestamp
  payloads : List.Forall₂ EncodesPayload pkt.payloads (allLen 5 fs)

/-- `bs` is an encoding of the packet `pkt`. -/
def EncodesPacket (pkt : Packet) (bs : Bytes) : Prop :=
  ∃ fs, IsMessage fs bs ∧ CarriesPacket pkt fs

/-! ## The reader follows the grammar -/

/-- The two masks of the varint loop, as arithmetic. -/
theorem and_7f (n : ℕ) : n &&& 0x7f = n % 0x80 := Nat.and_two_pow_sub_one_eq_mod n 7

theorem and_80_eq_zero_iff (b : UInt8) : b.toNat &&& 0x80 = 0 ↔ b.toNat < 0x80 := by
  have hall : ∀ n : Fin 256, n.val &&& 0x80 = 0 ↔ n.val < 0x80 := by decide +kernel
  exact hall ⟨b.toNat, b.toNat_lt⟩

/-- `x |= y << shift` adds, when `x` has no bits from `shift` on. -/
theorem or_shiftLeft {x shift : ℕ} (hx : x < 2 ^ shift) (y : ℕ) :
    x ||| (y <<< shift) = x + y * 2 ^ shift := by
  rw [Nat.or_comm, ← Nat.shiftLeft_add_eq_or_of_lt hx, Nat.shiftLeft_eq, Nat.add_comm]

theorem varintLoop_of_isVarint {v : ℕ} {bs : Bytes} (h : IsVarint v bs) (rest : Bytes) :
    ∀ {x shift : ℕ}, x < 2 ^ shift →
      varintLoop x shift (bs ++ rest) = (x + v * 2 ^ shift, rest) := by
  induction h with
  | @last b hb =>
      intro x shift hx
      have hstop : b.toNat &&& 0x80 = 0 := (and_80_eq_zero_iff b).mpr hb
      show varintLoop x shift (b :: rest) = _
      rw [varintLoop, if_pos hstop, and_7f, Nat.mod_eq_of_lt hb, or_shiftLeft hx]
  | @more b v bs hb _ ih =>
      intro x shift hx
      have hgo : ¬ (b.toNat &&& 0x80 = 0) := by
        rw [and_80_eq_zero_iff]
        omega
      -- the accumulator stays below the next shift, which is what the induction carries
      have hlt : x + b.toNat % 0x80 * 2 ^ shift < 2 ^ (shift + 7) := by
        have hmod : b.toNat % 0x80 + 1 ≤ 0x80 := Nat.mod_lt _ (by decide)
        calc x + b.toNat % 0x80 * 2 ^ shift
            < 2 ^ shift + b.toNat % 0x80 * 2 ^ shift := by omega
          _ = (b.toNat % 0x80 + 1) * 2 ^ shift := by rw [Nat.add_mul]; omega
          _ ≤ 0x80 * 2 ^ shift := Nat.mul_le_mul_right _ hmod
          _ = 2 ^ (shift + 7) := by rw [Nat.pow_add]; omega
      show varintLoop x shift (b :: (bs ++ rest)) = _
      rw [varintLoop, if_neg hgo, and_7f, or_shiftLeft hx, ih hlt]
      rw [Nat.pow_add, Nat.add_mul, Nat.add_assoc]
      congr 3
      rw [Nat.mul_comm 0x80 v, Nat.mul_assoc, Nat.mul_comm (2 ^ shift)]

theorem varint_of_isVarint {v : ℕ} {bs : Bytes} (h : IsVarint v bs) (rest : Bytes) :
    varint (bs ++ rest) = (v, rest) := by
  have hloop : varint (bs ++ rest) = (0 + v * 2 ^ 0, rest) :=
    varintLoop_of_isVarint h rest (by decide)
  simpa using hloop

theorem bytes_of_isVarint {bs n : Bytes} (h : IsVarint bs.length n) (rest : Bytes) :
    bytes (n ++ (bs ++ rest)) = (bs, rest) := by
  unfold bytes
  rw [varint_of_isVarint h]
  simp

theorem wireType_lt (v : Value) : v.wireType < 8 := by
  cases v <;> simp [Value.wireType]

theorem key_of_isVarint {f : Field} {tag : Bytes}
    (h : IsVarint (f.num * 8 + f.val.wireType) tag) (rest : Bytes) :
    key (tag ++ rest) = (⟨f.num, f.val.wireType⟩, rest) := by
  have hw := wireType_lt f.val
  unfold key
  rw [varint_of_isVarint h]
  have hfield : (f.num * 8 + f.val.wireType) >>> 3 = f.num := by
    rw [Nat.shiftRight_eq_div_pow]
    omega
  have hwire : (f.num * 8 + f.val.wireType) &&& 7 = f.val.wireType := by
    rw [show (7 : ℕ) = 2 ^ 3 - 1 from rfl, Nat.and_two_pow_sub_one_eq_mod]
    omega
  simp only [hfield, hwire]

/-- `skip` steps over any value of the grammar. -/
theorem skip_of_isValue {v : Value} {bs : Bytes} (h : IsValue v bs) (rest : Bytes) :
    skip v.wireType (bs ++ rest) = .ok rest := by
  cases h with
  | varint hv => simp [skip, Value.wireType, varint_of_isVarint hv]
  | fixed64 hlen => simp [skip, Value.wireType, ← hlen]
  | len hlen => simp [skip, Value.wireType, bytes_of_isVarint hlen]
  | fixed32 hlen => simp [skip, Value.wireType, ← hlen]

/-- **One loop, one fold.** A body that, on the bytes of a field, does `step` and leaves the rest,
makes the loop the fold of `step` over the fields of the message. -/
theorem untilDone_message {σ : Type} {body : Body σ} {step : σ → Field → σ} {fs : List Field}
    {bs : Bytes} (h : IsMessage fs bs)
    (hbody : ∀ f ∈ fs, ∀ s bs rest, IsValue f.val bs →
      body.run s ⟨f.num, f.val.wireType⟩ (bs ++ rest) = .ok (step s f, rest)) (s : σ) :
    untilDone body s bs = .ok (fs.foldl step s) := by
  induction h generalizing s with
  | nil => exact untilDone_nil body s
  | @cons f fs _ rest hf _ ih =>
      cases hf with
      | @mk tag vbs _ _ htag hval =>
          have hne : tag ++ vbs ++ rest ≠ [] := by simp [htag.ne_nil]
          have hrun := hbody f List.mem_cons_self s vbs rest hval
          rw [untilDone_of_ok hne (r := (step s f, rest))]
          · exact ih (fun g hg => hbody g (List.mem_cons_of_mem f hg)) (step s f)
          · rw [List.append_assoc, key_of_isVarint htag]
            exact hrun

/-! ## `decodePayload` -/

/-- What one field of the grammar does to the payload being read. -/
def payloadStep (p : Payload) (f : Field) : Payload :=
  match f.val with
  | .len bs => p.assign f.num bs
  | _ => p

theorem payloadField_of_isValue (p : Payload) (f : Field) (bs rest : Bytes)
    (h : IsValue f.val bs) :
    payloadField p ⟨f.num, f.val.wireType⟩ (bs ++ rest) = .ok (payloadStep p f, rest) := by
  have hskip := skip_of_isValue h rest
  rcases f with ⟨num, val⟩
  cases h with
  | varint => simp_all [payloadField, payloadStep, Value.wireType]
  | fixed64 => simp_all [payloadField, payloadStep, Value.wireType]
  | fixed32 => simp_all [payloadField, payloadStep, Value.wireType]
  | len hlen => simp [payloadField, payloadStep, Value.wireType, bytes_of_isVarint hlen]

/-- Each payload field is written by its own number only. -/
theorem payloadStep_eq (p : Payload) (f : Field) :
    payloadStep p f =
      ⟨((f.len? 1).map Utf8.decode).getD p.sourcePort,
        ((f.len? 2).map Utf8.decode).getD p.destPort,
        ((f.len? 3).map Utf8.decode).getD p.version,
        ((f.len? 4).map Utf8.decode).getD p.encoding,
        ((f.len? 5).map HexString.mk).getD p.value⟩ := by
  rcases f with ⟨num, val⟩
  cases val with
  | varint v => rfl
  | fixed64 bs => rfl
  | fixed32 bs => rfl
  | len bs =>
      show p.assign num bs = _
      unfold Payload.assign Field.len?
      split_ifs <;> simp_all

theorem foldl_payloadStep (fs : List Field) :
    fs.foldl payloadStep .empty =
      ⟨Utf8.decode (lastLen 1 [] fs), Utf8.decode (lastLen 2 [] fs), Utf8.decode (lastLen 3 [] fs),
        Utf8.decode (lastLen 4 [] fs), ⟨lastLen 5 [] fs⟩⟩ := by
  have hnil : "" = Utf8.decode [] := rfl
  apply Payload.ext
  · exact foldl_lastLen Payload.sourcePort _ 1 (fun q f => by rw [payloadStep_eq]) fs .empty hnil
  · exact foldl_lastLen Payload.destPort _ 2 (fun q f => by rw [payloadStep_eq]) fs .empty hnil
  · exact foldl_lastLen Payload.version _ 3 (fun q f => by rw [payloadStep_eq]) fs .empty hnil
  · exact foldl_lastLen Payload.encoding _ 4 (fun q f => by rw [payloadStep_eq]) fs .empty hnil
  · exact foldl_lastLen Payload.value _ 5 (fun q f => by rw [payloadStep_eq]) fs .empty rfl

theorem decodePayload_of_encodes {p : Payload} {bs : Bytes} (h : EncodesPayload p bs) :
    decodePayload bs = .ok p := by
  rcases h with ⟨fs, hmsg, hp⟩
  have hloop : untilDone payloadBody .empty bs = .ok (fs.foldl payloadStep .empty) :=
    untilDone_message hmsg (fun f _ q vbs rest hval => payloadField_of_isValue q f vbs rest hval) _
  rw [decodePayload, hloop, foldl_payloadStep, hp.sourcePort, hp.destPort, hp.version, hp.encoding,
    hp.value]
  simp only [Utf8.decode_encode]

/-! ## `decodePacket` -/

/-- The payload of a length-delimited field, when it decodes. -/
def payload? (bs : Bytes) : Option Payload := (decodePayload bs).toOption

/-- What one field of the grammar does to the packet being read, its payload decoding. -/
def packetStep (pkt : Packet) (f : Field) : Packet :=
  ⟨(f.varint? 1).getD pkt.sequence,
    ((f.len? 2).map Utf8.decode).getD pkt.sourceClient,
    ((f.len? 3).map Utf8.decode).getD pkt.destClient,
    (f.varint? 4).getD pkt.timeoutTimestamp,
    pkt.payloads ++ ((f.len? 5).bind payload?).toList⟩

theorem packetField_of_isValue (pkt : Packet) (f : Field) (bs rest : Bytes)
    (h : IsValue f.val bs) (hok : ∀ b ∈ f.len? 5, ∃ p, decodePayload b = .ok p) :
    packetField pkt ⟨f.num, f.val.wireType⟩ (bs ++ rest) = .ok (packetStep pkt f, rest) := by
  have hskip := skip_of_isValue h rest
  rcases f with ⟨num, val⟩
  cases h with
  | fixed64 => simp_all [packetField, packetStep, Value.wireType, Field.varint?, Field.len?]
  | fixed32 => simp_all [packetField, packetStep, Value.wireType, Field.varint?, Field.len?]
  | varint hv =>
      simp only [packetField, packetStep, Value.wireType, Field.varint?, Field.len?,
        varint_of_isVarint hv] at hskip ⊢
      split_ifs <;> simp_all
  | @len vbs n hlen =>
      simp only [packetField, packetStep, Value.wireType, Field.varint?, Field.len?,
        List.append_assoc, bytes_of_isVarint hlen] at hskip hok ⊢
      by_cases h5 : num = 5
      · subst h5
        rcases hok vbs (by simp) with ⟨p, hp⟩
        simp [hp, payload?, Except.toOption]
      · split_ifs <;> simp_all

theorem foldl_packetStep (fs : List Field) :
    fs.foldl packetStep .empty =
      ⟨lastVarint 1 0 fs, Utf8.decode (lastLen 2 [] fs), Utf8.decode (lastLen 3 [] fs),
        lastVarint 4 0 fs, (allLen 5 fs).filterMap payload?⟩ := by
  have hnil : "" = Utf8.decode [] := rfl
  apply Packet.ext
  · exact foldl_lastVarint Packet.sequence 1 (fun q f => rfl) fs .empty
  · exact foldl_lastLen Packet.sourceClient _ 2 (fun q f => rfl) fs .empty hnil
  · exact foldl_lastLen Packet.destClient _ 3 (fun q f => rfl) fs .empty hnil
  · exact foldl_lastVarint Packet.timeoutTimestamp 4 (fun q f => rfl) fs .empty
  · exact foldl_allLen Packet.payloads payload? 5 (fun q f => rfl) fs .empty

/-- Payload encodings decode, in order, to the payloads. -/
theorem filterMap_payload? {ps : List Payload} {bss : List Bytes}
    (h : List.Forall₂ EncodesPayload ps bss) : bss.filterMap payload? = ps := by
  induction h with
  | nil => rfl
  | @cons p bs ps bss hp _ ih =>
      have hsome : payload? bs = some p := by
        rw [payload?, decodePayload_of_encodes hp]
        rfl
      rw [List.filterMap_cons_some hsome, ih]

theorem decodePayload_of_mem {ps : List Payload} {bss : List Bytes}
    (h : List.Forall₂ EncodesPayload ps bss) {bs : Bytes} (hbs : bs ∈ bss) :
    ∃ p, decodePayload bs = .ok p := by
  induction h with
  | nil => cases hbs
  | @cons p _ _ _ hp _ ih =>
      rcases List.mem_cons.mp hbs with rfl | hrest
      · exact ⟨p, decodePayload_of_encodes hp⟩
      · exact ih hrest

theorem untilDone_packet {pkt : Packet} {bs : Bytes} (h : EncodesPacket pkt bs) :
    untilDone packetBody .empty bs = .ok pkt := by
  rcases h with ⟨fs, hmsg, hpkt⟩
  -- every payload of the message is one of the packet's, so none fails to decode
  have hok : ∀ f ∈ fs, ∀ b ∈ f.len? 5, ∃ p, decodePayload b = .ok p := by
    intro f hf b hb
    exact decodePayload_of_mem hpkt.payloads (List.mem_filterMap.mpr ⟨f, hf, hb⟩)
  have hloop : untilDone packetBody .empty bs = .ok (fs.foldl packetStep .empty) :=
    untilDone_message hmsg
      (fun f hf q vbs rest hval => packetField_of_isValue q f vbs rest hval (hok f hf)) _
  rw [hloop, foldl_packetStep, hpkt.sequence, hpkt.sourceClient, hpkt.destClient,
    hpkt.timeoutTimestamp, filterMap_payload? hpkt.payloads]
  simp only [Utf8.decode_encode]

/-! ## The hexadecimal argument -/

/-- `hex` is hexadecimal text for `bs`, in any case, with the leading `0x` or without it. -/
def IsHexText (hex : String) (bs : Bytes) : Prop :=
  ∃ cs, Hex.HexOf cs bs ∧ (hex = String.ofList ('0' :: 'x' :: cs) ∨ hex = String.ofList cs)

/-- Digits never start with `0x`, so there is nothing to strip from them. -/
theorem strip0x_of_hexOf {cs : List Char} {bs : Bytes} (h : Hex.HexOf cs bs) :
    strip0x cs = cs := by
  cases h with
  | nil => rfl
  | cons _ hb _ =>
      unfold strip0x
      split
      · rename_i heq
        cases heq
        exact absurd hb (by decide +revert)
      · rfl

theorem parse_strip0x {hex : String} {bs : Bytes} (h : IsHexText hex bs) :
    Hex.parse (strip0x hex.toList) = bs := by
  rcases h with ⟨cs, hcs, rfl | rfl⟩
  · rw [String.toList_ofList]
    exact Hex.parse_of_hexOf hcs
  · rw [String.toList_ofList, strip0x_of_hexOf hcs]
    exact Hex.parse_of_hexOf hcs

/-- **The packet decoder is correct.** Whatever well-formed encoding of a packet it is given —
fields in any order, scalars repeated, unknown fields at either level, over-long varints, defaults
written or left out — `decodePacket` returns exactly that packet, its payloads in order. -/
theorem decodePacket_encoding (pkt : Packet) (bs : Bytes) (hex : String)
    (henc : EncodesPacket pkt bs) (hhex : IsHexText hex bs) : decodePacket hex = .ok pkt := by
  rw [decodePacket, parse_strip0x hhex]
  exact untilDone_packet henc

/-- An unknown fixed32 field first, the timeout over-long and before the payload, the payload with
an unknown varint inside, and the sequence written twice. -/
theorem decodePacket_encoding_shuffled :
    decodePacket (HexString.text ⟨[0x3d, 1, 2, 3, 4, 0x20, 0x85, 0x00, 0x2a, 5, 0x0a, 1, 0x61, 0x30,
      7, 0x08, 3, 0x08, 1]⟩) = .ok ⟨1, "", "", 5, [⟨"a", "", "", "", ⟨[]⟩⟩]⟩ := by
  have hpayload : EncodesPayload ⟨"a", "", "", "", ⟨[]⟩⟩ [0x0a, 1, 0x61, 0x30, 7] := by
    refine ⟨[⟨1, .len [0x61]⟩, ⟨6, .varint 7⟩], ?_, ⟨rfl, rfl, rfl, rfl, rfl⟩⟩
    have hport : IsField ⟨1, .len [0x61]⟩ [0x0a, 1, 0x61] :=
      isField_short (by decide) (by decide) (isValue_len_short (by decide))
    have hunknown : IsField ⟨6, .varint 7⟩ [0x30, 7] :=
      isField_short (by decide) (by decide) (.varint (isVarint_byte (by decide)))
    exact .cons hport (.cons hunknown .nil)
  have hfixed : IsField ⟨7, .fixed32 [1, 2, 3, 4]⟩ [0x3d, 1, 2, 3, 4] :=
    isField_short (by decide) (by decide) (.fixed32 rfl)
  have hlong : IsVarint 5 [0x85, 0x00] :=
    IsVarint.more (b := 0x85) (v := 0) (by decide) (isVarint_byte (by decide))
  have htimeout : IsField ⟨4, .varint 5⟩ [0x20, 0x85, 0x00] :=
    isField_short (by decide) (by decide) (.varint hlong)
  have hpay : IsField ⟨5, .len [0x0a, 1, 0x61, 0x30, 7]⟩ [0x2a, 5, 0x0a, 1, 0x61, 0x30, 7] :=
    isField_short (by decide) (by decide) (isValue_len_short (by decide))
  have hthree : IsField ⟨1, .varint 3⟩ [0x08, 3] :=
    isField_short (by decide) (by decide) (.varint (isVarint_byte (by decide)))
  have hone : IsField ⟨1, .varint 1⟩ [0x08, 1] :=
    isField_short (by decide) (by decide) (.varint (isVarint_byte (by decide)))
  refine decodePacket_encoding _ _ _ ⟨_, .cons hfixed (.cons htimeout (.cons hpay (.cons hthree
    (.cons hone .nil)))), ⟨rfl, rfl, rfl, rfl, .cons hpayload .nil⟩⟩ ?_
  exact ⟨_, Hex.hexOf_toHex _, Or.inl rfl⟩

end PqcMigration.Devnet
