/-
# PqcMigration.Devnet.Packet — the protobuf reader and packet decoder of `devnet/lib/packet.js`.

A reader is a cursor into a buffer; here it is the bytes from the cursor on. Nothing depends on the
difference: past the end every read of `buf[i]` is `undefined`, whose bits are all zero, so a cursor
beyond the end behaves as one at the end — the empty suffix.

JavaScript numbers: `x` and `shift` are BigInt. `field`, `wire` and lengths go through `Number(..)`,
which is exact below 2^53 and never brings a larger value below it; buffers are shorter than that,
and the code compares field and wire numbers with single digits only, so naturals are exact here.

A `0x…` string is a `HexString`: the bytes it writes. The code only ever makes one as
`"0x" + b.toString("hex")`, and that text determines the bytes.
-/
import PqcMigration.Lib.Hex
import PqcMigration.Lib.Utf8

namespace PqcMigration.Devnet

open Lib

/-! ## The data -/

/-- A `0x…` string, by the bytes it writes. -/
@[ext]
structure HexString where
  bytes : Bytes
  deriving DecidableEq

/-- The string itself. -/
def HexString.text (h : HexString) : String := String.ofList ('0' :: 'x' :: Hex.toHex h.bytes)

@[ext]
structure Payload where
  sourcePort : String
  destPort : String
  version : String
  encoding : String
  value : HexString
  deriving DecidableEq

@[ext]
structure Packet where
  sequence : ℕ
  sourceClient : String
  destClient : String
  timeoutTimestamp : ℕ
  payloads : List Payload
  deriving DecidableEq

/-- The one error the code throws: ``unsupported wire type ${wire}``. -/
inductive ReadError where
  | unsupportedWireType (wire : ℕ)
  deriving DecidableEq

/-! ## `reader` -/

/-- The loop of `varint`: `x |= BigInt(b & 0x7f) << shift` until a byte without the high bit. -/
def varintLoop (x shift : ℕ) : Bytes → ℕ × Bytes
  -- `buf[i]` is `undefined` past the end: no bits, and no continuation bit
  | [] => (x ||| (0 <<< shift), [])
  | b :: rest =>
      let x := x ||| ((b.toNat &&& 0x7f) <<< shift)
      if b.toNat &&& 0x80 = 0 then (x, rest) else varintLoop x (shift + 7) rest

def varint (rest : Bytes) : ℕ × Bytes := varintLoop 0 0 rest

structure Key where
  field : ℕ
  wire : ℕ

def key (rest : Bytes) : Key × Bytes :=
  let k := varint rest
  (⟨k.1 >>> 3, k.1 &&& 7⟩, k.2)

/-- `subarray(i, i + n)` stops at the end of the buffer, and so does the suffix after it. -/
def bytes (rest : Bytes) : Bytes × Bytes :=
  let n := varint rest
  (n.2.take n.1, n.2.drop n.1)

def skip (wire : ℕ) (rest : Bytes) : Except ReadError Bytes :=
  if wire = 0 then .ok (varint rest).2
  else if wire = 2 then .ok (bytes rest).2
  else if wire = 5 then .ok (rest.drop 4)
  else if wire = 1 then .ok (rest.drop 8)
  else .error (.unsupportedWireType wire)

/-! ## Every turn of a loop consumes -/

theorem varintLoop_length_le (x shift : ℕ) (rest : Bytes) :
    (varintLoop x shift rest).2.length ≤ rest.length := by
  induction rest generalizing x shift with
  | nil => simp [varintLoop]
  | cons b rest ih =>
      rw [varintLoop]
      split
      · exact Nat.le_succ _
      · exact Nat.le_succ_of_le (ih _ _)

theorem key_length_lt {rest : Bytes} (hrest : rest ≠ []) : (key rest).2.length < rest.length := by
  show (varintLoop 0 0 rest).2.length < rest.length
  cases rest with
  | nil => exact absurd rfl hrest
  | cons b rest =>
      rw [varintLoop]
      split
      · exact Nat.lt_succ_self _
      · exact Nat.lt_succ_of_le (varintLoop_length_le _ _ _)

theorem bytes_length_le (rest : Bytes) : (bytes rest).2.length ≤ rest.length := by
  show ((varint rest).2.drop _).length ≤ _
  rw [List.length_drop]
  exact (Nat.sub_le _ _).trans (varintLoop_length_le 0 0 rest)

theorem skip_length_le {wire : ℕ} {rest rest' : Bytes} (h : skip wire rest = .ok rest') :
    rest'.length ≤ rest.length := by
  unfold skip at h
  split at h
  · cases h
    exact varintLoop_length_le 0 0 rest
  split at h
  · cases h
    exact bytes_length_le rest
  split at h
  · cases h
    simp
  split at h
  · cases h
    simp
  · cases h

/-! ## The decoding loops

Both decoders are the same loop, `while (!r.done()) { const { field, wire } = r.key(); … }`; they
differ in the body. -/

/-- A loop body: what it does after the key, leaving no more bytes than it found. -/
structure Body (σ : Type) where
  run : σ → Key → Bytes → Except ReadError (σ × Bytes)
  length_le : ∀ {s : σ} {k : Key} {rest : Bytes} {r : σ × Bytes},
    run s k rest = .ok r → r.2.length ≤ rest.length

def untilDone {σ : Type} (body : Body σ) (s : σ) (rest : Bytes) : Except ReadError σ :=
  if _hrest : rest = [] then .ok s
  else
    match _hbody : body.run s (key rest).1 (key rest).2 with
    | .error err => .error err
    | .ok r => untilDone body r.1 r.2
termination_by rest.length
decreasing_by exact (body.length_le _hbody).trans_lt (key_length_lt _hrest)

theorem untilDone_nil {σ : Type} (body : Body σ) (s : σ) : untilDone body s [] = .ok s := by
  rw [untilDone, dif_pos rfl]

theorem untilDone_of_ok {σ : Type} {body : Body σ} {s : σ} {rest : Bytes} {r : σ × Bytes}
    (hrest : rest ≠ []) (hbody : body.run s (key rest).1 (key rest).2 = .ok r) :
    untilDone body s rest = untilDone body r.1 r.2 := by
  rw [untilDone, dif_neg hrest]
  split
  · rename_i herr
    rw [hbody] at herr
    cases herr
  · rename_i hok
    rw [hbody] at hok
    cases hok
    rfl

/-! ## `decodePayload` -/

/-- The assignment a length-delimited field of number `field` makes. -/
def Payload.assign (p : Payload) (field : ℕ) (b : Bytes) : Payload :=
  if field = 1 then { p with sourcePort := Utf8.decode b }
  else if field = 2 then { p with destPort := Utf8.decode b }
  else if field = 3 then { p with version := Utf8.decode b }
  else if field = 4 then { p with encoding := Utf8.decode b }
  else if field = 5 then { p with value := ⟨b⟩ }
  else p

def payloadField (p : Payload) (k : Key) (rest : Bytes) : Except ReadError (Payload × Bytes) :=
  if k.wire ≠ 2 then
    match skip k.wire rest with
    | .error err => .error err
    | .ok rest' => .ok (p, rest')
  else .ok (p.assign k.field (bytes rest).1, (bytes rest).2)

theorem skip_of_payloadField {p : Payload} {k : Key} {rest : Bytes} {r : Payload × Bytes}
    (h : payloadField p k rest = .ok r) : skip k.wire rest = .ok r.2 := by
  unfold payloadField at h
  split at h
  · split at h
    · cases h
    · rename_i hskip
      cases h
      exact hskip
  · rename_i hwire
    rw [not_not] at hwire
    cases h
    simp [skip, hwire]

theorem payloadField_length_le {p : Payload} {k : Key} {rest : Bytes} {r : Payload × Bytes}
    (h : payloadField p k rest = .ok r) : r.2.length ≤ rest.length :=
  skip_length_le (skip_of_payloadField h)

def payloadBody : Body Payload := ⟨payloadField, payloadField_length_le⟩

def Payload.empty : Payload := ⟨"", "", "", "", ⟨[]⟩⟩

def decodePayload (buf : Bytes) : Except ReadError Payload := untilDone payloadBody .empty buf

/-! ## `decodePacket` -/

def packetField (pkt : Packet) (k : Key) (rest : Bytes) : Except ReadError (Packet × Bytes) :=
  if k.field = 1 ∧ k.wire = 0 then
    .ok ({ pkt with sequence := (varint rest).1 }, (varint rest).2)
  else if k.field = 2 ∧ k.wire = 2 then
    .ok ({ pkt with sourceClient := Utf8.decode (bytes rest).1 }, (bytes rest).2)
  else if k.field = 3 ∧ k.wire = 2 then
    .ok ({ pkt with destClient := Utf8.decode (bytes rest).1 }, (bytes rest).2)
  else if k.field = 4 ∧ k.wire = 0 then
    .ok ({ pkt with timeoutTimestamp := (varint rest).1 }, (varint rest).2)
  else if k.field = 5 ∧ k.wire = 2 then
    match decodePayload (bytes rest).1 with
    | .error err => .error err
    | .ok p => .ok ({ pkt with payloads := pkt.payloads ++ [p] }, (bytes rest).2)
  else
    match skip k.wire rest with
    | .error err => .error err
    | .ok rest' => .ok (pkt, rest')

theorem skip_of_packetField {pkt : Packet} {k : Key} {rest : Bytes} {r : Packet × Bytes}
    (h : packetField pkt k rest = .ok r) : skip k.wire rest = .ok r.2 := by
  unfold packetField at h
  split at h
  · rename_i hk
    cases h
    simp [skip, hk.2]
  split at h
  · rename_i hk
    cases h
    simp [skip, hk.2]
  split at h
  · rename_i hk
    cases h
    simp [skip, hk.2]
  split at h
  · rename_i hk
    cases h
    simp [skip, hk.2]
  split at h
  · rename_i hk
    split at h
    · cases h
    · cases h
      simp [skip, hk.2]
  · split at h
    · cases h
    · rename_i hskip
      cases h
      exact hskip

theorem packetField_length_le {pkt : Packet} {k : Key} {rest : Bytes} {r : Packet × Bytes}
    (h : packetField pkt k rest = .ok r) : r.2.length ≤ rest.length :=
  skip_length_le (skip_of_packetField h)

def packetBody : Body Packet := ⟨packetField, packetField_length_le⟩

def Packet.empty : Packet := ⟨0, "", "", 0, []⟩

/-- `hex.replace(/^0x/, "")`. -/
def strip0x : List Char → List Char
  | '0' :: 'x' :: cs => cs
  | cs => cs

/-- `decodePacket(hex)`; `Buffer.from(.., "hex")` stops at the first pair that is not hexadecimal. -/
def decodePacket (hex : String) : Except ReadError Packet :=
  untilDone packetBody .empty (Hex.parse (strip0x hex.toList))

end PqcMigration.Devnet
