/-
# PqcMigration.Devnet.Commitment — the commitment scheme of `devnet/lib/packet.js`, and its binding.

The store holds, under `<client> ‖ 0x01 ‖ sequence`, the commitment of a packet, and under
`<client> ‖ 0x03 ‖ sequence` the commitment of its acknowledgements. Both commitments start with the
SAME byte `0x02`; what keeps the two kinds apart is the byte in the key, and what fixes its position
is that the sequence after it always takes eight bytes.

The hash computations are written as `Hashed` values, so the messages they hash are part of the
model. `store_entries_bind`: two entries with equal key and equal value agree in everything that was
committed to, or a collision stands among those messages.
-/
import Mathlib.Data.Nat.Digits.Lemmas
import PqcMigration.Devnet.Packet
import PqcMigration.Lib.Hashed
import PqcMigration.Lib.Sha256

namespace PqcMigration.Devnet

open Lib

/-! ## The ethers functions the file calls -/

/-- What `packet.js` uses of ethers. Byte strings stand for `BytesLike` values; `none` is a throw. -/
structure Ethers where
  sha256 : Bytes → Bytes32
  toUtf8Bytes : String → Bytes
  concat : List Bytes → Bytes
  toBeHex : ℕ → Bytes
  zeroPadValue : Bytes → ℕ → Option Bytes

/-- Their documented behaviour. -/
structure Ethers.Documented (E : Ethers) : Prop where
  toUtf8Bytes_eq : ∀ s, E.toUtf8Bytes s = Utf8.encode s
  concat_eq : ∀ bss, E.concat bss = bss.flatten
  -- `toBeHex` writes the value big-endian in as few bytes as it takes, at least one
  beNat_toBeHex : ∀ n, beNat (E.toBeHex n) = n
  length_toBeHex : ∀ n k, 0 < k → n < 256 ^ k → (E.toBeHex n).length ≤ k
  -- `zeroPadValue` pads on the left, and throws when the data is longer already
  zeroPadValue_eq : ∀ bs n, E.zeroPadValue bs n =
    if bs.length ≤ n then some (List.replicate (n - bs.length) 0 ++ bs) else none

variable (E : Ethers)

/-! ## Commitments and keys -/

/-- `sha256(..)`, remembering what it hashed. -/
def sha256 (bs : Bytes) : Hashed Bytes Bytes32 := ask E.sha256 bs

def hashPayload (p : Payload) : Hashed Bytes Bytes32 := do
  let sourcePort ← sha256 E (E.toUtf8Bytes p.sourcePort)
  let destPort ← sha256 E (E.toUtf8Bytes p.destPort)
  let version ← sha256 E (E.toUtf8Bytes p.version)
  let encoding ← sha256 E (E.toUtf8Bytes p.encoding)
  let value ← sha256 E p.value.bytes
  sha256 E (E.concat [sourcePort.1, destPort.1, version.1, encoding.1, value.1])

/-- `for (const x of xs) bytes = concat([bytes, hash(x)])`, the loop of both commitments. -/
def concatHashes {ι : Type} (hash : ι → Hashed Bytes Bytes32) (acc : Bytes) :
    List ι → Hashed Bytes Bytes
  | [] => pure acc
  | x :: xs => do
      let h ← hash x
      concatHashes hash (E.concat [acc, h.1]) xs

/-- `zeroPadValue(toBeHex(n), 8)`. -/
def uint64BE (n : ℕ) : Option Bytes := E.zeroPadValue (E.toBeHex n) 8

/-- The hashing part of `packetCommitment`, after the timeout is written. -/
def hashPacket (pkt : Packet) (timeoutBE : Bytes) : Hashed Bytes Bytes32 := do
  let appBytes ← concatHashes E (hashPayload E) [] pkt.payloads
  let destClient ← sha256 E (E.toUtf8Bytes pkt.destClient)
  let timeout ← sha256 E timeoutBE
  let app ← sha256 E appBytes
  sha256 E (E.concat [[0x02], destClient.1, timeout.1, app.1])

def packetCommitment (pkt : Packet) : Option (Hashed Bytes Bytes32) := do
  let timeoutBE ← uint64BE E pkt.timeoutTimestamp
  return hashPacket E pkt timeoutBE

def ackCommitment (acks : List HexString) : Hashed Bytes Bytes32 := do
  let ackBytes ← concatHashes E (fun a => sha256 E a.bytes) [] acks
  sha256 E (E.concat [[0x02], ackBytes])

/-- A store key: the client, a tag byte, the sequence. -/
def storeKey (tag : UInt8) (clientId : String) (seq : ℕ) : Option Bytes := do
  let seqBE ← uint64BE E seq
  return E.concat [E.toUtf8Bytes clientId, [tag], seqBE]

def packetCommitmentKey (clientId : String) (seq : ℕ) : Option Bytes :=
  storeKey E 0x01 clientId seq

def packetAckKey (clientId : String) (seq : ℕ) : Option Bytes := storeKey E 0x03 clientId seq

/-! ## Store entries -/

/-- What a store entry is made for. -/
inductive Entry where
  | packet (clientId : String) (seq : ℕ) (pkt : Packet)
  | ack (clientId : String) (seq : ℕ) (acks : List HexString)

namespace Entry

def key : Entry → Option Bytes
  | .packet clientId seq _ => packetCommitmentKey E clientId seq
  | .ack clientId seq _ => packetAckKey E clientId seq

def value : Entry → Option (Hashed Bytes Bytes32)
  | .packet _ _ pkt => packetCommitment E pkt
  | .ack _ _ acks => some (ackCommitment E acks)

/-- Sequence and timeout are 64-bit numbers. -/
def InRange : Entry → Prop
  | .packet _ seq pkt => seq < 2 ^ 64 ∧ pkt.timeoutTimestamp < 2 ^ 64
  | .ack _ seq _ => seq < 2 ^ 64

/-- Same kind, client and sequence. -/
def SameSlot : Entry → Entry → Prop
  | .packet c s _, .packet c' s' _ => c = c' ∧ s = s'
  | .ack c s _, .ack c' s' _ => c = c' ∧ s = s'
  | _, _ => False

/-- Same destination, timeout and payloads; or the same acknowledgements. -/
def SameContent : Entry → Entry → Prop
  | .packet _ _ p, .packet _ _ p' =>
      p.destClient = p'.destClient ∧ p.timeoutTimestamp = p'.timeoutTimestamp ∧
        p.payloads = p'.payloads
  | .ack _ _ as, .ack _ _ as' => as = as'
  | _, _ => False

end Entry

variable {E} (hE : E.Documented)

include hE

/-! ## Numbers -/

/-- In range, eight bytes that write the number. -/
theorem uint64BE_eq_some {n : ℕ} (hn : n < 2 ^ 64) :
    ∃ bs, uint64BE E n = some bs ∧ bs.length = 8 ∧ beNat bs = n := by
  have hlen : (E.toBeHex n).length ≤ 8 := hE.length_toBeHex n 8 (by decide) (by omega)
  refine ⟨_, by rw [uint64BE, hE.zeroPadValue_eq, if_pos hlen], ?_, ?_⟩
  · rw [List.length_append, List.length_replicate]
    omega
  · rw [beNat_replicate_zero_append, hE.beNat_toBeHex]

/-! ## Keys -/

theorem storeKey_eq_some (tag : UInt8) (clientId : String) {seq : ℕ} (hseq : seq < 2 ^ 64) :
    ∃ k bs, storeKey E tag clientId seq = some k ∧ k = Utf8.encode clientId ++ tag :: bs ∧
      bs.length = 8 ∧ beNat bs = seq := by
  rcases uint64BE_eq_some hE hseq with ⟨bs, hbs, hlen, hnat⟩
  refine ⟨_, bs, by rw [storeKey, hbs]; rfl, ?_, hlen, hnat⟩
  simp [hE.concat_eq, hE.toUtf8Bytes_eq]

omit hE in
/-- Keys are read from the right: eight bytes of sequence, one tag, the client. -/
theorem keys_injective {c c' : String} {t t' : UInt8} {bs bs' : Bytes} (hlen : bs.length = 8)
    (hlen' : bs'.length = 8) (h : Utf8.encode c ++ t :: bs = Utf8.encode c' ++ t' :: bs') :
    c = c' ∧ t = t' ∧ bs = bs' := by
  have hsplit := List.append_inj' h (by simp [hlen, hlen'])
  rcases hsplit with ⟨hc, htail⟩
  rcases List.cons.inj htail with ⟨ht, hbs⟩
  exact ⟨Utf8.encode_injective hc, ht, hbs⟩

/-! ## Commitments -/

/-- Concatenated digests are read off in blocks of 32 bytes. -/
theorem concat_digests_injective {ds ds' : List Bytes32} (hlen : ds.length = ds'.length)
    (h : E.concat (ds.map Subtype.val) = E.concat (ds'.map Subtype.val)) : ds = ds' := by
  rw [hE.concat_eq, hE.concat_eq] at h
  induction ds generalizing ds' with
  | nil => exact (List.length_eq_zero_iff.mp hlen.symm).symm
  | cons d ds ih =>
      cases ds' with
      | nil => cases hlen
      | cons d' ds' =>
          have hsplit := List.append_inj h (d.2.trans d'.2.symm)
          rw [Subtype.ext hsplit.1, ih (Nat.succ.inj hlen) hsplit.2]

omit hE in
theorem sha256_binds (x y : Bytes) : Binds E.sha256 (sha256 E x) (sha256 E y) (x = y) :=
  Binds.ask x y

/-- A digest of UTF-8 text binds the text. -/
theorem sha256_text_binds (s s' : String) :
    Binds E.sha256 (sha256 E (E.toUtf8Bytes s)) (sha256 E (E.toUtf8Bytes s')) (s = s') := by
  refine (sha256_binds _ _).imp fun h => ?_
  rw [hE.toUtf8Bytes_eq, hE.toUtf8Bytes_eq] at h
  exact Utf8.encode_injective h

theorem hashPayload_binds (p p' : Payload) :
    Binds E.sha256 (hashPayload E p) (hashPayload E p') (p = p') := by
  have hpacked : ∀ {s d v e x s' d' v' e' x' : Bytes32},
      E.concat [s.1, d.1, v.1, e.1, x.1] = E.concat [s'.1, d'.1, v'.1, e'.1, x'.1] →
        [s, d, v, e, x] = [s', d', v', e', x'] := fun h => concat_digests_injective hE rfl h
  simp only [List.cons.injEq, and_true] at hpacked
  refine (Binds.bind (sha256_text_binds hE _ _) (Binds.bind (sha256_text_binds hE _ _)
    (Binds.bind (sha256_text_binds hE _ _) (Binds.bind (sha256_text_binds hE _ _)
      (Binds.bind (sha256_binds _ _) (sha256_binds _ _) ?_) ?_) ?_) ?_) ?_).imp ?_
  · exact fun h => (hpacked h).2.2.2.2
  · exact fun h => (hpacked h.2).2.2.2.1
  · exact fun h => (hpacked h.2.2).2.2.1
  · exact fun h => (hpacked h.2.2.2).2.1
  · exact fun h => (hpacked h.2.2.2.2).1
  · rintro ⟨hsource, hdest, hversion, hencoding, hvalue, -⟩
    exact Payload.ext hsource hdest hversion hencoding (HexString.ext hvalue)

/-- The concatenation loop adds one digest a turn. -/
theorem length_concatHashes {ι : Type} (hash : ι → Hashed Bytes Bytes32) (xs : List ι)
    (acc : Bytes) : (concatHashes E hash acc xs).val.length = acc.length + 32 * xs.length := by
  induction xs generalizing acc with
  | nil => rfl
  | cons x xs ih =>
      show (concatHashes E hash (E.concat [acc, (hash x).val.1]) xs).val.length = _
      rw [ih, hE.concat_eq]
      simp only [List.flatten_cons, List.flatten_nil, List.length_append, List.length_nil,
        (hash x).val.2, List.length_cons]
      omega

/-- The concatenation loop binds the list, when each digest binds its element. -/
theorem concatHashes_binds {ι : Type} {hash : ι → Hashed Bytes Bytes32}
    (hbind : ∀ x y, Binds E.sha256 (hash x) (hash y) (x = y)) (xs ys : List ι) {acc acc' : Bytes}
    (hlen : acc.length = acc'.length) :
    Binds E.sha256 (concatHashes E hash acc xs) (concatHashes E hash acc' ys)
      (acc = acc' ∧ xs = ys) := by
  induction xs generalizing ys acc acc' with
  | nil =>
      cases ys with
      | nil => exact (Binds.pure acc acc').imp fun h => ⟨h, rfl⟩
      | cons y ys =>
          intro h
          have hl := congrArg List.length h
          rw [length_concatHashes hE, length_concatHashes hE] at hl
          simp only [List.length_nil, List.length_cons] at hl
          omega
  | cons x xs ih =>
      cases ys with
      | nil =>
          intro h
          have hl := congrArg List.length h
          rw [length_concatHashes hE, length_concatHashes hE] at hl
          simp only [List.length_nil, List.length_cons] at hl
          omega
      | cons y ys =>
          have hacc : ∀ {d d' : Bytes32}, E.concat [acc, d.1] = E.concat [acc', d'.1] →
              acc = acc' ∧ d = d' := by
            intro d d' h
            simp only [hE.concat_eq, List.flatten_cons, List.flatten_nil, List.append_nil] at h
            have hsplit := List.append_inj h hlen
            exact ⟨hsplit.1, Subtype.ext hsplit.2⟩
          refine (Binds.bind (hbind x y) (ih ys ?_) fun h => (hacc h.1).2).imp ?_
          · simp [hE.concat_eq, hlen, (hash x).val.2, (hash y).val.2]
          · rintro ⟨rfl, h, rfl⟩
            exact ⟨(hacc h).1, rfl⟩

/-- The packet hash binds the destination, the written timeout and the payloads. -/
theorem hashPacket_binds (pkt pkt' : Packet) (t t' : Bytes) :
    Binds E.sha256 (hashPacket E pkt t) (hashPacket E pkt' t')
      (pkt.destClient = pkt'.destClient ∧ t = t' ∧ pkt.payloads = pkt'.payloads) := by
  have hpacked : ∀ {c u a c' u' a' : Bytes32},
      E.concat [[0x02], c.1, u.1, a.1] = E.concat [[0x02], c'.1, u'.1, a'.1] →
        c = c' ∧ u = u' ∧ a = a' := by
    intro c u a c' u' a' h
    rw [hE.concat_eq, hE.concat_eq] at h
    have htail : E.concat [c.1, u.1, a.1] = E.concat [c'.1, u'.1, a'.1] := by
      rw [hE.concat_eq, hE.concat_eq]
      exact List.append_cancel_left h
    have hds : [c, u, a] = [c', u', a'] := concat_digests_injective hE rfl htail
    simpa using hds
  refine (Binds.bind (concatHashes_binds hE (hashPayload_binds hE) _ _ rfl)
    (Binds.bind (sha256_text_binds hE _ _) (Binds.bind (sha256_binds _ _)
      (Binds.bind (sha256_binds _ _) (sha256_binds _ _) ?_) ?_) ?_) ?_).imp ?_
  · exact fun h => (hpacked h).2.2
  · exact fun h => (hpacked h.2).2.1
  · exact fun h => (hpacked h.2.2).1
  · exact fun h => h.2.2.1
  · exact fun h => ⟨h.2.1, h.2.2.1, h.1.2⟩

/-- The acknowledgement hash binds the list: the concatenated digests are not hashed again, and
their number shows in the length. -/
theorem ackCommitment_binds (acks acks' : List HexString) :
    Binds E.sha256 (ackCommitment E acks) (ackCommitment E acks') (acks = acks') := by
  have hack : ∀ a b : HexString,
      Binds E.sha256 (sha256 E a.bytes) (sha256 E b.bytes) (a = b) :=
    fun a b => (sha256_binds _ _).imp HexString.ext
  have hlist := concatHashes_binds hE hack acks acks' (rfl : ([] : Bytes).length = 0)
  refine Binds.imp (Binds.bind hlist (sha256_binds (E.concat _) (E.concat _)) ?_) fun h => h.1.2
  intro h
  rw [hE.concat_eq, hE.concat_eq] at h
  simpa using h

/-! ## Two entries -/

namespace Entry

theorem key_eq_some {e : Entry} (he : e.InRange) : ∃ k, e.key E = some k := by
  cases e with
  | packet clientId seq pkt =>
      rcases storeKey_eq_some hE 0x01 clientId he.1 with ⟨k, _, hk, _⟩
      exact ⟨k, hk⟩
  | ack clientId seq acks =>
      rcases storeKey_eq_some hE 0x03 clientId he with ⟨k, _, hk, _⟩
      exact ⟨k, hk⟩

theorem value_eq_some {e : Entry} (he : e.InRange) : ∃ v, e.value E = some v := by
  cases e with
  | packet clientId seq pkt =>
      rcases uint64BE_eq_some hE he.2 with ⟨bs, hbs, _⟩
      refine ⟨hashPacket E pkt bs, ?_⟩
      show packetCommitment E pkt = _
      rw [packetCommitment, hbs]
      rfl
  | ack clientId seq acks => exact ⟨_, rfl⟩

/-- Equal keys: same kind, client and sequence. The two tags differ, and nothing else could. -/
theorem sameSlot_of_key_eq {e e' : Entry} (he : e.InRange) (he' : e'.InRange)
    (h : e.key E = e'.key E) : e.SameSlot e' := by
  have hkeys : ∀ {t t' : UInt8} {c c' : String} {s s' : ℕ}, s < 2 ^ 64 → s' < 2 ^ 64 →
      storeKey E t c s = storeKey E t' c' s' → c = c' ∧ s = s' ∧ t = t' := by
    intro t t' c c' s s' hs hs' heq
    rcases storeKey_eq_some hE t c hs with ⟨k, bs, hk, hkeq, hlen, hnat⟩
    rcases storeKey_eq_some hE t' c' hs' with ⟨k', bs', hk', hkeq', hlen', hnat'⟩
    rw [hk, hk', Option.some.injEq, hkeq, hkeq'] at heq
    rcases keys_injective hlen hlen' heq with ⟨hc, ht, hbs⟩
    exact ⟨hc, by rw [← hnat, ← hnat', hbs], ht⟩
  cases e with
  | packet c s p =>
      cases e' with
      | packet c' s' p' =>
          have hall := hkeys he.1 he'.1 h
          exact ⟨hall.1, hall.2.1⟩
      | ack c' s' as' => exact absurd (hkeys he.1 he' h).2.2 (by decide)
  | ack c s as =>
      cases e' with
      | packet c' s' p' => exact absurd (hkeys he he'.1 h).2.2 (by decide)
      | ack c' s' as' =>
          have hall := hkeys he he' h
          exact ⟨hall.1, hall.2.1⟩

/-- Equal values of entries of one kind: same content, or a collision. -/
theorem value_binds {e e' : Entry} (he : e.InRange) (he' : e'.InRange) (hslot : e.SameSlot e')
    {v v' : Hashed Bytes Bytes32} (hv : e.value E = some v) (hv' : e'.value E = some v') :
    Binds E.sha256 v v' (e.SameContent e') := by
  cases e with
  | packet c s p =>
      cases e' with
      | packet c' s' p' =>
          rcases uint64BE_eq_some hE he.2 with ⟨bs, hbs, _, hnat⟩
          rcases uint64BE_eq_some hE he'.2 with ⟨bs', hbs', _, hnat'⟩
          have hval : hashPacket E p bs = v := by
            simpa [value, packetCommitment, hbs] using hv
          have hval' : hashPacket E p' bs' = v' := by
            simpa [value, packetCommitment, hbs'] using hv'
          rw [← hval, ← hval']
          refine (hashPacket_binds hE p p' bs bs').imp ?_
          rintro ⟨hdest, hbytes, hpayloads⟩
          exact ⟨hdest, by rw [← hnat, ← hnat', hbytes], hpayloads⟩
      | ack c' s' as' => exact absurd hslot id
  | ack c s as =>
      cases e' with
      | packet c' s' p' => exact absurd hslot id
      | ack c' s' as' =>
          rw [← Option.some.inj hv, ← Option.some.inj hv']
          exact ackCommitment_binds hE as as'

end Entry

/-- **Store entries are binding.** Entries with 64-bit sequences and timeouts have a key and a
value; when both keys and both values are equal, the entries are of the same kind, client and
sequence, and they commit to the same content — or a SHA-256 collision stands among the messages
hashed for the two values. -/
theorem store_entries_bind (e e' : Entry) (he : e.InRange) (he' : e'.InRange) :
    ∃ k k' v v', e.key E = some k ∧ e'.key E = some k' ∧
      e.value E = some v ∧ e'.value E = some v' ∧
      (k = k' → v.val = v'.val →
        e.SameSlot e' ∧ (e.SameContent e' ∨ CollisionIn E.sha256 v.inputs v'.inputs)) := by
  rcases Entry.key_eq_some hE he with ⟨k, hk⟩
  rcases Entry.key_eq_some hE he' with ⟨k', hk'⟩
  rcases Entry.value_eq_some hE he with ⟨v, hv⟩
  rcases Entry.value_eq_some hE he' with ⟨v', hv'⟩
  refine ⟨k, k', v, v', hk, hk', hv, hv', ?_⟩
  intro hkey hval
  have hslot := Entry.sameSlot_of_key_eq hE he he' (by rw [hk, hk', hkey])
  exact ⟨hslot, Entry.value_binds hE he he' hslot hv hv' hval⟩

omit hE

/-! ## A model of the ethers functions -/

/-- Big-endian, in as few bytes as it takes, at least one. -/
def toBeHex (n : ℕ) : Bytes := beBytes (max 1 (Nat.digits 256 n).length) n

/-- The functions as documented, with SHA-256 itself. -/
def ethers : Ethers where
  sha256 := Sha256.sha256
  toUtf8Bytes := Utf8.encode
  concat := List.flatten
  toBeHex := toBeHex
  zeroPadValue bs n :=
    if bs.length ≤ n then some (List.replicate (n - bs.length) 0 ++ bs) else none

theorem ethers_documented : ethers.Documented where
  toUtf8Bytes_eq _ := rfl
  concat_eq _ := rfl
  beNat_toBeHex n := by
    apply beNat_beBytes
    calc n < 256 ^ (Nat.digits 256 n).length := Nat.lt_base_pow_length_digits (by decide)
      _ ≤ 256 ^ max 1 (Nat.digits 256 n).length :=
          Nat.pow_le_pow_right (by decide) (Nat.le_max_right _ _)
  length_toBeHex n k hk hn := by
    show (toBeHex n).length ≤ k
    rw [toBeHex, length_beBytes]
    exact Nat.max_le.mpr ⟨hk, (Nat.digits_length_le_iff (by decide) n).mpr hn⟩
  zeroPadValue_eq _ _ := rfl

/-- Two packets under one key that differ in their timeout only. -/
theorem store_entries_bind_timeouts :
    ∃ k k' v v',
      (Entry.packet "08-wasm-0" 1 ⟨1, "08-wasm-0", "client-0", 5, []⟩).key ethers = some k ∧
      (Entry.packet "08-wasm-0" 1 ⟨1, "08-wasm-0", "client-0", 6, []⟩).key ethers = some k' ∧
      (Entry.packet "08-wasm-0" 1 ⟨1, "08-wasm-0", "client-0", 5, []⟩).value ethers = some v ∧
      (Entry.packet "08-wasm-0" 1 ⟨1, "08-wasm-0", "client-0", 6, []⟩).value ethers = some v' ∧
      (k = k' → v.val = v'.val →
        ("08-wasm-0" = "08-wasm-0" ∧ 1 = 1) ∧
          (("client-0" = "client-0" ∧ 5 = 6 ∧ ([] : List Payload) = []) ∨
            CollisionIn Sha256.sha256 v.inputs v'.inputs)) :=
  store_entries_bind ethers_documented
    (.packet "08-wasm-0" 1 ⟨1, "08-wasm-0", "client-0", 5, []⟩)
    (.packet "08-wasm-0" 1 ⟨1, "08-wasm-0", "client-0", 6, []⟩)
    ⟨by decide, by decide⟩ ⟨by decide, by decide⟩

end PqcMigration.Devnet
