/-
# PqcMigration.MigrationCost.AckGuard — the check of `relay-ack-batch.js` against acknowledging a
delivery twice.

The router clears a packet's commitment when its acknowledgement lands, so the script asks the router
for the commitment of the delivery's first packet. The delivery record has the sequence numbers and not
the client they belong to; the script takes the client of the first send file in the directory that has
a packet with one of these numbers. Sequence numbers start anew with every client.

`ack_guard_iff` says when that finds the right client. `keccak256` is a parameter; of it no more is
assumed than that the keys in question have different hashes when they are different.
-/
import PqcMigration.Devnet.Commitment
import PqcMigration.MigrationCost.RelayRecvBatch

namespace PqcMigration.MigrationCost

open Lib

/-! ## The check -/

/-- `/^0x0*$/` -/
def isZeroHex : Text → Bool
  | '0' :: 'x' :: digits => digits.all (· == '0')
  | _ => false

inductive GuardError where
  /-- `${label} is already acknowledged: … the commitment for sequence ${seqs[0]}` -/
  | alreadyAcknowledged (label : Text) (sequence : ℕ)
  /-- the sequence has no eight-byte form -/
  | keyFailed (sequence : ℕ)
  deriving DecidableEq

/-- The files the script looks through, in directory order. -/
def sendGlob (dir : List (Text × SendDoc)) : List SendDoc :=
  (dir.filter fun f => "send-".toList.isPrefixOf f.1 && ".json".toList.isSuffixOf f.1).map Prod.snd

/-- `(doc.packets || []).some((pk) => seqs.includes(pk.sequence))` -/
def SendDoc.holdsAny (doc : SendDoc) (seqs : List ℕ) : Bool :=
  doc.packets.any fun pk => pk.sequence.any (· ∈ seqs)

/-- The router's commitments, under the hash of a packet's key. -/
abbrev Router := Bytes32 → Bytes32

section Guard

variable (E : Devnet.Ethers) (keccak256 : Bytes → Bytes32)

/-- The check of the commitment at a packet's key. -/
def checkCleared (router : Router) (label : Text) (sourceClient : String) (seq : ℕ) :
    Except GuardError Unit :=
  match Devnet.packetCommitmentKey E sourceClient seq with
  | none => .error (.keyFailed seq)
  | some key =>
      if isZeroHex (Devnet.HexString.text ⟨(router (keccak256 key)).1⟩).toList then
        .error (.alreadyAcknowledged label seq)
      else .ok ()

/-- The guard as a whole; `recv` are the sequences of `recv-<label>.json`, if there is one. -/
def ackGuard (router : Router) (dryRun force : Bool) (label : Text) (recv : Option (List ℕ))
    (dir : List (Text × SendDoc)) : Except GuardError Unit :=
  if dryRun || force then .ok ()
  else
    match recv with
    | none => .ok ()
    | some seqs =>
        match (sendGlob dir).find? fun doc => doc.holdsAny seqs, seqs with
        | some doc, seq :: _ => checkCleared E keccak256 router label doc.sourceClient seq
        | _, _ => .ok ()

/-- The router has cleared the commitment of a client's packet. -/
def Cleared (router : Router) (client : String) (seq : ℕ) : Prop :=
  ∀ key, Devnet.packetCommitmentKey E client seq = some key →
    (router (keccak256 key)).1 = List.replicate 32 0

end Guard

/-! ## Zero -/

theorem byteToHex_all_zero (b : UInt8) : (Hex.byteToHex b).all (· == '0') = true ↔ b = 0 := by
  have hdigit : ∀ n, n < 16 → (Hex.digit n = '0' ↔ n = 0) := by decide
  have hb := b.toNat_lt
  simp only [Hex.byteToHex, List.all_cons, List.all_nil, Bool.and_true, Bool.and_eq_true, beq_iff_eq]
  rw [hdigit _ (by omega), hdigit _ (by omega), ← UInt8.toNat_inj]
  show _ ↔ b.toNat = 0
  omega

theorem toHex_all_zero (bs : Bytes) :
    (Hex.toHex bs).all (· == '0') = true ↔ ∀ b ∈ bs, b = 0 := by
  induction bs with
  | nil => simp [Hex.toHex]
  | cons b bs ih =>
      rw [Hex.toHex, List.flatMap_cons, List.all_append, Bool.and_eq_true, byteToHex_all_zero,
        List.forall_mem_cons]
      exact and_congr_right fun _ => ih

theorem isZeroHex_text (bs : Bytes) :
    isZeroHex (Devnet.HexString.text ⟨bs⟩).toList = true ↔ ∀ b ∈ bs, b = 0 := by
  rw [Devnet.HexString.text, String.toList_ofList]
  exact toHex_all_zero bs

theorem isZeroHex_text_iff (v : Bytes32) :
    isZeroHex (Devnet.HexString.text ⟨v.1⟩).toList = true ↔ v.1 = List.replicate 32 0 := by
  rw [isZeroHex_text, List.eq_replicate_iff]
  exact ⟨fun h => ⟨v.2, h⟩, And.right⟩

/-! ## Keys -/

section Keys

variable {E : Devnet.Ethers} (hE : E.Documented)

include hE

theorem exists_key (client : String) {seq : ℕ} (hseq : seq < 2 ^ 64) :
    ∃ key, Devnet.packetCommitmentKey E client seq = some key := by
  obtain ⟨key, -, hkey, -⟩ := Devnet.storeKey_eq_some hE 0x01 client hseq
  exact ⟨key, hkey⟩

/-- A key tells its client. -/
theorem client_of_key {client client' : String} {seq seq' : ℕ} {key : Bytes} (hseq : seq < 2 ^ 64)
    (hseq' : seq' < 2 ^ 64) (hkey : Devnet.packetCommitmentKey E client seq = some key)
    (hkey' : Devnet.packetCommitmentKey E client' seq' = some key) : client = client' := by
  obtain ⟨k, bs, hk, rfl, hlen, -⟩ := Devnet.storeKey_eq_some hE 0x01 client hseq
  obtain ⟨k', bs', hk', rfl, hlen', -⟩ := Devnet.storeKey_eq_some hE 0x01 client' hseq'
  have heq : some _ = some _ := hk.symm.trans (hkey.trans (hkey'.symm.trans hk'))
  exact (Devnet.keys_injective hlen hlen' (Option.some.inj heq)).1

theorem checkCleared_eq (keccak256 : Bytes → Bytes32) (router : Router) (label : Text)
    (client : String) {seq : ℕ} (hseq : seq < 2 ^ 64) :
    (Cleared E keccak256 router client seq ∧ checkCleared E keccak256 router label client seq =
      .error (.alreadyAcknowledged label seq)) ∨
    (¬ Cleared E keccak256 router client seq ∧
      checkCleared E keccak256 router label client seq = .ok ()) := by
  obtain ⟨key, hkey⟩ := exists_key hE client hseq
  have hcleared : Cleared E keccak256 router client seq ↔
      (router (keccak256 key)).1 = List.replicate 32 0 := by
    simp only [Cleared, hkey, Option.some.injEq, forall_eq']
  rw [hcleared, ← isZeroHex_text_iff]
  simp only [checkCleared, hkey]
  split
  · rename_i hzero
    exact Or.inl ⟨hzero, rfl⟩
  · rename_i hzero
    exact Or.inr ⟨hzero, rfl⟩

end Keys

/-! ## The law -/

/-- A delivery of packets that one of the files in the directory has. -/
structure Delivery (dir : List (Text × SendDoc)) where
  doc : SendDoc
  listed : doc ∈ sendGlob dir
  sequences : List ℕ
  sent : ∀ s ∈ sequences, ∃ p ∈ doc.packets, p.sequence = some s
  inRange : ∀ s ∈ sequences, s < 2 ^ 64

section Law

variable (E : Devnet.Ethers) (keccak256 : Bytes → Bytes32)

/-- The guard refuses a delivery all of whose packets are cleared, and lets one pass of which none is,
whatever else the router holds. -/
def GuardSound (label : Text) {dir : List (Text × SendDoc)} (d : Delivery dir) : Prop :=
  ∀ router : Router,
    ((∀ s ∈ d.sequences, Cleared E keccak256 router d.doc.sourceClient s) →
      ∃ seq, ackGuard E keccak256 router false false label (some d.sequences) dir =
        .error (.alreadyAcknowledged label seq)) ∧
    ((∀ s ∈ d.sequences, ¬ Cleared E keccak256 router d.doc.sourceClient s) →
      ackGuard E keccak256 router false false label (some d.sequences) dir = .ok ())

/-- No two of the keys that the guard may ask for collide under `keccak256`. -/
def KeysApart (dir : List (Text × SendDoc)) (seqs : List ℕ) : Prop :=
  ∀ doc ∈ sendGlob dir, ∀ doc' ∈ sendGlob dir, ∀ s ∈ seqs, ∀ s' ∈ seqs, ∀ key key',
    Devnet.packetCommitmentKey E doc.sourceClient s = some key →
    Devnet.packetCommitmentKey E doc'.sourceClient s' = some key' →
    keccak256 key = keccak256 key' → key = key'

variable {E keccak256} {label : Text} {dir : List (Text × SendDoc)}

/-- A delivery that has packets is found in some file, its own if in no file before. -/
theorem exists_first (d : Delivery dir) (hne : d.sequences ≠ []) :
    ∃ first ∈ sendGlob dir, (sendGlob dir).find? (fun doc => doc.holdsAny d.sequences) = some first := by
  obtain ⟨s, hs⟩ := List.exists_mem_of_ne_nil _ hne
  obtain ⟨p, hp, hseq⟩ := d.sent s hs
  have hholds : d.doc.holdsAny d.sequences = true := by
    rw [SendDoc.holdsAny, List.any_eq_true]
    refine ⟨p, hp, ?_⟩
    rw [hseq]
    exact decide_eq_true hs
  have hsome : ((sendGlob dir).find? fun doc => doc.holdsAny d.sequences).isSome = true :=
    List.find?_isSome.mpr ⟨d.doc, d.listed, hholds⟩
  obtain ⟨first, hfirst⟩ := Option.isSome_iff_exists.mp hsome
  exact ⟨first, List.mem_of_find?_eq_some hfirst, hfirst⟩

/-- The guard asks for the first packet of the delivery, as one of the first file's client. -/
theorem ackGuard_eq {seqs : List ℕ} {s : ℕ} {first : SendDoc}
    (hfirst : (sendGlob dir).find? (fun doc => doc.holdsAny (s :: seqs)) = some first)
    (router : Router) : ackGuard E keccak256 router false false label (some (s :: seqs)) dir =
      checkCleared E keccak256 router label first.sourceClient s := by
  unfold ackGuard
  rw [if_neg (by decide)]
  simp only [hfirst]

theorem ackGuard_nil (router : Router) :
    ackGuard E keccak256 router false false label (some []) dir = .ok () := by
  simp [ackGuard]

open Classical in
/-- A router that has cleared the delivery's packets and nothing else. -/
noncomputable def clearedRouter (E : Devnet.Ethers) (keccak256 : Bytes → Bytes32) (d : Delivery dir) :
    Router :=
  fun hash =>
    if ∃ s ∈ d.sequences, ∃ key, Devnet.packetCommitmentKey E d.doc.sourceClient s = some key ∧
        keccak256 key = hash then ⟨List.replicate 32 0, rfl⟩
    else ⟨List.replicate 32 1, rfl⟩

theorem cleared_clearedRouter (d : Delivery dir) {s : ℕ} (hs : s ∈ d.sequences) :
    Cleared E keccak256 (clearedRouter E keccak256 d) d.doc.sourceClient s := by
  intro key hkey
  unfold clearedRouter
  rw [if_pos ⟨s, hs, key, hkey, rfl⟩]

/-- It has not cleared another client's packets. -/
theorem not_cleared_clearedRouter (hE : E.Documented) (d : Delivery dir)
    (hapart : KeysApart E keccak256 dir d.sequences) {doc : SendDoc} (hdoc : doc ∈ sendGlob dir)
    (hclient : doc.sourceClient ≠ d.doc.sourceClient) {s : ℕ} (hs : s ∈ d.sequences) :
    ¬ Cleared E keccak256 (clearedRouter E keccak256 d) doc.sourceClient s := by
  intro hcleared
  obtain ⟨key, hkey⟩ := exists_key hE doc.sourceClient (d.inRange s hs)
  have hzero := hcleared key hkey
  have hother : ¬ ∃ s' ∈ d.sequences, ∃ key', Devnet.packetCommitmentKey E d.doc.sourceClient s' =
      some key' ∧ keccak256 key' = keccak256 key := by
    rintro ⟨s', hs', key', hkey', hhash⟩
    obtain rfl := hapart d.doc d.listed doc hdoc s' hs' s hs key' key hkey' hkey hhash
    exact hclient (client_of_key hE (d.inRange s hs) (d.inRange s' hs') hkey hkey')
  unfold clearedRouter at hzero
  rw [if_neg hother] at hzero
  exact absurd hzero (by decide)

end Law

/-- **The guard is sound**, for a delivery and every state of the router, exactly when the delivery is
not empty and the first file with one of its sequence numbers is of the delivery's own client. -/
theorem ack_guard_iff (E : Devnet.Ethers) (hE : E.Documented) (keccak256 : Bytes → Bytes32)
    (label : Text) (dir : List (Text × SendDoc)) (d : Delivery dir)
    (hapart : KeysApart E keccak256 dir d.sequences) :
    GuardSound E keccak256 label d ↔
      d.sequences ≠ [] ∧
        ∀ first, (sendGlob dir).find? (fun doc => doc.holdsAny d.sequences) = some first →
          first.sourceClient = d.doc.sourceClient := by
  constructor
  · intro hsound
    have hne : d.sequences ≠ [] := by
      intro hnil
      obtain ⟨seq, hrefused⟩ := (hsound fun _ => ⟨List.replicate 32 0, rfl⟩).1 (by simp [hnil])
      rw [hnil, ackGuard_nil] at hrefused
      cases hrefused
    refine ⟨hne, ?_⟩
    intro first hfirst
    by_contra hclient
    obtain ⟨seq, hrefused⟩ := (hsound (clearedRouter E keccak256 d)).1
      fun s hs => cleared_clearedRouter d hs
    have hlisted := List.mem_of_find?_eq_some hfirst
    cases hseqs : d.sequences with
    | nil => exact hne hseqs
    | cons s seqs =>
        have hs : s ∈ d.sequences := hseqs ▸ List.mem_cons_self
        rw [hseqs] at hfirst hrefused
        rw [ackGuard_eq hfirst] at hrefused
        rcases checkCleared_eq hE keccak256 (clearedRouter E keccak256 d) label first.sourceClient
          (d.inRange s hs) with ⟨hcleared, -⟩ | ⟨-, hok⟩
        · exact not_cleared_clearedRouter hE d hapart hlisted hclient hs hcleared
        · rw [hok] at hrefused
          cases hrefused
  · rintro ⟨hne, hclient⟩ router
    obtain ⟨first, -, hfirst⟩ := exists_first d hne
    have hown := hclient first hfirst
    cases hseqs : d.sequences with
    | nil => exact absurd hseqs hne
    | cons s seqs =>
        have hs : s < 2 ^ 64 := d.inRange s (hseqs ▸ List.mem_cons_self)
        rw [hseqs] at hfirst
        rw [ackGuard_eq hfirst, hown]
        rcases checkCleared_eq hE keccak256 router label d.doc.sourceClient hs with
          ⟨hcleared, hrefused⟩ | ⟨hkept, hok⟩
        · exact ⟨fun _ => ⟨s, hrefused⟩, fun hnone => absurd hcleared (hnone s List.mem_cons_self)⟩
        · exact ⟨fun hall => absurd (hall s List.mem_cons_self) hkept, fun _ => hok⟩

/-- A send file with one packet, sequence 1. -/
def firstOf (client : String) (hclient : client ≠ "") : SendDoc :=
  ⟨[], client, [.committed (bareSent 1 10)], hclient⟩

/-- The first 32 bytes, in place of a hash. -/
def firstBytes (bs : Bytes) : Bytes32 := ⟨(bs ++ List.replicate 32 0).take 32, by simp⟩

/-- It tells short keys of one length apart. -/
theorem firstBytes_inj {bs bs' : Bytes} (hlen : bs.length = bs'.length) (hle : bs.length ≤ 32)
    (h : firstBytes bs = firstBytes bs') : bs = bs' := by
  have htake : ∀ {l : Bytes}, l.length ≤ 32 →
      ((l ++ List.replicate 32 0).take 32).take l.length = l := by
    intro l hl
    rw [List.take_take, Nat.min_eq_left hl, List.take_left']
    rfl
  have hval : (firstBytes bs).1 = (firstBytes bs').1 := congrArg Subtype.val h
  rw [← htake hle, hlen, show (bs ++ _).take 32 = (bs' ++ _).take 32 from hval, htake (hlen ▸ hle)]

/-- Files of clients with names of eight bytes. -/
theorem keysApart_firstBytes {dir : List (Text × SendDoc)} {seqs : List ℕ}
    (hnames : ∀ doc ∈ sendGlob dir, (Utf8.encode doc.sourceClient).length = 8)
    (hseqs : ∀ s ∈ seqs, s < 2 ^ 64) : KeysApart Devnet.ethers firstBytes dir seqs := by
  intro doc hdoc doc' hdoc' s hs s' hs' key key' hkey hkey' hhash
  obtain ⟨k, bs, hk, rfl, hlen, -⟩ :=
    Devnet.storeKey_eq_some Devnet.ethers_documented 0x01 doc.sourceClient (hseqs s hs)
  obtain ⟨k', bs', hk', rfl, hlen', -⟩ :=
    Devnet.storeKey_eq_some Devnet.ethers_documented 0x01 doc'.sourceClient (hseqs s' hs')
  obtain rfl := Option.some.inj (hk.symm.trans hkey)
  obtain rfl := Option.some.inj (hk'.symm.trans hkey')
  have hdoc8 := hnames doc hdoc
  have hdoc8' := hnames doc' hdoc'
  apply firstBytes_inj _ _ hhash <;> simp only [List.length_append, List.length_cons] <;> omega

/-- The file of one client, and of two clients. -/
def oneClient : List (Text × SendDoc) := [("send-b.json".toList, firstOf "client-1" (by decide))]

def twoClients : List (Text × SendDoc) :=
  [("send-a.json".toList, firstOf "client-0" (by decide)),
    ("send-b.json".toList, firstOf "client-1" (by decide))]

/-- The packet of `client-1` has been delivered. -/
def deliveryOf (dir : List (Text × SendDoc))
    (hdir : firstOf "client-1" (by decide) ∈ sendGlob dir) : Delivery dir :=
  ⟨firstOf "client-1" (by decide), hdir, [1], by decide, by decide⟩

theorem ack_guard_one_client :
    GuardSound Devnet.ethers firstBytes "b".toList (deliveryOf oneClient (by decide)) := by
  apply (ack_guard_iff Devnet.ethers Devnet.ethers_documented firstBytes "b".toList oneClient
    (deliveryOf oneClient (by decide))
    (keysApart_firstBytes (by decide) (by decide))).mpr
  refine ⟨by decide, ?_⟩
  intro first hfirst
  have hmem := List.mem_of_find?_eq_some hfirst
  obtain rfl := List.mem_singleton.mp hmem
  rfl

/-- The router has cleared the packet of `client-1`, and still has the one of `client-0` with the same
number. The guard finds `client-0` first, and lets the delivery be acknowledged again. -/
theorem guard_asks_other_client :
    let router : Router := fun hash =>
      if hash.1.take 8 = Utf8.encode "client-1" then ⟨List.replicate 32 0, rfl⟩
      else ⟨List.replicate 32 1, rfl⟩
    KeysApart Devnet.ethers firstBytes twoClients [1] ∧
      (∀ s ∈ (deliveryOf twoClients (by decide)).sequences,
        Cleared Devnet.ethers firstBytes router "client-1" s) ∧
      ackGuard Devnet.ethers firstBytes router false false "b".toList (some [1]) twoClients = .ok () := by
  intro router
  refine ⟨keysApart_firstBytes (by decide) (by decide), ?_, by decide⟩
  intro s hs key hkey
  obtain rfl := List.mem_singleton.mp hs
  have hown : Devnet.packetCommitmentKey Devnet.ethers "client-1" 1 =
      some (Utf8.encode "client-1" ++ [1, 0, 0, 0, 0, 0, 0, 0, 1]) := by decide
  obtain rfl := Option.some.inj (hown.symm.trans hkey)
  decide

end PqcMigration.MigrationCost
