/-
# PqcMigration.BatchScaling.RelayChunk — `relay-chunk.js`: one chunk, one proof-api request, one
transaction.

The script validates the packet of every hash, asks proof-api for one transaction for all of them,
submits it, and correlates the `WriteAcknowledgement` logs of the receipt with the packets: one missing
acknowledgement fails the whole chunk, otherwise every packet gets a `recv-result` file and the summary
names every hash.

What the script asks others (the Cosmos node, proof-api, the EVM node) is a `Services` record: what
they answer does not change between two runs of the script. What does change is the router: it keeps
the packets received, and a packet received before is ignored, without a second `WriteAcknowledgement`.
The decoder and the commitment are those of `Devnet.Packet` and `Devnet.Commitment`; nothing here
depends on how they compute. The file that describes a revert is left out: nothing reads it.
-/
import PqcMigration.BatchScaling.RelayPool
import PqcMigration.Devnet.Packet

namespace PqcMigration.BatchScaling

open Lib

/-! ## What the script asks -/

/-- An event of a Cosmos transaction. -/
structure TxEvent where
  type : Text
  attributes : List (Text × Text)

/-- The part of the configuration the script reads. -/
structure Env where
  cosmosClientId : String
  ethClientId : String
  ics26Router : Text

/-- A transaction from proof-api: its target, and the sequences of the `recvPacket` calls in it;
`multicall` where they are wrapped in one. -/
structure Relay where
  address : Text
  calls : List ℕ
  multicall : Bool

/-- A receipt with a status other than 1, and what `captureRevert` finds. -/
structure Reverted where
  hash : Text
  blockNumber : ℕ
  gasUsed : ℕ
  calldataBytes : ℕ
  text : Text
  deriving DecidableEq

/-- What comes of sending the transaction. -/
inductive Submission where
  | mined
  | reverted (r : Reverted)
  | error (message : Text)
  deriving DecidableEq

/-- The answers of the others; an `error` is the message of what is thrown. -/
structure Services where
  cosmosTx : Text → Except Text (List TxEvent)
  decodePacket : Text → Except Text Devnet.Packet
  packetCommitment : Devnet.Packet → Text
  storedCommitment : String → ℕ → Except Text Text
  relayByTx : List Text → Except Text Relay
  blockGasLimit : ℕ
  submit : List Text → Submission
  /-- the acknowledgement the application gives for a packet -/
  acknowledge : ℕ → Text
  /-- the client's trusted height after a block -/
  heightAt : ℕ → ℕ
  stringify : Text → Text
  /-- the stack of a `TypeError` -/
  typeError : Text

/-! ## Failures -/

/-- `fail(kind, message)` -/
abbrev Failure := Text × Text

def lower (t : Text) : Text := t.map Char.toLower

/-- `/p|…/i.test(t)`, for patterns that are plain words. -/
def mentions (patterns : List Text) (t : Text) : Bool :=
  patterns.any fun p => (lower t).tails.any fun rest => (lower p).isPrefixOf rest

def submitFailure (message : Text) : Failure :=
  if mentions ["gas required exceeds allowance".toList, "exceeds block gas limit".toList,
      "intrinsic gas too low".toList] message then
    ("gas_limit_exceeded".toList, message.take 800)
  else if mentions ["oversized data".toList, "tx size".toList, "exceeds the maximum".toList]
      message then
    ("tx_size_exceeded".toList, message.take 800)
  else if mentions ["timeout".toList, "ETIMEDOUT".toList, "ECONNRESET".toList] message then
    ("timeout".toList, message.take 800)
  else ("submit_error".toList, message.take 800)

/-- Gas exhaustion is told apart by how much of the limit was used. -/
def revertFailure (blockGasLimit idx : ℕ) (r : Reverted) : Failure :=
  let gasLimit := blockGasLimit - blockGasLimit / 20
  let ratio := r.gasUsed * 100 / gasLimit
  let failureName := "chunk-relay-".toList ++ digits idx ++ ".failure.json".toList
  let why := if r.text = [] then "revert reason not recovered".toList else r.text
  (if 99 ≤ ratio then "gas_limit_exceeded".toList else "reverted".toList,
    "relay tx ".toList ++ r.hash ++ " reverted in block ".toList ++ digits r.blockNumber ++
      ": ".toList ++ why ++ " [gas ".toList ++ digits r.gasUsed ++ " of limit ".toList ++
      digits gasLimit ++ " (".toList ++ digits ratio ++ "%), ".toList ++ digits r.calldataBytes ++
      " bytes calldata; see ".toList ++ failureName ++ "]".toList)

/-- A failure as the pool sees it: one line on stderr, and exit status 1. -/
def Services.exit (sv : Services) (f : Failure) : ChunkOutcome :=
  let line := "RELAY_CHUNK_FAILURE kind=".toList ++ f.1 ++ " message=".toList ++ sv.stringify f.2
  .exited [line] (line ++ ['\n'])

/-! ## Up to the transaction -/

/-- What is kept of a packet. -/
structure Entry where
  hash : Text
  pkt : Devnet.Packet
  hex : Text

section Script

variable (sv : Services) (env : Env)

/-- One turn of the loop over the hashes: the packet's sequence and its entry. -/
def validate (hash : Text) : Except Failure (ℕ × Entry) :=
  match sv.cosmosTx hash with
  | .error message =>
      .error ("cosmos_query_failed".toList,
        ("tx ".toList ++ hash ++ ": ".toList ++ message).take 500)
  | .ok events =>
      match events.find? fun e => e.type = "send_packet".toList with
      | none =>
          .error ("no_send_packet_event".toList,
            "tx ".toList ++ hash ++ " has no send_packet event".toList)
      | some ev =>
          match ev.attributes.lookup "encoded_packet_hex".toList with
          -- `.find(…).value` of an event without the attribute
          | none => .error ("unexpected_error".toList, sv.typeError)
          | some hex =>
              match sv.decodePacket hex with
              | .error message => .error ("unexpected_error".toList, message)
              | .ok pkt =>
                  if pkt.sourceClient ≠ env.cosmosClientId ∨ pkt.destClient ≠ env.ethClientId then
                    .error ("client_mismatch".toList,
                      "packet clients (".toList ++ pkt.sourceClient.toList ++ " -> ".toList ++
                        pkt.destClient.toList ++
                        ") do not match COSMOS_CLIENT_ID/ETH_CLIENT_ID (".toList ++
                        env.cosmosClientId.toList ++ " -> ".toList ++ env.ethClientId.toList ++
                        ")".toList)
                  else
                    match sv.storedCommitment pkt.sourceClient pkt.sequence with
                    | .error message => .error ("unexpected_error".toList, message)
                    | .ok stored =>
                        if stored ≠ sv.packetCommitment pkt then
                          .error ("commitment_mismatch".toList,
                            "seq ".toList ++ digits pkt.sequence ++ ": computed ".toList ++
                              sv.packetCommitment pkt ++ " stored ".toList ++ stored)
                        else .ok (pkt.sequence, ⟨hash, pkt, hex⟩)

/-- The loop: the first hash that fails ends the script. -/
def validateAll : List Text → Except Failure (List (ℕ × Entry))
  | [] => .ok []
  | hash :: hashes =>
      match validate sv env hash with
      | .error f => .error f
      | .ok found =>
          match validateAll hashes with
          | .error f => .error f
          | .ok rest => .ok (found :: rest)

/-- Up to the submission: `bySeq`, and the transaction. -/
def prepare (chunk : List Text) : Except Failure (List (ℕ × Entry) × Relay) :=
  match validateAll sv env chunk with
  | .error f => .error f
  | .ok found =>
      match sv.relayByTx chunk with
      | .error message => .error ("proof_api_error".toList, message)
      | .ok relay =>
          if lower relay.address ≠ lower env.ics26Router then
            .error ("wrong_target".toList, "proof-api targets ".toList ++ relay.address ++
              ", expected ICS26Router ".toList ++ env.ics26Router)
          else .ok (entriesOf found, relay)

/-- The script's transaction, for a chunk that comes to be mined. -/
def landing (chunk : List Text) : Option (List (ℕ × Entry) × Relay) :=
  match prepare sv env chunk with
  | .error _ => none
  | .ok prepared => if sv.submit chunk = .mined then some prepared else none

end Script

/-! ## The router -/

/-- `recvPacket`: a packet that has been received is ignored. -/
def recvPacket (acknowledge : ℕ → Text) (st : (ℕ → Bool) × List (ℕ × List Text)) (seq : ℕ) :
    (ℕ → Bool) × List (ℕ × List Text) :=
  if st.1 seq then st else (Function.update st.1 seq true, st.2 ++ [(seq, [acknowledge seq])])

/-- The calls of one transaction: the receipts they leave, and their `WriteAcknowledgement` logs. -/
def recvPackets (acknowledge : ℕ → Text) (received : ℕ → Bool) (calls : List ℕ) :
    (ℕ → Bool) × List (ℕ × List Text) :=
  calls.foldl (recvPacket acknowledge) (received, [])

structure Receipt where
  hash : Text
  blockNumber : ℕ
  gasUsed : ℕ
  logs : List (ℕ × List Text)

/-! ## After the transaction -/

/-- `heightAfter > heightBefore` -/
def updateIncluded (heightAt : ℕ → ℕ) (blockNumber : ℕ) : Bool :=
  heightAt (blockNumber - 1) < heightAt blockNumber

/-- A `recv-result` file. -/
structure RecvResult where
  sequence : Text
  ack : Option Text
  ackBlockNumber : Text
  packetHex : Text

/-- `txHashToSeq` -/
def hashToSeq (bySeq : List (ℕ × Entry)) : List (Text × Text) :=
  entriesOf (bySeq.map fun e => (upper e.2.hash, digits e.1))

def acksBySeq (r : Receipt) : ℕ → Option (Option Text) :=
  assign (fun _ => none) (r.logs.map fun l => (l.1, l.2.head?))

def missingAcks (bySeq : List (ℕ × Entry)) (r : Receipt) : List ℕ :=
  (bySeq.map Prod.fst).filter fun seq => (acksBySeq r seq).isNone

def summaryOf (heightAt : ℕ → ℕ) (bySeq : List (ℕ × Entry)) (relay : Relay) (r : Receipt) : Summary where
  txHashToSeq := hashToSeq bySeq
  totalGas := r.gasUsed
  updateIncluded := updateIncluded heightAt r.blockNumber
  recvCount := if relay.multicall then relay.calls.length else 0
  nodup := nodup_entriesOf _

def recvResults (bySeq : List (ℕ × Entry)) (r : Receipt) : List RecvResult :=
  bySeq.map fun e =>
    ⟨digits e.1, (acksBySeq r e.1).join, digits r.blockNumber, e.2.hex⟩

/-- How the script ends, and the `recv-result` files it writes; `none` while its transaction is
waited for. -/
def relayChunk (sv : Services) (env : Env) (idx : ℕ) (chunk : List Text) (receipt : Option Receipt) :
    Option (ChunkOutcome × List RecvResult) :=
  match prepare sv env chunk with
  | .error f => some (sv.exit f, [])
  | .ok (bySeq, relay) =>
      match sv.submit chunk with
      | .error message => some (sv.exit (submitFailure message), [])
      | .reverted r => some (sv.exit (revertFailure sv.blockGasLimit idx r), [])
      | .mined =>
          receipt.map fun r =>
            if missingAcks bySeq r ≠ [] then
              (sv.exit ("missing_acks".toList, "no WriteAcknowledgement for sequence(s) ".toList ++
                [','].intercalate ((missingAcks bySeq r).map digits)), [])
            else (.summary (summaryOf sv.heightAt bySeq relay r), recvResults bySeq r)

/-! ## What the router does -/

section Router

variable {acknowledge : ℕ → Text} {received : ℕ → Bool}

/-- After the calls of a transaction the packets received are those from before and those called. -/
theorem recvPackets_received (calls : List ℕ) (seq : ℕ) :
    (recvPackets acknowledge received calls).1 seq = true ↔ received seq = true ∨ seq ∈ calls := by
  suffices h : ∀ st : (ℕ → Bool) × List (ℕ × List Text),
      (calls.foldl (recvPacket acknowledge) st).1 seq = true ↔ st.1 seq = true ∨ seq ∈ calls from
    h (received, [])
  induction calls with
  | nil => simp
  | cons c calls ih =>
      intro st
      rw [List.foldl_cons, ih, List.mem_cons, ← or_assoc]
      apply or_congr_left
      rw [recvPacket]
      split
      · next hc =>
          -- the router ignores a packet it has: nothing to add
          constructor
          · exact Or.inl
          · rintro (h | rfl)
            · exact h
            · exact hc
      · by_cases hseq : seq = c
        · subst hseq
          simp
        · simp [hseq]

/-- The packets acknowledged are those called that had not been received. -/
theorem recvPackets_logs (calls : List ℕ) (seq : ℕ) :
    (∃ acks, (seq, acks) ∈ (recvPackets acknowledge received calls).2) ↔
      seq ∈ calls ∧ received seq = false := by
  suffices h : ∀ st : (ℕ → Bool) × List (ℕ × List Text),
      (∃ acks, (seq, acks) ∈ (calls.foldl (recvPacket acknowledge) st).2) ↔
        (∃ acks, (seq, acks) ∈ st.2) ∨ (seq ∈ calls ∧ st.1 seq = false) by
    rw [recvPackets, h]
    simp
  induction calls with
  | nil => simp
  | cons c calls ih =>
      intro st
      rw [List.foldl_cons, ih, recvPacket]
      -- a call for a packet the router has leaves no log, any other leaves one
      split
      · next hc =>
          by_cases hseq : seq = c
          · subst hseq
            simp [hc]
          · simp [hseq]
      · next hc =>
          by_cases hseq : seq = c
          · subst hseq
            simp [hc]
          · simp [hseq]

end Router

/-! ## What a run of the script comes to -/

/-- What is documented of the others: a transaction sends one packet, no two packets of a group have one
sequence, and proof-api's transaction calls `recvPacket` for the packets it was asked for. -/
structure Services.Documented (sv : Services) (env : Env) : Prop where
  sequences : ∀ h h' e e', validate sv env h = .ok e → validate sv env h' = .ok e' → e.1 = e'.1 →
    upper h = upper h'
  relays : ∀ chunk bySeq relay, prepare sv env chunk = .ok (bySeq, relay) →
    ∀ seq, seq ∈ relay.calls ↔ seq ∈ bySeq.map Prod.fst

section

variable {sv : Services} {env : Env} {chunk : List Text} {bySeq : List (ℕ × Entry)} {relay : Relay}

/-- A validated packet's entry has its hash. -/
theorem validate_hash {h : Text} {found : ℕ × Entry} (hok : validate sv env h = .ok found) :
    found.2.hash = h := by
  rw [validate] at hok
  -- every check that does not hold ends in an error
  repeat
    split at hok
    · cases hok
  obtain rfl := Except.ok.inj hok
  rfl

theorem validateAll_hashes {found : List (ℕ × Entry)} (hok : validateAll sv env chunk = .ok found) :
    found.map (fun e => e.2.hash) = chunk ∧ ∀ e ∈ found, validate sv env e.2.hash = .ok e := by
  induction chunk generalizing found with
  | nil =>
      obtain rfl := Except.ok.inj hok
      exact ⟨rfl, fun _ h => by cases h⟩
  | cons h chunk ih =>
      rw [validateAll] at hok
      split at hok
      · cases hok
      · next e he =>
          split at hok
          · cases hok
          · next rest hrest =>
              obtain rfl := Except.ok.inj hok
              obtain ⟨hhashes, hvalid⟩ := ih hrest
              have hhash := validate_hash he
              refine ⟨by rw [List.map_cons, hhashes, hhash], ?_⟩
              intro e' he'
              rcases List.mem_cons.mp he' with rfl | hmem
              · rw [hhash]
                exact he
              · exact hvalid e' hmem

/-- With distinct hashes there is one entry for each, in their order. -/
theorem prepare_entries (hdoc : sv.Documented env) (hnodup : (chunk.map upper).Nodup)
    (hok : prepare sv env chunk = .ok (bySeq, relay)) :
    bySeq.map (fun e => e.2.hash) = chunk ∧ ∀ e ∈ bySeq, validate sv env e.2.hash = .ok e := by
  rw [prepare] at hok
  split at hok
  · cases hok
  · next found hfound =>
      split at hok
      · cases hok
      · split at hok
        · cases hok
        · obtain ⟨rfl, -⟩ := Prod.mk.inj (Except.ok.inj hok)
          obtain ⟨hhashes, hvalid⟩ := validateAll_hashes hfound
          have hkeys : (found.map Prod.fst).Nodup := by
            rw [← hhashes, List.map_map] at hnodup
            refine (List.Nodup.of_map _ hnodup).map_on ?_
            intro e he e' he' hseq
            have hhash := hdoc.sequences _ _ _ _ (hvalid e he) (hvalid e' he') hseq
            exact List.inj_on_of_nodup_map hnodup he he' hhash
          rw [entriesOf_of_nodup hkeys]
          exact ⟨hhashes, hvalid⟩

theorem landing_eq_some (h : landing sv env chunk = some (bySeq, relay)) :
    prepare sv env chunk = .ok (bySeq, relay) ∧ sv.submit chunk = .mined := by
  rw [landing] at h
  split at h
  · cases h
  · next hprepared =>
      split at h
      · next hmined => exact ⟨hprepared.trans (congrArg _ (Option.some.inj h)), hmined⟩
      · cases h

/-- A chunk whose transaction is not mined ends without a summary. -/
theorem relayChunk_of_not_landing {idx : ℕ} {receipt : Option Receipt}
    {ended : ChunkOutcome × List RecvResult} (hnot : landing sv env chunk = none)
    (h : relayChunk sv env idx chunk receipt = some ended) : ended.1.summary? = none := by
  rw [landing] at hnot
  rw [relayChunk] at h
  split at h
  · obtain rfl := Option.some.inj h
    rfl
  · next bySeq relay hprepared =>
      rw [hprepared] at hnot
      split at h
      · obtain rfl := Option.some.inj h
        rfl
      · obtain rfl := Option.some.inj h
        rfl
      · next hmined => simp [hmined] at hnot

/-- No acknowledgement is missing just if every packet has a log. -/
theorem missingAcks_eq_nil {r : Receipt} :
    missingAcks bySeq r = [] ↔ ∀ seq ∈ bySeq.map Prod.fst, ∃ acks, (seq, acks) ∈ r.logs := by
  have hacks : ∀ seq, acksBySeq r seq ≠ none ↔ ∃ acks, (seq, acks) ∈ r.logs := by
    intro seq
    constructor
    · intro hsome
      by_contra hnone
      apply hsome
      refine assign_of_notMem ?_
      intro v hv
      obtain ⟨l, hl, heq⟩ := List.mem_map.mp hv
      obtain ⟨rfl, -⟩ := Prod.mk.inj heq
      exact hnone ⟨l.2, hl⟩
    · rintro ⟨acks, hmem⟩
      obtain ⟨v, -, hv⟩ := exists_assign_of_mem (d := fun _ : ℕ => none)
        (List.mem_map.mpr ⟨_, hmem, rfl⟩ : (seq, acks.head?) ∈ r.logs.map fun l => (l.1, l.2.head?))
      rw [acksBySeq, hv]
      exact Option.some_ne_none v
  rw [missingAcks, List.filter_eq_nil_iff]
  apply forall₂_congr
  intro seq _
  rw [← hacks, Option.isNone_iff_eq_none]

/-- A chunk whose transaction has been mined ends with a summary and its files, or with neither. -/
theorem relayChunk_of_landing {idx : ℕ} {receipt : Option Receipt}
    {ended : ChunkOutcome × List RecvResult} (hland : landing sv env chunk = some (bySeq, relay))
    (h : relayChunk sv env idx chunk receipt = some ended) :
    ∃ r, receipt = some r ∧
      ((∀ seq ∈ bySeq.map Prod.fst, ∃ acks, (seq, acks) ∈ r.logs) →
        ended = (.summary (summaryOf sv.heightAt bySeq relay r), recvResults bySeq r)) ∧
      (¬ (∀ seq ∈ bySeq.map Prod.fst, ∃ acks, (seq, acks) ∈ r.logs) → ended.1.summary? = none) := by
  obtain ⟨hprepared, hmined⟩ := landing_eq_some hland
  simp only [relayChunk, hprepared, hmined] at h
  obtain ⟨r, rfl, rfl⟩ := Option.map_eq_some_iff.mp h
  refine ⟨r, rfl, ?_, ?_⟩
  · intro hall
    rw [if_neg (not_not.mpr (missingAcks_eq_nil.mpr hall))]
  · intro hsome
    rw [if_pos (mt missingAcks_eq_nil.mp hsome)]
    rfl

end

end PqcMigration.BatchScaling
