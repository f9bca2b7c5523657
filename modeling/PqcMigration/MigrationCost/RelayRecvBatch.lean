/-
# PqcMigration.MigrationCost.RelayRecvBatch — `experiments/migration_cost/relay-recv-batch.js`.

The script relays a batch of packets from the EVM to Cosmos. It picks the batch out of a send file,
waits until finality covers the batch's newest send block, updates the light client (or does not),
chooses the consensus state to prove against, fetches one storage proof a packet, and broadcasts the
receive messages in as many transactions as the node's size limit asks for. `--phase=prepare` stops
once a state is chosen; `--phase=deliver` starts there, with the state the caller names in
`--use-slot` or the newest one that covers the batch.

What the script asks of others is a field of `Services`: the router, the beacon node, the Cosmos node,
geth, the keyring, `tx sign` and `tx encode` for a size, and `sendtx.py`. Wall-clock spans are left
out; nothing is decided by them but how many polls the finality deadline allows, and that is the
length of `polls`.

Sizes and slots are whole numbers. `limit * margin` and what `chunkSize` multiplies and divides are
doubles: every operation rounds.
-/
import Mathlib.Data.List.Sort
import Mathlib.Data.Rat.Floor
import PqcMigration.Devnet.Config
import PqcMigration.Devnet.Packet
import PqcMigration.Lib.Double
import PqcMigration.Lib.Slices

namespace PqcMigration.MigrationCost

open Lib

abbrev Text := List Char

/-- A number as the scripts put it into a label. -/
def digits (n : ℕ) : Text := Nat.toDigits 10 n

/-! ## The send file of `submit-migrations.js` -/

/-- A transfer whose `SendPacket` event was found. -/
structure SentPacket where
  sequence : ℕ
  sourceClient : String
  destClient : String
  timeoutTimestamp : ℕ
  payload : Devnet.Payload
  commitment : Text
  blockNumber : ℕ
  deriving DecidableEq

/-- A transfer of nothing, for runs on a fixed input. -/
def bareSent (sequence blockNumber : ℕ) : SentPacket :=
  ⟨sequence, "client-0", "08-wasm-0", 1800000000,
    ⟨"transfer", "transfer", "ics20-1", "application/json", ⟨[]⟩⟩, "0xab".toList, blockNumber⟩

/-- A record of the file. One that failed late has a sequence all the same. -/
inductive SendRecord where
  | committed (p : SentPacket)
  | failed (sequence : Option ℕ) (error : Text)
  deriving DecidableEq

def SendRecord.sequence : SendRecord → Option ℕ
  | .committed p => some p.sequence
  | .failed sequence _ => sequence

/-- `p.status === "committed"` -/
def SendRecord.committed? : SendRecord → Option SentPacket
  | .committed p => some p
  | .failed _ _ => none

/-- `sourceClient` is `ETH_CLIENT_ID`, which `submit-migrations.js` requires to be set. -/
structure SendDoc where
  label : Text
  sourceClient : String
  packets : List SendRecord
  named : sourceClient ≠ ""
  deriving DecidableEq

def SendDoc.committed (doc : SendDoc) : List SentPacket :=
  doc.packets.filterMap SendRecord.committed?

/-! ## What the script is given -/

inductive Phase where
  | all
  | prepare
  | deliver
  deriving DecidableEq

structure Args where
  count : ℕ
  offset : Int := 0
  label : Text
  phase : Phase := .all
  doUpdate : Bool := true
  /-- `--use-slot` -/
  pinned : Option ℕ := none
  signerKey : Option Text := none
  margin : ℚ := Double.round (9 / 10)

/-- The finalized header of a `finality_update`. -/
structure Finality where
  slot : ℕ
  execBlock : ℕ
  deriving DecidableEq

structure StorageProof where
  key : Text
  value : Text
  proof : List Text
  deriving DecidableEq

/-- The result of `eth_getProof`. -/
structure AccountProof where
  storageHash : Text
  accountProof : List Text
  storageProof : List StorageProof

structure MsgRecvPacket where
  packet : SentPacket
  storageRoot : Text
  accountProof : List Text
  storage : StorageProof
  proofHeight : ℕ
  signer : Text
  deriving DecidableEq

/-- A result line of `sendtx.py`; a field that is missing or no number is `none`. -/
structure TxResult where
  txhash : Option Text
  gasUsed : Option ℕ
  txBytes : Option ℕ
  height : Option ℕ
  code : Option Int
  deriving DecidableEq

/-- How a run of `sendtx.py` ended, and what it printed. -/
structure ChunkRun where
  exitZero : Bool
  out : Text
  deriving DecidableEq

structure Services where
  /-- `router.getCommitment` at the packet's key -/
  getCommitment : String → ℕ → Text
  /-- what the polls see that the deadline leaves time for -/
  polls : List Finality
  /-- `gas_used` of the update, if the update printed one -/
  updateGas : Option ℕ
  /-- the consensus states the client holds after the update -/
  consensusStates : List ℕ
  execBlockOf : ℕ → ℕ
  getProof : ℕ → List SentPacket → Except Text AccountProof
  signerAddress : Option Text → Text
  relayerKey : Text
  jsonSize : List MsgRecvPacket → ℕ
  encodedSize : List MsgRecvPacket → ℕ
  maxBodyBytes : ℕ
  maxTxBytes : ℕ
  sendtx : ℕ → List MsgRecvPacket → ChunkRun
  /-- `JSON.parse` of a line -/
  parseResult : Text → Option TxResult

inductive Failure where
  /-- `only ${batch.length} packets available at offset ${offset}, need ${count}` -/
  | onlyAvailable (available : ℕ) (offset : Int) (count : ℕ)
  | commitmentDrifted (sequence : ℕ) (onchain : Text)
  | finalityNotReached (maxSendBlock : ℕ)
  /-- `--use-slot=${useSlot} is not held` -/
  | slotNotHeld (slot : ℕ) (have_ : List ℕ)
  /-- `no consensus state covering send block ${maxSendBlock}` -/
  | noneCovering (maxSendBlock : ℕ) (have_ : List ℕ)
  /-- `no consensus state at or after slot ${proofSlot}` -/
  | noneAtOrAfter (proofSlot : ℕ) (have_ : List ℕ)
  | getProofFailed (block : ℕ) (message : Text)
  | storageProofs (returned count block : ℕ)
  /-- `storage value is 0x0 at block ${useBlock} — commitment not present` -/
  | notPresent (sequence block : ℕ)
  /-- `eth_getProof returned no proofs, expected ${count}` -/
  | noProofs (count : ℕ)
  /-- `${empty} storage value(s) are 0x0 at block ${useBlock}` -/
  | emptyValues (empty block : ℕ)
  | gasOrSizeNotParsed
  | updateGasNotParsed
  | blockTimeNotRead
  deriving DecidableEq

/-! ## The batch, and finality -/

/-- `l.slice(start, stop)`: a negative index counts from the end. -/
def slice {α : Type} (l : List α) (start stop : Int) : List α :=
  let index := fun i : Int => if i < 0 then ((l.length : Int) + i).toNat else i.toNat
  (l.take (index stop)).drop (index start)

def batchOf (args : Args) (doc : SendDoc) : Except Failure (List SentPacket) :=
  let batch := slice doc.committed args.offset (args.offset + args.count)
  if batch.length ≠ args.count then .error (.onlyAvailable batch.length args.offset args.count)
  else .ok batch

/-- Every commitment is still on the router. -/
def checkCommitments (sv : Services) : List SentPacket → Except Failure Unit
  | [] => .ok ()
  | p :: batch =>
      let onchain := sv.getCommitment p.sourceClient p.sequence
      if onchain ≠ p.commitment then .error (.commitmentDrifted p.sequence onchain)
      else checkCommitments sv batch

/-- `Math.max(...batch.map((p) => p.blockNumber))`; for no packets that is −∞, and no block number is
below 0 either. -/
def maxSendBlock (batch : List SentPacket) : ℕ := (batch.map SentPacket.blockNumber).foldr max 0

def waitFinality (polls : List Finality) (maxSendBlock : ℕ) : Except Failure Finality :=
  match polls.find? fun fin => maxSendBlock ≤ fin.execBlock with
  | some hdr => .ok hdr
  | none => .error (.finalityNotReached maxSendBlock)

/-! ## The consensus state to prove against -/

def useSlot (phase : Phase) (pinned : Option ℕ) (maxSendBlock proofSlot : ℕ)
    (execBlockOf : ℕ → ℕ) (have_ : List ℕ) : Except Failure ℕ :=
  match pinned with
  | some slot => if slot ∈ have_ then .ok slot else .error (.slotNotHeld slot have_)
  | none =>
      match phase with
      | .deliver =>
          match (have_.insertionSort (· ≥ ·)).find? fun sl => maxSendBlock ≤ execBlockOf sl with
          | some slot => .ok slot
          | none => .error (.noneCovering maxSendBlock have_)
      | _ =>
          match (have_.filter (proofSlot ≤ ·)).max? with
          | some slot => .ok slot
          | none => .error (.noneAtOrAfter proofSlot have_)

/-! ## How many messages a transaction takes -/

/-- `txSizeLimit`: a broadcast carries the transaction in base64. -/
def txSizeLimit (maxBodyBytes maxTxBytes : ℕ) : ℕ :=
  let rpcRaw := maxBodyBytes * 3 / 4
  if rpcRaw < maxTxBytes then rpcRaw else maxTxBytes

/-- `target`: `Math.floor(limit * margin)` -/
def usable (limit : ℕ) (margin : ℚ) : Int := ⌊Double.round (limit * margin)⌋

/-- `Math.max(1, Math.floor(target / perMsg))`, where `perMsg = full / msgs.length`. -/
def estimate (target : Int) (full msgs : ℕ) : ℕ :=
  let perMsg := Double.round (full / msgs)
  (max 1 ⌊Double.round (target / perMsg)⌋).toNat

/-- Seven messages of the average size are just the target. Both divisions round, and one is lost. -/
example : estimate 675000 1350000 14 = 6 := by decide +kernel

/-- `Math.max(1, Math.floor(n * target / got) - 1)` -/
def scaled (target : Int) (n got : ℕ) : ℕ :=
  (max 1 (⌊Double.round (Double.round (n * target) / got)⌋ - 1)).toNat

section ChunkSize

variable {Msg : Type} (encodedSize : List Msg → ℕ) (msgs : List Msg) (target : Int)

/-- The rounds of `chunkSize`, with the number of rounds left. -/
def shrink : ℕ → ℕ → ℕ
  | 0, n => max 1 n
  | rounds + 1, n =>
      if 1 < n then
        let got := encodedSize (msgs.take n)
        if (got : Int) ≤ target then n else shrink rounds (scaled target n got)
      else max 1 n

def chunkSize (jsonBytes : ℕ) : ℕ :=
  if msgs = [] then 0
  else if jsonBytes ≠ 0 ∧ (jsonBytes : Int) + 16000 ≤ target then msgs.length
  else
    let full := encodedSize msgs
    if (full : Int) ≤ target then msgs.length
    else shrink encodedSize msgs target 6 (estimate target full msgs.length)

end ChunkSize

/-! ## Delivery -/

section Delivery

variable {Msg : Type} (parseResult : Text → Option TxResult)

/-- `t.includes(part)` -/
def includes (t part : Text) : Bool := t.tails.any part.isPrefixOf

/-- What a line of the output is as a result line. -/
def resultLine (line : Text) : Option TxResult :=
  let t := Devnet.Config.trim line
  if "\x7b".toList.isPrefixOf t && includes t "gas_used".toList then parseResult t else none

/-- The last result line. -/
def lastResult (out : Text) : Option TxResult :=
  ((out.splitOn '\n').filterMap (resultLine parseResult)).getLast?

/-- A turn of the loop that is not a failure. -/
def ChunkRun.succeeded (r : ChunkRun) : Bool :=
  r.exitZero && (lastResult parseResult r.out).any fun result => result.code == some 0

/-- A chunk that was handed to `sendtx.py`, and what came of it. -/
structure Attempt (Msg : Type) where
  chunk : ℕ
  msgs : List Msg
  run : ChunkRun

/-- The loop over the chunks: it ends with the first that does not succeed. -/
def deliverFrom (sendtx : ℕ → List Msg → ChunkRun) : ℕ → List (List Msg) → List (Attempt Msg)
  | _, [] => []
  | ci, chunk :: chunks =>
      let attempt : Attempt Msg := ⟨ci, chunk, sendtx ci chunk⟩
      if attempt.run.succeeded parseResult then attempt :: deliverFrom sendtx (ci + 1) chunks
      else [attempt]

/-- An entry of `parts`. -/
structure Part where
  chunk : ℕ
  packets : ℕ
  txhash : Option Text
  gasUsed : Option ℕ
  txBytes : Option ℕ
  height : Option ℕ
  code : Option Int
  deriving DecidableEq

def Attempt.part (a : Attempt Msg) : Part :=
  let r := lastResult parseResult a.run.out
  ⟨a.chunk, a.msgs.length, r.bind TxResult.txhash, r.bind TxResult.gasUsed, r.bind TxResult.txBytes,
    r.bind TxResult.height, r.bind TxResult.code⟩

/-- What the summary says of the delivery. -/
structure Delivered where
  ok : Bool
  chunks : ℕ
  parts : List Part
  gasUsed : ℕ
  txBytes : ℕ
  creditedHeight : Option ℕ
  txhash : Option Text
  code : Option Int
  deriving DecidableEq

def report (chunks : ℕ) (attempts : List (Attempt Msg)) : Delivered :=
  let parts := attempts.map (Attempt.part parseResult)
  let failed := attempts.any fun a => !a.run.succeeded parseResult
  let ok := !failed && parts.length == chunks && parts.all fun p => p.code == some 0
  let last := parts.getLast?
  { ok := ok
    chunks := chunks
    parts := parts
    gasUsed := (parts.map fun p => p.gasUsed.getD 0).sum
    txBytes := (parts.map fun p => p.txBytes.getD 0).sum
    creditedHeight := if ok then (last.bind Part.height).filter (· ≠ 0) else none
    txhash := last.bind Part.txhash
    code := last.bind Part.code }

end Delivery

/-! ## The script -/

structure Prepared where
  label : Text
  maxSendBlock : ℕ
  proofSlot : ℕ
  useSlot : ℕ
  updateGas : Option ℕ
  consensusStatesHeld : ℕ
  deriving DecidableEq

structure Summary where
  label : Text
  sequences : List ℕ
  signer : Text
  maxSendBlock : ℕ
  useSlot : ℕ
  useBlock : ℕ
  proofSlot : Option ℕ
  updateGas : Option ℕ
  chunkSize : ℕ
  delivered : Delivered
  deriving DecidableEq

/-- The script ends with a file: `prepare-<label>.json`, or `recv-<label>.json` and perhaps an error
after it. -/
inductive Outcome where
  | prepared (p : Prepared)
  | delivered (s : Summary) (refused : Option Failure)
  deriving DecidableEq

/-- The storage proofs are there, and none is of an empty slot. -/
def checkProof (proof : AccountProof) (batch : List SentPacket) (block : ℕ) : Except Failure Unit :=
  if proof.storageProof.length ≠ batch.length then
    .error (.storageProofs proof.storageProof.length batch.length block)
  else
    match (batch.zip proof.storageProof).find? fun e => e.2.value = "0x0".toList with
    | some e => .error (.notPresent e.1.sequence block)
    | none => .ok ()

/-- The checks on a summary that is already on disk. -/
def refused (updateGas : Option ℕ) (d : Delivered) : Option Failure :=
  if !d.ok then none
  else if d.gasUsed = 0 ∨ d.txBytes = 0 then some .gasOrSizeNotParsed
  else if updateGas = some 0 then some .updateGasNotParsed
  else if d.creditedHeight = none then some .blockTimeNotRead
  else none

def deliver (sv : Services) (args : Args) (batch : List SentPacket) (proofSlot : Option ℕ)
    (updateGas : Option ℕ) (slot : ℕ) : Except Failure Outcome := do
  let block := sv.execBlockOf slot
  let proof ← (sv.getProof block batch).mapError (Failure.getProofFailed block)
  checkProof proof batch block
  let signer := sv.signerAddress args.signerKey
  let msgs := (batch.zip proof.storageProof).map fun e =>
    (⟨e.1, proof.storageHash, proof.accountProof, e.2, slot, signer⟩ : MsgRecvPacket)
  let target := usable (txSizeLimit sv.maxBodyBytes sv.maxTxBytes) args.margin
  let perChunk := chunkSize sv.encodedSize msgs target (sv.jsonSize msgs)
  let chunks := slices perChunk msgs
  let delivered := report sv.parseResult chunks.length (deliverFrom sv.parseResult sv.sendtx 0 chunks)
  return .delivered
    { label := args.label, sequences := batch.map SentPacket.sequence, signer := signer
      maxSendBlock := maxSendBlock batch, useSlot := slot, useBlock := block, proofSlot := proofSlot
      updateGas := updateGas, chunkSize := perChunk, delivered := delivered }
    (refused updateGas delivered)

def relayRecvBatch (sv : Services) (args : Args) (doc : SendDoc) : Except Failure Outcome := do
  let batch ← batchOf args doc
  checkCommitments sv batch
  match args.phase with
  | .deliver =>
      let slot ← useSlot .deliver args.pinned (maxSendBlock batch) 0 sv.execBlockOf sv.consensusStates
      deliver sv args batch none none slot
  | phase =>
      let hdr ← waitFinality sv.polls (maxSendBlock batch)
      let updateGas := if args.doUpdate then sv.updateGas else none
      let slot ← useSlot phase args.pinned (maxSendBlock batch) hdr.slot sv.execBlockOf
        sv.consensusStates
      if phase = .prepare then
        return .prepared ⟨args.label, maxSendBlock batch, hdr.slot, slot, updateGas,
          sv.consensusStates.length⟩
      else deliver sv args batch (some hdr.slot) updateGas slot

end PqcMigration.MigrationCost
