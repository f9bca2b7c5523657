/-
# PqcMigration.BatchScaling.RelayPool — the forward relay: `relay_group_pooled` of `relay_pool.py`.

The committed packets' hashes are cut into chunks. Workers, one EVM account each, pull chunks off a
shared counter (`Lib.WorkQueue`) and run `relay-chunk.js` on them; every run ends in a summary, in no
summary, in an error exit or in a timeout, and the worker notes which. After the last worker the
summaries are joined into one map from hashes to sequences, and each packet looks its own hash up.

`relay_pooled` is the whole contract, over every interleaving and every outcome.
-/
import PqcMigration.BatchScaling.Packet
import PqcMigration.Lib.Dict
import PqcMigration.Lib.Slices
import PqcMigration.Lib.WorkQueue

namespace PqcMigration.BatchScaling

open Lib WorkQueue

/-! ## `chunk_hashes` -/

/-- `[tx_hashes[i:i + chunk_size] for i in range(0, len(tx_hashes), chunk_size)]` -/
def chunkHashes (txHashes : List Text) (chunkSize : ℕ) : List (List Text) :=
  (List.range ((txHashes.length + chunkSize - 1) / chunkSize)).map fun k =>
    (txHashes.drop (k * chunkSize)).take chunkSize

/-! ## `run_chunk` -/

/-- What the pool reads of the summary `relay-chunk.js` writes. An object has each key once. -/
structure Summary where
  txHashToSeq : List (Text × Text)
  totalGas : ℕ
  updateIncluded : Bool
  recvCount : ℕ
  nodup : (txHashToSeq.map Prod.fst).Nodup
  deriving DecidableEq

/-- How a run of `relay-chunk.js` ends. -/
inductive ChunkOutcome where
  | summary (s : Summary)
  | noSummary
  /-- a non-zero exit: the lines of stderr, and `r.stderr or r.stdout` -/
  | exited (stderr : List Text) (output : Text)
  | timedOut
  deriving DecidableEq

/-- `t.partition(sep)` without the separator. -/
def partition (sep : Text) : Text → Text × Text
  | [] => ([], [])
  | c :: cs =>
      if sep.isPrefixOf (c :: cs) then ([], (c :: cs).drop sep.length)
      else (c :: (partition sep cs).1, (partition sep cs).2)

section RunChunk

-- `json.loads` of a message, as an f-string prints it; `none` where it raises
variable (loads : Text → Option Text)

/-- One turn of the loop over the lines of stderr. -/
def failureLine (found : Text × Text) (line : Text) : Text × Text :=
  if "RELAY_CHUNK_FAILURE".toList.isPrefixOf line then
    let rest := line.drop "RELAY_CHUNK_FAILURE ".toList.length
    if "kind=".toList.isPrefixOf rest then
      let parts := partition " message=".toList (rest.drop "kind=".toList.length)
      (parts.1, (loads parts.2).getD parts.2)
    else found
  else found

/-- The error noted for a non-zero exit. -/
def failureText (stderr : List Text) (output : Text) : Text :=
  let found := stderr.foldl (failureLine loads)
    ("relay_error".toList, output.drop (output.length - 600))
  (found.1 ++ ": ".toList ++ found.2).take 400

/-- The three lists the workers write into, by chunk. -/
structure Tables where
  results : ℕ → Option Summary
  errors : ℕ → Option Text
  chunkFinishTs : ℕ → Option Time

/-- What `run_chunk` notes for a run that ended in this way at this time. -/
def runChunk (tables : Tables) (idx : ℕ) (ended : ChunkOutcome × Time) : Tables :=
  match ended.1 with
  | .timedOut =>
      { tables with
        errors := Function.update tables.errors idx (some "relay-chunk.js timed out".toList) }
  | .exited stderr output =>
      { tables with
        errors := Function.update tables.errors idx (some (failureText loads stderr output)) }
  | .noSummary => { tables with results := Function.update tables.results idx none }
  | .summary s =>
      { tables with
        results := Function.update tables.results idx (some s)
        chunkFinishTs := Function.update tables.chunkFinishTs idx (some ended.2) }

end RunChunk

def noTables : Tables := ⟨fun _ => none, fun _ => none, fun _ => none⟩

instance : Nonempty (ChunkOutcome × Time) := ⟨.timedOut, 0⟩

/-! ## `relay_group_pooled` -/

/-- An entry of `evm-relay-pool.json`. -/
structure Account where
  address : Text
  privateKey : Text
  deriving DecidableEq

def committedOf (packets : List Packet) : List Packet := packets.filter fun p => p.status = .committed

/-- What the workers work on. -/
structure Plan where
  committed : List Packet
  chunkSize : ℕ
  chunks : List (List Text)
  workers : List Account

/-- `W = max(1, min(concurrency, pool_size, len(chunks)))`, and the accounts that work. -/
def makePlan (pool : List Account) (packets : List Packet) (chunkSize poolSize concurrency : ℕ) :
    Plan :=
  let committed := committedOf packets
  let chunks := chunkHashes (committed.map Packet.txHash) chunkSize
  { committed := committed
    chunkSize := chunkSize
    chunks := chunks
    workers := pool.take (max 1 (min concurrency (min poolSize chunks.length))) }

/-- Up to the start of the workers; a failure kind and its message where it returns before. -/
def planRelay (pool : List Account) (packets : List Packet) (chunkSize poolSize concurrency : ℕ) :
    Except (Text × Text) Plan :=
  if committedOf packets = [] then
    .error ("no_committed_packets".toList, "nothing committed to relay".toList)
  else
    let poolSize := if poolSize < 1 then 1 else poolSize
    if pool.length < poolSize then
      .error ("evm_pool_missing".toList,
        "only ".toList ++ digits pool.length ++ " EVM pool account(s) available, need ".toList ++
          digits poolSize ++ " — run 'node setup-evm-pool.js ".toList ++ digits poolSize ++
          "' first".toList)
    else .ok (makePlan pool packets chunkSize poolSize concurrency)

abbrev RelayState (plan : Plan) := State (Fin plan.workers.length) Tables

abbrev RelayEvent (plan : Plan) := Event (Fin plan.workers.length) (ChunkOutcome × Time)

/-- The workers: `take` is the locked counter, and `run_chunk` writes the tables. -/
def relayStep (loads : Text → Option Text) (plan : Plan) :
    RelayState plan → RelayEvent plan → Option (RelayState plan) :=
  step plan.chunks.length (runChunk loads)

def relayStart (plan : Plan) : RelayState plan := start noTables

/-- `tx_hash_to_chunk_idx` -/
def chunkIdxOf (chunks : List (List Text)) : Text → Option ℕ :=
  assign (fun _ => none) (chunks.zipIdx.flatMap fun c => c.1.map fun h => (h, c.2))

/-- What the loop over the results adds up. -/
structure Totals where
  byHashToSeq : Text → Option Text
  totalGas : ℕ
  numUpdates : ℕ
  numRecv : ℕ
  failedChunks : List (ℕ × Text)

/-- `errors[i] or "no result"` -/
def errorOf (tables : Tables) (i : ℕ) : Text :=
  match tables.errors i with
  | some (c :: cs) => c :: cs
  | _ => "no result".toList

def addChunk (tables : Tables) (t : Totals) (i : ℕ) : Totals :=
  match tables.results i with
  | none => { t with failedChunks := t.failedChunks ++ [(i, errorOf tables i)] }
  | some res =>
      { t with
        byHashToSeq := assign t.byHashToSeq res.txHashToSeq
        totalGas := t.totalGas + res.totalGas
        numUpdates := t.numUpdates + (if res.updateIncluded then 1 else 0)
        numRecv := t.numRecv + res.recvCount }

def noTotals : Totals := ⟨fun _ => none, 0, 0, 0, []⟩

def totals (plan : Plan) (tables : Tables) : Totals :=
  (List.range plan.chunks.length).foldl (addChunk tables) noTotals

/-- One turn of the loop over the committed packets. -/
def settlePacket (plan : Plan) (tables : Tables) (p : Packet) : Packet :=
  match ((totals plan tables).byHashToSeq (upper p.txHash)).filter fun seq => !seq.isEmpty with
  | none =>
      { p with status := .failed, error := "tx hash not relayed (its chunk failed)".toList }
  | some seq =>
      { p with
        chainSeq := seq
        creditedTs :=
          (((chunkIdxOf plan.chunks) p.txHash).bind tables.chunkFinishTs).getD p.creditedTs
        status := .credited }

/-- `aggregated`, the elapsed time apart. -/
structure Aggregated where
  groupSize : ℕ
  chunkSize : ℕ
  numChunks : ℕ
  numChunkFailures : ℕ
  poolSize : ℕ
  relayConcurrency : ℕ
  totalGas : ℕ
  numUpdateClientCalls : ℕ
  numRecvPacketCalls : ℕ
  txHashToSeq : Text → Option Text

structure RelayResult where
  packets : List Packet
  failureKind : Text
  failureMessage : Text
  aggregated : Aggregated

/-- After the last worker. The packets are changed in place, the committed ones only. -/
def finishRelay (plan : Plan) (packets : List Packet) (tables : Tables) : RelayResult :=
  let t := totals plan tables
  { packets := packets.map fun p => if p.status = .committed then settlePacket plan tables p else p
    failureKind := if t.failedChunks = [] then [] else "partial_relay_failure".toList
    failureMessage :=
      if t.failedChunks = [] then []
      else digits t.failedChunks.length ++ "/".toList ++ digits plan.chunks.length ++
        " chunks failed: ".toList ++ "; ".toList.intercalate ((t.failedChunks.take 5).map fun f =>
          "chunk ".toList ++ digits f.1 ++ ": ".toList ++ f.2)
    aggregated :=
      { groupSize := plan.committed.length
        chunkSize := plan.chunkSize
        numChunks := plan.chunks.length
        numChunkFailures := t.failedChunks.length
        poolSize := plan.workers.length
        relayConcurrency := plan.workers.length
        totalGas := t.totalGas
        numUpdateClientCalls := t.numUpdates
        numRecvPacketCalls := t.numRecv
        txHashToSeq := t.byHashToSeq } }

/-! ## Chunks -/

theorem chunkHashes_eq_slices (txHashes : List Text) (chunkSize : ℕ) :
    chunkHashes txHashes chunkSize = slices chunkSize txHashes := rfl

/-- The chunks are the hashes, cut. -/
theorem flatten_chunkHashes {txHashes : List Text} {chunkSize : ℕ} (h : 1 ≤ chunkSize) :
    (chunkHashes txHashes chunkSize).flatten = txHashes := by
  rw [chunkHashes_eq_slices, flatten_slices h]

theorem chunkHashes_ne_nil {txHashes : List Text} {chunkSize : ℕ} (h : 1 ≤ chunkSize)
    (hne : txHashes ≠ []) : chunkHashes txHashes chunkSize ≠ [] := by
  rw [chunkHashes_eq_slices]
  exact slices_ne_nil h hne

/-- No chunk is empty. -/
theorem chunkHashes_slice_ne_nil {txHashes : List Text} {chunkSize : ℕ} (h : 1 ≤ chunkSize)
    {chunk : List Text} (hmem : chunk ∈ chunkHashes txHashes chunkSize) : chunk ≠ [] := by
  rw [chunkHashes_eq_slices] at hmem
  exact ne_nil_of_mem_slices h hmem

/-- A hash of the group is in some chunk. -/
theorem exists_chunk {chunks : List (List Text)} {h : Text} (hmem : h ∈ chunks.flatten) :
    ∃ (idx : ℕ) (chunk : List Text), chunks[idx]? = some chunk ∧ h ∈ chunk := by
  obtain ⟨chunk, hchunk, hh⟩ := List.mem_flatten.mp hmem
  obtain ⟨idx, hidx⟩ := List.mem_iff_getElem?.mp hchunk
  exact ⟨idx, chunk, hidx, hh⟩

/-- With distinct upper-cased hashes, equal ones are in the same chunk. -/
theorem chunk_unique {chunks : List (List Text)} (hnodup : (chunks.flatten.map upper).Nodup)
    {i j : ℕ} {ci cj : List Text} {h h' : Text} (hi : chunks[i]? = some ci)
    (hj : chunks[j]? = some cj) (hh : h ∈ ci) (hh' : h' ∈ cj) (heq : upper h = upper h') : i = j := by
  rw [List.map_flatten, List.nodup_flatten] at hnodup
  by_contra hne
  have hpair : ∀ (i j : ℕ) (ci cj : List Text), i < j → chunks[i]? = some ci → chunks[j]? = some cj →
      List.Disjoint (ci.map upper) (cj.map upper) := by
    intro i j ci cj hlt hi hj
    obtain ⟨hilt, rfl⟩ := List.getElem?_eq_some_iff.mp hi
    obtain ⟨hjlt, rfl⟩ := List.getElem?_eq_some_iff.mp hj
    have := List.pairwise_iff_getElem.mp hnodup.2 i j (by simpa using hilt) (by simpa using hjlt) hlt
    simpa using this
  rcases Nat.lt_or_gt_of_ne hne with hlt | hlt
  · exact hpair i j ci cj hlt hi hj (List.mem_map_of_mem hh) (heq ▸ List.mem_map_of_mem hh')
  · exact hpair j i cj ci hlt hj hi (heq ▸ List.mem_map_of_mem hh') (List.mem_map_of_mem hh)

theorem chunkIdxOf_eq {chunks : List (List Text)} (hnodup : (chunks.flatten.map upper).Nodup)
    {i : ℕ} {chunk : List Text} {h : Text} (hi : chunks[i]? = some chunk) (hh : h ∈ chunk) :
    chunkIdxOf chunks h = some i := by
  have hmem : ∀ k, (h, k) ∈ chunks.zipIdx.flatMap (fun c => c.1.map fun h => (h, c.2)) ↔
      ∃ c, chunks[k]? = some c ∧ h ∈ c := by
    intro k
    simp only [List.mem_flatMap, List.mem_map, Prod.mk.injEq]
    constructor
    · rintro ⟨⟨c, k'⟩, hc, h', hh', rfl, rfl⟩
      exact ⟨c, List.mem_zipIdx_iff_getElem?.mp hc, hh'⟩
    · rintro ⟨c, hc, hh'⟩
      exact ⟨(c, k), List.mem_zipIdx_iff_getElem?.mpr hc, h, hh', rfl, rfl⟩
  refine assign_of_mem ((hmem i).mpr ⟨chunk, hi, hh⟩) ?_
  intro k hk
  obtain ⟨c, hc, hh'⟩ := (hmem k).mp hk
  exact chunk_unique hnodup hc hi hh' hh rfl

/-! ## The tables and the totals after a run -/

/-- The summary a run of the script ended with. -/
def ChunkOutcome.summary? : ChunkOutcome → Option Summary
  | .summary s => some s
  | _ => none

section Tables

variable {loads : Text → Option Text} {rs : List (ℕ × (ChunkOutcome × Time))} {idx : ℕ}
  {ended : ChunkOutcome × Time}

/-- What the two tables have for a chunk: the summary, and when it came. -/
def Tables.entry (tables : Tables) (i : ℕ) : Option Summary × Option Time :=
  (tables.results i, tables.chunkFinishTs i)

theorem entry_runChunk_of_ne (tables : Tables) (i : ℕ) (ended : ChunkOutcome × Time) (k : ℕ)
    (h : k ≠ i) : (runChunk loads tables i ended).entry k = tables.entry k := by
  obtain ⟨o, t⟩ := ended
  cases o with
  | summary s => exact Prod.ext (Function.update_of_ne h _ _) (Function.update_of_ne h _ _)
  | noSummary => exact Prod.ext (Function.update_of_ne h _ _) rfl
  | exited stderr output => rfl
  | timedOut => rfl

/-- A chunk that ended once has the summary it ended with, and the time if there was one. -/
theorem entry_recordAll (hnodup : (rs.map Prod.fst).Nodup) (h : (idx, ended) ∈ rs) :
    (recordAll (runChunk loads) noTables rs).entry idx =
      (ended.1.summary?, ended.1.summary?.map fun _ => ended.2) := by
  refine (recordAll_of_mem Tables.entry
    (fun r old => match r.1 with
      | .summary s => (some s, some r.2)
      | .noSummary => (none, old.2)
      | _ => old) ?_ entry_runChunk_of_ne hnodup h noTables).trans ?_
  · intro tables i r
    obtain ⟨o, t⟩ := r
    cases o with
    | summary s => exact Prod.ext (Function.update_self _ _ _) (Function.update_self _ _ _)
    | noSummary => exact Prod.ext (Function.update_self _ _ _) rfl
    | exited stderr output => rfl
    | timedOut => rfl
  · obtain ⟨o, t⟩ := ended
    cases o <;> rfl

end Tables

/-- The pairs a chunk's summary adds to the map. -/
def pairsOf (tables : Tables) (i : ℕ) : List (Text × Text) :=
  (tables.results i).elim [] Summary.txHashToSeq

/-- What the loop over the results does, over any stretch of chunks. -/
theorem foldl_addChunk (tables : Tables) (l : List ℕ) (t : Totals) :
    (l.foldl (addChunk tables) t).byHashToSeq = assign t.byHashToSeq (l.flatMap (pairsOf tables)) ∧
      (l.foldl (addChunk tables) t).numUpdates = t.numUpdates +
        (l.filter fun i => (tables.results i).any Summary.updateIncluded).length ∧
      (l.foldl (addChunk tables) t).failedChunks = t.failedChunks ++
        ((l.filter fun i => (tables.results i).isNone).map fun i => (i, errorOf tables i)) := by
  induction l generalizing t with
  | nil => simp
  | cons i l ih =>
      obtain ⟨hpairs, hupdates, hfailed⟩ := ih (addChunk tables t i)
      rw [List.foldl_cons, hpairs, hupdates, hfailed, List.flatMap_cons, assign_append]
      cases hres : tables.results i with
      | none => simp [addChunk, hres, pairsOf]
      | some res =>
          cases hupd : res.updateIncluded with
          | false => simp [addChunk, hres, pairsOf, hupd]
          | true =>
              simp only [addChunk, hres, pairsOf, hupd, Option.elim_some, if_true, Option.any_some,
                List.filter_cons_of_pos, List.length_cons, Option.isNone_some, Bool.false_eq_true,
                not_false_eq_true, List.filter_cons_of_neg, and_true, true_and]
              omega

theorem byHashToSeq_totals (plan : Plan) (tables : Tables) :
    (totals plan tables).byHashToSeq =
      assign (fun _ => none) ((List.range plan.chunks.length).flatMap (pairsOf tables)) :=
  (foldl_addChunk tables _ noTotals).1

theorem numUpdates_totals (plan : Plan) (tables : Tables) :
    (totals plan tables).numUpdates = ((List.range plan.chunks.length).filter fun i =>
      (tables.results i).any Summary.updateIncluded).length := by
  rw [totals, (foldl_addChunk tables _ noTotals).2.1]
  exact Nat.zero_add _

theorem failedChunks_totals (plan : Plan) (tables : Tables) :
    (totals plan tables).failedChunks = [] ↔
      ∀ i < plan.chunks.length, (tables.results i).isSome := by
  rw [totals, (foldl_addChunk tables _ noTotals).2.2]
  simp [noTotals, List.filter_eq_nil_iff, Option.isSome_iff_ne_none]

/-! ## The join of summaries and packets -/

/-- A summary of this chunk: it maps hashes of the chunk, and to sequences that are not empty. -/
def Summary.OfChunk (chunk : List Text) (s : Summary) : Prop :=
  ∀ kv ∈ s.txHashToSeq, (∃ h ∈ chunk, kv.1 = upper h) ∧ kv.2 ≠ []

section Join

variable {plan : Plan} {tables : Tables} {idx : ℕ} {chunk : List Text} {h : Text}

/-- Only a hash's own chunk can map it. -/
theorem mem_pairsOf_iff (hnodup : (plan.chunks.flatten.map upper).Nodup)
    (hown : ∀ i chunk s, plan.chunks[i]? = some chunk → tables.results i = some s → s.OfChunk chunk)
    (hidx : plan.chunks[idx]? = some chunk) (hh : h ∈ chunk) (seq : Text) :
    (upper h, seq) ∈ (List.range plan.chunks.length).flatMap (pairsOf tables) ↔
      ∃ s, tables.results idx = some s ∧ (upper h, seq) ∈ s.txHashToSeq := by
  constructor
  · intro hmem
    obtain ⟨i, hi, hpair⟩ := List.mem_flatMap.mp hmem
    have hlt : i < plan.chunks.length := List.mem_range.mp hi
    have hchunk : plan.chunks[i]? = some plan.chunks[i] := List.getElem?_eq_getElem hlt
    cases hres : tables.results i with
    | none =>
        rw [pairsOf, hres] at hpair
        cases hpair
    | some s =>
        rw [pairsOf, hres] at hpair
        -- the pair is of one of the chunk's own hashes, and hashes are distinct
        obtain ⟨⟨h', hh', heq⟩, -⟩ := hown i _ s hchunk hres _ hpair
        obtain rfl : idx = i := chunk_unique hnodup hidx hchunk hh hh' heq
        exact ⟨s, hres, hpair⟩
  · rintro ⟨s, hres, hpair⟩
    obtain ⟨hlt, -⟩ := List.getElem?_eq_some_iff.mp hidx
    refine List.mem_flatMap.mpr ⟨idx, List.mem_range.mpr hlt, ?_⟩
    rw [pairsOf, hres]
    exact hpair

/-- A packet its chunk's summary names is credited with that sequence, at the time the chunk ended. -/
theorem settlePacket_of_named (hnodup : (plan.chunks.flatten.map upper).Nodup)
    (hown : ∀ i chunk s, plan.chunks[i]? = some chunk → tables.results i = some s → s.OfChunk chunk)
    {p : Packet} {s : Summary} {seq : Text} {t : Time} (hidx : plan.chunks[idx]? = some chunk)
    (hh : p.txHash ∈ chunk) (hres : tables.results idx = some s)
    (hnamed : (upper p.txHash, seq) ∈ s.txHashToSeq) (htime : tables.chunkFinishTs idx = some t) :
    settlePacket plan tables p = { p with chainSeq := seq, creditedTs := t, status := .credited } := by
  have hne : seq ≠ [] := (hown idx chunk s hidx hres _ hnamed).2
  have hseq : (totals plan tables).byHashToSeq (upper p.txHash) = some seq := by
    rw [byHashToSeq_totals]
    refine assign_of_mem ((mem_pairsOf_iff hnodup hown hidx hh seq).mpr ⟨s, hres, hnamed⟩) ?_
    intro seq' hseq'
    obtain ⟨s', hres', hnamed'⟩ := (mem_pairsOf_iff hnodup hown hidx hh seq').mp hseq'
    obtain rfl : s = s' := Option.some.inj (hres.symm.trans hres')
    exact congrArg Prod.snd (List.inj_on_of_nodup_map s.nodup hnamed' hnamed rfl)
  have hidx' : chunkIdxOf plan.chunks p.txHash = some idx := chunkIdxOf_eq hnodup hidx hh
  have hfilter : ((totals plan tables).byHashToSeq (upper p.txHash)).filter
      (fun seq => !seq.isEmpty) = some seq := by
    rw [hseq, Option.filter_some, if_pos (by simpa using hne)]
  simp only [settlePacket, hfilter, hidx', Option.bind_some, htime, Option.getD_some]

/-- A packet its chunk's summary does not name, or whose chunk has none, is failed. -/
theorem settlePacket_of_not_named (hnodup : (plan.chunks.flatten.map upper).Nodup)
    (hown : ∀ i chunk s, plan.chunks[i]? = some chunk → tables.results i = some s → s.OfChunk chunk)
    {p : Packet} (hidx : plan.chunks[idx]? = some chunk) (hh : p.txHash ∈ chunk)
    (hnot : ∀ s seq, tables.results idx = some s → (upper p.txHash, seq) ∉ s.txHashToSeq) :
    settlePacket plan tables p =
      { p with status := .failed, error := "tx hash not relayed (its chunk failed)".toList } := by
  have hseq : (totals plan tables).byHashToSeq (upper p.txHash) = none := by
    rw [byHashToSeq_totals]
    refine assign_of_notMem ?_
    intro seq hseq
    obtain ⟨s, hres, hnamed⟩ := (mem_pairsOf_iff hnodup hown hidx hh seq).mp hseq
    exact hnot s seq hres hnamed
  simp only [settlePacket, hseq, Option.filter_none]

end Join

/-! ## The contract -/

section Contract

variable {pool : List Account} {packets : List Packet} {chunkSize poolSize concurrency : ℕ} {plan : Plan}

theorem clamp_eq (poolSize : ℕ) : (if poolSize < 1 then 1 else poolSize) = max 1 poolSize := by
  split <;> omega

/-- The plan that is made, with the pool size clamped to at least one account. -/
theorem planRelay_eq (hne : committedOf packets ≠ []) (hpool : max 1 poolSize ≤ pool.length) :
    planRelay pool packets chunkSize poolSize concurrency =
      .ok (makePlan pool packets chunkSize (max 1 poolSize) concurrency) := by
  simp only [planRelay, hne, if_false, clamp_eq, not_lt.mpr hpool]

/-- The workers are as many as the three bounds allow. -/
theorem length_workers (hchunk : 1 ≤ chunkSize) (hconc : 1 ≤ concurrency)
    (hne : committedOf packets ≠ []) (hpool : max 1 poolSize ≤ pool.length) :
    (makePlan pool packets chunkSize (max 1 poolSize) concurrency).workers.length =
      min concurrency (min (max 1 poolSize)
        (makePlan pool packets chunkSize (max 1 poolSize) concurrency).chunks.length) := by
  set plan := makePlan pool packets chunkSize (max 1 poolSize) concurrency with hplan
  have hchunks : 0 < plan.chunks.length := by
    apply List.length_pos_of_ne_nil
    refine chunkHashes_ne_nil hchunk ?_
    simpa using hne
  have hworkers : plan.workers = pool.take
      (max 1 (min concurrency (min (max 1 poolSize) plan.chunks.length))) := rfl
  rw [hworkers, List.length_take]
  omega

theorem nodup_chunks (hchunk : 1 ≤ chunkSize)
    (hdistinct : ((committedOf packets).map fun p => upper p.txHash).Nodup) :
    ((makePlan pool packets chunkSize (max 1 poolSize) concurrency).chunks.flatten.map upper).Nodup := by
  have hflat : (makePlan pool packets chunkSize (max 1 poolSize) concurrency).chunks.flatten =
      (committedOf packets).map Packet.txHash := flatten_chunkHashes hchunk
  rw [hflat, List.map_map]
  exact hdistinct

theorem planRelay_eq_ok (h : planRelay pool packets chunkSize poolSize concurrency = .ok plan) :
    committedOf packets ≠ [] ∧ max 1 poolSize ≤ pool.length ∧
      plan = makePlan pool packets chunkSize (max 1 poolSize) concurrency := by
  simp only [planRelay, clamp_eq] at h
  split at h
  · cases h
  · next hne =>
      split at h
      · cases h
      · next hpool => exact ⟨hne, Nat.not_lt.mp hpool, (Except.ok.inj h).symm⟩

/-- What a plan is made of: the committed packets' hashes, cut into chunks that are not empty, and
somebody to relay them. -/
theorem plan_facts (hplan : planRelay pool packets chunkSize poolSize concurrency = .ok plan)
    (hsize : 1 ≤ chunkSize) (hconc : 1 ≤ concurrency)
    (hdistinct : ((committedOf packets).map fun p => upper p.txHash).Nodup) :
    (plan.chunks.flatten.map upper).Nodup ∧
      plan.chunks.flatten = (committedOf packets).map Packet.txHash ∧
      (∀ chunk ∈ plan.chunks, chunk ≠ []) ∧ Nonempty (Fin plan.workers.length) := by
  obtain ⟨hne, hpool, rfl⟩ := planRelay_eq_ok hplan
  have hworkers := length_workers hsize hconc hne hpool
  have hchunks : 0 < (makePlan pool packets chunkSize (max 1 poolSize) concurrency).chunks.length := by
    apply List.length_pos_of_ne_nil
    apply chunkHashes_ne_nil hsize
    simpa using hne
  exact ⟨nodup_chunks hsize hdistinct, flatten_chunkHashes hsize,
    fun _ => chunkHashes_slice_ne_nil hsize, ⟨⟨0, by omega⟩⟩⟩

/-- Two workers have two keys. -/
theorem workers_distinct (hkeys : (pool.map Account.privateKey).Nodup)
    {i i' : Fin (makePlan pool packets chunkSize poolSize concurrency).workers.length} (hii : i ≠ i') :
    ((makePlan pool packets chunkSize poolSize concurrency).workers.get i).privateKey ≠
      ((makePlan pool packets chunkSize poolSize concurrency).workers.get i').privateKey := by
  have hsub : ((makePlan pool packets chunkSize poolSize concurrency).workers.map
      Account.privateKey).Nodup := hkeys.sublist ((List.take_sublist _ _).map _)
  intro heq
  have hget := List.inj_on_of_nodup_map hsub (List.get_mem _ i) (List.get_mem _ i') heq
  exact hii (List.nodup_iff_injective_get.mp (List.Nodup.of_map _ hsub) hget)

variable {loads : Text → Option Text} {evs : List (RelayEvent plan)} {s : RelayState plan}

/-- The summaries the workers brought back are summaries of their own chunks. -/
def OwnSummaries (plan : Plan) (evs : List (RelayEvent plan)) : Prop :=
  ∀ idx chunk s t, (idx, (ChunkOutcome.summary s, t)) ∈ finished evs →
    plan.chunks[idx]? = some chunk → s.OfChunk chunk

/-- The table has what a chunk ended with. -/
theorem results_of_ended (hrun : run (relayStep loads plan) (relayStart plan) evs = some s) {idx : ℕ}
    {ended : ChunkOutcome × Time} (hended : (idx, ended) ∈ finished evs) :
    s.mem.results idx = ended.1.summary? := by
  have hinv := run_inv hrun
  rw [hinv.mem]
  exact congrArg Prod.fst (entry_recordAll hinv.nodup hended)

/-- A summary in the table is one that a chunk ended with. -/
theorem ended_of_results (hrun : run (relayStep loads plan) (relayStart plan) evs = some s) {idx : ℕ}
    {sm : Summary} (hres : s.mem.results idx = some sm) :
    ∃ t, (idx, (ChunkOutcome.summary sm, t)) ∈ finished evs := by
  by_cases hmem : idx ∈ (finished evs).map Prod.fst
  · obtain ⟨⟨_, o, t⟩, hended, rfl⟩ := List.mem_map.mp hmem
    rw [results_of_ended hrun hended] at hres
    cases o with
    | summary sm' =>
        obtain rfl := Option.some.inj hres
        exact ⟨t, hended⟩
    | noSummary => cases hres
    | exited stderr output => cases hres
    | timedOut => cases hres
  · have hnone : s.mem.entry idx = (none, none) := by
      rw [(run_inv hrun).mem]
      exact recordAll_of_notMem Tables.entry entry_runChunk_of_ne hmem noTables
    cases hres.symm.trans (congrArg Prod.fst hnone)

/-- When the workers have left, every chunk has ended. -/
theorem exists_ended [Nonempty (Fin plan.workers.length)]
    (hrun : run (relayStep loads plan) (relayStart plan) evs = some s) (hdone : Done s) {idx : ℕ}
    (hlt : idx < plan.chunks.length) : ∃ o t, (idx, (o, t)) ∈ finished evs := by
  have hmem : idx ∈ (finished evs).map Prod.fst :=
    ((run_inv hrun).done hdone).2.mem_iff.mpr (List.mem_range.mpr hlt)
  obtain ⟨⟨_, o, t⟩, hended, rfl⟩ := List.mem_map.mp hmem
  exact ⟨o, t, hended⟩

/-- What a packet comes to, from how its chunk ended. -/
theorem settlePacket_of_ended (hnodup : (plan.chunks.flatten.map upper).Nodup)
    (hown : OwnSummaries plan evs) (hrun : run (relayStep loads plan) (relayStart plan) evs = some s)
    {p : Packet} {idx : ℕ} {chunk : List Text} {o : ChunkOutcome} {t : Time}
    (hidx : plan.chunks[idx]? = some chunk) (hh : p.txHash ∈ chunk)
    (hended : (idx, (o, t)) ∈ finished evs) :
    (∀ s' seq, o = .summary s' → (upper p.txHash, seq) ∈ s'.txHashToSeq →
      settlePacket plan s.mem p =
        { p with chainSeq := seq, creditedTs := t, status := .credited }) ∧
    ((∀ s' seq, o = .summary s' → (upper p.txHash, seq) ∉ s'.txHashToSeq) →
      settlePacket plan s.mem p =
        { p with status := .failed, error := "tx hash not relayed (its chunk failed)".toList }) := by
  have hown' : ∀ i chunk s', plan.chunks[i]? = some chunk → s.mem.results i = some s' →
      s'.OfChunk chunk := by
    intro i chunk' s' hi hres
    obtain ⟨t', hended'⟩ := ended_of_results hrun hres
    exact hown i chunk' s' t' hended' hi
  have hres := results_of_ended hrun hended
  constructor
  · rintro s' seq rfl hnamed
    have htime : s.mem.chunkFinishTs idx = some t := by
      rw [(run_inv hrun).mem]
      exact congrArg Prod.snd (entry_recordAll (run_inv hrun).nodup hended)
    exact settlePacket_of_named hnodup hown' hidx hh hres hnamed htime
  · intro hnot
    apply settlePacket_of_not_named hnodup hown' hidx hh
    intro s' seq hs' hnamed
    obtain ⟨t', hended'⟩ := ended_of_results hrun hs'
    -- the chunk ended once
    have hsame : (o, t) = (.summary s', t') :=
      congrArg Prod.snd (List.inj_on_of_nodup_map (run_inv hrun).nodup hended hended' rfl)
    exact hnot s' seq (congrArg Prod.fst hsame) hnamed

/-- The failure kind is empty just if every chunk ended in a summary. -/
theorem failureKind_eq_nil_iff [Nonempty (Fin plan.workers.length)] (packets : List Packet)
    (hrun : run (relayStep loads plan) (relayStart plan) evs = some s) (hdone : Done s) :
    (finishRelay plan packets s.mem).failureKind = [] ↔
      ∀ idx o t, (idx, (o, t)) ∈ finished evs → ∃ s', o = .summary s' := by
  have hkind : (finishRelay plan packets s.mem).failureKind = [] ↔
      (totals plan s.mem).failedChunks = [] := by
    simp only [finishRelay]
    split
    · next hnil => exact iff_of_true rfl hnil
    · next hnil => exact iff_of_false (by decide) hnil
  rw [hkind, failedChunks_totals]
  constructor
  · intro hall idx o t hended
    have hlt : idx < plan.chunks.length := by
      apply List.mem_range.mp
      exact ((run_inv hrun).done hdone).2.mem_iff.mp (List.mem_map.mpr ⟨_, hended, rfl⟩)
    have hsome := hall idx hlt
    rw [results_of_ended hrun hended] at hsome
    cases o with
    | summary s' => exact ⟨s', rfl⟩
    | noSummary => cases hsome
    | exited stderr output => cases hsome
    | timedOut => cases hsome
  · intro hall idx hlt
    obtain ⟨o, t, hended⟩ := exists_ended hrun hdone hlt
    obtain ⟨s', rfl⟩ := hall idx o t hended
    rw [results_of_ended hrun hended]
    rfl

end Contract

/-- **The pooled relay.** For committed packets with distinct hashes, any chunk size and concurrency,
a pool of distinct accounts that is large enough, any interleaving and any outcomes: the plan is made;
at no time are more chunks in flight than concurrency, pool and number of chunks allow, nor two with
one account; no chunk is started twice, and no run goes on for ever or gets stuck. When the workers
have left, each chunk was started once and ended once, a packet is credited just if its own chunk's
summary names it, with the time that chunk ended at, and failed otherwise, packets that were not
committed are as they were, and the failure kind is empty just if every chunk ended in a summary. -/
theorem relay_pooled (loads : Text → Option Text) {pool : List Account} {packets : List Packet}
    {chunkSize poolSize concurrency : ℕ} (hne : committedOf packets ≠ [])
    (hdistinct : ((committedOf packets).map fun p => upper p.txHash).Nodup) (hchunk : 1 ≤ chunkSize)
    (hconc : 1 ≤ concurrency) (hkeys : (pool.map Account.privateKey).Nodup)
    (hpool : max 1 poolSize ≤ pool.length) :
    ∃ plan, planRelay pool packets chunkSize poolSize concurrency = .ok plan ∧
      plan.chunks.flatten = (committedOf packets).map Packet.txHash ∧
      ∀ evs s, run (relayStep loads plan) (relayStart plan) evs = some s → OwnSummaries plan evs →
        (started evs).Nodup ∧
        (inFlight s).length ≤ min concurrency (min (max 1 poolSize) plan.chunks.length) ∧
        (∀ i i' j j', i ≠ i' → s.pc i = .running j → s.pc i' = .running j' →
          j ≠ j' ∧ (plan.workers.get i).privateKey ≠ (plan.workers.get i').privateKey) ∧
        evs.length ≤ 2 * plan.chunks.length + plan.workers.length ∧
        (¬ Done s → ∃ e t, relayStep loads plan s e = some t) ∧
        (Done s →
          started evs = List.range plan.chunks.length ∧
          ((finished evs).map Prod.fst).Perm (List.range plan.chunks.length) ∧
          (∀ p ∈ packets, p.status = .committed → ∃ idx chunk o t, plan.chunks[idx]? = some chunk ∧
            p.txHash ∈ chunk ∧ (idx, (o, t)) ∈ finished evs ∧
            (∀ s' seq, o = .summary s' → (upper p.txHash, seq) ∈ s'.txHashToSeq →
              settlePacket plan s.mem p =
                { p with chainSeq := seq, creditedTs := t, status := .credited }) ∧
            ((∀ s' seq, o = .summary s' → (upper p.txHash, seq) ∉ s'.txHashToSeq) →
              settlePacket plan s.mem p =
                { p with status := .failed
                         error := "tx hash not relayed (its chunk failed)".toList })) ∧
          (finishRelay plan packets s.mem).packets = packets.map (fun p =>
            if p.status = .committed then settlePacket plan s.mem p else p) ∧
          ((finishRelay plan packets s.mem).failureKind = [] ↔
            ∀ idx o t, (idx, (o, t)) ∈ finished evs → ∃ s', o = .summary s')) := by
  have hplan : planRelay pool packets chunkSize poolSize concurrency = .ok _ := planRelay_eq hne hpool
  refine ⟨_, hplan, flatten_chunkHashes hchunk, ?_⟩
  obtain ⟨hnodup, hflat, -, hnonempty⟩ := plan_facts hplan hchunk hconc hdistinct
  have hworkers := length_workers hchunk hconc hne hpool
  intro evs s hrun hown
  have hinv := run_inv hrun
  have hlength := length_add_work hrun
  rw [Fintype.card_fin] at hlength
  refine ⟨?_, ?_, ?_, by omega, exists_step_of_not_done, ?_⟩
  · rw [hinv.order]
    exact List.nodup_range
  · rw [← hworkers]
    exact length_inFlight_le s
  · -- two workers in flight: another chunk each, another account each
    intro i i' j j' hii hi hi'
    refine ⟨?_, workers_distinct hkeys hii⟩
    rintro rfl
    exact hii (hinv.alone i i' j hi hi')
  · intro hdone
    obtain ⟨hstarted, hperm⟩ := hinv.done hdone
    refine ⟨hstarted, hperm, ?_, rfl, failureKind_eq_nil_iff packets hrun hdone⟩
    intro p hp hstatus
    have hmem : p.txHash ∈ (committedOf packets).map Packet.txHash :=
      List.mem_map_of_mem (List.mem_filter.mpr ⟨hp, by simpa using hstatus⟩)
    rw [← hflat] at hmem
    obtain ⟨idx, chunk, hidx, hh⟩ := exists_chunk hmem
    obtain ⟨o, t, hended⟩ := exists_ended hrun hdone (List.getElem?_eq_some_iff.mp hidx).1
    exact ⟨idx, chunk, o, t, hidx, hh, hended,
      settlePacket_of_ended hnodup hown hrun hidx hh hended⟩

/-- Two transfers, relayed one by one with two accounts. -/
theorem relay_pooled_two :
    let packets : List Packet :=
      [{ seq := 0, amount := 1000, txHash := ['A'], status := .committed },
        { seq := 1, amount := 1000, txHash := ['B'], status := .committed }]
    let pool : List Account := [⟨['x'], ['1']⟩, ⟨['y'], ['2']⟩]
    ∃ plan, planRelay pool packets 1 2 8 = .ok plan ∧ plan.chunks.flatten = [['A'], ['B']] ∧
      ∀ evs s, run (relayStep (fun _ => none) plan) (relayStart plan) evs = some s →
        OwnSummaries plan evs → (inFlight s).length ≤ 2 := by
  intro packets pool
  have hne : committedOf packets ≠ [] := by decide
  have hdistinct : ((committedOf packets).map fun p => upper p.txHash).Nodup := by decide
  have hkeys : (pool.map Account.privateKey).Nodup := by decide
  have hpool : max 1 2 ≤ pool.length := by decide
  obtain ⟨plan, hplan, hflat, hall⟩ :=
    relay_pooled (fun _ => none) hne hdistinct (le_refl 1) (by decide : 1 ≤ 8) hkeys hpool
  refine ⟨plan, hplan, hflat, ?_⟩
  intro evs s hrun hown
  have hbound := (hall evs s hrun hown).2.1
  omega

end PqcMigration.BatchScaling
