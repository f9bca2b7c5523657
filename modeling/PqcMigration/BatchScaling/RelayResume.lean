/-
# PqcMigration.BatchScaling.RelayResume — the forward relay phase of `run_one`, cut short and resumed.

The phase deletes the files of earlier attempts, and then the workers of `RelayPool` run the script of
`RelayChunk`. A chunk's transaction lands on chain while the script waits; the script goes on from the
receipt whenever it gets to it. A crash leaves the chain as it is. The last checkpoint is then the one
saved after the submission, so `run_one` starts the phase again with the same packets, the same plan and
a router that knows what has landed.

`submit` and the other services answer both attempts alike (a run in which a service fails or a script
times out could not be compared with another). `relay_resume_iff` says when a resumed phase credits
what an uninterrupted one credits: just if nothing had landed. For a chunk that has landed the second
attempt gets no acknowledgements, and `missing_acks` fails all of its packets.
-/
import PqcMigration.BatchScaling.RelayChunk

namespace PqcMigration.BatchScaling

open Lib WorkQueue

/-! ## The phase -/

/-- `receipts` is the receipt of the transaction of the script that a worker runs; `outDir` has the
`recv-result` files by sequence. -/
structure ForwardState (plan : Plan) where
  queue : RelayState plan
  received : ℕ → Bool
  receipts : Fin plan.workers.length → Option Receipt
  outDir : Text → Option RecvResult

inductive ForwardEvent (plan : Plan) where
  | take (i : Fin plan.workers.length) (idx : ℕ)
  /-- the transaction of the chunk that worker `i` relays is executed -/
  | land (i : Fin plan.workers.length) (idx : ℕ) (hash : Text) (blockNumber gasUsed : ℕ)
  | finish (i : Fin plan.workers.length) (idx : ℕ) (o : ChunkOutcome) (now : Time)
  | leave (i : Fin plan.workers.length)

/-- What the workers' queue sees of it. -/
def ForwardEvent.onQueue {plan : Plan} : ForwardEvent plan → Option (RelayEvent plan)
  | .take i idx => some (.take i idx)
  | .land _ _ _ _ _ => none
  | .finish i idx o now => some (.finish i idx (o, now))
  | .leave i => some (.leave i)

/-- The phase begins: `*.json` is deleted, and no worker has begun. -/
def forwardStart (plan : Plan) (received : ℕ → Bool) : ForwardState plan :=
  ⟨relayStart plan, received, fun _ => none, fun _ => none⟩

section Step

variable (loads : Text → Option Text) (sv : Services) (env : Env) (plan : Plan)

def forwardStep (s : ForwardState plan) : ForwardEvent plan → Option (ForwardState plan)
  | .take i idx =>
      (relayStep loads plan s.queue (.take i idx)).map fun q =>
        { s with queue := q, receipts := Function.update s.receipts i none }
  | .land i idx hash blockNumber gasUsed =>
      match (plan.chunks[idx]?).bind (landing sv env) with
      | none => none
      | some (_, relay) =>
          -- one transaction for each run of the script
          if s.queue.pc i = .running idx ∧ (s.receipts i).isNone then
            let executed := recvPackets sv.acknowledge s.received relay.calls
            some { s with
              received := executed.1
              receipts :=
                Function.update s.receipts i (some ⟨hash, blockNumber, gasUsed, executed.2⟩) }
          else none
  | .finish i idx o now =>
      match (plan.chunks[idx]?).bind fun chunk => relayChunk sv env idx chunk (s.receipts i) with
      | none => none
      | some (o', files) =>
          if o' = o then
            (relayStep loads plan s.queue (.finish i idx (o, now))).map fun q =>
              { s with
                queue := q
                receipts := Function.update s.receipts i none
                outDir := assign s.outDir (files.map fun f => (f.sequence, f)) }
          else none
  | .leave i => (relayStep loads plan s.queue (.leave i)).map fun q => { s with queue := q }

variable {loads sv env plan} {s t : ForwardState plan} {e : ForwardEvent plan}

/-- Everything a step can do. -/
theorem forwardStep_cases (h : forwardStep loads sv env plan s e = some t) :
    (∃ i, e = .take i s.queue.next ∧ s.queue.pc i = .ready ∧ s.queue.next < plan.chunks.length ∧
      t = { s with
        queue := { s.queue with
          next := s.queue.next + 1
          pc := Function.update s.queue.pc i (.running s.queue.next) }
        receipts := Function.update s.receipts i none }) ∨
    (∃ i idx hash blockNumber gasUsed chunk bySeq relay, e = .land i idx hash blockNumber gasUsed ∧
      plan.chunks[idx]? = some chunk ∧ landing sv env chunk = some (bySeq, relay) ∧
      s.queue.pc i = .running idx ∧ s.receipts i = none ∧
      t = { s with
        received := (recvPackets sv.acknowledge s.received relay.calls).1
        receipts := Function.update s.receipts i (some ⟨hash, blockNumber, gasUsed,
          (recvPackets sv.acknowledge s.received relay.calls).2⟩) }) ∨
    (∃ i idx o now chunk files, e = .finish i idx o now ∧ plan.chunks[idx]? = some chunk ∧
      relayChunk sv env idx chunk (s.receipts i) = some (o, files) ∧ s.queue.pc i = .running idx ∧
      t = { s with
        queue := { s.queue with
          pc := Function.update s.queue.pc i .ready
          mem := runChunk loads s.queue.mem idx (o, now) }
        receipts := Function.update s.receipts i none
        outDir := assign s.outDir (files.map fun f => (f.sequence, f)) }) ∨
    (∃ i, e = .leave i ∧ s.queue.pc i = .ready ∧ plan.chunks.length ≤ s.queue.next ∧
      t = { s with queue := { s.queue with pc := Function.update s.queue.pc i .left } }) := by
  cases e with
  | take i idx =>
      simp only [forwardStep] at h
      obtain ⟨q, hq, rfl⟩ := Option.map_eq_some_iff.mp h
      obtain ⟨i', he, hready, hlt, rfl⟩ | ⟨_, _, _, ⟨⟩, -⟩ | ⟨_, ⟨⟩, -⟩ := step_cases hq
      obtain ⟨rfl, rfl⟩ := Event.take.inj he
      exact Or.inl ⟨i, rfl, hready, hlt, rfl⟩
  | land i idx hash blockNumber gasUsed =>
      simp only [forwardStep] at h
      split at h
      · cases h
      · next bySeq relay hland =>
          obtain ⟨chunk, hchunk, hland⟩ := Option.bind_eq_some_iff.mp hland
          split at h
          · next hguard =>
              exact Or.inr (Or.inl ⟨i, idx, hash, blockNumber, gasUsed, chunk, bySeq, relay, rfl,
                hchunk, hland, hguard.1, Option.isNone_iff_eq_none.mp hguard.2,
                (Option.some.inj h).symm⟩)
          · cases h
  | finish i idx o now =>
      simp only [forwardStep] at h
      split at h
      · cases h
      · next o' files hended =>
          obtain ⟨chunk, hchunk, hended⟩ := Option.bind_eq_some_iff.mp hended
          split at h
          · next ho =>
              subst ho
              obtain ⟨q, hq, rfl⟩ := Option.map_eq_some_iff.mp h
              obtain ⟨_, ⟨⟩, -⟩ | ⟨i', idx', r, he, hrunning, rfl⟩ | ⟨_, ⟨⟩, -⟩ := step_cases hq
              obtain ⟨rfl, rfl, rfl⟩ := Event.finish.inj he
              exact Or.inr (Or.inr (Or.inl ⟨i, idx, o', now, chunk, files, rfl, hchunk, hended,
                hrunning, rfl⟩))
          · cases h
  | leave i =>
      simp only [forwardStep] at h
      obtain ⟨q, hq, rfl⟩ := Option.map_eq_some_iff.mp h
      obtain ⟨_, ⟨⟩, -⟩ | ⟨_, _, _, ⟨⟩, -⟩ | ⟨i', he, hready, hend, rfl⟩ := step_cases hq
      obtain rfl := Event.leave.inj he
      exact Or.inr (Or.inr (Or.inr ⟨i, rfl, hready, hend, rfl⟩))

/-- The workers' queue runs as in `RelayPool`. -/
theorem forward_queue {received : ℕ → Bool} {evs : List (ForwardEvent plan)}
    (hrun : run (forwardStep loads sv env plan) (forwardStart plan received) evs = some s) :
    run (relayStep loads plan) (relayStart plan) (evs.filterMap ForwardEvent.onQueue) =
      some s.queue := by
  refine run_simulates ForwardState.queue ForwardEvent.onQueue (I := fun _ => True)
    (fun _ _ _ _ _ => trivial) ?_ ?_ trivial hrun
  · intro s e t _ hstep hsilent
    obtain ⟨i, rfl, -⟩ | ⟨_, _, _, _, _, _, _, _, rfl, -, -, -, -, rfl⟩ |
      ⟨_, _, _, _, _, _, rfl, -⟩ | ⟨i, rfl, -⟩ := forwardStep_cases hstep
    · cases hsilent
    · -- a landing is not seen by the queue
      rfl
    · cases hsilent
    · cases hsilent
  · intro s e t e' _ hstep he'
    obtain ⟨i, rfl, hready, hlt, rfl⟩ | ⟨_, _, _, _, _, _, _, _, rfl, -⟩ |
      ⟨i, idx, o, now, _, _, rfl, -, -, hrunning, rfl⟩ | ⟨i, rfl, hready, hend, rfl⟩ :=
      forwardStep_cases hstep
    · obtain rfl := Option.some.inj he'
      exact if_pos ⟨hready, hlt, rfl⟩
    · cases he'
    · obtain rfl := Option.some.inj he'
      exact if_pos hrunning
    · obtain rfl := Option.some.inj he'
      exact if_pos ⟨hready, hend⟩

end Step

/-! ## What has landed -/

section Landed

variable {plan : Plan} {bs : List (ForwardEvent plan)} {k : ℕ}

/-- The transaction of chunk `k` has been executed. -/
def LandedIn (evs : List (ForwardEvent plan)) (k : ℕ) : Prop :=
  ∃ i hash blockNumber gasUsed, ForwardEvent.land i k hash blockNumber gasUsed ∈ evs

theorem landedIn_append_land {i : Fin plan.workers.length} {idx : ℕ} {hash : Text}
    {blockNumber gasUsed : ℕ} :
    LandedIn (bs ++ [.land i idx hash blockNumber gasUsed]) k ↔ LandedIn bs k ∨ k = idx := by
  constructor
  · rintro ⟨i', hash', blockNumber', gasUsed', hmem⟩
    rcases List.mem_append.mp hmem with hold | hnew
    · exact Or.inl ⟨i', hash', blockNumber', gasUsed', hold⟩
    · obtain ⟨-, rfl, -⟩ := ForwardEvent.land.inj (List.mem_singleton.mp hnew)
      exact Or.inr rfl
  · rintro (⟨i', hash', blockNumber', gasUsed', hold⟩ | rfl)
    · exact ⟨i', hash', blockNumber', gasUsed', List.mem_append_left _ hold⟩
    · exact ⟨i, hash, blockNumber, gasUsed, List.mem_append_right _ List.mem_cons_self⟩

theorem landedIn_append_of_ne {e : ForwardEvent plan}
    (he : ∀ i idx hash blockNumber gasUsed, e ≠ .land i idx hash blockNumber gasUsed) :
    LandedIn (bs ++ [e]) k ↔ LandedIn bs k := by
  constructor
  · rintro ⟨i, hash, blockNumber, gasUsed, hmem⟩
    rcases List.mem_append.mp hmem with hold | hnew
    · exact ⟨i, hash, blockNumber, gasUsed, hold⟩
    · exact absurd (List.mem_singleton.mp hnew).symm (he i k hash blockNumber gasUsed)
  · rintro ⟨i, hash, blockNumber, gasUsed, hold⟩
    exact ⟨i, hash, blockNumber, gasUsed, List.mem_append_left _ hold⟩

end Landed

/-! ## Chunks and their packets -/

section Chunks

variable {sv : Services} {env : Env} {plan : Plan}

/-- The sequence `seq` is of a packet that the transaction of chunk `idx` receives. -/
def Carries (sv : Services) (env : Env) (plan : Plan) (idx seq : ℕ) : Prop :=
  ∃ chunk bySeq relay, plan.chunks[idx]? = some chunk ∧ landing sv env chunk = some (bySeq, relay) ∧
    seq ∈ bySeq.map Prod.fst

/-- A chunk that ends in a summary, on a chain where these packets have been received. -/
def Creditable (sv : Services) (env : Env) (received : ℕ → Bool) (chunk : List Text) : Prop :=
  ∃ bySeq relay, landing sv env chunk = some (bySeq, relay) ∧
    ∀ seq ∈ bySeq.map Prod.fst, received seq = false

theorem nodup_chunk (hnodup : (plan.chunks.flatten.map upper).Nodup) {idx : ℕ} {chunk : List Text}
    (hchunk : plan.chunks[idx]? = some chunk) : (chunk.map upper).Nodup := by
  rw [List.map_flatten] at hnodup
  apply (List.nodup_flatten.mp hnodup).1
  exact List.mem_map_of_mem (List.mem_of_getElem? hchunk)

/-- The entries of a chunk that lands. -/
theorem landing_entries (hdoc : sv.Documented env) (hnodup : (plan.chunks.flatten.map upper).Nodup)
    {idx : ℕ} {chunk : List Text} {bySeq : List (ℕ × Entry)} {relay : Relay}
    (hchunk : plan.chunks[idx]? = some chunk) (hland : landing sv env chunk = some (bySeq, relay)) :
    bySeq.map (fun e => e.2.hash) = chunk ∧ (∀ e ∈ bySeq, validate sv env e.2.hash = .ok e) ∧
      ∀ seq, seq ∈ relay.calls ↔ seq ∈ bySeq.map Prod.fst := by
  obtain ⟨hprepared, -⟩ := landing_eq_some hland
  obtain ⟨hhashes, hvalid⟩ := prepare_entries hdoc (nodup_chunk hnodup hchunk) hprepared
  exact ⟨hhashes, hvalid, hdoc.relays _ _ _ hprepared⟩

/-- A chunk that lands carries what its transaction receives. -/
theorem carries_iff (hdoc : sv.Documented env) (hnodup : (plan.chunks.flatten.map upper).Nodup)
    {idx seq : ℕ} {chunk : List Text} {bySeq : List (ℕ × Entry)} {relay : Relay}
    (hchunk : plan.chunks[idx]? = some chunk) (hland : landing sv env chunk = some (bySeq, relay)) :
    Carries sv env plan idx seq ↔ seq ∈ relay.calls := by
  obtain ⟨-, -, hcalls⟩ := landing_entries hdoc hnodup hchunk hland
  rw [hcalls]
  constructor
  · rintro ⟨chunk', bySeq', relay', hchunk', hland', hseq⟩
    obtain rfl : chunk = chunk' := Option.some.inj (hchunk.symm.trans hchunk')
    obtain ⟨rfl, rfl⟩ := Prod.mk.inj (Option.some.inj (hland.symm.trans hland'))
    exact hseq
  · intro hseq
    exact ⟨chunk, bySeq, relay, hchunk, hland, hseq⟩

/-- A packet is of one chunk. -/
theorem carries_unique (hdoc : sv.Documented env) (hnodup : (plan.chunks.flatten.map upper).Nodup)
    {i j seq : ℕ} (hi : Carries sv env plan i seq) (hj : Carries sv env plan j seq) : i = j := by
  obtain ⟨ci, bi, ri, hci, hlandi, hseqi⟩ := hi
  obtain ⟨cj, bj, rj, hcj, hlandj, hseqj⟩ := hj
  obtain ⟨hhashi, hvalidi, -⟩ := landing_entries hdoc hnodup hci hlandi
  obtain ⟨hhashj, hvalidj, -⟩ := landing_entries hdoc hnodup hcj hlandj
  obtain ⟨e, he, rfl⟩ := List.mem_map.mp hseqi
  obtain ⟨e', he', heq⟩ := List.mem_map.mp hseqj
  have hupper := hdoc.sequences _ _ _ _ (hvalidi e he) (hvalidj e' he') heq.symm
  have hmemi : e.2.hash ∈ ci := by
    rw [← hhashi]
    exact List.mem_map_of_mem he
  have hmemj : e'.2.hash ∈ cj := by
    rw [← hhashj]
    exact List.mem_map_of_mem he'
  exact chunk_unique hnodup hci hcj hmemi hmemj hupper

/-- The summary of a chunk names every hash of the chunk, with its sequence. -/
theorem hashToSeq_eq (hdoc : sv.Documented env) (hnodup : (plan.chunks.flatten.map upper).Nodup)
    {idx : ℕ} {chunk : List Text} {bySeq : List (ℕ × Entry)} {relay : Relay}
    (hchunk : plan.chunks[idx]? = some chunk) (hland : landing sv env chunk = some (bySeq, relay)) :
    hashToSeq bySeq = bySeq.map fun e => (upper e.2.hash, digits e.1) := by
  obtain ⟨hhashes, -, -⟩ := landing_entries hdoc hnodup hchunk hland
  apply entriesOf_of_nodup
  have hkeys : (bySeq.map fun e => (upper e.2.hash, digits e.1)).map Prod.fst = chunk.map upper := by
    rw [← hhashes, List.map_map, List.map_map]
    rfl
  rw [hkeys]
  exact nodup_chunk hnodup hchunk

end Chunks

/-! ## Every reachable state -/

section Inv

variable {loads : Text → Option Text} {sv : Services} {env : Env} {plan : Plan} {received : ℕ → Bool}

/-- How a chunk has ended, and the files it has left: just as if no other chunk had been relayed. -/
structure EndedAs (sv : Services) (env : Env) (received : ℕ → Bool) (outDir : Text → Option RecvResult)
    (chunk : List Text) (o : ChunkOutcome) : Prop where
  credited : Creditable sv env received chunk → ∃ bySeq relay s, landing sv env chunk = some (bySeq, relay) ∧
    o = .summary s ∧ s.txHashToSeq = hashToSeq bySeq ∧
    ∀ seq ∈ bySeq.map Prod.fst, (outDir (digits seq)).isSome
  failed : ¬ Creditable sv env received chunk → o.summary? = none

/-- History and state of a phase that began with these packets received. -/
structure ForwardInv (sv : Services) (env : Env) (received : ℕ → Bool) (evs : List (ForwardEvent plan))
    (s : ForwardState plan) : Prop where
  receivedNow : ∀ seq, s.received seq = true ↔
    received seq = true ∨ ∃ idx, LandedIn evs idx ∧ Carries sv env plan idx seq
  taken : ∀ idx, LandedIn evs idx → idx < s.queue.next
  waiting : ∀ i idx, s.queue.pc i = .running idx → s.receipts i = none → ¬ LandedIn evs idx
  receipt : ∀ i idx chunk bySeq relay r, s.queue.pc i = .running idx → s.receipts i = some r →
    plan.chunks[idx]? = some chunk → landing sv env chunk = some (bySeq, relay) →
    ∀ seq ∈ bySeq.map Prod.fst, (∃ acks, (seq, acks) ∈ r.logs) ↔ received seq = false
  ended : ∀ idx o t, (idx, (o, t)) ∈ finished (evs.filterMap ForwardEvent.onQueue) →
    ∃ chunk, plan.chunks[idx]? = some chunk ∧ EndedAs sv env received s.outDir chunk o

theorem forwardInv_start :
    ForwardInv sv env received ([] : List (ForwardEvent plan)) (forwardStart plan received) where
  receivedNow seq := by
    constructor
    · exact Or.inl
    · rintro (h | ⟨_, ⟨_, _, _, _, hmem⟩, -⟩)
      · exact h
      · cases hmem
  taken _ h := by
    obtain ⟨_, _, _, _, hmem⟩ := h
    cases hmem
  waiting _ _ h := by cases h
  receipt _ _ _ _ _ _ h := by cases h
  ended _ _ _ h := by cases h

/-- A file that is there stays. -/
theorem isSome_assign {outDir : Text → Option RecvResult} {kvs : List (Text × RecvResult)} {k : Text}
    (h : (outDir k).isSome) : (assign outDir kvs k).isSome := by
  by_cases hmem : ∃ v, (k, v) ∈ kvs
  · obtain ⟨v, hv⟩ := hmem
    obtain ⟨v', -, heq⟩ := exists_assign_of_mem (d := outDir) hv
    rw [heq]
    rfl
  · rw [assign_of_notMem fun v hv => hmem ⟨v, hv⟩]
    exact h

theorem EndedAs.write {outDir : Text → Option RecvResult} {chunk : List Text} {o : ChunkOutcome}
    (h : EndedAs sv env received outDir chunk o) (kvs : List (Text × RecvResult)) :
    EndedAs sv env received (assign outDir kvs) chunk o where
  credited hcredit := by
    obtain ⟨bySeq, relay, s, hland, ho, hnames, hfiles⟩ := h.credited hcredit
    exact ⟨bySeq, relay, s, hland, ho, hnames, fun seq hseq => isSome_assign (hfiles seq hseq)⟩
  failed := h.failed

/-- The script's end, from a receipt that tells which packets had not been received. -/
theorem endedAs_relayChunk {idx : ℕ} {chunk : List Text} {receipt : Option Receipt}
    {o : ChunkOutcome} {files : List RecvResult} (outDir : Text → Option RecvResult)
    (h : relayChunk sv env idx chunk receipt = some (o, files))
    (hreceipt : ∀ bySeq relay r, receipt = some r → landing sv env chunk = some (bySeq, relay) →
      ∀ seq ∈ bySeq.map Prod.fst, (∃ acks, (seq, acks) ∈ r.logs) ↔ received seq = false) :
    EndedAs sv env received (assign outDir (files.map fun f => (f.sequence, f))) chunk o := by
  cases hland : landing sv env chunk with
  | none =>
      refine ⟨?_, fun _ => relayChunk_of_not_landing hland h⟩
      rintro ⟨_, _, hland', -⟩
      rw [hland] at hland'
      cases hland'
  | some landed =>
      obtain ⟨bySeq, relay⟩ := landed
      obtain ⟨r, rfl, hall, hsome⟩ := relayChunk_of_landing hland h
      have hlogs := hreceipt bySeq relay r rfl hland
      -- an acknowledgement for each packet, or `missing_acks` for the chunk
      constructor
      · rintro ⟨bySeq', relay', hland', hnot⟩
        obtain ⟨rfl, rfl⟩ := Prod.mk.inj (Option.some.inj (hland.symm.trans hland'))
        obtain ⟨rfl, rfl⟩ := Prod.mk.inj (hall fun seq hseq => (hlogs seq hseq).mpr (hnot seq hseq))
        refine ⟨bySeq, relay, _, hland, rfl, rfl, ?_⟩
        intro seq hseq
        obtain ⟨e, he, rfl⟩ := List.mem_map.mp hseq
        obtain ⟨v, -, hv⟩ := exists_assign_of_mem (d := outDir)
          (List.mem_map.mpr ⟨_, List.mem_map.mpr ⟨e, he, rfl⟩, rfl⟩ :
            (digits e.1, _) ∈ (recvResults bySeq r).map fun f => (f.sequence, f))
        rw [hv]
        rfl
      · intro hnot
        apply hsome
        intro hacked
        exact hnot ⟨bySeq, relay, hland, fun seq hseq => (hlogs seq hseq).mp (hacked seq hseq)⟩

variable {bs : List (ForwardEvent plan)} {s : ForwardState plan}

/-- A step that ends no chunk leaves what is known of those that have ended. -/
theorem ForwardInv.ended_before {e : ForwardEvent plan} (h : ForwardInv sv env received bs s)
    (he : finished ([e].filterMap ForwardEvent.onQueue) = []) :
    ∀ idx o now, (idx, (o, now)) ∈ finished ((bs ++ [e]).filterMap ForwardEvent.onQueue) →
      ∃ chunk, plan.chunks[idx]? = some chunk ∧ EndedAs sv env received s.outDir chunk o := by
  intro idx o now hmem
  rw [List.filterMap_append, finished_append, he, List.append_nil] at hmem
  exact h.ended idx o now hmem

/-- A step in which nothing lands. -/
theorem ForwardInv.quiet {e : ForwardEvent plan} {t : ForwardState plan}
    (h : ForwardInv sv env received bs s)
    (he : ∀ i idx hash blockNumber gasUsed, e ≠ .land i idx hash blockNumber gasUsed)
    (hreceived : t.received = s.received) (hnext : s.queue.next ≤ t.queue.next)
    (hthreads : ∀ j idx, t.queue.pc j = .running idx →
      (s.queue.pc j = .running idx ∧ t.receipts j = s.receipts j) ∨
        (t.receipts j = none ∧ s.queue.next ≤ idx))
    (hended : ∀ idx o now, (idx, (o, now)) ∈ finished ((bs ++ [e]).filterMap ForwardEvent.onQueue) →
      ∃ chunk, plan.chunks[idx]? = some chunk ∧ EndedAs sv env received t.outDir chunk o) :
    ForwardInv sv env received (bs ++ [e]) t := by
  have hlanded : ∀ k, LandedIn (bs ++ [e]) k ↔ LandedIn bs k := fun k => landedIn_append_of_ne he
  refine { receivedNow := ?_, taken := ?_, waiting := ?_, receipt := ?_, ended := hended }
  · intro seq
    simp only [hlanded]
    rw [hreceived]
    exact h.receivedNow seq
  · intro idx hidx
    exact Nat.lt_of_lt_of_le (h.taken idx ((hlanded idx).mp hidx)) hnext
  · intro j idx hj hnone hidx
    rw [hlanded] at hidx
    rcases hthreads j idx hj with ⟨hold, hsame⟩ | ⟨-, hbeyond⟩
    · exact h.waiting j idx hold (hsame.symm.trans hnone) hidx
    · exact absurd (h.taken idx hidx) (Nat.not_lt.mpr hbeyond)
  · intro j idx chunk bySeq relay r hj hr
    rcases hthreads j idx hj with ⟨hold, hsame⟩ | ⟨hnone, -⟩
    · exact h.receipt j idx chunk bySeq relay r hold (hsame.symm.trans hr)
    · rw [hnone] at hr
      cases hr

/-- A landing: the packets of the chunk had been received just if they had before the phase. -/
theorem ForwardInv.land (hdoc : sv.Documented env)
    (hnodup : (plan.chunks.flatten.map upper).Nodup) (h : ForwardInv sv env received bs s)
    (halone : ∀ i j idx, s.queue.pc i = .running idx → s.queue.pc j = .running idx → i = j)
    (hbound : ∀ i idx, s.queue.pc i = .running idx → idx < s.queue.next)
    {i : Fin plan.workers.length} {idx blockNumber gasUsed : ℕ} {hash : Text} {chunk : List Text}
    {bySeq : List (ℕ × Entry)} {relay : Relay} (hchunk : plan.chunks[idx]? = some chunk)
    (hland : landing sv env chunk = some (bySeq, relay)) (hpc : s.queue.pc i = .running idx)
    (hnone : s.receipts i = none) :
    ForwardInv sv env received (bs ++ [.land i idx hash blockNumber gasUsed])
      { s with
        received := (recvPackets sv.acknowledge s.received relay.calls).1
        receipts := Function.update s.receipts i (some ⟨hash, blockNumber, gasUsed,
          (recvPackets sv.acknowledge s.received relay.calls).2⟩) } := by
  obtain ⟨-, -, hcalls⟩ := landing_entries hdoc hnodup hchunk hland
  have hcarries : ∀ seq, Carries sv env plan idx seq ↔ seq ∈ relay.calls := fun _ =>
    carries_iff hdoc hnodup hchunk hland
  have hended := h.ended_before (e := .land i idx hash blockNumber gasUsed) rfl
  refine { receivedNow := ?_, taken := ?_, waiting := ?_, receipt := ?_, ended := hended }
  · intro seq
    show (recvPackets sv.acknowledge s.received relay.calls).1 seq = true ↔ _
    rw [recvPackets_received, h.receivedNow, ← hcarries, or_assoc]
    apply or_congr_right
    simp only [landedIn_append_land]
    constructor
    · rintro (⟨k, hk, hseq⟩ | hseq)
      · exact ⟨k, Or.inl hk, hseq⟩
      · exact ⟨idx, Or.inr rfl, hseq⟩
    · rintro ⟨k, hk | rfl, hseq⟩
      · exact Or.inl ⟨k, hk, hseq⟩
      · exact Or.inr hseq
  · intro k hk
    rcases landedIn_append_land.mp hk with hold | rfl
    · exact h.taken k hold
    · exact hbound i k hpc
  · -- a chunk is in flight once, so another worker's chunk has not landed by this
    intro j k hj hwaiting hk
    obtain ⟨hji, hnone'⟩ := of_update_of_not (Q := fun r : Option Receipt => r = none) (by simp)
      hwaiting
    rcases landedIn_append_land.mp hk with hold | rfl
    · exact h.waiting j k hj hnone' hold
    · exact hji (halone j i k hj hpc)
  · intro j k chunk' bySeq' relay' r hj hr hchunk' hland' seq hseq
    rcases of_update (Q := fun o : Option Receipt => o = some r) hr with ⟨rfl, hnew⟩ | ⟨-, hr'⟩
    · obtain rfl := Option.some.inj hnew
      obtain rfl : idx = k := Pc.running.inj (hpc.symm.trans hj)
      obtain rfl : chunk = chunk' := Option.some.inj (hchunk.symm.trans hchunk')
      obtain ⟨rfl, rfl⟩ := Prod.mk.inj (Option.some.inj (hland.symm.trans hland'))
      show (∃ acks, (seq, acks) ∈ (recvPackets sv.acknowledge s.received relay.calls).2) ↔ _
      have hcall : seq ∈ relay.calls := (hcalls seq).mpr hseq
      -- only this chunk carries the packet, and it has not landed before
      have hsame : s.received seq = true ↔ received seq = true := by
        rw [h.receivedNow]
        constructor
        · rintro (hold | ⟨k, hk, hk'⟩)
          · exact hold
          · obtain rfl := carries_unique hdoc hnodup ((hcarries seq).mpr hcall) hk'
            exact absurd hk (h.waiting j idx hpc hnone)
        · exact Or.inl
      rw [recvPackets_logs, ← Bool.not_eq_true, hsame, Bool.not_eq_true]
      exact and_iff_right hcall
    · exact h.receipt j k chunk' bySeq' relay' r hj hr' hchunk' hland' seq hseq

/-- **Every reachable state keeps the invariant.** -/
theorem forwardInv_run (hdoc : sv.Documented env) (hnodup : (plan.chunks.flatten.map upper).Nodup)
    {evs : List (ForwardEvent plan)}
    (hrun : run (forwardStep loads sv env plan) (forwardStart plan received) evs = some s) :
    ForwardInv sv env received evs s := by
  suffices h : run (forwardStep loads sv env plan) (forwardStart plan received) evs = some s ∧
      ForwardInv sv env received evs s from h.2
  refine run_history (I := fun bs s =>
    run (forwardStep loads sv env plan) (forwardStart plan received) bs = some s ∧
      ForwardInv sv env received bs s) ?_ ⟨rfl, forwardInv_start⟩ hrun
  rintro bs s e t ⟨hbs, h⟩ hstep
  refine ⟨run_append_eq_some.mpr ⟨s, hbs, run_cons_eq_some.mpr ⟨t, hstep, rfl⟩⟩, ?_⟩
  have hqueue := run_inv (forward_queue hbs)
  have hbound : ∀ i idx, s.queue.pc i = .running idx → idx < s.queue.next := fun i idx hi =>
    (hqueue.covered idx).mpr (Or.inr ⟨i, hi⟩)
  obtain ⟨i, rfl, hready, hlt, rfl⟩ |
    ⟨i, idx, hash, blockNumber, gasUsed, chunk, bySeq, relay, rfl, hchunk, hland, hpc, hnone, rfl⟩ |
    ⟨i, idx, o, now, chunk, files, rfl, hchunk, hended, hpc, rfl⟩ | ⟨i, rfl, hready, -, rfl⟩ :=
    forwardStep_cases hstep
  · -- the chunk taken is beyond all those that have landed
    refine h.quiet (by simp) rfl (Nat.le_succ _) ?_ (h.ended_before rfl)
    intro j idx hj
    rcases of_update (Q := fun p : Pc => p = .running idx) hj with ⟨rfl, hnew⟩ | ⟨hji, hj'⟩
    · exact Or.inr ⟨Function.update_self _ _ _, Nat.le_of_eq (Pc.running.inj hnew)⟩
    · exact Or.inl ⟨hj', Function.update_of_ne hji _ _⟩
  · exact h.land hdoc hnodup hqueue.alone hbound hchunk hland hpc hnone
  · refine h.quiet (by simp) rfl (Nat.le_refl _) ?_ ?_
    · intro j k hj
      obtain ⟨hji, hj'⟩ := of_update_of_not (Q := fun p : Pc => p = .running k) (by simp) hj
      exact Or.inl ⟨hj', Function.update_of_ne hji _ _⟩
    · intro k o' now' hmem
      rw [List.filterMap_append, finished_append] at hmem
      rcases List.mem_append.mp hmem with hbefore | hnow
      · obtain ⟨chunk', hchunk', hended'⟩ := h.ended k o' now' hbefore
        exact ⟨chunk', hchunk', hended'.write _⟩
      · -- the chunk that ends now, from the receipt it was given
        obtain ⟨rfl, rfl, -⟩ : k = idx ∧ o' = o ∧ now' = now := by
          simpa [ForwardEvent.onQueue, finished, Event.finished] using hnow
        refine ⟨chunk, hchunk, endedAs_relayChunk s.outDir hended ?_⟩
        intro bySeq relay r hr hland
        exact h.receipt i k chunk bySeq relay r hpc hr hchunk hland
  · refine h.quiet (by simp) rfl (Nat.le_refl _) ?_ (h.ended_before rfl)
    intro j k hj
    obtain ⟨-, hj'⟩ := of_update_of_not (Q := fun p : Pc => p = .running k) (by simp) hj
    exact Or.inl ⟨hj', rfl⟩

end Inv

/-! ## What the phase comes to -/

section Phase

variable {loads : Text → Option Text} {sv : Services} {env : Env} {plan : Plan} {received : ℕ → Bool}
  {evs : List (ForwardEvent plan)} {s : ForwardState plan}

/-- A chunk that has landed is one whose transaction is mined. -/
theorem landing_of_landedIn
    (hrun : run (forwardStep loads sv env plan) (forwardStart plan received) evs = some s) {idx : ℕ}
    (hlanded : LandedIn evs idx) : ∃ chunk bySeq relay, plan.chunks[idx]? = some chunk ∧
      landing sv env chunk = some (bySeq, relay) := by
  obtain ⟨i, hash, blockNumber, gasUsed, hmem⟩ := hlanded
  obtain ⟨bs, cs, rfl⟩ := List.append_of_mem hmem
  obtain ⟨u, -, hrest⟩ := run_append_eq_some.mp hrun
  obtain ⟨v, hstep, -⟩ := run_cons_eq_some.mp hrest
  obtain ⟨_, ⟨⟩, -⟩ | ⟨_, _, _, _, _, chunk, bySeq, relay, he, hchunk, hland, -⟩ |
    ⟨_, _, _, _, _, _, ⟨⟩, -⟩ | ⟨_, ⟨⟩, -⟩ := forwardStep_cases hstep
  obtain ⟨-, rfl, -⟩ := ForwardEvent.land.inj he
  exact ⟨chunk, bySeq, relay, hchunk, hland⟩

theorem digits_ne_nil (n : ℕ) : digits n ≠ [] := by
  intro h
  have hlen := Nat.length_toDigits_pos (b := 10) (n := n)
  rw [show Nat.toDigits 10 n = [] from h] at hlen
  exact Nat.lt_irrefl _ hlen

theorem ownSummaries_forward (hdoc : sv.Documented env)
    (hnodup : (plan.chunks.flatten.map upper).Nodup)
    (hrun : run (forwardStep loads sv env plan) (forwardStart plan received) evs = some s) :
    OwnSummaries plan (evs.filterMap ForwardEvent.onQueue) := by
  intro idx chunk sm t hmem hchunk kv hkv
  obtain ⟨chunk', hchunk', hended⟩ := (forwardInv_run hdoc hnodup hrun).ended idx _ t hmem
  obtain rfl : chunk = chunk' := Option.some.inj (hchunk.symm.trans hchunk')
  by_cases hcredit : Creditable sv env received chunk
  · obtain ⟨bySeq, relay, sm', hland, ho, hnames, -⟩ := hended.credited hcredit
    obtain rfl := ChunkOutcome.summary.inj ho
    rw [hnames, hashToSeq_eq hdoc hnodup hchunk hland] at hkv
    obtain ⟨e, he, rfl⟩ := List.mem_map.mp hkv
    obtain ⟨hhashes, -, -⟩ := landing_entries hdoc hnodup hchunk hland
    refine ⟨⟨e.2.hash, ?_, rfl⟩, digits_ne_nil _⟩
    rw [← hhashes]
    exact List.mem_map_of_mem he
  · cases hended.failed hcredit

/-- What a packet comes to: it depends on its own chunk and on what had been received before the phase,
and on nothing else. -/
theorem settlePacket_forward [Nonempty (Fin plan.workers.length)] (hdoc : sv.Documented env)
    (hnodup : (plan.chunks.flatten.map upper).Nodup)
    (hrun : run (forwardStep loads sv env plan) (forwardStart plan received) evs = some s)
    (hdone : Done s.queue) {p : Packet} {idx : ℕ} {chunk : List Text}
    (hchunk : plan.chunks[idx]? = some chunk) (hh : p.txHash ∈ chunk) :
    (Creditable sv env received chunk → (settlePacket plan s.queue.mem p).status = .credited ∧
      (s.outDir (settlePacket plan s.queue.mem p).chainSeq).isSome) ∧
    (¬ Creditable sv env received chunk → (settlePacket plan s.queue.mem p).status = .failed) := by
  have hqueue := forward_queue hrun
  have hown := ownSummaries_forward hdoc hnodup hrun
  obtain ⟨o, t, hmem⟩ := exists_ended hqueue hdone (List.getElem?_eq_some_iff.mp hchunk).1
  obtain ⟨hnamed, hnot⟩ := settlePacket_of_ended hnodup hown hqueue hchunk hh hmem
  obtain ⟨chunk', hchunk', hended⟩ := (forwardInv_run hdoc hnodup hrun).ended _ o t hmem
  obtain rfl : chunk = chunk' := Option.some.inj (hchunk.symm.trans hchunk')
  constructor
  · intro hcredit
    obtain ⟨bySeq, relay, sm, hland, ho, hnames, hfiles⟩ := hended.credited hcredit
    obtain ⟨hhashes, -, -⟩ := landing_entries hdoc hnodup hchunk hland
    rw [← hhashes] at hh
    obtain ⟨e, he, hhash⟩ := List.mem_map.mp hh
    have hpair : (upper p.txHash, digits e.1) ∈ sm.txHashToSeq := by
      rw [hnames, hashToSeq_eq hdoc hnodup hchunk hland, ← hhash]
      exact List.mem_map.mpr ⟨e, he, rfl⟩
    rw [hnamed sm (digits e.1) ho hpair]
    exact ⟨rfl, hfiles e.1 (List.mem_map_of_mem he)⟩
  · intro hcredit
    rw [hnot]
    intro sm seq ho
    have hnone := hended.failed hcredit
    rw [ho] at hnone
    cases hnone

end Phase

/-! ## Resuming -/

section Resume

variable {pool : List Account} {packets : List Packet} {chunkSize poolSize concurrency : ℕ} {plan : Plan}

/-- **Resuming the forward relay.** A group is relayed on a chain that has received none of its packets;
the phase is cut short anywhere, and resumed. The resumed phase, once it is through, has credited every
packet that an uninterrupted one credits, with its `recv-result` file, just if no transaction of a
chunk had landed before the cut. -/
theorem relay_resume_iff (loads : Text → Option Text) {sv : Services} {env : Env} {received : ℕ → Bool}
    (hplan : planRelay pool packets chunkSize poolSize concurrency = .ok plan) (hsize : 1 ≤ chunkSize)
    (hconc : 1 ≤ concurrency) (hdistinct : ((committedOf packets).map fun p => upper p.txHash).Nodup)
    (hdoc : sv.Documented env)
    (hfresh : ∀ idx seq, Carries sv env plan idx seq → received seq = false)
    {crashed resumed whole : List (ForwardEvent plan)} {c s w : ForwardState plan}
    (hcrashed : run (forwardStep loads sv env plan) (forwardStart plan received) crashed = some c)
    (hresumed : run (forwardStep loads sv env plan) (forwardStart plan c.received) resumed = some s)
    (hs : Done s.queue)
    (hwhole : run (forwardStep loads sv env plan) (forwardStart plan received) whole = some w)
    (hw : Done w.queue) :
    (∀ p ∈ packets, p.status = .committed → (settlePacket plan w.queue.mem p).status = .credited →
      (settlePacket plan s.queue.mem p).status = .credited ∧
        (s.outDir (settlePacket plan s.queue.mem p).chainSeq).isSome) ↔
      ∀ idx, ¬ LandedIn crashed idx := by
  obtain ⟨hnodup, hflat, hslices, hnonempty⟩ := plan_facts hplan hsize hconc hdistinct
  have hcrash := forwardInv_run hdoc hnodup hcrashed
  constructor
  · intro hall idx hlanded
    obtain ⟨chunk, bySeq, relay, hchunk, hland⟩ := landing_of_landedIn hcrashed hlanded
    obtain ⟨hhashes, -, -⟩ := landing_entries hdoc hnodup hchunk hland
    obtain ⟨h, hh⟩ := List.exists_mem_of_ne_nil chunk
      (hslices chunk (List.mem_of_getElem? hchunk))
    have hcommitted : h ∈ (committedOf packets).map Packet.txHash := by
      rw [← hflat]
      exact List.mem_flatten.mpr ⟨chunk, List.mem_of_getElem? hchunk, hh⟩
    obtain ⟨p, hp, rfl⟩ := List.mem_map.mp hcommitted
    obtain ⟨hmem, hstatus⟩ := List.mem_filter.mp hp
    have hcredit : Creditable sv env received chunk :=
      ⟨bySeq, relay, hland, fun seq hseq => hfresh idx seq ⟨chunk, bySeq, relay, hchunk, hland, hseq⟩⟩
    -- the packet has been received, so the second attempt gets no acknowledgement for it
    have hnot : ¬ Creditable sv env c.received chunk := by
      rintro ⟨bySeq', relay', hland', hfalse⟩
      obtain ⟨rfl, rfl⟩ := Prod.mk.inj (Option.some.inj (hland.symm.trans hland'))
      rw [← hhashes] at hh
      obtain ⟨e, he, -⟩ := List.mem_map.mp hh
      have hseq : e.1 ∈ bySeq.map Prod.fst := List.mem_map_of_mem he
      have htrue : c.received e.1 = true :=
        (hcrash.receivedNow e.1).mpr (Or.inr ⟨idx, hlanded, chunk, bySeq, relay, hchunk, hland, hseq⟩)
      rw [hfalse e.1 hseq] at htrue
      cases htrue
    have hfirst := ((settlePacket_forward hdoc hnodup hwhole hw hchunk hh).1 hcredit).1
    have hsecond := (settlePacket_forward hdoc hnodup hresumed hs hchunk hh).2 hnot
    obtain ⟨hcredited, -⟩ := hall p hmem (by simpa using hstatus) hfirst
    rw [hsecond] at hcredited
    cases hcredited
  · intro hnone p hp hstatus hcredited
    have hmem : p.txHash ∈ plan.chunks.flatten := by
      rw [hflat]
      exact List.mem_map_of_mem (List.mem_filter.mpr ⟨hp, by simpa using hstatus⟩)
    obtain ⟨idx, chunk, hchunk, hh⟩ := exists_chunk hmem
    have hcredit : Creditable sv env received chunk := by
      by_contra hnot
      rw [(settlePacket_forward hdoc hnodup hwhole hw hchunk hh).2 hnot] at hcredited
      cases hcredited
    have hsame : c.received = received := by
      funext seq
      rw [Bool.eq_iff_iff, hcrash.receivedNow]
      constructor
      · rintro (h | ⟨k, hk, -⟩)
        · exact h
        · exact absurd hk (hnone k)
      · exact Or.inl
    apply (settlePacket_forward hdoc hnodup hresumed hs hchunk hh).1
    rw [hsame]
    exact hcredit

end Resume

/-! ### Two packets, one chunk each, one account -/

def seqOf : Text → Option ℕ
  | ['A'] => some 1
  | ['B'] => some 2
  | _ => none

/-- Services that know two transactions, and mine whatever is sent. -/
def twoPackets : Services where
  cosmosTx h := .ok [⟨"send_packet".toList, [("encoded_packet_hex".toList, h)]⟩]
  decodePacket hex := (seqOf hex).elim (.error []) fun n => .ok ⟨n, "", "", 0, []⟩
  packetCommitment _ := []
  storedCommitment _ _ := .ok []
  relayByTx chunk := .ok ⟨[], chunk.filterMap seqOf, true⟩
  blockGasLimit := 100
  submit _ := .mined
  acknowledge _ := ['1']
  heightAt _ := 0
  stringify t := t
  typeError := []

def noEnv : Env := ⟨"", "", []⟩

theorem validate_twoPackets (h : Text) :
    validate twoPackets noEnv h = (seqOf h).elim (.error ("unexpected_error".toList, []))
      fun n => .ok (n, ⟨h, ⟨n, "", "", 0, []⟩, h⟩) := by
  have hfind : ([⟨"send_packet".toList, [("encoded_packet_hex".toList, h)]⟩] : List TxEvent).find?
      (fun e => e.type = "send_packet".toList) =
        some ⟨"send_packet".toList, [("encoded_packet_hex".toList, h)]⟩ :=
    List.find?_cons_of_pos (decide_eq_true rfl)
  have hlookup : ([("encoded_packet_hex".toList, h)] : List (Text × Text)).lookup
      "encoded_packet_hex".toList = some h := List.lookup_cons_self
  cases hseq : seqOf h with
  | none => simp only [validate, twoPackets, hfind, hlookup, hseq, Option.elim_none]
  | some n =>
      have hclients : ¬ (("" : String) ≠ noEnv.cosmosClientId ∨ ("" : String) ≠ noEnv.ethClientId) :=
        fun hor => hor.elim (fun hne => hne rfl) fun hne => hne rfl
      have hstored : ¬ (([] : Text) ≠ []) := fun hne => hne rfl
      simp only [validate, twoPackets, hfind, hlookup, hseq, Option.elim_some]
      rw [if_neg hclients]
      exact if_neg hstored

theorem seqOf_injective {h h' : Text} {n : ℕ} (hn : seqOf h = some n) (hn' : seqOf h' = some n) :
    h = h' := by
  have hvalue : ∀ {h}, seqOf h = some n → (h = ['A'] ∧ n = 1) ∨ (h = ['B'] ∧ n = 2) := by
    intro h hn
    unfold seqOf at hn
    split at hn
    · exact Or.inl ⟨rfl, (Option.some.inj hn).symm⟩
    · exact Or.inr ⟨rfl, (Option.some.inj hn).symm⟩
    · cases hn
  rcases hvalue hn with ⟨rfl, rfl⟩ | ⟨rfl, rfl⟩ <;> rcases hvalue hn' with ⟨rfl, h⟩ | ⟨rfl, h⟩
  · rfl
  · cases h
  · cases h
  · rfl

theorem keys_twoPackets {chunk : List Text} {found : List (ℕ × Entry)}
    (hok : validateAll twoPackets noEnv chunk = .ok found) :
    found.map Prod.fst = chunk.filterMap seqOf := by
  induction chunk generalizing found with
  | nil =>
      obtain rfl := Except.ok.inj hok
      rfl
  | cons h chunk ih =>
      rw [validateAll, validate_twoPackets] at hok
      cases hseq : seqOf h with
      | none => simp [hseq] at hok
      | some n =>
          simp only [hseq, Option.elim_some] at hok
          split at hok
          · cases hok
          · next rest hrest =>
              obtain rfl := Except.ok.inj hok
              rw [List.map_cons, ih hrest, List.filterMap_cons_some hseq]

theorem documented_twoPackets : twoPackets.Documented noEnv where
  sequences h h' e e' he he' hseq := by
    rw [validate_twoPackets] at he he'
    cases hn : seqOf h with
    | none => simp [hn] at he
    | some n =>
        cases hn' : seqOf h' with
        | none => simp [hn'] at he'
        | some n' =>
            rw [hn] at he
            rw [hn'] at he'
            obtain rfl := Except.ok.inj he
            obtain rfl := Except.ok.inj he'
            obtain rfl : n = n' := hseq
            rw [seqOf_injective hn hn']
  relays chunk bySeq relay hprepared seq := by
    rw [prepare] at hprepared
    split at hprepared
    · cases hprepared
    · next found hfound =>
        simp only [twoPackets, noEnv] at hprepared
        simp only [ne_eq, not_true_eq_false, if_false] at hprepared
        obtain ⟨rfl, rfl⟩ := Prod.mk.inj (Except.ok.inj hprepared)
        rw [mem_keys_entriesOf, keys_twoPackets hfound]

def twoCommitted : List Packet :=
  [{ seq := 0, amount := 1000, txHash := ['A'], status := .committed },
    { seq := 1, amount := 1000, txHash := ['B'], status := .committed }]

def twoChunks : Plan := makePlan [⟨['x'], ['1']⟩] twoCommitted 1 1 1

/-- The one worker relays a chunk, with the outcome that the script comes to. -/
def relayOne (idx : ℕ) (o : ChunkOutcome) : List (ForwardEvent twoChunks) :=
  [.take ⟨0, by decide⟩ idx, .land ⟨0, by decide⟩ idx [] (idx + 1) 50,
    .finish ⟨0, by decide⟩ idx o (idx + 10)]

def relayed (h : Text) (seq : ℕ) : ChunkOutcome :=
  .summary ⟨[(h, digits seq)], 50, false, 1, by simp⟩

def unacknowledged : ChunkOutcome :=
  twoPackets.exit ("missing_acks".toList, "no WriteAcknowledgement for sequence(s) 1".toList)

def wholePhase : List (ForwardEvent twoChunks) :=
  relayOne 0 (relayed ['A'] 1) ++ relayOne 1 (relayed ['B'] 2) ++ [.leave ⟨0, by decide⟩]

/-- The second attempt, when the first chunk has landed in the first. -/
def secondAttempt : List (ForwardEvent twoChunks) :=
  relayOne 0 unacknowledged ++ relayOne 1 (relayed ['B'] 2) ++ [.leave ⟨0, by decide⟩]

def twoRun (received : ℕ → Bool) (evs : List (ForwardEvent twoChunks)) :
    Option (ForwardState twoChunks) :=
  run (forwardStep (fun _ => none) twoPackets noEnv twoChunks) (forwardStart twoChunks received) evs

/-- Cut before its first transaction, the phase is resumed without loss. -/
theorem relay_resume_unlanded :
    ∃ c s w, twoRun (fun _ => false) [.take ⟨0, by decide⟩ 0] = some c ∧
      twoRun c.received wholePhase = some s ∧ Done s.queue ∧
      twoRun (fun _ => false) wholePhase = some w ∧ Done w.queue ∧
      ∀ p ∈ twoCommitted, p.status = .committed →
        (settlePacket twoChunks w.queue.mem p).status = .credited →
        (settlePacket twoChunks s.queue.mem p).status = .credited ∧
          (s.outDir (settlePacket twoChunks s.queue.mem p).chainSeq).isSome := by
  have hruns : (twoRun (fun _ => false) [.take ⟨0, by decide⟩ 0]).bind (fun c =>
      (twoRun c.received wholePhase).bind fun s => (twoRun (fun _ => false) wholePhase).map fun w =>
        (decide (Done s.queue), decide (Done w.queue))) =
      some (true, true) := by decide
  obtain ⟨c, hc, hruns⟩ := Option.bind_eq_some_iff.mp hruns
  obtain ⟨s, hs, hruns⟩ := Option.bind_eq_some_iff.mp hruns
  obtain ⟨w, hw, hdone⟩ := Option.map_eq_some_iff.mp hruns
  obtain ⟨hsdone, hwdone⟩ := Prod.mk.inj hdone
  have hplan : planRelay [⟨['x'], ['1']⟩] twoCommitted 1 1 1 = .ok twoChunks := rfl
  refine ⟨c, s, w, hc, hs, of_decide_eq_true hsdone, hw, of_decide_eq_true hwdone, ?_⟩
  refine (relay_resume_iff (fun _ => none) hplan (Nat.le_refl 1) (Nat.le_refl 1) (by decide)
    documented_twoPackets (fun _ _ _ => rfl) hc hs (of_decide_eq_true hsdone) hw
    (of_decide_eq_true hwdone)).mpr ?_
  rintro idx ⟨_, _, _, _, hmem⟩
  cases List.mem_singleton.mp hmem

/-- Cut after the first transaction has landed: the packet that an uninterrupted phase credits is
failed, although the chain has received it. -/
theorem relay_resume_loses :
    ∃ c s w, twoRun (fun _ => false) [.take ⟨0, by decide⟩ 0, .land ⟨0, by decide⟩ 0 [] 1 50] = some c ∧
      twoRun c.received secondAttempt = some s ∧ Done s.queue ∧
      twoRun (fun _ => false) wholePhase = some w ∧ Done w.queue ∧
      twoCommitted.map (fun p => (settlePacket twoChunks w.queue.mem p).status) =
        [.credited, .credited] ∧
      twoCommitted.map (fun p => (settlePacket twoChunks s.queue.mem p).status) =
        [.failed, .credited] ∧
      c.received 1 = true ∧ s.outDir (digits 1) = none := by
  have hruns : (twoRun (fun _ => false)
      [.take ⟨0, by decide⟩ 0, .land ⟨0, by decide⟩ 0 [] 1 50]).bind (fun c =>
      (twoRun c.received secondAttempt).bind fun s => (twoRun (fun _ => false) wholePhase).map fun w =>
        (decide (Done s.queue), decide (Done w.queue),
          twoCommitted.map (fun p => (settlePacket twoChunks w.queue.mem p).status),
          twoCommitted.map (fun p => (settlePacket twoChunks s.queue.mem p).status),
          c.received 1, (s.outDir (digits 1)).isNone)) =
      some (true, true, [.credited, .credited], [.failed, .credited], true, true) := by
    decide
  obtain ⟨c, hc, hruns⟩ := Option.bind_eq_some_iff.mp hruns
  obtain ⟨s, hs, hruns⟩ := Option.bind_eq_some_iff.mp hruns
  obtain ⟨w, hw, hvalues⟩ := Option.map_eq_some_iff.mp hruns
  simp only [Prod.mk.injEq] at hvalues
  obtain ⟨hsdone, hwdone, hwstatus, hsstatus, hreceived, hfile⟩ := hvalues
  exact ⟨c, s, w, hc, hs, of_decide_eq_true hsdone, hw, of_decide_eq_true hwdone, hwstatus, hsstatus,
    hreceived, Option.isNone_iff_eq_none.mp hfile⟩

end PqcMigration.BatchScaling
