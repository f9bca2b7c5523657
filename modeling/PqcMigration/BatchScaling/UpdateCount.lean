/-
# PqcMigration.BatchScaling.UpdateCount — whose update it was: `updateIncluded` and
`numUpdateClientCalls`.

The script compares the light client's trusted height after the block its transaction landed in with
the height after the block before. That tells whether SOME transaction of the block raised it. Chunks
of one group are in flight together, so several can share a block, with each other and with strangers,
and then every chunk of the block reports the one update as its own.

The chain is a list of blocks of transactions, of which each may carry a height; the client never goes
back. `update_count_iff` says for which placements of the chunks' transactions the pool's count is the
number of transactions that raised the height.
-/
import PqcMigration.BatchScaling.RelayResume
import PqcMigration.Lib.Rising

namespace PqcMigration.BatchScaling

open Lib WorkQueue

/-! ## The chain -/

/-- A transaction, as far as the light client is concerned. -/
structure ClientTx where
  newHeight : Option ℕ

/-- The trusted height after a transaction. -/
def ClientTx.exec (height : ℕ) (tx : ClientTx) : ℕ := max height (tx.newHeight.getD 0)

theorem ClientTx.le_exec (height : ℕ) (tx : ClientTx) : height ≤ tx.exec height := Nat.le_max_left _ _

/-- A chain: the height the client starts with, and the blocks from number 1 on. -/
structure EvmChain where
  initial : ℕ
  blocks : List (List ClientTx)

namespace EvmChain

variable (chain : EvmChain)

/-- `lc.clientState({ blockTag: b })` -/
def heightAt (b : ℕ) : ℕ := (chain.blocks.take b).flatten.foldl ClientTx.exec chain.initial

def block (b : ℕ) : List ClientTx := (chain.blocks[b - 1]?).getD []

/-- The height that transaction `k` of block `b` finds. -/
def heightBefore (b k : ℕ) : ℕ := ((chain.block b).take k).foldl ClientTx.exec (chain.heightAt (b - 1))

/-- Transaction `k` of block `b` raises the trusted height. -/
def raises (b k : ℕ) : Bool :=
  match (chain.block b)[k]? with
  | none => false
  | some tx => chain.heightBefore b k < tx.exec (chain.heightBefore b k)

variable {chain}

theorem raises_iff {b k : ℕ} : chain.raises b k = true ↔ ∃ tx, (chain.block b)[k]? = some tx ∧
    chain.heightBefore b k < tx.exec (chain.heightBefore b k) := by
  rw [raises]
  split
  · next hnone => simp [hnone]
  · next tx hsome => simp [hsome]

theorem heightAt_eq {b : ℕ} (hb : 1 ≤ b) :
    chain.heightAt b = (chain.block b).foldl ClientTx.exec (chain.heightAt (b - 1)) := by
  obtain ⟨n, rfl⟩ : ∃ n, b = n + 1 := ⟨b - 1, by omega⟩
  have hblock : (chain.blocks[n]?.toList).flatten = chain.block (n + 1) := by
    rw [block, Nat.add_sub_cancel]
    cases chain.blocks[n]? <;> simp
  rw [heightAt, List.take_add_one, List.flatten_append, List.foldl_append, hblock]
  rfl

/-- The height differs across a block just if one of its transactions raised it. -/
theorem updateIncluded_iff {b : ℕ} (hb : 1 ≤ b) :
    updateIncluded chain.heightAt b = true ↔ ∃ k, chain.raises b k = true := by
  rw [updateIncluded, decide_eq_true_eq, heightAt_eq hb, lt_foldl_iff ClientTx.le_exec]
  simp only [raises_iff]
  rfl

end EvmChain

/-! ## What the summaries say -/

section Summaries

variable {loads : Text → Option Text} {sv : Services} {env : Env} {plan : Plan} {received : ℕ → Bool}
  {evs : List (ForwardEvent plan)} {s : ForwardState plan}

/-- A summary compares the heights around the block of the receipt. -/
theorem relayChunk_summary {idx : ℕ} {chunk : List Text} {receipt : Option Receipt} {sm : Summary}
    {files : List RecvResult} (h : relayChunk sv env idx chunk receipt = some (.summary sm, files)) :
    ∃ r, receipt = some r ∧ sm.updateIncluded = updateIncluded sv.heightAt r.blockNumber := by
  cases hland : landing sv env chunk with
  | none => cases relayChunk_of_not_landing hland h
  | some landed =>
      obtain ⟨bySeq, relay⟩ := landed
      obtain ⟨r, hr, hall, hsome⟩ := relayChunk_of_landing hland h
      refine ⟨r, hr, ?_⟩
      by_cases hacked : ∀ seq ∈ bySeq.map Prod.fst, ∃ acks, (seq, acks) ∈ r.logs
      · obtain ⟨ho, -⟩ := Prod.mk.inj (hall hacked)
        obtain rfl := ChunkOutcome.summary.inj ho
        rfl
      · cases hsome hacked

/-- Receipts and summaries are of the block that the chunk landed in. -/
structure BlockInv (sv : Services) (evs : List (ForwardEvent plan)) (s : ForwardState plan) : Prop where
  receipt : ∀ i idx r, s.queue.pc i = .running idx → s.receipts i = some r →
    ∃ j hash gasUsed, ForwardEvent.land j idx hash r.blockNumber gasUsed ∈ evs
  ended : ∀ idx sm t, (idx, (ChunkOutcome.summary sm, t)) ∈ finished (evs.filterMap ForwardEvent.onQueue) →
    ∃ j hash b gasUsed, ForwardEvent.land j idx hash b gasUsed ∈ evs ∧
      sm.updateIncluded = updateIncluded sv.heightAt b

theorem blockInv_run
    (hrun : run (forwardStep loads sv env plan) (forwardStart plan received) evs = some s) :
    BlockInv sv evs s := by
  have hstart : BlockInv sv [] (forwardStart plan received) :=
    { receipt := fun _ _ _ h => by cases h
      ended := fun _ _ _ h => by cases h }
  refine run_history (I := fun bs s => BlockInv sv bs s) ?_ hstart hrun
  intro bs s e t h hstep
  -- what has landed and ended before stays
  have hreceipt : ∀ i idx r, s.queue.pc i = .running idx → s.receipts i = some r →
      ∃ j hash gasUsed, ForwardEvent.land j idx hash r.blockNumber gasUsed ∈ bs ++ [e] := by
    intro i idx r hpc hr
    obtain ⟨j, hash, gasUsed, hmem⟩ := h.receipt i idx r hpc hr
    exact ⟨j, hash, gasUsed, List.mem_append_left _ hmem⟩
  have hended : ∀ idx sm t, (idx, (ChunkOutcome.summary sm, t)) ∈
      finished (bs.filterMap ForwardEvent.onQueue) →
      ∃ j hash b gasUsed, ForwardEvent.land j idx hash b gasUsed ∈ bs ++ [e] ∧
        sm.updateIncluded = updateIncluded sv.heightAt b := by
    intro idx sm t hmem
    obtain ⟨j, hash, b, gasUsed, hland, hsm⟩ := h.ended idx sm t hmem
    exact ⟨j, hash, b, gasUsed, List.mem_append_left _ hland, hsm⟩
  have hquiet : finished ([e].filterMap ForwardEvent.onQueue) = [] → ∀ idx sm t,
      (idx, (ChunkOutcome.summary sm, t)) ∈ finished ((bs ++ [e]).filterMap ForwardEvent.onQueue) →
      ∃ j hash b gasUsed, ForwardEvent.land j idx hash b gasUsed ∈ bs ++ [e] ∧
        sm.updateIncluded = updateIncluded sv.heightAt b := by
    intro he idx sm t hmem
    rw [List.filterMap_append, finished_append, he, List.append_nil] at hmem
    exact hended idx sm t hmem
  obtain ⟨i, rfl, -, -, rfl⟩ | ⟨i, idx, hash, b, gasUsed, _, _, _, rfl, -, -, hpc, -, rfl⟩ |
    ⟨i, idx, o, now, chunk, files, rfl, -, hchunk, hpc, rfl⟩ | ⟨i, rfl, -, -, rfl⟩ :=
    forwardStep_cases hstep
  · refine ⟨?_, hquiet rfl⟩
    intro j k r hj hr
    -- a worker that has just taken a chunk has no receipt
    obtain ⟨hji, hr'⟩ := of_update_of_not (Q := fun o : Option Receipt => o = some r) (by simp) hr
    rcases of_update (Q := fun p : Pc => p = .running k) hj with ⟨hself, -⟩ | ⟨-, hj'⟩
    · exact absurd hself hji
    · exact hreceipt j k r hj' hr'
  · refine ⟨?_, hquiet rfl⟩
    intro j k r hj hr
    rcases of_update (Q := fun o : Option Receipt => o = some r) hr with ⟨rfl, hnew⟩ | ⟨-, hr'⟩
    · obtain rfl := Option.some.inj hnew
      obtain rfl : idx = k := Pc.running.inj (hpc.symm.trans hj)
      exact ⟨j, hash, gasUsed, List.mem_append_right _ List.mem_cons_self⟩
    · exact hreceipt j k r hj hr'
  · refine ⟨?_, ?_⟩
    · intro j k r hj hr
      obtain ⟨-, hj'⟩ := of_update_of_not (Q := fun p : Pc => p = .running k) (by simp) hj
      obtain ⟨-, hr'⟩ := of_update_of_not (Q := fun o : Option Receipt => o = some r) (by simp) hr
      exact hreceipt j k r hj' hr'
    · intro k sm t hmem
      rw [List.filterMap_append, finished_append] at hmem
      rcases List.mem_append.mp hmem with hbefore | hnow
      · exact hended k sm t hbefore
      · obtain ⟨rfl, rfl, -⟩ : k = idx ∧ ChunkOutcome.summary sm = o ∧ t = now := by
          simpa [ForwardEvent.onQueue, finished, Event.finished] using hnow
        obtain ⟨r, hr, hsm⟩ := relayChunk_summary hchunk
        obtain ⟨j, hash, gasUsed, hland⟩ := hreceipt i k r hpc hr
        exact ⟨j, hash, r.blockNumber, gasUsed, hland, hsm⟩
  · refine ⟨?_, hquiet rfl⟩
    intro j k r hj hr
    obtain ⟨-, hj'⟩ := of_update_of_not (Q := fun p : Pc => p = .running k) (by simp) hj
    exact hreceipt j k r hj' hr

end Summaries

/-! ## The count -/

/-- The number of a group's relayed chunks whose own transaction raised the trusted height; chunk `idx`
is transaction `(place idx).2` of block `(place idx).1`. -/
def raisedCount (chain : EvmChain) (place : ℕ → ℕ × ℕ) (plan : Plan) (tables : Tables) : ℕ :=
  ((List.range plan.chunks.length).filter fun idx =>
    (tables.results idx).isSome && chain.raises (place idx).1 (place idx).2).length

/-- **Counting updates.** For every run of the forward relay and every placement of its transactions,
`numUpdateClientCalls` is the number of the group's transactions that raised the trusted height just if
every one of them that shares a block with a transaction that raised it has raised it as well. -/
theorem update_count_iff {loads : Text → Option Text} {sv : Services} {env : Env} {plan : Plan}
    {received : ℕ → Bool} {evs : List (ForwardEvent plan)} {s : ForwardState plan} (packets : List Packet)
    (hrun : run (forwardStep loads sv env plan) (forwardStart plan received) evs = some s)
    (chain : EvmChain) (hchain : sv.heightAt = chain.heightAt) (place : ℕ → ℕ × ℕ)
    (hplace : ∀ i idx hash b gasUsed, ForwardEvent.land i idx hash b gasUsed ∈ evs →
      1 ≤ b ∧ (place idx).1 = b) :
    (finishRelay plan packets s.queue.mem).aggregated.numUpdateClientCalls =
        raisedCount chain place plan s.queue.mem ↔
      ∀ idx < plan.chunks.length, (s.queue.mem.results idx).isSome →
        (∃ k, chain.raises (place idx).1 k = true) →
          chain.raises (place idx).1 (place idx).2 = true := by
  -- what the pool counts
  have hsign : ∀ idx, (s.queue.mem.results idx).any Summary.updateIncluded = true ↔
      (s.queue.mem.results idx).isSome ∧ ∃ k, chain.raises (place idx).1 k = true := by
    intro idx
    cases hres : s.queue.mem.results idx with
    | none => simp
    | some sm =>
        obtain ⟨t, hended⟩ := ended_of_results (forward_queue hrun) hres
        obtain ⟨j, hash, b, gasUsed, hland, hsm⟩ := (blockInv_run hrun).ended idx sm t hended
        obtain ⟨hb, hblock⟩ := hplace j idx hash b gasUsed hland
        rw [Option.any_some, hsm, hchain, EvmChain.updateIncluded_iff hb, hblock, Option.isSome_some]
        exact (and_iff_right rfl).symm
  have hcount : (finishRelay plan packets s.queue.mem).aggregated.numUpdateClientCalls =
      ((List.range plan.chunks.length).filter fun idx =>
        (s.queue.mem.results idx).any Summary.updateIncluded).length :=
    numUpdates_totals plan s.queue.mem
  rw [hcount, raisedCount, length_filter_eq_iff]
  · apply forall_congr'
    intro idx
    rw [List.mem_range, hsign, Bool.and_eq_true]
    constructor
    · intro h hlt hsome hblock
      exact (h hlt ⟨hsome, hblock⟩).2
    · rintro h hlt ⟨hsome, hblock⟩
      exact ⟨hsome, h hlt hsome hblock⟩
  · intro idx _ hown
    obtain ⟨hsome, hraises⟩ := Bool.and_eq_true_iff.mp hown
    exact (hsign idx).mpr ⟨hsome, _, hraises⟩

/-! ### Two chunks, two accounts -/

def sideBySide : Plan := makePlan [⟨['x'], ['1']⟩, ⟨['y'], ['2']⟩] twoCommitted 1 2 2

/-- Both chunks are relayed at once, and land in these blocks. -/
def landIn (b b' : ℕ) (updated updated' : Bool) : List (ForwardEvent sideBySide) :=
  [.take ⟨0, by decide⟩ 0, .take ⟨1, by decide⟩ 1, .land ⟨0, by decide⟩ 0 ['p'] b 50,
    .land ⟨1, by decide⟩ 1 ['q'] b' 50,
    .finish ⟨0, by decide⟩ 0 (.summary ⟨[(['A'], digits 1)], 50, updated, 1, by simp⟩) 10,
    .finish ⟨1, by decide⟩ 1 (.summary ⟨[(['B'], digits 2)], 50, updated', 1, by simp⟩) 11,
    .leave ⟨0, by decide⟩, .leave ⟨1, by decide⟩]

/-- Both transactions carry the height 5; the first raises the client to it. -/
def sameBlock : EvmChain := ⟨0, [[⟨some 5⟩, ⟨some 5⟩]]⟩

def ownBlocks : EvmChain := ⟨0, [[⟨some 5⟩], [⟨some 5⟩]]⟩

def sideRun (chain : EvmChain) (evs : List (ForwardEvent sideBySide)) :
    Option (ForwardState sideBySide) :=
  run (forwardStep (fun _ => none) { twoPackets with heightAt := chain.heightAt } noEnv sideBySide)
    (forwardStart sideBySide fun _ => false) evs

/-- In blocks of their own the chunks are told apart. -/
theorem update_count_own_blocks :
    ∃ s, sideRun ownBlocks (landIn 1 2 true false) = some s ∧ Done s.queue ∧
      (finishRelay sideBySide twoCommitted s.queue.mem).aggregated.numUpdateClientCalls =
        raisedCount ownBlocks (fun idx => (idx + 1, 0)) sideBySide s.queue.mem := by
  have hrun : (sideRun ownBlocks (landIn 1 2 true false)).map (fun s => decide (Done s.queue)) =
      some true := by decide
  obtain ⟨s, hs, hdone⟩ := Option.map_eq_some_iff.mp hrun
  refine ⟨s, hs, of_decide_eq_true hdone, ?_⟩
  refine (update_count_iff twoCommitted hs ownBlocks rfl (fun idx => (idx + 1, 0)) ?_).mpr ?_
  · intro i idx hash b gasUsed hmem
    simp only [landIn, List.mem_cons, List.not_mem_nil, or_false, reduceCtorEq, false_or,
      ForwardEvent.land.injEq] at hmem
    rcases hmem with ⟨-, rfl, -, rfl, -⟩ | ⟨-, rfl, -, rfl, -⟩ <;> decide
  · rintro idx hidx - ⟨k, hk⟩
    -- each block has one transaction
    have hzero : ∀ idx < sideBySide.chunks.length, ∀ k, ownBlocks.raises (idx + 1) k = true → k = 0 := by
      intro idx hidx k hk
      obtain ⟨tx, htx, -⟩ := EvmChain.raises_iff.mp hk
      have hlen : ∀ idx < sideBySide.chunks.length, (ownBlocks.block (idx + 1)).length = 1 := by decide
      have hlt := (List.getElem?_eq_some_iff.mp htx).1
      rw [hlen idx hidx] at hlt
      omega
    obtain rfl := hzero idx hidx k hk
    exact hk

/-- In one block they are not: two updates are reported, and one transaction raised the height. -/
theorem update_count_same_block :
    ∃ s, sideRun sameBlock (landIn 1 1 true true) = some s ∧ Done s.queue ∧
      (finishRelay sideBySide twoCommitted s.queue.mem).aggregated.numUpdateClientCalls = 2 ∧
      raisedCount sameBlock (fun idx => (1, idx)) sideBySide s.queue.mem = 1 := by
  have hrun : (sideRun sameBlock (landIn 1 1 true true)).map (fun s => (decide (Done s.queue),
      (finishRelay sideBySide twoCommitted s.queue.mem).aggregated.numUpdateClientCalls,
      raisedCount sameBlock (fun idx => (1, idx)) sideBySide s.queue.mem)) =
      some (true, 2, 1) := by decide
  obtain ⟨s, hs, hvalues⟩ := Option.map_eq_some_iff.mp hrun
  simp only [Prod.mk.injEq] at hvalues
  obtain ⟨hdone, hreported, hraised⟩ := hvalues
  exact ⟨s, hs, of_decide_eq_true hdone, hreported, hraised⟩

end PqcMigration.BatchScaling
