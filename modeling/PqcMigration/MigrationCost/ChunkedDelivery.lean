/-
# PqcMigration.MigrationCost.ChunkedDelivery — what the delivery loop of `relay-recv-batch.js` sends,
and what it reports.

The loop has two signals of failure, the exit status of `sendtx.py` and the code of the last result
line it printed; either ends it. `delivery_exact` says that this leaves no gap: what was broadcast is
a front part of the batch, and the totals are over the chunks that were tried and no others.
-/
import PqcMigration.MigrationCost.RelayRecvBatch

namespace PqcMigration.MigrationCost

open Lib

section Loop

variable {Msg : Type} (parseResult : Text → Option TxResult) (sendtx : ℕ → List Msg → ChunkRun)

/-- One turn of the loop. -/
theorem deliverFrom_cons (ci : ℕ) (chunk : List Msg) (chunks : List (List Msg)) :
    ((sendtx ci chunk).succeeded parseResult = true ∧
      deliverFrom parseResult sendtx ci (chunk :: chunks) =
        ⟨ci, chunk, sendtx ci chunk⟩ :: deliverFrom parseResult sendtx (ci + 1) chunks) ∨
    ((sendtx ci chunk).succeeded parseResult = false ∧
      deliverFrom parseResult sendtx ci (chunk :: chunks) = [⟨ci, chunk, sendtx ci chunk⟩]) := by
  cases hrun : (sendtx ci chunk).succeeded parseResult with
  | true => exact Or.inl ⟨rfl, by rw [deliverFrom, if_pos hrun]⟩
  | false => exact Or.inr ⟨rfl, by rw [deliverFrom, if_neg (ne_true_of_eq_false hrun)]⟩

/-- What the loop has done: it tried a front part of the chunks, and all of them if none failed; every attempt
but the last succeeded, and came to what `sendtx.py` did with its chunk. -/
structure Tried (chunks : List (List Msg)) (attempts : List (Attempt Msg)) : Prop where
  front : attempts.map Attempt.msgs <+: chunks
  all : (∀ a ∈ attempts, a.run.succeeded parseResult = true) → attempts.map Attempt.msgs = chunks
  before : ∀ a ∈ attempts.dropLast, a.run.succeeded parseResult = true
  run : ∀ a ∈ attempts, a.run = sendtx a.chunk a.msgs

theorem tried_deliverFrom (ci : ℕ) (chunks : List (List Msg)) :
    Tried parseResult sendtx chunks (deliverFrom parseResult sendtx ci chunks) := by
  induction chunks generalizing ci with
  | nil => exact ⟨List.nil_prefix, fun _ => rfl, nofun, nofun⟩
  | cons chunk chunks ih =>
      have hrest := ih (ci + 1)
      rcases deliverFrom_cons parseResult sendtx ci chunk chunks with ⟨hok, heq⟩ | ⟨hfail, heq⟩
      · rw [heq]
        refine ⟨(List.prefix_cons_inj _).mpr hrest.front, fun h => ?_, fun a ha => ?_, ?_⟩
        · rw [List.map_cons, hrest.all fun a ha => h a (List.mem_cons_of_mem _ ha)]
        · cases htried : deliverFrom parseResult sendtx (ci + 1) chunks with
          | nil =>
              rw [htried] at ha
              cases ha
          | cons b bs =>
              rw [htried, List.dropLast_cons_cons, ← htried] at ha
              rcases List.mem_cons.mp ha with rfl | ha
              · exact hok
              · exact hrest.before a ha
        · exact List.forall_mem_cons.mpr ⟨rfl, hrest.run⟩
      · rw [heq]
        refine ⟨(List.prefix_cons_inj _).mpr List.nil_prefix, fun h => ?_, nofun, ?_⟩
        · rw [h _ List.mem_cons_self] at hfail
          cases hfail
        · exact List.forall_mem_singleton.mpr rfl

end Loop

/-! ## The report -/

section Report

variable {Msg : Type} (parseResult : Text → Option TxResult)

/-- What a chunk's success is: `sendtx.py` exits with status 0, and the last result line it printed has
code 0. -/
def ChunkRun.Landed (r : ChunkRun) : Prop :=
  r.exitZero = true ∧ ∃ result, lastResult parseResult r.out = some result ∧ result.code = some 0

variable {parseResult}

theorem succeeded_iff (r : ChunkRun) : r.succeeded parseResult = true ↔ r.Landed parseResult := by
  rw [ChunkRun.succeeded, ChunkRun.Landed, Bool.and_eq_true, Option.any_eq_true]
  simp only [beq_iff_eq]

theorem part_code_of_succeeded {a : Attempt Msg} (h : a.run.succeeded parseResult = true) :
    (a.part parseResult).code = some 0 := by
  obtain ⟨-, result, hresult, hcode⟩ := (succeeded_iff _).mp h
  simp only [Attempt.part, hresult, Option.bind_some, hcode]

/-- The batch is ok when every chunk was tried and landed; the codes are then checked once more for
nothing. -/
theorem report_ok_iff (chunks : ℕ) (attempts : List (Attempt Msg)) :
    (report parseResult chunks attempts).ok = true ↔
      (∀ a ∈ attempts, a.run.succeeded parseResult = true) ∧ attempts.length = chunks := by
  simp only [report, Bool.and_eq_true, Bool.not_eq_true', List.any_eq_false,
    Bool.not_eq_false, List.length_map, beq_iff_eq, List.all_map, List.all_eq_true,
    Function.comp_apply]
  constructor
  · rintro ⟨⟨hall, hlen⟩, -⟩
    exact ⟨hall, hlen⟩
  · rintro ⟨hall, hlen⟩
    exact ⟨⟨hall, hlen⟩, fun a ha => part_code_of_succeeded (hall a ha)⟩

variable {sendtx : ℕ → List Msg → ChunkRun} {msgs : List Msg} {n : ℕ}

/-- What was broadcast is a front part of the batch. -/
theorem broadcast_front (hn : 1 ≤ n) :
    ((deliverFrom parseResult sendtx 0 (slices n msgs)).map Attempt.msgs).flatten <+: msgs := by
  obtain ⟨untried, heq⟩ := (tried_deliverFrom parseResult sendtx 0 (slices n msgs)).front
  refine ⟨untried.flatten, ?_⟩
  rw [← List.flatten_append, heq, flatten_slices hn]

theorem attempt_ne_nil (hn : 1 ≤ n) :
    ∀ a ∈ deliverFrom parseResult sendtx 0 (slices n msgs), a.msgs ≠ [] := by
  intro a ha
  have hmem : a.msgs ∈ slices n msgs :=
    (tried_deliverFrom _ _ 0 (slices n msgs)).front.subset (List.mem_map_of_mem ha)
  exact ne_nil_of_mem_slices hn hmem

/-- The batch is ok exactly when attempts that landed carried all of its messages. -/
theorem report_ok_iff_landed (hn : 1 ≤ n) :
    (report parseResult (slices n msgs).length
        (deliverFrom parseResult sendtx 0 (slices n msgs))).ok = true ↔
      ∃ landed : List (Attempt Msg), landed.Sublist (deliverFrom parseResult sendtx 0 (slices n msgs)) ∧
        (∀ a ∈ landed, a.run.Landed parseResult) ∧ (landed.map Attempt.msgs).flatten = msgs := by
  rw [report_ok_iff]
  constructor
  · rintro ⟨hall, -⟩
    refine ⟨_, List.Sublist.refl _, fun a ha => (succeeded_iff _).mp (hall a ha), ?_⟩
    rw [(tried_deliverFrom _ _ 0 _).all hall, flatten_slices hn]
  · rintro ⟨landed, hsub, hland, hflat⟩
    -- No attempt is empty, so a failed one would leave messages that no landed one carried.
    have heq : landed = deliverFrom parseResult sendtx 0 (slices n msgs) := by
      apply eq_of_sublist_of_length_flatten_le Attempt.msgs hsub (attempt_ne_nil hn)
      rw [hflat]
      exact (broadcast_front hn).length_le
    have hall : ∀ a ∈ deliverFrom parseResult sendtx 0 (slices n msgs),
        a.run.succeeded parseResult = true := by
      rw [← heq]
      exact fun a ha => (succeeded_iff _).mpr (hland a ha)
    refine ⟨hall, ?_⟩
    rw [← List.length_map Attempt.msgs, (tried_deliverFrom _ _ 0 _).all hall]

/-- A field of the last result line of an attempt. -/
def Attempt.field (parseResult : Text → Option TxResult) (get : TxResult → Option ℕ)
    (a : Attempt Msg) : Option ℕ :=
  (lastResult parseResult a.run.out).bind get

/-- **A delivery in chunks is exact**, whatever becomes of the chunks: what is broadcast is a front
part of the batch, in order and once; it ends with the first chunk that does not land; the batch is
ok exactly when chunks that landed carried all of it; gas and bytes are added up over the chunks that
were tried; and the height credited is the last chunk's. -/
theorem delivery_exact (parseResult : Text → Option TxResult) (sendtx : ℕ → List Msg → ChunkRun)
    (msgs : List Msg) (n : ℕ) (hn : 1 ≤ n) :
    let chunks := slices n msgs
    let attempts := deliverFrom parseResult sendtx 0 chunks
    let summary := report parseResult chunks.length attempts
    ((attempts.map Attempt.msgs).flatten <+: msgs ∧
      ∀ a ∈ attempts, a.run = sendtx a.chunk a.msgs) ∧
    ((∀ a ∈ attempts.dropLast, a.run.Landed parseResult) ∧
      ((∀ a ∈ attempts, a.run.Landed parseResult) → attempts.map Attempt.msgs = chunks)) ∧
    (summary.ok = true ↔
      ∃ landed : List (Attempt Msg), landed.Sublist attempts ∧ (∀ a ∈ landed, a.run.Landed parseResult) ∧
        (landed.map Attempt.msgs).flatten = msgs) ∧
    summary.gasUsed = (attempts.map fun a => (a.field parseResult TxResult.gasUsed).getD 0).sum ∧
    summary.txBytes = (attempts.map fun a => (a.field parseResult TxResult.txBytes).getD 0).sum ∧
    (summary.ok = true → ∀ a, attempts.getLast? = some a →
      summary.creditedHeight = (a.field parseResult TxResult.height).filter (· ≠ 0)) := by
  intro chunks attempts summary
  refine ⟨⟨broadcast_front hn, (tried_deliverFrom _ _ 0 chunks).run⟩, ⟨?_, ?_⟩,
    report_ok_iff_landed hn, ?_, ?_, ?_⟩
  · exact fun a ha => (succeeded_iff _).mp ((tried_deliverFrom _ _ 0 chunks).before a ha)
  · intro hall
    exact (tried_deliverFrom _ _ 0 chunks).all fun a ha => (succeeded_iff _).mpr (hall a ha)
  · simp only [summary, report, List.map_map]
    rfl
  · simp only [summary, report, List.map_map]
    rfl
  · intro hok a hlast
    have hcredited : summary.creditedHeight =
        if summary.ok then ((attempts.map (Attempt.part parseResult)).getLast?.bind
          Part.height).filter (· ≠ 0) else none := rfl
    rw [hcredited, if_pos hok, List.getLast?_map, hlast]
    rfl

/-- Three messages two by two; the second chunk's transaction fails, after an attempt that was
reported with code 0. -/
theorem delivery_exact_second_fails :
    let parseResult := fun t : Text =>
      if t = "\x7b\"gas_used\":7\x7d".toList then some (⟨none, some 7, some 70, some 5, some 0⟩ : TxResult)
      else some ⟨none, some 9, some 90, some 6, some 11⟩
    let sendtx := fun (ci : ℕ) (_ : List ℕ) =>
      if ci = 0 then (⟨true, "\x7b\"gas_used\":7\x7d".toList⟩ : ChunkRun)
      else ⟨true, "\x7b\"gas_used\":7\x7d\n\x7b\"gas_used\":9\x7d".toList⟩
    let attempts := deliverFrom parseResult sendtx 0 (slices 2 [1, 2, 3])
    (report parseResult 2 attempts).gasUsed = 16 ∧ attempts.map Attempt.msgs = [[1, 2], [3]] ∧
      ¬ ∃ landed : List (Attempt ℕ), landed.Sublist attempts ∧ (∀ a ∈ landed, a.run.Landed parseResult) ∧
        (landed.map Attempt.msgs).flatten = [1, 2, 3] := by
  intro parseResult sendtx attempts
  have hexact := delivery_exact parseResult sendtx [1, 2, 3] 2 (by decide)
  refine ⟨?_, ?_, ?_⟩
  · exact hexact.2.2.2.1.trans (by decide)
  · decide
  · rw [← hexact.2.2.1]
    decide

end Report

end PqcMigration.MigrationCost
