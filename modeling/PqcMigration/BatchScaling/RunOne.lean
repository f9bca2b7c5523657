/-
# PqcMigration.BatchScaling.RunOne — `run_one` and `main` of `loadgen.py`, as what they do to the disk.

One invocation runs three phases and saves a checkpoint after each, the ack phase several more on the
way. `run_one` ends by removing the checkpoint, and `main` then writes the result. What the phases come
to is arbitrary here; a crash, like an exception that nothing catches, leaves the disk as it is after some
number of file operations, and the next invocation starts from there.

A write, a rename and a deletion are one step each, and there is one ack worker, so the steps of two saves
are never mixed (`Checkpoint` is about several). The latency statistics of the result are left out.
-/
import PqcMigration.BatchScaling.RelayPool

namespace PqcMigration.BatchScaling

open Lib

/-! ## The disk -/

/-- `run_config` -/
structure RunConfig where
  groupSize : ℕ
  poolSize : ℕ
  relayPoolSize : ℕ
  relayConcurrency : ℕ
  chunkSize : ℕ
  ackPoolSize : ℕ
  deriving DecidableEq

/-- The document `checkpoint` saves. -/
structure SavedRun where
  config : RunConfig
  startedAt : Time
  packets : List Packet
  submitDone : Bool
  relayDone : Bool
  /-- `none` is `{}` -/
  batchRelay : Option Aggregated

inductive GroupStatus where
  | ok
  | failed
  deriving DecidableEq

/-- `GroupResult` -/
structure GroupResult where
  config : RunConfig
  rep : ℕ
  startedAt : Time
  finishedAt : Time
  offered : ℕ
  submitted : ℕ
  committed : ℕ
  relayed : ℕ
  acked : ℕ
  failed : ℕ
  status : GroupStatus
  failureKind : Text
  failureMessage : Text
  windowsUsed : ℕ
  batchRelay : Option Aggregated
  packets : List Packet

/-- What a file has in it: a document, or a text that `json.loads` refuses. -/
inductive FileText (α : Type) where
  | doc (d : α)
  | torn

/-- The files of one cell, and the names in `batch-scaling-relay`. -/
structure CellDisk where
  tmp : Option (FileText SavedRun)
  checkpoint : Option (FileText SavedRun)
  /-- `--out` -/
  result : Option (FileText GroupResult)
  relay : List Text

/-- One step on the disk. -/
inductive DiskStep where
  | writeTmp (state : SavedRun)
  | replaceTmp
  | unlinkCheckpoint
  | writeResult (result : GroupResult)
  | unlinkRelay (name : Text)
  | writeRelay (name : Text)

def CellDisk.apply (disk : CellDisk) : DiskStep → CellDisk
  | .writeTmp state => { disk with tmp := some (.doc state) }
  | .replaceTmp => { disk with tmp := none, checkpoint := disk.tmp }
  | .unlinkCheckpoint => { disk with checkpoint := none }
  | .writeResult result => { disk with result := some (.doc result) }
  | .unlinkRelay name => { disk with relay := disk.relay.erase name }
  | .writeRelay name => { disk with relay := name :: disk.relay }

def CellDisk.applyAll (disk : CellDisk) (steps : List DiskStep) : CellDisk :=
  steps.foldl CellDisk.apply disk

/-- `_load_checkpoint`, and the test of the config after it. -/
def CellDisk.state (disk : CellDisk) (config : RunConfig) : Option SavedRun :=
  match disk.checkpoint with
  | some (.doc state) => if state.config = config then some state else none
  | _ => none

/-! ## One invocation -/

/-- A call that works on files. -/
inductive FileCall where
  | saveCheckpoint (state : SavedRun)
  | unlinkRelay (name : Text)
  | writeRelay (name : Text)

/-- Write-then-rename for `_save_checkpoint`, one step for the others. -/
def FileCall.steps : FileCall → List DiskStep
  | .saveCheckpoint state => [.writeTmp state, .replaceTmp]
  | .unlinkRelay name => [.unlinkRelay name]
  | .writeRelay name => [.writeRelay name]

/-- What the phases come to. -/
structure RunOutcome where
  /-- `time.time()` where the run starts afresh -/
  now : Time
  submitted : List Packet
  /-- what `relay_group_pooled` returns, the packets as it leaves them, and the files it writes -/
  relayed : List Packet
  failureKind : Text
  failureMessage : Text
  batchRelay : Option Aggregated
  relayFiles : List Text
  /-- the packets at each call of `checkpoint_cb`, and in the end -/
  snapshots : List (List Packet)
  acked : List Packet
  windows : ℕ
  finished : Time

/-- The variables of `run_one` that its `checkpoint` closes over. -/
structure RunVars where
  started : Time
  packets : List Packet
  submitDone : Bool
  relayDone : Bool
  batchRelay : Option Aggregated

def RunVars.checkpoint (v : RunVars) (config : RunConfig) : FileCall :=
  .saveCheckpoint ⟨config, v.started, v.packets, v.submitDone, v.relayDone, v.batchRelay⟩

/-- Resumed from a checkpoint, or afresh. -/
def startVars (config : RunConfig) (disk : CellDisk) (o : RunOutcome) : RunVars :=
  match disk.state config with
  | some state =>
      ⟨state.startedAt, state.packets, state.submitDone, state.relayDone, state.batchRelay⟩
  | none => ⟨o.now, [], false, false, none⟩

/-- Phase 1. -/
def submission (config : RunConfig) (o : RunOutcome) (v : RunVars) : RunVars × List FileCall :=
  if v.submitDone then (v, [])
  else
    let v := { v with packets := o.submitted, submitDone := true }
    (v, [v.checkpoint config])

/-- Phase 2. The failure is empty where the relay is not run. -/
def forwardRelay (config : RunConfig) (disk : CellDisk) (o : RunOutcome) (v : RunVars) :
    RunVars × List FileCall × Text × Text :=
  if v.relayDone then (v, [], [], [])
  else
    let v := { v with
      packets := o.relayed
      relayDone := decide (o.failureKind = [])
      batchRelay := o.batchRelay }
    (v, disk.relay.map .unlinkRelay ++ o.relayFiles.map .writeRelay ++ [v.checkpoint config],
      o.failureKind, o.failureMessage)

/-- A packet that was never acknowledged is a failure too. -/
def settleUnacked (p : Packet) : Packet :=
  if p.status = .acked ∨ p.status = .failed then p
  else
    { p with
      status := .failed
      error := if p.error = [] then "not acknowledged within window budget".toList else p.error }

/-- Phase 3: the packets it leaves, the calls, the windows it took. -/
def returnAck (config : RunConfig) (o : RunOutcome) (v : RunVars) (failureKind : Text) :
    List Packet × List FileCall × ℕ :=
  if failureKind = [] then
    (o.acked.map settleUnacked,
      o.snapshots.map fun packets => RunVars.checkpoint { v with packets := packets } config,
      o.windows)
  else (v.packets, [], 0)

def groupResult (config : RunConfig) (rep : ℕ) (o : RunOutcome) (v : RunVars) (packets : List Packet)
    (failureKind failureMessage : Text) (windows : ℕ) : GroupResult :=
  let nFailed := countStatus packets [.failed]
  let partly := failureKind = [] ∧ 0 < nFailed
  { config := config
    rep := rep
    startedAt := v.started
    finishedAt := o.finished
    offered := packets.length
    submitted := packets.countP fun p => p.status ≠ .failed ∨ p.txHash ≠ []
    committed := countStatus packets [.committed, .credited, .acked]
    relayed := countStatus packets [.credited, .acked]
    acked := countStatus packets [.acked]
    failed := nFailed
    status := if failureKind ≠ [] ∨ 0 < nFailed then .failed else .ok
    failureKind := if partly then "partial_ack_failure".toList else failureKind
    failureMessage :=
      (if partly ∧ failureMessage = [] then
        digits nFailed ++ "/".toList ++ digits config.groupSize ++ " packets never acked".toList
      else failureMessage).take 500
    windowsUsed := windows
    batchRelay := v.batchRelay
    packets := packets }

/-- `run_one` up to the removal of the checkpoint: the calls it makes, and the result. -/
def runOne (config : RunConfig) (rep : ℕ) (disk : CellDisk) (o : RunOutcome) :
    List FileCall × GroupResult :=
  let (v, submitCalls) := submission config o (startVars config disk o)
  let (v, relayCalls, failureKind, failureMessage) := forwardRelay config disk o v
  let (packets, ackCalls, windows) := returnAck config o v failureKind
  (submitCalls ++ relayCalls ++ ackCalls,
    groupResult config rep o v packets failureKind failureMessage windows)

/-- The steps of a whole invocation. The checkpoint is removed by `run_one`, the result is written by
`main` when it has returned. -/
def mainSteps (config : RunConfig) (rep : ℕ) (disk : CellDisk) (o : RunOutcome) : List DiskStep :=
  let (calls, result) := runOne config rep disk o
  calls.flatMap FileCall.steps ++ [.unlinkCheckpoint, .writeResult result]

/-- The steps taken before the crash. -/
def stepsUntil (config : RunConfig) (rep : ℕ) (disk : CellDisk) (o : RunOutcome) (k : ℕ) :
    List DiskStep := (mainSteps config rep disk o).take k

/-- What a crash after `k` steps leaves. -/
def crashedAt (config : RunConfig) (rep : ℕ) (disk : CellDisk) (o : RunOutcome) (k : ℕ) : CellDisk :=
  disk.applyAll (stepsUntil config rep disk o k)

/-- One invocation that is cut after some number of steps. -/
def invoke (config : RunConfig) (rep : ℕ) (disk : CellDisk) (cut : RunOutcome × ℕ) : Option CellDisk :=
  some (crashedAt config rep disk cut.1 cut.2)

/-! ## What an invocation saves -/

section Saves

variable {config : RunConfig} {rep : ℕ} {disk : CellDisk} {o : RunOutcome}

/-- The next invocation goes on past the submission. -/
def Resumes (config : RunConfig) (disk : CellDisk) : Prop :=
  ∃ state, disk.state config = some state ∧ state.submitDone = true

def HasResult (disk : CellDisk) : Prop := ∃ result, disk.result = some (.doc result)

/-- The call saves nothing, or a state of this run after its submission. -/
def SavesSubmitted (config : RunConfig) : FileCall → Prop
  | .saveCheckpoint state => state.config = config ∧ state.submitDone = true
  | _ => True

theorem submission_submitDone (config : RunConfig) (o : RunOutcome) (v : RunVars) :
    (submission config o v).1.submitDone = true := by
  unfold submission
  split
  · assumption
  · rfl

theorem forwardRelay_submitDone (config : RunConfig) (disk : CellDisk) (o : RunOutcome) (v : RunVars) :
    (forwardRelay config disk o v).1.submitDone = v.submitDone := by
  unfold forwardRelay
  split <;> rfl

theorem savesSubmitted_checkpoint {v : RunVars} (hv : v.submitDone = true) :
    SavesSubmitted config (v.checkpoint config) := ⟨rfl, hv⟩

theorem savesSubmitted_submission (v : RunVars) :
    ∀ call ∈ (submission config o v).2, SavesSubmitted config call := by
  intro call hcall
  unfold submission at hcall
  split at hcall
  · cases hcall
  · obtain rfl := List.mem_singleton.mp hcall
    exact savesSubmitted_checkpoint rfl

theorem savesSubmitted_forwardRelay {v : RunVars} (hv : v.submitDone = true) :
    ∀ call ∈ (forwardRelay config disk o v).2.1, SavesSubmitted config call := by
  intro call hcall
  unfold forwardRelay at hcall
  split at hcall
  · cases hcall
  · rcases List.mem_append.mp hcall with hfiles | hsave
    · rcases List.mem_append.mp hfiles with hold | hnew
      · obtain ⟨name, -, rfl⟩ := List.mem_map.mp hold
        trivial
      · obtain ⟨name, -, rfl⟩ := List.mem_map.mp hnew
        trivial
    · obtain rfl := List.mem_singleton.mp hsave
      exact savesSubmitted_checkpoint hv

theorem savesSubmitted_returnAck {v : RunVars} (hv : v.submitDone = true) (failureKind : Text) :
    ∀ call ∈ (returnAck config o v failureKind).2.1, SavesSubmitted config call := by
  intro call hcall
  unfold returnAck at hcall
  split at hcall
  · obtain ⟨packets, -, rfl⟩ := List.mem_map.mp hcall
    exact savesSubmitted_checkpoint hv
  · cases hcall

/-- Whatever an invocation saves, it saves after its submission. -/
theorem savesSubmitted_runOne (config : RunConfig) (rep : ℕ) (disk : CellDisk) (o : RunOutcome) :
    ∀ call ∈ (runOne config rep disk o).1, SavesSubmitted config call := by
  have hsubmit := submission_submitDone config o (startVars config disk o)
  have hrelay := forwardRelay_submitDone config disk o
    (submission config o (startVars config disk o)).1
  intro call hcall
  rcases List.mem_append.mp hcall with hearly | hack
  · rcases List.mem_append.mp hearly with hcall | hcall
    · exact savesSubmitted_submission _ call hcall
    · exact savesSubmitted_forwardRelay hsubmit call hcall
  · exact savesSubmitted_returnAck (hrelay.trans hsubmit) _ call hack

end Saves

/-! ## Crash points -/

section Crash

variable {config : RunConfig} {rep : ℕ} {disk : CellDisk} {o : RunOutcome} {k : ℕ}

@[simp] theorem applyAll_nil (d : CellDisk) : d.applyAll [] = d := rfl

@[simp] theorem applyAll_cons (d : CellDisk) (step : DiskStep) (steps : List DiskStep) :
    d.applyAll (step :: steps) = (d.apply step).applyAll steps := rfl

theorem applyAll_append (d : CellDisk) (steps steps' : List DiskStep) :
    d.applyAll (steps ++ steps') = (d.applyAll steps).applyAll steps' := List.foldl_append

theorem resumes_congr {d d' : CellDisk} (hsame : d'.checkpoint = d.checkpoint)
    (h : Resumes config d) : Resumes config d' := by
  unfold Resumes CellDisk.state at h ⊢
  rwa [hsame]

theorem resumes_save (d : CellDisk) {state : SavedRun}
    (hstate : SavesSubmitted config (.saveCheckpoint state)) :
    Resumes config ((d.apply (.writeTmp state)).apply .replaceTmp) :=
  ⟨state, if_pos hstate.1, hstate.2⟩

/-- Where there is a checkpoint to resume from, there is one at every step of the calls; and the first
save makes one. -/
theorem resumes_applyAll_take {calls : List FileCall}
    (hcalls : ∀ call ∈ calls, SavesSubmitted config call) {d : CellDisk}
    (h : Resumes config d ∨ .replaceTmp ∈ (calls.flatMap FileCall.steps).take k) :
    Resumes config (d.applyAll ((calls.flatMap FileCall.steps).take k)) := by
  induction calls generalizing d k with
  | nil => simpa using h
  | cons call calls ih =>
      have hrest : ∀ call ∈ calls, SavesSubmitted config call :=
        fun c hc => hcalls c (List.mem_cons_of_mem _ hc)
      have hcall := hcalls call List.mem_cons_self
      rw [List.flatMap_cons] at h ⊢
      cases call with
      | saveCheckpoint state =>
          match k with
          | 0 => simpa using h
          | 1 =>
              -- only the temporary file is written
              have hd : Resumes config d := by simpa [FileCall.steps] using h
              exact resumes_congr rfl hd
          | k + 2 => exact ih hrest (Or.inl (resumes_save d hcall))
      | unlinkRelay name | writeRelay name =>
          match k with
          | 0 => simpa using h
          | k + 1 =>
              apply ih hrest
              rcases h with hd | hmem
              · exact Or.inl (resumes_congr rfl hd)
              · exact Or.inr (by simpa [FileCall.steps] using hmem)

/-- Only the step that writes the result changes it. -/
theorem result_applyAll {steps : List DiskStep} (h : ∀ result, .writeResult result ∉ steps)
    (d : CellDisk) : (d.applyAll steps).result = d.result := by
  induction steps generalizing d with
  | nil => rfl
  | cons step steps ih =>
      rw [applyAll_cons, ih fun result hmem => h result (List.mem_cons_of_mem _ hmem)]
      cases step with
      | writeResult result => exact absurd List.mem_cons_self (h result)
      | writeTmp | replaceTmp | unlinkCheckpoint | unlinkRelay | writeRelay => rfl

theorem hasResult_applyAll {d : CellDisk} (h : HasResult d) (steps : List DiskStep) :
    HasResult (d.applyAll steps) := by
  induction steps generalizing d with
  | nil => exact h
  | cons step steps ih =>
      apply ih
      cases step with
      | writeResult result => exact ⟨result, rfl⟩
      | writeTmp | replaceTmp | unlinkCheckpoint | unlinkRelay | writeRelay => exact h

theorem unlinkCheckpoint_notMem_steps {calls : List FileCall} :
    .unlinkCheckpoint ∉ calls.flatMap FileCall.steps := by
  intro hmem
  obtain ⟨call, -, hstep⟩ := List.mem_flatMap.mp hmem
  cases call <;> simp [FileCall.steps] at hstep

theorem writeResult_notMem_steps {calls : List FileCall} (result : GroupResult) :
    .writeResult result ∉ calls.flatMap FileCall.steps := by
  intro hmem
  obtain ⟨call, -, hstep⟩ := List.mem_flatMap.mp hmem
  cases call <;> simp [FileCall.steps] at hstep

/-- A crash comes while the calls are made, between the last two steps, or when all is done. -/
theorem take_append_two {α : Type} (l : List α) (a b : α) (k : ℕ) :
    (l ++ [a, b]).take k = l.take k ∨ (l ++ [a, b]).take k = l ++ [a] ∨
      (l ++ [a, b]).take k = l ++ [a, b] := by
  rcases Nat.lt_trichotomy k (l.length + 1) with hlt | rfl | hgt
  · left
    exact List.take_append_of_le_length (by omega)
  · right; left
    rw [List.take_length_add_append]
    rfl
  · right; right
    exact List.take_of_length_le (by simp; omega)

/-- The checkpoint is gone, and the result is not there yet. -/
def InGap (steps : List DiskStep) : Prop :=
  .unlinkCheckpoint ∈ steps ∧ ∀ result, .writeResult result ∉ steps

/-- Nothing that was finished is lost: the run can be resumed past its submission, or it is over and the
disk has its result. -/
def Kept (config : RunConfig) (disk : CellDisk) : Prop := Resumes config disk ∨ HasResult disk

theorem stepsUntil_cases (config : RunConfig) (rep : ℕ) (disk : CellDisk) (o : RunOutcome) (k : ℕ) :
    let calls := (runOne config rep disk o).1.flatMap FileCall.steps
    stepsUntil config rep disk o k = calls.take k ∨
      stepsUntil config rep disk o k = calls ++ [.unlinkCheckpoint] ∨
      stepsUntil config rep disk o k =
        calls ++ [.unlinkCheckpoint, .writeResult (runOne config rep disk o).2] :=
  take_append_two _ _ _ k

theorem kept_crashedAt (hgap : ¬ InGap (stepsUntil config rep disk o k))
    (hsaved : Kept config disk ∨ .replaceTmp ∈ stepsUntil config rep disk o k) :
    Kept config (crashedAt config rep disk o k) := by
  unfold crashedAt
  rcases stepsUntil_cases config rep disk o k with htake | htake | htake
  · rw [htake] at hsaved ⊢
    rcases hsaved with (hresumes | hresult) | hmem
    · exact Or.inl (resumes_applyAll_take (savesSubmitted_runOne config rep disk o) (Or.inl hresumes))
    · exact Or.inr (hasResult_applyAll hresult _)
    · exact Or.inl (resumes_applyAll_take (savesSubmitted_runOne config rep disk o) (Or.inr hmem))
  · refine absurd ?_ hgap
    rw [htake]
    refine ⟨by simp, ?_⟩
    intro result hmem
    rcases List.mem_append.mp hmem with hcalls | hlast
    · exact writeResult_notMem_steps result hcalls
    · simp at hlast
  · rw [htake, applyAll_append]
    exact Or.inr ⟨_, rfl⟩

/-- In the gap there is nothing on the disk but what the run found there. -/
theorem not_kept_of_inGap (hgap : InGap (stepsUntil config rep disk o k)) (hresult : ¬ HasResult disk) :
    ¬ Kept config (crashedAt config rep disk o k) := by
  have hsame : (crashedAt config rep disk o k).result = disk.result := result_applyAll hgap.2 disk
  rintro (⟨state, hstate, -⟩ | ⟨result, hdoc⟩)
  · unfold crashedAt at hstate
    rcases stepsUntil_cases config rep disk o k with htake | htake | htake
    · have hmem := hgap.1
      rw [htake] at hmem
      exact unlinkCheckpoint_notMem_steps (List.mem_of_mem_take hmem)
    · rw [htake, applyAll_append] at hstate
      cases hstate
    · apply hgap.2 (runOne config rep disk o).2
      rw [htake]
      simp
  · exact hresult ⟨result, hsame.symm.trans hdoc⟩

end Crash

/-- **A finished phase is kept.** After its first checkpoint, or with one to resume from, a crash leaves a
checkpoint that resumes past the submission or a complete result, except between the removal of the
checkpoint and the write of the result, if there was no result before. And over any number of invocations,
each cut anywhere but there, what is kept stays kept. -/
theorem phase_kept_iff (config : RunConfig) (rep : ℕ) (disk : CellDisk) :
    (∀ o k, Kept config disk ∨ .replaceTmp ∈ stepsUntil config rep disk o k →
      (Kept config (crashedAt config rep disk o k) ↔
        ¬ InGap (stepsUntil config rep disk o k) ∨ HasResult disk)) ∧
    (∀ cuts d, run (invoke config rep) disk cuts = some d →
      (∀ cut u, Takes (invoke config rep) disk cuts cut u →
        ¬ InGap (stepsUntil config rep u cut.1 cut.2)) →
      Kept config disk → Kept config d) := by
  constructor
  · intro o k hsaved
    constructor
    · intro hkept
      by_contra hnot
      obtain ⟨hgap, hresult⟩ := not_or.mp hnot
      exact not_kept_of_inGap (not_not.mp hgap) hresult hkept
    · rintro (hgap | hresult)
      · exact kept_crashedAt hgap hsaved
      · exact Or.inr (hasResult_applyAll hresult _)
  · intro cuts d hrun hcuts hkept
    refine run_invariant_of_takes (I := Kept config)
      (C := fun u cut => ¬ InGap (stepsUntil config rep u cut.1 cut.2)) ?_ hkept hrun hcuts
    intro u cut v hu hgap hstep
    obtain rfl := Option.some.inj hstep
    exact kept_crashedAt hgap (Or.inl hu)

/-- One transfer, all defaults. -/
def oneTransfer : RunConfig := ⟨1, 1, 1, 1, 50, 1⟩

def newCell : CellDisk := ⟨none, none, none, []⟩

/-- It is submitted, relayed and acknowledged. -/
def goesThrough : RunOutcome where
  now := 100
  submitted := [{ seq := 0, amount := 1000, status := .committed }]
  relayed := [{ seq := 0, amount := 1000, status := .credited }]
  failureKind := []
  failureMessage := []
  batchRelay := none
  relayFiles := ["recv-result-1.json".toList]
  snapshots := [[{ seq := 0, amount := 1000, status := .acked }]]
  acked := [{ seq := 0, amount := 1000, status := .acked }]
  windows := 1
  finished := 900

theorem phase_kept_after_submission :
    Kept oneTransfer (crashedAt oneTransfer 0 newCell goesThrough 2) := by
  obtain ⟨state, hsteps⟩ : ∃ state, stepsUntil oneTransfer 0 newCell goesThrough 2 =
      [.writeTmp state, .replaceTmp] := ⟨_, rfl⟩
  apply ((phase_kept_iff oneTransfer 0 newCell).1 goesThrough 2 (Or.inr ?_)).mpr
  · left
    simp [hsteps, InGap]
  · simp [hsteps]

/-- The transfer is acknowledged, the checkpoint removed, and the crash comes before the result is
written: neither is there. -/
theorem finished_run_lost :
    .replaceTmp ∈ stepsUntil oneTransfer 0 newCell goesThrough 8 ∧
      (crashedAt oneTransfer 0 newCell goesThrough 7).checkpoint.isSome ∧
      (crashedAt oneTransfer 0 newCell goesThrough 8).checkpoint.isSome = false ∧
      (crashedAt oneTransfer 0 newCell goesThrough 8).result.isSome = false ∧
      ¬ Kept oneTransfer (crashedAt oneTransfer 0 newCell goesThrough 8) := by
  refine ⟨?_, rfl, rfl, rfl, ?_⟩
  · exact List.mem_cons_of_mem _ List.mem_cons_self
  · rintro (⟨state, hstate, -⟩ | ⟨result, hresult⟩)
    · cases hstate
    · cases hresult

end PqcMigration.BatchScaling
