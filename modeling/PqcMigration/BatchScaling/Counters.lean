/-
# PqcMigration.BatchScaling.Counters — what the counters of the two load generators count.

`run_one` of `batch_scaling/loadgen.py` counts the last statuses, as the other generator does. Here a packet
can fail after it was committed in two ways: the relay is run and does not name it, or no acknowledgement
comes within the windows.

The run is one without a checkpoint file. What the chunk workers leave in their tables is arbitrary, and the
ack phase is any run of its workers that returns.
-/
import PqcMigration.BatchScaling.AckPool
import PqcMigration.BatchScaling.RunOne
import PqcMigration.BatchScaling.SubmitGroup
import PqcMigration.Throughput.Counters

namespace PqcMigration.BatchScaling

open Lib

/-! ## The run -/

/-- What the phases before the last are given. -/
structure GroupInput where
  config : RunConfig
  rep : ℕ
  amount : ℕ
  send : ℕ → Time × SendReply
  polls : List (ℕ → Option Time)
  pool : List Account
  tables : Tables
  now : Time
  finished : Time

/-- What `relay_group_pooled` returns, and the packets as it leaves them. -/
structure RelayLeg where
  packets : List Packet
  failureKind : Text
  failureMessage : Text
  batchRelay : Option Aggregated

namespace GroupInput

variable (x : GroupInput)

def sent : List Packet :=
  (List.range x.config.groupSize).map fun i => submittedPacket i x.amount (x.send i).1 (x.send i).2

def awaited : List Packet := awaitCommits x.polls x.sent

def plan : Except (Text × Text) Plan :=
  planRelay x.pool x.awaited x.config.chunkSize x.config.relayPoolSize x.config.relayConcurrency

def relayed : RelayLeg :=
  match x.plan with
  | .error (kind, message) => ⟨x.awaited, kind, message, none⟩
  | .ok plan =>
      let r := finishRelay plan x.awaited x.tables
      ⟨r.packets, r.failureKind, r.failureMessage, some r.aggregated⟩

end GroupInput

/-- A run of the ack workers that returns. -/
structure AckLeg (packets : List Packet) where
  workers : ℕ
  maxWindows : ℕ
  events : List (AckEvent workers)
  final : AckState workers
  ran : run (ackStep maxWindows) (ackStart workers packets) events = some final
  returned : final.phase = .returned

namespace GroupInput

variable (x : GroupInput) (leg : AckLeg x.relayed.packets)

def outcome : RunOutcome where
  now := x.now
  submitted := x.awaited
  relayed := x.relayed.packets
  failureKind := x.relayed.failureKind
  failureMessage := x.relayed.failureMessage
  batchRelay := x.relayed.batchRelay
  relayFiles := []
  snapshots := []
  acked := leg.final.packets
  windows := leg.final.windows
  finished := x.finished

/-- The result of the run. -/
def result : GroupResult := (runOne x.config x.rep newCell (x.outcome leg)).2

/-- The packets in the end. -/
def final : List Packet :=
  if x.relayed.failureKind = [] then leg.final.packets.map settleUnacked else x.relayed.packets

theorem result_packets : (x.result leg).packets = x.final leg := by
  show (returnAck x.config (x.outcome leg) _ x.relayed.failureKind).1 = x.final leg
  unfold returnAck final
  split <;> rfl

/-- The statuses after the relay: at every moment of the ack phase, and in the end. -/
def later : List (List Status) :=
  if x.relayed.failureKind = [] then
    (trail (ackStep leg.maxWindows) (ackStart leg.workers x.relayed.packets) leg.events).map
      (fun u => statuses u.packets) ++ [statuses (x.final leg)]
  else []

/-- The statuses at the stages of the run. -/
def stages : List (List Status) :=
  statuses x.sent :: statuses x.awaited :: statuses x.relayed.packets :: x.later leg

end GroupInput

/-! ## What the relay does to the statuses -/

/-- The chunk results name the packet's hash. -/
def Named (plan : Plan) (tables : Tables) (p : Packet) : Prop :=
  ∃ seq, (totals plan tables).byHashToSeq (upper p.txHash) = some seq ∧ seq ≠ []

theorem status_settlePacket (plan : Plan) (tables : Tables) (p : Packet) :
    (Named plan tables p ∧ (settlePacket plan tables p).status = .credited) ∨
      (¬Named plan tables p ∧ (settlePacket plan tables p).status = .failed) := by
  unfold settlePacket Named
  cases hseq : (totals plan tables).byHashToSeq (upper p.txHash) with
  | none =>
      right
      refine ⟨fun hnamed => ?_, rfl⟩
      obtain ⟨seq, heq, -⟩ := hnamed
      cases heq
  | some seq =>
      cases seq with
      | nil =>
          right
          refine ⟨fun hnamed => ?_, rfl⟩
          obtain ⟨seq, heq, hne⟩ := hnamed
          exact hne (Option.some.inj heq).symm
      | cons c cs => exact .inl ⟨⟨c :: cs, rfl, List.cons_ne_nil c cs⟩, rfl⟩

/-- A relay that is not run fails with a kind. -/
theorem planRelay_error_kind {pool : List Account} {packets : List Packet}
    {chunkSize poolSize concurrency : ℕ} {failure : Text × Text}
    (h : planRelay pool packets chunkSize poolSize concurrency = .error failure) : failure.1 ≠ [] := by
  unfold planRelay at h
  by_cases hnone : committedOf packets = []
  · rw [if_pos hnone] at h
    obtain rfl := Except.error.inj h
    simp
  · rw [if_neg hnone] at h
    by_cases hmissing : pool.length < if poolSize < 1 then 1 else poolSize
    · rw [if_pos hmissing] at h
      obtain rfl := Except.error.inj h
      simp
    · rw [if_neg hmissing] at h
      cases h

section

variable {x : GroupInput}

theorem length_relayed : x.relayed.packets.length = x.awaited.length := by
  unfold GroupInput.relayed
  cases x.plan with
  | error failure => rfl
  | ok plan => exact List.length_map _

/-- The packet at a place after the relay. -/
theorem relayed_getElem? {i : ℕ} {p : Packet} (hp : x.awaited[i]? = some p) :
    (∃ failure, x.plan = .error failure ∧ x.relayed.failureKind ≠ [] ∧ x.relayed.packets[i]? = some p) ∨
      ∃ plan, x.plan = .ok plan ∧ x.relayed.packets[i]? =
        some (if p.status = .committed then settlePacket plan x.tables p else p) := by
  unfold GroupInput.relayed
  cases hplan : x.plan with
  | error failure => exact .inl ⟨failure, rfl, planRelay_error_kind hplan, hp⟩
  | ok plan =>
      refine .inr ⟨plan, rfl, ?_⟩
      show (x.awaited.map _)[i]? = _
      rw [List.getElem?_map, hp]
      rfl

theorem exists_awaited {i : ℕ} {q : Packet} (hq : x.relayed.packets[i]? = some q) :
    ∃ p, x.awaited[i]? = some p := by
  obtain ⟨hi, -⟩ := List.getElem?_eq_some_iff.mp hq
  rw [length_relayed] at hi
  exact ⟨_, List.getElem?_eq_getElem hi⟩

theorem status_sent : ∀ p ∈ x.sent, p.status = .submitted ∨ p.status = .failed := by
  intro p hp
  obtain ⟨i, -, rfl⟩ := List.mem_map.mp hp
  cases (x.send i).2 with
  | hash txHash => exact .inl rfl
  | raised message => exact .inr rfl

theorem status_awaited : ∀ p ∈ x.awaited, p.status = .committed ∨ p.status = .failed :=
  status_awaitCommits x.polls fun p hp => (status_sent p hp).imp_right .inr

/-- The relay takes up committed packets; one that is run leaves none as they were. -/
theorem status_relayed {i : ℕ} {q : Packet} (hq : x.relayed.packets[i]? = some q) :
    ∃ p, x.awaited[i]? = some p ∧
      ((q.status = p.status ∧ (x.relayed.failureKind = [] → p.status = .failed)) ∨
        (p.status = .committed ∧ (q.status = .credited ∨ q.status = .failed))) := by
  obtain ⟨p, hp⟩ := exists_awaited hq
  have hstatus := status_awaited p (List.mem_of_getElem? hp)
  refine ⟨p, hp, ?_⟩
  rcases relayed_getElem? hp with ⟨failure, -, hkind, hsame⟩ | ⟨plan, -, hplace⟩
  · obtain rfl : p = q := Option.some.inj (hsame.symm.trans hq)
    exact .inl ⟨rfl, fun hnone => absurd hnone hkind⟩
  · obtain rfl := Option.some.inj (hplace.symm.trans hq)
    split
    · next hcommitted =>
        refine .inr ⟨hcommitted, ?_⟩
        rcases status_settlePacket plan x.tables p with ⟨-, h⟩ | ⟨-, h⟩
        · exact .inl h
        · exact .inr h
    · next hnot => exact .inl ⟨rfl, fun _ => hstatus.resolve_left hnot⟩

/-! ## The ack phase -/

variable {leg : AckLeg x.relayed.packets}

/-- What the ack phase has done to the packets at any moment. -/
theorem moved_to_trail {packets : List Packet} (leg : AckLeg packets) {u : AckState leg.workers}
    (hu : u ∈ trail (ackStep leg.maxWindows) (ackStart leg.workers packets) leg.events) :
    Moved packets u.packets := by
  obtain ⟨bs, cs, -, hleft, -⟩ := (mem_trail_iff leg.ran).mp hu
  exact (ackInv_start packets).moved_run hleft

theorem AckLeg.moved {packets : List Packet} (leg : AckLeg packets) : Moved packets leg.final.packets :=
  (ackInv_start packets).moved_run leg.ran

theorem Moved.exists_before {before after : List Packet} (h : Moved before after) {i : ℕ} {q : Packet}
    (hq : after[i]? = some q) : ∃ p, before[i]? = some p ∧
      (q.status = p.status ∨ (p.status = .credited ∧ q.status = .acked)) := by
  obtain ⟨hi, -⟩ := List.getElem?_eq_some_iff.mp hq
  rw [h.1] at hi
  have hp : before[i]? = some before[i] := List.getElem?_eq_getElem hi
  obtain ⟨q', hq', -, hstatus⟩ := h.2 i _ hp
  obtain rfl : q' = q := Option.some.inj (hq'.symm.trans hq)
  exact ⟨_, hp, hstatus⟩

theorem status_settleUnacked_of {q : Packet} (h : q.status = .acked ∨ q.status = .failed) :
    settleUnacked q = q := if_pos h

theorem status_settleUnacked_credited {q : Packet} (h : q.status = .credited) :
    (settleUnacked q).status = .failed := by
  unfold settleUnacked
  rw [if_neg (by rw [h]; decide)]

/-- After a relay without a failure every packet is credited or has failed. -/
theorem status_relayed_of_ok (hkind : x.relayed.failureKind = []) {i : ℕ} {p : Packet}
    (hp : x.relayed.packets[i]? = some p) : p.status = .credited ∨ p.status = .failed := by
  obtain ⟨p₀, -, ⟨hsame, hfailed⟩ | ⟨-, hmoved⟩⟩ := status_relayed hp
  · exact .inr (hsame.trans (hfailed hkind))
  · exact hmoved

/-- In the end, then: a credited packet is acked or has failed, as the ack phase leaves it, and one that
had failed still has. -/
theorem status_final (hkind : x.relayed.failureKind = []) {i : ℕ} {p : Packet}
    (hp : x.relayed.packets[i]? = some p) :
    ∃ q, leg.final.packets[i]? = some q ∧ (x.final leg)[i]? = some (settleUnacked q) ∧
      ((p.status = .failed ∧ (settleUnacked q).status = .failed) ∨
        (p.status = .credited ∧ q.status = .acked ∧ (settleUnacked q).status = .acked) ∨
        (p.status = .credited ∧ q.status = .credited ∧ (settleUnacked q).status = .failed)) := by
  obtain ⟨q, hq, -, hstatus⟩ := leg.moved.2 i p hp
  refine ⟨q, hq, ?_, ?_⟩
  · unfold GroupInput.final
    rw [if_pos hkind, List.getElem?_map, hq]
    rfl
  · rcases hstatus with hsame | ⟨hcredited, hacked⟩
    · rcases status_relayed_of_ok hkind hp with hcredited | hfailed
      · have hq' := hsame.trans hcredited
        exact .inr (.inr ⟨hcredited, hq', status_settleUnacked_credited hq'⟩)
      · have hq' := hsame.trans hfailed
        rw [status_settleUnacked_of (.inr hq')]
        exact .inl ⟨hfailed, hq'⟩
    · rw [status_settleUnacked_of (.inl hacked)]
      exact .inr (.inl ⟨hcredited, hacked, hacked⟩)

theorem length_final (x : GroupInput) (leg : AckLeg x.relayed.packets) :
    (x.final leg).length = x.relayed.packets.length := by
  unfold GroupInput.final
  split
  · rw [List.length_map, leg.moved.1]
  · rfl

theorem group_course (x : GroupInput) (leg : AckLeg x.relayed.packets) :
    Course (statuses x.sent) (statuses x.awaited) (statuses x.relayed.packets) (x.later leg) := by
  refine Course.of_places status_sent status_awaited ?_ ?_
  · intro i q hq
    obtain ⟨p, hp, ⟨hsame, -⟩ | hmoved⟩ := status_relayed hq
    · exact ⟨p, hp, .inl hsame⟩
    · exact ⟨p, hp, .inr hmoved⟩
  · intro stage hstage
    unfold GroupInput.later at hstage
    split at hstage
    · next hkind =>
        rcases List.mem_append.mp hstage with hack | hend
        · obtain ⟨u, hu, rfl⟩ := List.mem_map.mp hack
          refine ⟨_, rfl, fun i q hq => ?_⟩
          obtain ⟨p, hp, hmoved⟩ := (moved_to_trail leg hu).exists_before hq
          exact ⟨p, hp, hmoved.imp_right fun hacked => ⟨hacked.1, .inl hacked.2⟩⟩
        · obtain rfl := List.mem_singleton.mp hend
          refine ⟨_, rfl, fun i q hq => ?_⟩
          obtain ⟨hi, -⟩ := List.getElem?_eq_some_iff.mp hq
          rw [length_final] at hi
          have hp : x.relayed.packets[i]? = some x.relayed.packets[i] := List.getElem?_eq_getElem hi
          obtain ⟨q', -, hplace, hcases⟩ := status_final hkind hp
          obtain rfl := Option.some.inj (hplace.symm.trans hq)
          refine ⟨_, hp, ?_⟩
          rcases hcases with ⟨hfailed, hsame⟩ | ⟨hcredited, -, hacked⟩ | ⟨hcredited, -, hfailed⟩
          · exact .inl (hsame.trans hfailed.symm)
          · exact .inr ⟨hcredited, .inl hacked⟩
          · exact .inr ⟨hcredited, .inr hfailed⟩
    · cases hstage

theorem final_mem (x : GroupInput) (leg : AckLeg x.relayed.packets) :
    statuses (x.final leg) ∈ statuses x.relayed.packets :: x.later leg := by
  unfold GroupInput.later
  split
  · exact List.mem_cons_of_mem _ (List.mem_append_right _ (List.mem_singleton_self _))
  · next hkind =>
      unfold GroupInput.final
      rw [if_neg hkind]
      exact List.mem_cons_self

/-! ## The counters -/

/-- No packet fails after it was committed: a relay that is run names every committed packet, and if it
reports no failure the ack phase acknowledges every credited one. -/
structure GroupInput.NoLateFailure (x : GroupInput) (leg : AckLeg x.relayed.packets) : Prop where
  relay : ∀ plan, x.plan = .ok plan → ∀ p ∈ x.awaited, p.status = .committed → Named plan x.tables p
  ack : x.relayed.failureKind = [] → ∀ (i : ℕ) (p : Packet), x.relayed.packets[i]? = some p →
    p.status = .credited → ∃ q, leg.final.packets[i]? = some q ∧ q.status = .acked

/-- After a relay with a failure nothing more happens. -/
theorem final_of_failure (hkind : x.relayed.failureKind ≠ []) : x.final leg = x.relayed.packets :=
  if_neg hkind

theorem final_failed_of_relayed {i : ℕ} {p : Packet} (hp : x.relayed.packets[i]? = some p)
    (hfailed : p.status = .failed) : (statuses (x.final leg))[i]? = some .failed := by
  by_cases hkind : x.relayed.failureKind = []
  · obtain ⟨q, -, hplace, ⟨-, hq⟩ | ⟨hcredited, -⟩ | ⟨hcredited, -⟩⟩ := @status_final x leg hkind i p hp
    · exact getElem?_statuses.mpr ⟨_, hplace, hq⟩
    · rw [hfailed] at hcredited
      cases hcredited
    · rw [hfailed] at hcredited
      cases hcredited
  · rw [final_of_failure hkind]
    exact getElem?_statuses.mpr ⟨p, hp, hfailed⟩

/-- A credited packet fails only for want of an acknowledgement. -/
theorem final_failed_of_credited {i : ℕ} {p : Packet} (hp : x.relayed.packets[i]? = some p)
    (hcredited : p.status = .credited) : (statuses (x.final leg))[i]? = some .failed ↔
      x.relayed.failureKind = [] ∧ ¬∃ q, leg.final.packets[i]? = some q ∧ q.status = .acked := by
  by_cases hkind : x.relayed.failureKind = []
  · obtain ⟨q, hq, hplace, hcases⟩ := @status_final x leg hkind i p hp
    have hfinal : (statuses (x.final leg))[i]? = some (settleUnacked q).status :=
      getElem?_statuses.mpr ⟨_, hplace, rfl⟩
    rw [hfinal, Option.some.injEq]
    rcases hcases with ⟨hfailed, -⟩ | ⟨-, hacked, hend⟩ | ⟨-, hq', hend⟩
    · rw [hfailed] at hcredited
      cases hcredited
    · rw [hend]
      refine iff_of_false (fun heq => by cases heq) fun hnot => hnot.2 ⟨q, hq, hacked⟩
    · rw [hend]
      refine iff_of_true rfl ⟨hkind, ?_⟩
      rintro ⟨q', hplace', hacked⟩
      obtain rfl : q = q' := Option.some.inj (hq.symm.trans hplace')
      rw [hq'] at hacked
      cases hacked
  · rw [final_of_failure hkind]
    refine iff_of_false (fun hfailed => ?_) fun hnot => hkind hnot.1
    obtain ⟨p', hp', hfailed'⟩ := getElem?_statuses.mp hfailed
    obtain rfl : p = p' := Option.some.inj (hp.symm.trans hp')
    exact nomatch hcredited.symm.trans hfailed'

theorem noLateFailure_iff (x : GroupInput) (leg : AckLeg x.relayed.packets) :
    (∀ i : ℕ, (statuses x.awaited)[i]? = some .committed → (statuses (x.final leg))[i]? ≠ some .failed) ↔
      x.NoLateFailure leg := by
  constructor
  · intro hnone
    constructor
    · intro plan hplan p hp hcommitted
      obtain ⟨i, hi⟩ := List.mem_iff_getElem?.mp hp
      rcases relayed_getElem? hi with ⟨failure, herror, -⟩ | ⟨plan', hplan', hplace⟩
      · rw [hplan] at herror
        cases herror
      · obtain rfl : plan = plan' := Except.ok.inj (hplan.symm.trans hplan')
        rw [if_pos hcommitted] at hplace
        rcases status_settlePacket plan x.tables p with ⟨hnamed, -⟩ | ⟨-, hfailed⟩
        · exact hnamed
        · exact absurd (final_failed_of_relayed hplace hfailed)
            (hnone i (getElem?_statuses.mpr ⟨p, hi, hcommitted⟩))
    · intro hkind i p hp hcredited
      have hawaited := (group_course x leg).relayed_credited (getElem?_statuses.mpr ⟨p, hp, hcredited⟩)
      by_contra hnot
      exact hnone i hawaited ((final_failed_of_credited hp hcredited).mpr ⟨hkind, hnot⟩)
  · intro h i hi hfailed
    obtain ⟨p, hp, (hcommitted : p.status = .committed)⟩ := getElem?_statuses.mp hi
    rcases relayed_getElem? hp with ⟨failure, -, hkind, hsame⟩ | ⟨plan, hplan, hplace⟩
    · rw [final_of_failure hkind] at hfailed
      obtain ⟨p', hp', hfailed'⟩ := getElem?_statuses.mp hfailed
      obtain rfl : p = p' := Option.some.inj (hsame.symm.trans hp')
      exact nomatch hcommitted.symm.trans hfailed'
    · have hnamed := h.relay plan hplan p (List.mem_of_getElem? hp) hcommitted
      rw [if_pos hcommitted] at hplace
      have hcredited := ((status_settlePacket plan x.tables p).resolve_right fun hno => hno.1 hnamed).2
      obtain ⟨hkind, hnot⟩ := (final_failed_of_credited hplace hcredited).mp hfailed
      exact hnot (h.ack hkind i _ hplace hcredited)

/-- The counters of a run. -/
theorem group_counters (x : GroupInput) (leg : AckLeg x.relayed.packets) :
    ((x.result leg).committed = everCount (x.stages leg) (x.result leg).offered .committed ∧
      (x.result leg).relayed = everCount (x.stages leg) (x.result leg).offered .credited) ↔
      x.NoLateFailure leg := by
  have hlength : (statuses (x.final leg)).length = (x.final leg).length := List.length_map _
  have hcounted := (group_course x leg).counted_iff (final_mem x leg)
  rw [hlength, ← countStatus_eq, ← countStatus_eq, noLateFailure_iff] at hcounted
  show (countStatus (x.result leg).packets _ = everCount _ (x.result leg).packets.length _ ∧
    countStatus (x.result leg).packets _ = everCount _ (x.result leg).packets.length _) ↔ _
  rw [x.result_packets leg]
  exact hcounted

end

/-- **When the counters count every packet.** In either generator: when no packet fails after it was
committed. In the one that is no relay command of a committed packet exiting with an error; in the other,
the relay naming every committed packet, and the ack phase acknowledging every credited one. -/
theorem counters_count_iff (x : Throughput.RunInput) (r : Throughput.Relayed) (hr : x.relayed = .ok r)
    (y : GroupInput) (leg : AckLeg y.relayed.packets) :
    (((Throughput.runResult x.burstN r).committed =
          everCount (x.stages r) (Throughput.runResult x.burstN r).offered .committed ∧
        (Throughput.runResult x.burstN r).credited =
          everCount (x.stages r) (Throughput.runResult x.burstN r).offered .credited) ↔
      (x.configured = true → ∀ (i : ℕ) (p : Throughput.Packet), x.awaited[i]? = some p →
        p.status = .committed → (x.commands.recv i).failedExit = false)) ∧
    (((y.result leg).committed = everCount (y.stages leg) (y.result leg).offered .committed ∧
        (y.result leg).relayed = everCount (y.stages leg) (y.result leg).offered .credited) ↔
      y.NoLateFailure leg) :=
  ⟨Throughput.throughput_counters hr, group_counters y leg⟩

/-- One transfer that is sent and committed; its relay command exits with an error. -/
def exitedRelay : Throughput.RunInput where
  burstN := 1
  amount := 1000
  send := fun _ => (100, .hash "A1".toList)
  polls := [fun _ => some 103]
  configured := true
  commands := ⟨fun _ => .exited "reverted".toList, fun _ _ => .timedOut⟩

/-- One transfer that is sent and committed; the chunk it is in times out. -/
def lateChunk : GroupInput where
  config := oneTransfer
  rep := 0
  amount := 1000
  send := fun _ => (100, .hash "A1".toList)
  polls := [fun _ => some 103]
  pool := [⟨"x".toList, "1".toList⟩]
  tables := runChunk (fun _ => none) noTables 0 (.timedOut, 200)
  now := 100
  finished := 300

theorem ran_nothing : run (ackStep 6) (ackStart 1 lateChunk.relayed.packets) [.ret] =
    some ⟨lateChunk.relayed.packets, 0, .returned⟩ := rfl

def noAcks : AckLeg lateChunk.relayed.packets where
  workers := 1
  maxWindows := 6
  events := [.ret]
  final := ⟨lateChunk.relayed.packets, 0, .returned⟩
  ran := ran_nothing
  returned := rfl

/-- One transfer that is sent, committed, relayed and acknowledged. -/
def ackedRelay : Throughput.RunInput :=
  { exitedRelay with commands := ⟨fun _ => .ok 110 none, fun _ _ => .ok 120 []⟩ }

theorem counters_count_acked :
    ∃ r, ackedRelay.relayed = .ok r ∧
      (Throughput.runResult 1 r).committed = everCount (ackedRelay.stages r) 1 .committed ∧
      (Throughput.runResult 1 r).credited = everCount (ackedRelay.stages r) 1 .credited :=
  ⟨_, rfl, (counters_count_iff ackedRelay _ rfl lateChunk noAcks).1.mpr fun _ _ _ _ _ => rfl⟩

/-- Neither is counted among the committed transfers, and both were committed. -/
theorem late_failures_not_counted :
    (∃ r, exitedRelay.relayed = .ok r ∧ (Throughput.runResult 1 r).committed = 0 ∧
      everCount (exitedRelay.stages r) 1 .committed = 1) ∧
    (lateChunk.result noAcks).offered = 1 ∧ (lateChunk.result noAcks).committed = 0 ∧
      everCount (lateChunk.stages noAcks) 1 .committed = 1 :=
  ⟨⟨_, rfl, rfl, rfl⟩, rfl, rfl, rfl⟩

end PqcMigration.BatchScaling
