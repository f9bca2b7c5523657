/-
# PqcMigration.Throughput.Counters — what the counters of `migration_throughput/loadgen.py` count.

`run_one` counts the last statuses. A packet that was committed and whose relay command then exits with an
error ends as failed, and is not among the committed ones any more.
-/
import PqcMigration.Throughput.Loadgen

namespace PqcMigration.Throughput

open Lib
open BatchScaling (Status Text Time Course countStatus countStatus_eq getElem?_statuses statuses
  status_awaitCommits)

/-! ## Submission -/

theorem status_submitOne (amount seq : ℕ) (sent : Time × SendReply) :
    (submitOne amount seq sent).status = .submitted ∨ (submitOne amount seq sent).status = .failed := by
  unfold submitOne
  cases sent.2 with
  | hash txHash => exact .inl rfl
  | raised message => exact .inr rfl

/-! ## The legs -/

/-- The forward leg. -/
theorem status_recvOne {p q : Packet} {o : RecvOutcome} (h : recvOne p o = .ok q) :
    q.status = .credited ∨ q.status = .failed := by
  cases o with
  | ok now file =>
      obtain rfl := Except.ok.inj h
      exact .inl (status_readCost file _)
  | exited output =>
      obtain rfl := Except.ok.inj h
      exact .inr rfl
  | timedOut => cases h

theorem status_ackOne {w : ℕ} {p q : Packet} {o : AckOutcome} (h : ackOne w p o = .ok q) :
    q.status = .acked ∨ q.status = p.status := by
  cases o with
  | ok now gas =>
      obtain rfl := Except.ok.inj h
      exact .inl (status_acked gas now w p)
  | exited output =>
      obtain rfl := Except.ok.inj h
      exact .inr rfl
  | timedOut => cases h

/-- Every packet that a loop leaves comes from the one at its place. -/
theorem exists_of_each {body : ℕ → Packet → Except Raised Packet} {packets left : List Packet}
    (h : each body 0 packets = .ok left) {i : ℕ} {q : Packet} (hq : left[i]? = some q) :
    ∃ p, packets[i]? = some p ∧ body i p = .ok q := by
  obtain ⟨hlength, hplaces⟩ := each_eq_ok_iff.mp h
  obtain ⟨hi, -⟩ := List.getElem?_eq_some_iff.mp hq
  rw [hlength] at hi
  have hp : packets[i]? = some packets[i] := List.getElem?_eq_getElem hi
  obtain ⟨q', hq', hbody⟩ := hplaces i _ hp
  obtain rfl : q' = q := Option.some.inj (hq'.symm.trans hq)
  rw [Nat.zero_add] at hbody
  exact ⟨_, hp, hbody⟩

/-- One window of the return leg. -/
theorem status_ackBody {outcomes : ℕ → AckOutcome} {w : ℕ} {packets next : List Packet}
    (h : each (ackBody outcomes w) 0 packets = .ok next) {i : ℕ} {q : Packet} (hq : next[i]? = some q) :
    ∃ p, packets[i]? = some p ∧ (q.status = p.status ∨ (p.status = .credited ∧ q.status = .acked)) := by
  obtain ⟨p, hp, hbody⟩ := exists_of_each h hq
  refine ⟨p, hp, ?_⟩
  unfold ackBody at hbody
  split at hbody
  · next hcredited =>
      rcases status_ackOne hbody with hacked | hsame
      · exact .inr ⟨hcredited, hacked⟩
      · exact .inl hsame
  · obtain rfl := Except.ok.inj hbody
    exact .inl rfl

/-- The return leg, window by window: a credited packet may be acked, and nothing else happens. -/
theorem status_ackWindows {ack : ℕ → ℕ → AckOutcome} {left w : ℕ} {packets : List Packet}
    {windows : List (List Packet)} (h : ackWindows ack left w packets = .ok windows) :
    ∀ stage ∈ windows, ∀ (i : ℕ) (q : Packet), stage[i]? = some q →
      ∃ p, packets[i]? = some p ∧ (q.status = p.status ∨ (p.status = .credited ∧ q.status = .acked)) := by
  induction left generalizing w packets windows with
  | zero =>
      obtain rfl : [] = windows := Except.ok.inj h
      intro stage hstage
      cases hstage
  | succ left ih =>
      rw [ackWindows] at h
      split at h
      · obtain ⟨next, hnext, hrest⟩ := except_bind_eq_ok h
        obtain ⟨rest, hwindows, heq⟩ := except_bind_eq_ok hrest
        obtain rfl := Except.ok.inj heq
        intro stage hstage i q hq
        rcases List.mem_cons.mp hstage with rfl | hlater
        · exact status_ackBody hnext hq
        · obtain ⟨m, hm, hmq⟩ := ih hwindows stage hlater i q hq
          obtain ⟨p, hp, hpm⟩ := status_ackBody hnext hm
          refine ⟨p, hp, ?_⟩
          rcases hpm with hsame | ⟨hcredited, hacked⟩
          · rw [hsame] at hmq
            exact hmq
          · rcases hmq with hsame | ⟨hcredited', -⟩
            · exact .inr ⟨hcredited, hsame.trans hacked⟩
            · rw [hacked] at hcredited'
              cases hcredited'
      · obtain rfl : [] = windows := Except.ok.inj h
        intro stage hstage
        cases hstage

/-! ## The counters -/

/-- The statuses at the stages of a run. -/
def RunInput.stages (x : RunInput) (r : Relayed) : List (List Status) :=
  statuses x.sent :: statuses x.awaited :: statuses r.forward :: r.windows.map statuses

/-- What the two legs make of the packet at a place. -/
theorem relayed_legs {x : RunInput} {r : Relayed} (hr : x.relayed = .ok r) :
    (∀ (i : ℕ) (q : Packet), r.forward[i]? = some q → ∃ p, x.awaited[i]? = some p ∧
      (q.status = p.status ∨ (p.status = .committed ∧ (q.status = .credited ∨ q.status = .failed)))) ∧
    ∀ stage ∈ r.windows, ∀ (i : ℕ) (q : Packet), stage[i]? = some q → ∃ p, r.forward[i]? = some p ∧
      (q.status = p.status ∨ (p.status = .credited ∧ q.status = .acked)) := by
  unfold RunInput.relayed relayAndObserve at hr
  split at hr
  · obtain ⟨forward, hforward, hrest⟩ := except_bind_eq_ok hr
    obtain ⟨windows, hwindows, heq⟩ := except_bind_eq_ok hrest
    obtain rfl := Except.ok.inj heq
    refine ⟨fun i q hq => ?_, status_ackWindows hwindows⟩
    obtain ⟨p, hp, hbody⟩ := exists_of_each hforward hq
    refine ⟨p, hp, ?_⟩
    unfold recvBody at hbody
    split at hbody
    · next hcommitted => exact .inr ⟨hcommitted, status_recvOne hbody⟩
    · obtain rfl := Except.ok.inj hbody
      exact .inl rfl
  · obtain rfl := Except.ok.inj hr
    refine ⟨fun i q hq => ⟨q, hq, .inl rfl⟩, fun stage hstage => ?_⟩
    cases hstage

theorem relayed_course {x : RunInput} {r : Relayed} (hr : x.relayed = .ok r) :
    Course (statuses x.sent) (statuses x.awaited) (statuses r.forward) (r.windows.map statuses) := by
  have hsent : ∀ p ∈ x.sent, p.status = .submitted ∨ p.status = .failed := by
    intro p hp
    obtain ⟨i, -, rfl⟩ := List.mem_map.mp hp
    exact status_submitOne x.amount i (x.send i)
  have hawaited : ∀ p ∈ x.awaited, p.status = .committed ∨ p.status = .failed :=
    status_awaitCommits x.polls fun p hp => (hsent p hp).imp_right .inr
  obtain ⟨hforward, hwindows⟩ := relayed_legs hr
  refine Course.of_places hsent hawaited hforward ?_
  intro stage hstage
  obtain ⟨packets, hpackets, rfl⟩ := List.mem_map.mp hstage
  refine ⟨packets, rfl, fun i q hq => ?_⟩
  obtain ⟨p, hp, hmoved⟩ := hwindows packets hpackets i q hq
  exact ⟨p, hp, hmoved.imp_right fun hacked => ⟨hacked.1, .inl hacked.2⟩⟩

theorem packets_mem (r : Relayed) : statuses r.packets ∈ statuses r.forward :: r.windows.map statuses := by
  have hmem : r.packets ∈ r.forward :: r.windows := List.getLastD_mem_cons
  rcases List.mem_cons.mp hmem with heq | hwindow
  · rw [heq]
    exact List.mem_cons_self
  · exact List.mem_cons_of_mem _ (List.mem_map_of_mem hwindow)

def RecvOutcome.failedExit : RecvOutcome → Bool
  | .exited _ => true
  | _ => false

theorem ackedBy_ne_failed (acks : ℕ → AckOutcome) (n : ℕ) : ackedBy acks n ≠ .failed := by
  unfold ackedBy
  split <;> exact fun heq => by cases heq

/-- A committed packet fails just if its relay command exits with an error. -/
theorem failed_iff {x : RunInput} {r : Relayed} (hr : x.relayed = .ok r) {i : ℕ} {p : Packet}
    (hp : x.awaited[i]? = some p) (hcommitted : p.status = .committed) :
    (statuses r.packets)[i]? = some .failed ↔
      x.configured = true ∧ (x.commands.recv i).failedExit = true := by
  unfold RunInput.relayed at hr
  cases hconfigured : x.configured with
  | false =>
      rw [hconfigured] at hr
      obtain rfl := Except.ok.inj hr
      refine iff_of_false (fun hfailed => ?_) (fun hfalse => by cases hfalse.1)
      obtain ⟨p', hp', hfailed'⟩ := getElem?_statuses.mp hfailed
      obtain rfl : p = p' := Option.some.inj (hp.symm.trans hp')
      exact nomatch hcommitted.symm.trans hfailed'
  | true =>
      rw [hconfigured] at hr
      obtain ⟨q, hq, hrelay⟩ := (relayAndObserve_ok hr).2 i p hp
      have hstatus := relayPacket_status hrelay
      have hplace : (statuses r.packets)[i]? = some q.status := getElem?_statuses.mpr ⟨q, hq, rfl⟩
      rw [hplace, Option.some.injEq, hstatus, hcommitted]
      have hrecv := (relayPacket_ok_iff _ _ p).mp ⟨q, hrelay⟩
      cases hout : x.commands.recv i with
      | ok now file =>
          exact iff_of_false (ackedBy_ne_failed _ _) (fun hfalse => by cases hfalse.2)
      | exited output => exact iff_of_true rfl ⟨rfl, rfl⟩
      | timedOut => exact absurd hout (hrecv.1 hcommitted)

/-- The counters of a run that returns. -/
theorem throughput_counters {x : RunInput} {r : Relayed} (hr : x.relayed = .ok r) :
    ((runResult x.burstN r).committed = everCount (x.stages r) (runResult x.burstN r).offered .committed ∧
      (runResult x.burstN r).credited = everCount (x.stages r) (runResult x.burstN r).offered .credited) ↔
      (x.configured = true → ∀ (i : ℕ) (p : Packet), x.awaited[i]? = some p → p.status = .committed →
        (x.commands.recv i).failedExit = false) := by
  have hlength : (statuses r.packets).length = r.packets.length := List.length_map _
  have hcounted := (relayed_course hr).counted_iff (packets_mem r)
  rw [hlength, ← countStatus_eq, ← countStatus_eq] at hcounted
  show (countStatus r.packets _ = _ ∧ countStatus r.packets _ = _) ↔ _
  refine hcounted.trans ⟨?_, ?_⟩
  · intro hnone hconfigured i p hp hcommitted
    have hnot := hnone i (getElem?_statuses.mpr ⟨p, hp, hcommitted⟩)
    rw [← Bool.not_eq_true]
    intro hexit
    exact hnot ((failed_iff hr hp hcommitted).mpr ⟨hconfigured, hexit⟩)
  · intro hexits i hi hfailed
    obtain ⟨p, hp, hcommitted⟩ := getElem?_statuses.mp hi
    obtain ⟨hconfigured, hexit⟩ := (failed_iff hr hp hcommitted).mp hfailed
    rw [hexits hconfigured i p hp hcommitted] at hexit
    cases hexit

end PqcMigration.Throughput
