/-
# PqcMigration.BatchScaling.AckPool — the return leg: `ack_group_pooled` of `ack_pool.py`.

In each window the credited packets are dealt to the accounts of the pool in contiguous shares
(`Lib.Shares`); every account acks its share one packet after another, and the accounts run side by
side. An ack command succeeds, fails or times out; only success changes a packet's status. Windows are
opened until none is credited or `max_windows` have been used.

`ACK_CMD` is configured and the beacon answers: without them there is no window. The lock of the
workers guards counters that only the log and the checkpoint cadence read; checkpoints are in
`Checkpoint` and `CheckpointOrder`.

`ack_windows` is the contract, over every interleaving and every outcome.
-/
import Mathlib.Algebra.BigOperators.Ring.Finset
import PqcMigration.BatchScaling.Packet
import PqcMigration.Lib.Run
import PqcMigration.Lib.Shares
import PqcMigration.Lib.Threads

namespace PqcMigration.BatchScaling

open Lib

/-! ## `resolve_pool` of `setup_pool.py` -/

/-- `pool_key_name` -/
def poolKeyName (i : ℕ) : Text := "loadgen-pool-".toList ++ digits i

/-- The accounts of a pool; `loadgenKey` and `relayerKey` are `LOADGEN_KEY` and `RELAYER_KEY`. -/
def resolvePool (loadgenKey : Option Text) (relayerKey : Text) (keyExists : Text → Bool)
    (poolSize : ℕ) : Except (List Text) (List Text) :=
  if poolSize ≤ 1 then .ok [((loadgenKey.filter fun k => !k.isEmpty).getD relayerKey)]
  else
    let names := (List.range poolSize).map poolKeyName
    let missing := names.filter fun n => !keyExists n
    if missing ≠ [] then .error missing else .ok names

/-- A pool as `resolve_pool` returns them: at least one account, and none twice. -/
structure AckPool where
  keys : List Text
  nonempty : keys ≠ []
  nodup : keys.Nodup

theorem poolKeyName_injective : Function.Injective poolKeyName := by
  intro i j h
  have hdigits : Nat.toDigits 10 i = Nat.toDigits 10 j := List.append_cancel_left h
  have hi : Nat.ofDigitChars 10 (Nat.toDigits 10 i) 0 = i := Nat.ofDigitChars_ten_toDigits
  rw [hdigits, Nat.ofDigitChars_ten_toDigits] at hi
  exact hi.symm

theorem resolvePool_pool {loadgenKey : Option Text} {relayerKey : Text} {keyExists : Text → Bool}
    {poolSize : ℕ} {keys : List Text}
    (h : resolvePool loadgenKey relayerKey keyExists poolSize = .ok keys) :
    ∃ pool : AckPool, pool.keys = keys := by
  rw [resolvePool] at h
  split at h
  · obtain rfl := Except.ok.inj h
    exact ⟨⟨_, List.cons_ne_nil _ _, List.nodup_singleton _⟩, rfl⟩
  · next hsize =>
      simp only at h
      split at h
      · cases h
      · obtain rfl := Except.ok.inj h
        refine ⟨⟨_, ?_, (List.nodup_map_iff poolKeyName_injective).mpr List.nodup_range⟩, rfl⟩
        simp only [ne_eq, List.map_eq_nil_iff, List.range_eq_nil]
        omega

/-! ## `ack_one` -/

/-- How an ack command ends: with the gas values its stdout has, with an exit status, or not at all. -/
inductive AckOutcome where
  | ok (gas : List ℕ)
  /-- `(e.stderr or e.stdout) or ""` -/
  | failed (output : Text)
  | timedOut
  deriving DecidableEq

def ackOne (windowId : Int) (now : Time) (p : Packet) : AckOutcome → Packet
  | .ok gas =>
      let p := { p with ackTs := now, windowId := windowId, status := .acked }
      match gas with
      | [] => p
      | [ack] => { p with ackGas := ack }
      | update :: ack :: rest =>
          { p with
            updateClientGasReturnLeg := update
            ackGas := (ack :: rest).getLast (List.cons_ne_nil _ _) }
  | .failed output => { p with error := output.drop (output.length - 300) }
  | .timedOut => { p with error := "step-ack.js timed out".toList }

theorem ackOne_status (windowId : Int) (now : Time) (p : Packet) (o : AckOutcome) :
    (ackOne windowId now p o).status = .acked ∨ (ackOne windowId now p o).status = p.status := by
  cases o with
  | ok gas =>
      left
      match gas with
      | [] => rfl
      | [_] => rfl
      | _ :: _ :: _ => rfl
  | failed output =>
      right
      simp only [ackOne]
  | timedOut =>
      right
      simp only [ackOne]

/-! ## Windows -/

/-- `[p for p in packets if p.status == "credited"]`, by index. -/
def outstandingOf (packets : List Packet) : List ℕ :=
  (List.range packets.length).filter fun k => packets[k]?.map Packet.status = some .credited

/-- Where a worker stands: how many packets of its share it is done with, and whether the command for
the next one is running. -/
inductive AckPc where
  | waiting (done : ℕ)
  | acking (done : ℕ)
  deriving DecidableEq

inductive AckPhase (W : ℕ) where
  /-- at the head of the loop over the windows -/
  | head
  /-- in a window with these packets outstanding -/
  | acking (outstanding : List ℕ) (pc : Fin W → AckPc)
  | returned

structure AckState (W : ℕ) where
  packets : List Packet
  windows : ℕ
  phase : AckPhase W

inductive AckEvent (W : ℕ) where
  | openWindow
  /-- worker `i` starts the command for packet `k` -/
  | begin (i : Fin W) (k : ℕ)
  | ended (i : Fin W) (k : ℕ) (o : AckOutcome) (now : Time)
  | closeWindow
  | ret

variable {W : ℕ}

/-- The packet worker `i` comes to after `done` others. -/
def packetAt (outstanding : List ℕ) (i : Fin W) (done : ℕ) : Option ℕ :=
  outstanding[shareStart outstanding.length W i + done]?

def ackStep (maxWindows : ℕ) (s : AckState W) : AckEvent W → Option (AckState W)
  | .openWindow =>
      match s.phase with
      | .head =>
          if s.windows < maxWindows ∧ outstandingOf s.packets ≠ [] then
            some { s with
              windows := s.windows + 1
              phase := .acking (outstandingOf s.packets) fun _ => .waiting 0 }
          else none
      | _ => none
  | .begin i k =>
      match s.phase with
      | .acking out pc =>
          match pc i with
          | .waiting done =>
              if done < share out.length W i ∧ packetAt out i done = some k then
                some { s with phase := .acking out (Function.update pc i (.acking done)) }
              else none
          | .acking _ => none
      | _ => none
  | .ended i k o now =>
      match s.phase with
      | .acking out pc =>
          match pc i with
          | .waiting _ => none
          | .acking done =>
              if packetAt out i done = some k then
                -- the window's number is the count of those opened before it
                some { s with
                  packets := s.packets.modify k fun p => ackOne (s.windows - 1) now p o
                  phase := .acking out (Function.update pc i (.waiting (done + 1))) }
              else none
      | _ => none
  | .closeWindow =>
      match s.phase with
      | .acking out pc =>
          if ∀ i : Fin W, pc i = .waiting (share out.length W i) then some { s with phase := .head }
          else none
      | _ => none
  | .ret =>
      match s.phase with
      | .head =>
          if maxWindows ≤ s.windows ∨ outstandingOf s.packets = [] then
            some { s with phase := .returned }
          else none
      | _ => none

def ackStart (W : ℕ) (packets : List Packet) : AckState W := ⟨packets, 0, .head⟩

section

variable {maxWindows : ℕ} {s t : AckState W} {e : AckEvent W}

/-- Everything a step can do. -/
theorem ackStep_cases (h : ackStep maxWindows s e = some t) :
    (e = .openWindow ∧ s.phase = .head ∧ s.windows < maxWindows ∧ outstandingOf s.packets ≠ [] ∧
      t = ⟨s.packets, s.windows + 1, .acking (outstandingOf s.packets) fun _ => .waiting 0⟩) ∨
    (∃ i k out pc done, e = .begin i k ∧ s.phase = .acking out pc ∧ pc i = .waiting done ∧
      done < share out.length W i ∧ packetAt out i done = some k ∧
      t = ⟨s.packets, s.windows, .acking out (Function.update pc i (.acking done))⟩) ∨
    (∃ i k o now out pc done, e = .ended i k o now ∧ s.phase = .acking out pc ∧
      pc i = .acking done ∧ packetAt out i done = some k ∧
      t = ⟨s.packets.modify k fun p => ackOne (s.windows - 1) now p o, s.windows,
        .acking out (Function.update pc i (.waiting (done + 1)))⟩) ∨
    (∃ out pc, e = .closeWindow ∧ s.phase = .acking out pc ∧
      (∀ i : Fin W, pc i = .waiting (share out.length W i)) ∧ t = ⟨s.packets, s.windows, .head⟩) ∨
    (e = .ret ∧ s.phase = .head ∧ (maxWindows ≤ s.windows ∨ outstandingOf s.packets = []) ∧
      t = ⟨s.packets, s.windows, .returned⟩) := by
  cases e with
  | openWindow =>
      simp only [ackStep] at h
      split at h
      · next hphase =>
          split at h
          · next hguard => exact Or.inl ⟨rfl, hphase, hguard.1, hguard.2, (Option.some.inj h).symm⟩
          · cases h
      · cases h
  | begin i k =>
      simp only [ackStep] at h
      split at h
      · next out pc hphase =>
          split at h
          · next done hpc =>
              split at h
              · next hguard =>
                  exact Or.inr (Or.inl ⟨i, k, out, pc, done, rfl, hphase, hpc, hguard.1, hguard.2,
                    (Option.some.inj h).symm⟩)
              · cases h
          · cases h
      · cases h
  | ended i k o now =>
      simp only [ackStep] at h
      split at h
      · next out pc hphase =>
          split at h
          · cases h
          · next done hpc =>
              split at h
              · next hk =>
                  exact Or.inr (Or.inr (Or.inl ⟨i, k, o, now, out, pc, done, rfl, hphase, hpc, hk,
                    (Option.some.inj h).symm⟩))
              · cases h
      · cases h
  | closeWindow =>
      simp only [ackStep] at h
      split at h
      · next out pc hphase =>
          split at h
          · next hall =>
              exact Or.inr (Or.inr (Or.inr (Or.inl ⟨out, pc, rfl, hphase, hall,
                (Option.some.inj h).symm⟩)))
          · cases h
      · cases h
  | ret =>
      simp only [ackStep] at h
      split at h
      · next hphase =>
          split at h
          · next hguard =>
              exact Or.inr (Or.inr (Or.inr (Or.inr ⟨rfl, hphase, hguard,
                (Option.some.inj h).symm⟩)))
          · cases h
      · cases h

end

/-! ## Outstanding packets -/

theorem mem_outstandingOf {packets : List Packet} {k : ℕ} :
    k ∈ outstandingOf packets ↔ ∃ p, packets[k]? = some p ∧ p.status = .credited := by
  rw [outstandingOf, List.mem_filter, List.mem_range, decide_eq_true_eq, Option.map_eq_some_iff]
  constructor
  · rintro ⟨-, hp⟩
    exact hp
  · rintro ⟨p, hp, hstatus⟩
    obtain ⟨hlt, -⟩ := List.getElem?_eq_some_iff.mp hp
    exact ⟨hlt, p, hp, hstatus⟩

theorem nodup_outstandingOf (packets : List Packet) : (outstandingOf packets).Nodup :=
  List.nodup_range.filter _

theorem length_outstandingOf_le (packets : List Packet) :
    (outstandingOf packets).length ≤ packets.length := by
  have h := List.length_filter_le
    (fun k => decide (packets[k]?.map Packet.status = some .credited)) (List.range packets.length)
  rwa [List.length_range] at h

/-- How far a worker has got with its share. -/
def AckPc.done : AckPc → ℕ
  | .waiting d => d
  | .acking d => d

/-- In a window: the packets a worker has not come to are still credited, and no worker goes past its
share. -/
structure WindowInv (packets : List Packet) (out : List ℕ) (pc : Fin W → AckPc) : Prop where
  nodup : out.Nodup
  credited : ∀ i j k, (pc i).done ≤ j → j < share out.length W i → packetAt out i j = some k →
    ∃ p, packets[k]? = some p ∧ p.status = .credited
  within : ∀ i, (pc i).done ≤ share out.length W i
  busy : ∀ i d, pc i = .acking d → d < share out.length W i

theorem windowInv_open (packets : List Packet) :
    WindowInv packets (outstandingOf packets) fun _ : Fin W => .waiting 0 where
  nodup := nodup_outstandingOf packets
  credited i j k _ _ hk := mem_outstandingOf.mp (List.mem_of_getElem? hk)
  within _ := Nat.zero_le _
  busy := by simp

section

variable {packets : List Packet} {out : List ℕ} {pc : Fin W → AckPc} {i : Fin W} {k done : ℕ}

theorem WindowInv.begin (h : WindowInv packets out pc) (hpc : pc i = .waiting done)
    (hdone : done < share out.length W i) :
    WindowInv packets out (Function.update pc i (.acking done)) := by
  -- to start a command completes nothing
  have hsame : ∀ i', (Function.update pc i (.acking done) i').done = (pc i').done := by
    intro i'
    by_cases hi : i' = i
    · subst hi
      rw [Function.update_self, hpc]
      rfl
    · rw [Function.update_of_ne hi]
  refine { nodup := h.nodup, credited := ?_, within := ?_, busy := ?_ }
  · intro i' j k' hj
    rw [hsame] at hj
    exact h.credited i' j k' hj
  · intro i'
    rw [hsame]
    exact h.within i'
  · intro i' d hd
    rcases of_update (Q := fun p => p = AckPc.acking d) hd with ⟨rfl, hmoved⟩ | ⟨-, hold⟩
    · obtain rfl := AckPc.acking.inj hmoved
      exact hdone
    · exact h.busy i' d hold

/-- Two places of the outstanding list that hold one packet are the same place of the same share. -/
theorem WindowInv.place_unique (h : WindowInv packets out pc) {i' : Fin W} {j j' : ℕ}
    (hj : j < share out.length W i) (hj' : j' < share out.length W i') (hk : packetAt out i j = some k)
    (hk' : packetAt out i' j' = some k) : i = i' ∧ j = j' := by
  obtain ⟨hlt, -⟩ := List.getElem?_eq_some_iff.mp hk
  have hplace := (List.getElem?_inj hlt h.nodup).mp (hk.trans hk'.symm)
  obtain ⟨hi, hjj⟩ := share_unique hj hj' hplace
  exact ⟨Fin.ext hi, hjj⟩

theorem WindowInv.ended (h : WindowInv packets out pc) (hpc : pc i = .acking done)
    (hk : packetAt out i done = some k) (f : Packet → Packet) :
    WindowInv (packets.modify k f) out (Function.update pc i (.waiting (done + 1))) := by
  have hdone : done < share out.length W i := h.busy i done hpc
  refine { nodup := h.nodup, credited := ?_, within := ?_, busy := ?_ }
  · -- what is still to be acked lies in other places than `done` of share `i`, so the packet
    -- modified is none of it
    intro i' j k' hj hlt hk'
    have hbefore : (pc i').done ≤ j ∧ ¬ (i' = i ∧ j = done) := by
      by_cases hi : i' = i
      · subst hi
        rw [Function.update_self] at hj
        have hj' : done + 1 ≤ j := hj
        refine ⟨?_, by omega⟩
        rw [hpc]
        show done ≤ j
        omega
      · rw [Function.update_of_ne hi] at hj
        exact ⟨hj, fun hboth => hi hboth.1⟩
    have hne : k ≠ k' := by
      rintro rfl
      obtain ⟨hi, hjd⟩ := h.place_unique hlt hdone hk' hk
      exact hbefore.2 ⟨hi, hjd⟩
    rw [List.getElem?_modify_ne _ _ hne]
    exact h.credited i' j k' hbefore.1 hlt hk'
  · intro i'
    by_cases hi : i' = i
    · subst hi
      rw [Function.update_self]
      exact hdone
    · rw [Function.update_of_ne hi]
      exact h.within i'
  · intro i' d hd
    obtain ⟨-, hold⟩ := of_update_of_not (Q := fun p => p = AckPc.acking d) (by simp) hd
    exact h.busy i' d hold

end

/-! ## Every reachable state -/

structure AckInv (maxWindows : ℕ) (s : AckState W) : Prop where
  windows : s.windows ≤ maxWindows
  window : ∀ out pc, s.phase = .acking out pc → WindowInv s.packets out pc
  returned : s.phase = .returned → maxWindows ≤ s.windows ∨ outstandingOf s.packets = []

section

variable {maxWindows : ℕ} {s t : AckState W} {e : AckEvent W}

theorem ackInv_start (packets : List Packet) : AckInv maxWindows (ackStart W packets) :=
  ⟨Nat.zero_le _, by simp [ackStart], by simp [ackStart]⟩

theorem AckInv.step (h : AckInv maxWindows s) (hstep : ackStep maxWindows s e = some t) :
    AckInv maxWindows t := by
  obtain ⟨rfl, hphase, hlt, hne, rfl⟩ | ⟨i, k, out, pc, done, rfl, hphase, hpc, hdone, hk, rfl⟩ |
    ⟨i, k, o, now, out, pc, done, rfl, hphase, hpc, hk, rfl⟩ | ⟨out, pc, rfl, hphase, hall, rfl⟩ |
    ⟨rfl, hphase, hend, rfl⟩ := ackStep_cases hstep
  · refine ⟨hlt, ?_, by simp⟩
    rintro out pc hacking
    obtain ⟨rfl, rfl⟩ := AckPhase.acking.inj hacking
    exact windowInv_open s.packets
  · refine ⟨h.windows, ?_, by simp⟩
    rintro out' pc' hacking
    obtain ⟨rfl, rfl⟩ := AckPhase.acking.inj hacking
    exact (h.window _ _ hphase).begin hpc hdone
  · refine ⟨h.windows, ?_, by simp⟩
    rintro out' pc' hacking
    obtain ⟨rfl, rfl⟩ := AckPhase.acking.inj hacking
    exact (h.window _ _ hphase).ended hpc hk _
  · exact ⟨h.windows, by simp, by simp⟩
  · exact ⟨h.windows, by simp, fun _ => hend⟩

/-- **Every reachable state keeps the invariant.** -/
theorem ackInv_run {packets : List Packet} {evs : List (AckEvent W)}
    (hrun : run (ackStep maxWindows) (ackStart W packets) evs = some s) : AckInv maxWindows s :=
  run_invariant (fun _ _ _ hs hstep => hs.step hstep) (ackInv_start packets) hrun

/-- What happens to packets: a credited one may be acked, any other stays as it is. -/
def Moved (before after : List Packet) : Prop :=
  after.length = before.length ∧ ∀ (k : ℕ) (p : Packet), before[k]? = some p → ∃ q, after[k]? = some q ∧
    (p.status ≠ .credited → q = p) ∧
    (q.status = p.status ∨ (p.status = .credited ∧ q.status = .acked))

theorem Moved.refl (packets : List Packet) : Moved packets packets :=
  ⟨rfl, fun _ p hp => ⟨p, hp, fun _ => rfl, Or.inl rfl⟩⟩

theorem Moved.trans {a b c : List Packet} (hab : Moved a b) (hbc : Moved b c) : Moved a c := by
  refine ⟨hbc.1.trans hab.1, ?_⟩
  intro k p hp
  obtain ⟨q, hq, hqsame, hqstatus⟩ := hab.2 k p hp
  obtain ⟨r, hr, hrsame, hrstatus⟩ := hbc.2 k q hq
  refine ⟨r, hr, ?_, ?_⟩
  · intro hp'
    obtain rfl := hqsame hp'
    exact hrsame hp'
  · rcases hqstatus with hq' | ⟨hp', hq'⟩
    · rw [hq'] at hrstatus
      exact hrstatus
    · rw [hrsame (by rw [hq']; decide), hq']
      exact Or.inr ⟨hp', rfl⟩

/-- An attempt at a credited packet. -/
theorem moved_modify {packets : List Packet} {k : ℕ} {p : Packet} (hp : packets[k]? = some p)
    (hstatus : p.status = .credited) (windowId : Int) (now : Time) (o : AckOutcome) :
    Moved packets (packets.modify k fun p => ackOne windowId now p o) := by
  refine ⟨List.length_modify _ _ _, ?_⟩
  intro k' p' hp'
  by_cases hk : k = k'
  · subst hk
    obtain rfl : p = p' := Option.some.inj (hp.symm.trans hp')
    refine ⟨ackOne windowId now p o, ?_, fun hne => absurd hstatus hne, ?_⟩
    · rw [List.getElem?_modify_eq, hp]
      rfl
    · rcases ackOne_status windowId now p o with h | h
      · exact Or.inr ⟨hstatus, h⟩
      · exact Or.inl h
  · refine ⟨p', ?_, fun _ => rfl, Or.inl rfl⟩
    rw [List.getElem?_modify_ne _ _ hk]
    exact hp'

theorem AckInv.moved (h : AckInv maxWindows s) (hstep : ackStep maxWindows s e = some t) :
    Moved s.packets t.packets := by
  obtain ⟨rfl, hphase, hlt, hne, rfl⟩ | ⟨i, k, out, pc, done, rfl, hphase, hpc, hdone, hk, rfl⟩ |
    ⟨i, k, o, now, out, pc, done, rfl, hphase, hpc, hk, rfl⟩ | ⟨out, pc, rfl, hphase, hall, rfl⟩ |
    ⟨rfl, hphase, hend, rfl⟩ := ackStep_cases hstep
  · exact Moved.refl _
  · exact Moved.refl _
  · have hwindow := h.window out pc hphase
    obtain ⟨p, hp, hstatus⟩ := hwindow.credited i done k (by rw [hpc]; exact Nat.le_refl _)
      (hwindow.busy i done hpc) hk
    exact moved_modify hp hstatus _ _ _
  · exact Moved.refl _
  · exact Moved.refl _

/-- An ack command is started for credited packets only. -/
theorem AckInv.begin_credited (h : AckInv maxWindows s) {i : Fin W} {k : ℕ}
    (hstep : ackStep maxWindows s (.begin i k) = some t) :
    ∃ p, s.packets[k]? = some p ∧ p.status = .credited := by
  obtain ⟨⟨⟩, -⟩ | ⟨i', k', out, pc, done, he, hphase, hpc, hdone, hk, rfl⟩ |
    ⟨_, _, _, _, _, _, _, ⟨⟩, -⟩ | ⟨_, _, ⟨⟩, -⟩ | ⟨⟨⟩, -⟩ := ackStep_cases hstep
  obtain ⟨rfl, rfl⟩ := AckEvent.begin.inj he
  exact (h.window out pc hphase).credited i done k (by rw [hpc]; exact Nat.le_refl _) hdone hk

/-! ## Runs end -/

/-- How many labels a worker has before it in its window. -/
def AckPc.weight (share : ℕ) : AckPc → ℕ
  | .waiting d => 2 * (share - d)
  | .acking d => 2 * (share - d) - 1

/-- How many labels are left in a phase. -/
def AckPhase.weight : AckPhase W → ℕ
  | .head => 1
  | .acking out pc => 2 + ∑ i, (pc i).weight (share out.length W i)
  | .returned => 0

/-- A bound for the labels a run has before it. -/
def ackWork (maxWindows : ℕ) (s : AckState W) : ℕ :=
  (maxWindows - s.windows) * (2 * s.packets.length + 2) + s.phase.weight

theorem AckInv.work (hW : 0 < W) (h : AckInv maxWindows s)
    (hstep : ackStep maxWindows s e = some t) : ackWork maxWindows t + 1 ≤ ackWork maxWindows s := by
  obtain ⟨rfl, hphase, hlt, hne, rfl⟩ | ⟨i, k, out, pc, done, rfl, hphase, hpc, hdone, hk, rfl⟩ |
    ⟨i, k, o, now, out, pc, done, rfl, hphase, hpc, hk, rfl⟩ | ⟨out, pc, rfl, hphase, hall, rfl⟩ |
    ⟨rfl, hphase, hend, rfl⟩ := ackStep_cases hstep
  · -- a window is paid for by the one fewer that is left: two labels for each outstanding packet,
    -- and two to close it and to come back
    have hlen := length_outstandingOf_le s.packets
    have hsum : ∑ i : Fin W, (AckPc.waiting 0).weight (share (outstandingOf s.packets).length W i) =
        2 * (outstandingOf s.packets).length := by
      calc ∑ i : Fin W, (AckPc.waiting 0).weight (share (outstandingOf s.packets).length W i)
          = ∑ i : Fin W, 2 * share (outstandingOf s.packets).length W i := rfl
        _ = 2 * ∑ i : Fin W, share (outstandingOf s.packets).length W i := (Finset.mul_sum _ _ _).symm
        _ = 2 * (outstandingOf s.packets).length := by rw [sum_share hW]
    have hmul : (maxWindows - s.windows) * (2 * s.packets.length + 2) =
        (maxWindows - (s.windows + 1)) * (2 * s.packets.length + 2) + (2 * s.packets.length + 2) := by
      rw [← Nat.succ_mul]
      congr 1
      omega
    simp only [ackWork, hphase, AckPhase.weight, hsum, hmul]
    omega
  · have hsum := sum_update (fun i : Fin W => AckPc.weight (share out.length W i)) pc i (.acking done)
    rw [hpc] at hsum
    simp only [ackWork, hphase, AckPhase.weight]
    simp only [AckPc.weight] at hsum ⊢
    omega
  · have hdone := (h.window out pc hphase).busy i done hpc
    have hsum := sum_update (fun i : Fin W => AckPc.weight (share out.length W i)) pc i (.waiting (done + 1))
    rw [hpc] at hsum
    simp only [ackWork, hphase, AckPhase.weight, List.length_modify]
    simp only [AckPc.weight] at hsum ⊢
    omega
  · simp only [ackWork, hphase, AckPhase.weight]
    omega
  · simp only [ackWork, hphase, AckPhase.weight]
    omega

/-- A run that has not returned can go on. -/
theorem AckInv.exists_step (h : AckInv maxWindows s) (hnot : s.phase ≠ .returned) :
    ∃ e t, ackStep maxWindows s e = some t := by
  obtain ⟨packets, windows, phase⟩ := s
  cases phase with
  | returned => exact absurd rfl hnot
  | head =>
      by_cases hopen : windows < maxWindows ∧ outstandingOf packets ≠ []
      · exact ⟨.openWindow, _, if_pos hopen⟩
      · refine ⟨.ret, _, if_pos ?_⟩
        by_contra hret
        obtain ⟨hlt, hne⟩ := not_or.mp hret
        exact hopen ⟨Nat.lt_of_not_le hlt, hne⟩
  | acking out pc =>
      have hwindow := h.window out pc rfl
      by_cases hall : ∀ i : Fin W, pc i = .waiting (share out.length W i)
      · exact ⟨.closeWindow, _, if_pos hall⟩
      · -- some worker has not finished its share
        obtain ⟨i, hi⟩ := not_forall.mp hall
        have hplace : ∀ d, d < share out.length W i → ∃ k, packetAt out i d = some k := by
          intro d hd
          exact ⟨_, List.getElem?_eq_getElem (shareStart_add_lt i.isLt hd)⟩
        cases hpc : pc i with
        | waiting d =>
            have hd : d < share out.length W i := by
              have hle := hwindow.within i
              rw [hpc] at hle hi
              refine Nat.lt_of_le_of_ne hle ?_
              rintro rfl
              exact hi rfl
            obtain ⟨k, hk⟩ := hplace d hd
            exact ⟨.begin i k, _, by simp [ackStep, hpc, hd, hk]; rfl⟩
        | acking d =>
            -- any outcome will do; a command that hangs is ended by its timeout
            obtain ⟨k, hk⟩ := hplace d (hwindow.busy i d hpc)
            exact ⟨.ended i k .timedOut 0, _, by simp [ackStep, hpc, hk]; rfl⟩

/-! ## Who attempts what -/

/-- The packet an account attempts. -/
def AckEvent.attempt (i : Fin W) : AckEvent W → Option ℕ
  | .begin i' k => if i' = i then some k else none
  | _ => none

/-- The packets an account attempts, in order. -/
def attemptsBy (i : Fin W) (evs : List (AckEvent W)) : List ℕ := evs.filterMap (AckEvent.attempt i)

theorem attemptsBy_append (i : Fin W) (evs : List (AckEvent W)) (e : AckEvent W) :
    attemptsBy i (evs ++ [e]) = attemptsBy i evs ++ (e.attempt i).toList := by
  rw [attemptsBy, List.filterMap_append]
  cases he : e.attempt i <;> simp [attemptsBy, he]

/-- How many packets of its share a worker has started. -/
def AckPc.begun : AckPc → ℕ
  | .waiting d => d
  | .acking d => d + 1

/-- In a window each account has attempted its share in order, as far as it has got. -/
theorem attempts_of_run {u v : AckState W} {out : List ℕ} {mid : List (AckEvent W)}
    (hopen : u.phase = .acking out fun _ => .waiting 0)
    (hrun : run (ackStep maxWindows) u mid = some v) (hmid : ∀ e ∈ mid, e ≠ .closeWindow) :
    ∃ pc, v.phase = .acking out pc ∧
      ∀ i, attemptsBy i mid = (shareOf out W i).take (pc i).begun := by
  refine run_history (I := fun bs s => (∀ e ∈ bs, e ≠ .closeWindow) → ∃ pc,
    s.phase = .acking out pc ∧ ∀ i, attemptsBy i bs = (shareOf out W i).take (pc i).begun)
    ?_ (fun _ => ⟨_, hopen, fun i => rfl⟩) hrun hmid
  intro bs s e t hbs hstep hclose
  obtain ⟨pc, hphase, hattempts⟩ := hbs fun e' he' => hclose e' (List.mem_append_left _ he')
  obtain ⟨rfl, hhead, -⟩ | ⟨i, k, out', pc', done, rfl, hphase', hpc, hdone, hk, rfl⟩ |
    ⟨i, k, o, now, out', pc', done, rfl, hphase', hpc, hk, rfl⟩ | ⟨_, _, rfl, -⟩ |
    ⟨rfl, hhead, -⟩ := ackStep_cases hstep
  · rw [hphase] at hhead
    cases hhead
  · -- the worker that starts a command appends the next packet of its share
    obtain ⟨rfl, rfl⟩ := AckPhase.acking.inj (hphase.symm.trans hphase')
    refine ⟨_, rfl, ?_⟩
    intro i'
    rw [attemptsBy_append, hattempts i']
    by_cases hi : i' = i
    · subst hi
      have hnext : (shareOf out W i')[done]? = some k := by
        rw [shareOf, List.getElem?_take_of_lt hdone, List.getElem?_drop]
        exact hk
      rw [Function.update_self, hpc]
      show (shareOf out W i').take done ++ (if i' = i' then some k else none).toList =
        (shareOf out W i').take (done + 1)
      rw [if_pos rfl, List.take_add_one, hnext]
    · rw [Function.update_of_ne hi]
      show _ ++ (if i = i' then some k else none).toList = _
      rw [if_neg (Ne.symm hi)]
      exact List.append_nil _
  · -- a command that ends was counted when it began
    obtain ⟨rfl, rfl⟩ := AckPhase.acking.inj (hphase.symm.trans hphase')
    refine ⟨_, rfl, ?_⟩
    intro i'
    rw [attemptsBy_append, hattempts i']
    have hbegun : (Function.update pc i (.waiting (done + 1)) i').begun = (pc i').begun := by
      by_cases hi : i' = i
      · subst hi
        rw [Function.update_self, hpc]
        rfl
      · rw [Function.update_of_ne hi]
    rw [hbegun]
    exact List.append_nil _
  · exact absurd rfl (hclose .closeWindow (by simp))
  · rw [hphase] at hhead
    cases hhead

def AckEvent.isOpen : AckEvent W → Bool
  | .openWindow => true
  | _ => false

/-- `windows` counts the windows opened. -/
theorem windows_eq_countP {packets : List Packet} {evs : List (AckEvent W)}
    (hrun : run (ackStep maxWindows) (ackStart W packets) evs = some s) :
    evs.countP AckEvent.isOpen = s.windows := by
  refine run_history (I := fun bs s => bs.countP AckEvent.isOpen = s.windows) ?_ rfl hrun
  intro bs s e t hbs hstep
  rw [List.countP_append, hbs]
  obtain ⟨rfl, -, -, -, rfl⟩ | ⟨i, k, out, pc, done, rfl, -, -, -, -, rfl⟩ |
    ⟨i, k, o, now, out, pc, done, rfl, -, -, -, rfl⟩ | ⟨out, pc, rfl, -, -, rfl⟩ |
    ⟨rfl, -, -, rfl⟩ := ackStep_cases hstep <;> rfl

end

/-! ## Whole runs -/

section

variable {W maxWindows : ℕ} {packets : List Packet} {evs : List (AckEvent W)} {s : AckState W}

theorem outstandingOf_ne_nil_iff : outstandingOf packets ≠ [] ↔ ∃ p ∈ packets, p.status = .credited := by
  constructor
  · intro hne
    obtain ⟨k, hk⟩ := List.exists_mem_of_ne_nil _ hne
    obtain ⟨p, hp, hstatus⟩ := mem_outstandingOf.mp hk
    exact ⟨p, List.mem_of_getElem? hp, hstatus⟩
  · rintro ⟨p, hmem, hp⟩
    obtain ⟨k, hk⟩ := List.mem_iff_getElem?.mp hmem
    exact List.ne_nil_of_mem (mem_outstandingOf.mpr ⟨p, hk, hp⟩)

/-- Each label of a run uses up some of its work. -/
theorem length_add_ackWork (hW : 0 < W)
    (hrun : run (ackStep maxWindows) (ackStart W packets) evs = some s) :
    evs.length + ackWork maxWindows s ≤ maxWindows * (2 * packets.length + 2) + 1 := by
  refine (run_history (I := fun bs s => AckInv maxWindows s ∧ bs.length + ackWork maxWindows s ≤
    maxWindows * (2 * packets.length + 2) + 1) ?_ ⟨ackInv_start packets, ?_⟩ hrun).2
  · rintro bs u e t ⟨hu, hlen⟩ hstep
    have hwork := hu.work hW hstep
    refine ⟨hu.step hstep, ?_⟩
    rw [List.length_append, List.length_singleton]
    omega
  · simp [ackWork, ackStart, AckPhase.weight]

/-- What the statuses did in a stretch of a run. -/
theorem AckInv.moved_run {u : AckState W} (h : AckInv maxWindows u)
    (hrun : run (ackStep maxWindows) u evs = some s) : Moved u.packets s.packets :=
  run_rel (I := AckInv maxWindows) (R := fun a b => Moved a.packets b.packets) (fun _ => Moved.refl _)
    (fun _ _ _ => Moved.trans) (fun _ _ _ hs hstep => hs.step hstep) (fun _ _ _ hs hstep => hs.moved hstep) h hrun

theorem phase_of_openWindow {u v : AckState W} (hstep : ackStep maxWindows u .openWindow = some v) :
    v.phase = .acking (outstandingOf u.packets) fun _ => .waiting 0 := by
  obtain ⟨-, -, -, -, rfl⟩ | ⟨_, _, _, _, _, ⟨⟩, -⟩ | ⟨_, _, _, _, _, _, _, ⟨⟩, -⟩ |
    ⟨_, _, ⟨⟩, -⟩ | ⟨⟨⟩, -⟩ := ackStep_cases hstep
  rfl

theorem shares_of_closeWindow {u v : AckState W} {out : List ℕ} {pc : Fin W → AckPc}
    (hphase : u.phase = .acking out pc) (hstep : ackStep maxWindows u .closeWindow = some v)
    (i : Fin W) : pc i = .waiting (share out.length W i) := by
  obtain ⟨⟨⟩, -⟩ | ⟨_, _, _, _, _, ⟨⟩, -⟩ | ⟨_, _, _, _, _, _, _, ⟨⟩, -⟩ |
    ⟨out', pc', -, hacking, hall, -⟩ | ⟨⟨⟩, -⟩ := ackStep_cases hstep
  obtain ⟨rfl, rfl⟩ := AckPhase.acking.inj (hphase.symm.trans hacking)
  exact hall i

/-- In a window that is opened and closed each account attempts its share. -/
theorem attempts_of_window {u v : AckState W} {mid : List (AckEvent W)}
    (hrun : run (ackStep maxWindows) u (.openWindow :: (mid ++ [.closeWindow])) = some v)
    (hmid : ∀ e ∈ mid, e ≠ .closeWindow) (i : Fin W) :
    attemptsBy i mid = shareOf (outstandingOf u.packets) W i := by
  obtain ⟨opened, hopen, hrest⟩ := run_cons_eq_some.mp hrun
  obtain ⟨acked, hmidrun, hrest⟩ := run_append_eq_some.mp hrest
  obtain ⟨closed, hclose, -⟩ := run_cons_eq_some.mp hrest
  obtain ⟨pc, hphase, hattempts⟩ := attempts_of_run (phase_of_openWindow hopen) hmidrun hmid
  rw [hattempts i, shares_of_closeWindow hphase hclose i]
  apply List.take_of_length_le
  rw [shareOf, List.length_take]
  exact Nat.min_le_left _ _

/-- At the head of the loop with windows to spare. -/
theorem head_enabled (hhead : s.phase = .head) (hlt : s.windows < maxWindows) :
    ((∃ t, ackStep maxWindows s .ret = some t) ↔ outstandingOf s.packets = []) ∧
      ((∃ t, ackStep maxWindows s .openWindow = some t) ↔ outstandingOf s.packets ≠ []) := by
  constructor
  · simp [ackStep, hhead, Nat.not_le.mpr hlt]
  · simp [ackStep, hhead, hlt]

end

/-! ## The contract -/

/-- **Ack windows.** In every run, whatever the interleaving and the outcomes: a command is started for
credited packets only; no account has two in flight; between any two moments of the run a packet that
was not credited has not changed, and a status has only gone from credited to acked; at most
`maxWindows` windows are opened, and at the head of the loop with windows to spare the function
returns just if no credited packet is left. In every window that is closed each account has attempted
its share, in order, and the shares are the packets credited when it was opened, each in one place.
No run goes on for ever, and one that has not returned can go on. -/
theorem ack_windows (pool : AckPool) (packets : List Packet) (maxWindows : ℕ)
    (evs : List (AckEvent pool.keys.length)) (s : AckState pool.keys.length)
    (hrun : run (ackStep maxWindows) (ackStart _ packets) evs = some s) :
    (∀ i k u, Takes (ackStep maxWindows) (ackStart _ packets) evs (.begin i k) u →
      ∃ p, u.packets[k]? = some p ∧ p.status = .credited) ∧
    (∀ out pc i i' d d', s.phase = .acking out pc → pc i = .acking d → pc i' = .acking d' →
      pool.keys.get i = pool.keys.get i' → i = i' ∧ d = d') ∧
    (∀ u ∈ trail (ackStep maxWindows) (ackStart _ packets) evs, Moved u.packets s.packets) ∧
    evs.countP AckEvent.isOpen ≤ maxWindows ∧
    (s.phase = .head → evs.countP AckEvent.isOpen < maxWindows →
      ((∃ t, ackStep maxWindows s .ret = some t) ↔ ∀ p ∈ s.packets, p.status ≠ .credited) ∧
      ((∃ t, ackStep maxWindows s .openWindow = some t) ↔ ∃ p ∈ s.packets, p.status = .credited)) ∧
    (∀ pre mid post u, evs = pre ++ .openWindow :: (mid ++ .closeWindow :: post) →
      (∀ e ∈ mid, e ≠ .closeWindow) → run (ackStep maxWindows) (ackStart _ packets) pre = some u →
      (∀ i, attemptsBy i mid = shareOf (outstandingOf u.packets) pool.keys.length i) ∧
      (List.finRange pool.keys.length).flatMap (fun i => attemptsBy i mid) =
        outstandingOf u.packets ∧ (outstandingOf u.packets).Nodup) ∧
    evs.length ≤ maxWindows * (2 * packets.length + 2) + 1 ∧
    (s.phase ≠ .returned → ∃ e t, ackStep maxWindows s e = some t) := by
  have hW : 0 < pool.keys.length := List.length_pos_of_ne_nil pool.nonempty
  have hwindows := windows_eq_countP hrun
  have hinv := ackInv_run hrun
  refine ⟨?_, ?_, ?_, ?_, ?_, ?_, ?_, hinv.exists_step⟩
  · rintro i k u ⟨bs, cs, rfl, hleft⟩
    obtain ⟨u', hu', hright⟩ := run_append_eq_some.mp hrun
    obtain rfl : u = u' := Option.some.inj (hleft.symm.trans hu')
    obtain ⟨v, hstep, -⟩ := run_cons_eq_some.mp hright
    exact (ackInv_run hleft).begin_credited hstep
  · -- one account has one worker, and a worker is in one place
    intro out pc i i' d d' _ hi hi' hkey
    obtain rfl : i = i' := List.nodup_iff_injective_get.mp pool.nodup hkey
    exact ⟨rfl, AckPc.acking.inj (hi.symm.trans hi')⟩
  · intro u hu
    obtain ⟨bs, cs, rfl, hleft, hright⟩ := (mem_trail_iff hrun).mp hu
    exact (ackInv_run hleft).moved_run hright
  · rw [hwindows]
    exact hinv.windows
  · intro hhead hlt
    rw [hwindows] at hlt
    obtain ⟨hret, hopen⟩ := head_enabled hhead hlt
    refine ⟨?_, by rw [hopen, outstandingOf_ne_nil_iff]⟩
    rw [hret, ← not_ne_iff, outstandingOf_ne_nil_iff]
    simp
  · rintro pre mid post u rfl hmid hpre
    obtain ⟨u', hu', hrest⟩ := run_append_eq_some.mp hrun
    obtain rfl : u = u' := Option.some.inj (hpre.symm.trans hu')
    have hsplit : AckEvent.openWindow :: (mid ++ .closeWindow :: post) =
        (.openWindow :: (mid ++ [.closeWindow])) ++ post := by simp
    rw [hsplit] at hrest
    obtain ⟨v, hwindow, -⟩ := run_append_eq_some.mp hrest
    have hshares := attempts_of_window hwindow hmid
    refine ⟨hshares, ?_, nodup_outstandingOf _⟩
    simp only [hshares]
    exact flatMap_shareOf _ hW
  · have hbound := length_add_ackWork hW hrun
    omega

/-- Two accounts, three packets, one of them not credited: one window in which one ack times out. -/
theorem ack_windows_example :
    let pool : AckPool := ⟨[['a'], ['b']], by decide, by decide⟩
    let packets : List Packet :=
      [{ seq := 0, amount := 1, status := .credited }, { seq := 1, amount := 1, status := .failed },
        { seq := 2, amount := 1, status := .credited }]
    ∃ s : AckState pool.keys.length, run (ackStep 6) (ackStart _ packets)
        [.openWindow, .begin ⟨1, by decide⟩ 2, .begin ⟨0, by decide⟩ 0,
          .ended ⟨1, by decide⟩ 2 .timedOut 5, .ended ⟨0, by decide⟩ 0 (.ok [70]) 6, .closeWindow] =
          some s ∧ Moved packets s.packets := by
  intro pool packets
  obtain ⟨s, hs⟩ := Option.isSome_iff_exists.mp (show (run (ackStep 6)
    (ackStart pool.keys.length packets) [.openWindow, .begin ⟨1, by decide⟩ 2,
      .begin ⟨0, by decide⟩ 0, .ended ⟨1, by decide⟩ 2 .timedOut 5,
      .ended ⟨0, by decide⟩ 0 (.ok [70]) 6, .closeWindow]).isSome = true by decide)
  exact ⟨s, hs, (ack_windows pool packets 6 _ s hs).2.2.1 _ (mem_trail_self _ _)⟩

end PqcMigration.BatchScaling
