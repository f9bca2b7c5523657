/-
# PqcMigration.BatchScaling.WindowNumbers — windows over several attempts at the ack phase.

`ack_group_pooled` counts its windows from zero each time it is called, and numbers a packet's
`window_id` by that count. The checkpoint keeps the packets, with the numbers they have, but no count of
windows; so an attempt that resumes starts again at window 0.

A session is the attempts one after another: an interruption may come at any moment, and the next attempt
begins with the packets the file then holds. Two things are kept beside it that the source does not have:
how many windows were started over all attempts, and the window in which a packet was acknowledged, by
that count. `windowNumbers_iff` says when what is reported agrees with them.
-/
import PqcMigration.BatchScaling.CheckpointOrder

namespace PqcMigration.BatchScaling

open Lib

variable {W : ℕ}

structure Session (W : ℕ) where
  /-- the attempt under way -/
  attempt : PhaseState W
  /-- the windows started in all attempts -/
  started : ℕ
  /-- the window a packet was last acknowledged in -/
  ackedIn : ℕ → Option ℕ

inductive SessionEvent (W : ℕ) where
  | phase (e : PhaseEvent W)
  /-- the program is interrupted and called again -/
  | resume

/-- What the history keeps of an event of the attempt. -/
def Session.note (s : Session W) (attempt : PhaseState W) : PhaseEvent W → Session W
  | .ack .openWindow => ⟨attempt, s.started + 1, s.ackedIn⟩
  | .ack (.ended _ k (.ok _) _) =>
      ⟨attempt, s.started, Function.update s.ackedIn k (some (s.started - 1))⟩
  | _ => ⟨attempt, s.started, s.ackedIn⟩

def sessionStep (maxWindows : ℕ) (s : Session W) : SessionEvent W → Option (Session W)
  | .phase e => (phaseStep maxWindows s.attempt e).map fun attempt => s.note attempt e
  | .resume => some ⟨phaseStart W s.attempt.file, s.started, s.ackedIn⟩

def sessionStart (W : ℕ) (packets : List Packet) : Session W := ⟨phaseStart W packets, 0, fun _ => none⟩

/-- What `ack_group_pooled` returns, and `run_one` reports as `windows_used`. -/
def Session.windowsUsed (s : Session W) : ℕ := s.attempt.ack.windows

def Session.packets (s : Session W) : List Packet := s.attempt.ack.packets

/-- The windows reported are those started, and packets with one `window_id` were acknowledged in one
window. -/
structure WellNumbered (s : Session W) : Prop where
  windowsUsed : s.windowsUsed = s.started
  windowId : ∀ k l p q g h, s.packets[k]? = some p → s.packets[l]? = some q →
    p.status = .acked → q.status = .acked → s.ackedIn k = some g → s.ackedIn l = some h →
    p.windowId = q.windowId → g = h

/-! ## One step -/

section

variable {maxWindows : ℕ} {s t : Session W} {e : SessionEvent W}

/-- Everything a step can do: begin again, make a step of the ack phase, or one of a checkpoint. -/
theorem sessionStep_cases (h : sessionStep maxWindows s e = some t) :
    (e = .resume ∧ t = ⟨phaseStart W s.attempt.file, s.started, s.ackedIn⟩) ∨
    (∃ a ack, e = .phase (.ack a) ∧ ackStep maxWindows s.attempt.ack a = some ack ∧
      t = s.note ⟨ack, s.attempt.calls, s.attempt.file⟩ (.ack a)) ∨
    (∃ e' calls file, e = .phase e' ∧ t = ⟨⟨s.attempt.ack, calls, file⟩, s.started, s.ackedIn⟩) := by
  cases e with
  | resume => exact Or.inl ⟨rfl, (Option.some.inj h).symm⟩
  | phase e' =>
      obtain ⟨attempt, hattempt, rfl⟩ := Option.map_eq_some_iff.mp h
      rcases phaseStep_cases hattempt with ⟨a, ack, rfl, hack, rfl⟩ | ⟨i, rfl, rfl⟩ |
        ⟨i, _, _, rfl, -, -, rfl⟩ | ⟨i, _, rfl, -, -, rfl⟩
      · exact Or.inr (Or.inl ⟨a, ack, rfl, hack, rfl⟩)
      all_goals exact Or.inr (Or.inr ⟨_, _, _, rfl, rfl⟩)

/-! ## Every reachable state -/

/-- While no window has been lost, a packet's number is that of the window it was acknowledged in. -/
structure SessionInv (s : Session W) : Prop where
  windows_le : s.windowsUsed ≤ s.started
  /-- in a window, one has been counted -/
  inWindow : ∀ out pc, s.attempt.ack.phase = .acking out pc → 0 < s.windowsUsed
  noneAcked : s.started = 0 → ∀ k, s.ackedIn k = none
  windowId : s.windowsUsed = s.started → ∀ (k : ℕ) (p : Packet) (g : ℕ), s.packets[k]? = some p →
    p.status = .acked → s.ackedIn k = some g → p.windowId = g

theorem sessionInv_start (packets : List Packet) : SessionInv (sessionStart W packets) where
  windows_le := Nat.le_refl 0
  inWindow _ _ hphase := by cases hphase
  noneAcked _ _ := rfl
  windowId _ _ _ _ _ _ hacked := by cases hacked

/-- The next attempt numbers from zero again: nothing is said of its numbers if a window was started. -/
theorem SessionInv.resume (h : SessionInv s) :
    SessionInv (⟨phaseStart W s.attempt.file, s.started, s.ackedIn⟩ : Session W) where
  windows_le := Nat.zero_le s.started
  inWindow _ _ hphase := by cases hphase
  noneAcked := h.noneAcked
  windowId hused k p g _ _ hacked := by
    have hnone : s.ackedIn k = none := h.noneAcked hused.symm k
    exact absurd (hnone.symm.trans hacked) (by simp)

theorem ackOne_ok_windowId (windowId : Int) (now : Time) (p : Packet) (gas : List ℕ) :
    (ackOne windowId now p (.ok gas)).windowId = windowId := by
  match gas with
  | [] => rfl
  | [_] => rfl
  | _ :: _ :: _ => rfl

theorem ackOne_not_ok {o : AckOutcome} (ho : ∀ gas, o ≠ .ok gas) (windowId : Int) (now : Time) (p : Packet) :
    (ackOne windowId now p o).status = p.status ∧ (ackOne windowId now p o).windowId = p.windowId := by
  cases o with
  | ok gas => exact absurd rfl (ho gas)
  | failed output => simp only [ackOne, and_self]
  | timedOut => simp only [ackOne, and_self]

/-- A packet of the list after one of them was changed. -/
theorem getElem?_modify_cases {packets : List Packet} {f : Packet → Packet} {k l : ℕ} {q : Packet}
    (hq : (packets.modify k f)[l]? = some q) :
    (l = k ∧ ∃ p, packets[k]? = some p ∧ f p = q) ∨ (l ≠ k ∧ packets[l]? = some q) := by
  by_cases hkl : l = k
  · subst hkl
    rw [List.getElem?_modify_eq] at hq
    exact Or.inl ⟨rfl, Option.map_eq_some_iff.mp hq⟩
  · rw [List.getElem?_modify_ne _ _ (Ne.symm hkl)] at hq
    exact Or.inr ⟨hkl, hq⟩

/-- The packets that are acked were acked before, with the same number. -/
def AckedBefore (before after : List Packet) : Prop :=
  ∀ (k : ℕ) (q : Packet), after[k]? = some q → q.status = .acked →
    ∃ p, before[k]? = some p ∧ p.status = .acked ∧ q.windowId = p.windowId

theorem AckedBefore.refl (packets : List Packet) : AckedBefore packets packets :=
  fun _ q hq hstatus => ⟨q, hq, hstatus, rfl⟩

/-- A command that does not succeed leaves every status and number as it is. -/
theorem ackedBefore_of_not_ok {o : AckOutcome} (ho : ∀ gas, o ≠ .ok gas) (packets : List Packet) (k : ℕ)
    (windowId : Int) (now : Time) :
    AckedBefore packets (packets.modify k fun p => ackOne windowId now p o) := by
  intro l q hq hstatus
  rcases getElem?_modify_cases hq with ⟨rfl, p, hp, rfl⟩ | ⟨-, hp⟩
  · obtain ⟨hkept, hnumber⟩ := ackOne_not_ok ho windowId now p
    rw [hkept] at hstatus
    exact ⟨p, hp, hstatus, hnumber⟩
  · exact ⟨q, hp, hstatus, rfl⟩

/-- A step that counts no window and acks nothing. -/
theorem SessionInv.kept (h : SessionInv s) {ack : AckState W} (hwindows : ack.windows = s.windowsUsed)
    (hwindow : ∀ out pc, ack.phase = .acking out pc → 0 < s.windowsUsed)
    (hpackets : AckedBefore s.packets ack.packets) :
    SessionInv (⟨⟨ack, s.attempt.calls, s.attempt.file⟩, s.started, s.ackedIn⟩ : Session W) := by
  refine { windows_le := ?_, inWindow := ?_, noneAcked := h.noneAcked, windowId := ?_ }
  · show ack.windows ≤ s.started
    rw [hwindows]
    exact h.windows_le
  · intro out pc hphase
    show 0 < ack.windows
    rw [hwindows]
    exact hwindow out pc hphase
  · intro hused k q g hq hstatus hacked
    obtain ⟨p, hp, hbefore, hnumber⟩ := hpackets k q hq hstatus
    rw [hnumber]
    exact h.windowId (hwindows.symm.trans hused) k p g hp hbefore hacked

/-- A command that succeeds: the window under way is the last one started. -/
theorem SessionInv.acked (h : SessionInv s) (hpos : 0 < s.windowsUsed) (k : ℕ) (now : Time) (gas : List ℕ)
    (phase : AckPhase W) :
    SessionInv (⟨⟨⟨s.packets.modify k fun p => ackOne (s.windowsUsed - 1) now p (.ok gas), s.windowsUsed,
      phase⟩, s.attempt.calls, s.attempt.file⟩, s.started,
      Function.update s.ackedIn k (some (s.started - 1))⟩ : Session W) := by
  refine { windows_le := h.windows_le, inWindow := fun _ _ _ => hpos, noneAcked := ?_, windowId := ?_ }
  · intro hzero
    have hle := h.windows_le
    have hstarted : s.started = 0 := hzero
    omega
  · intro hused l q g hq hstatus hacked
    have hsame : s.windowsUsed = s.started := hused
    have hacked' : Function.update s.ackedIn k (some (s.started - 1)) l = some g := hacked
    rcases getElem?_modify_cases hq with ⟨rfl, p, -, rfl⟩ | ⟨hne, hp⟩
    · rw [Function.update_self] at hacked'
      obtain rfl := Option.some.inj hacked'
      rw [ackOne_ok_windowId]
      omega
    · rw [Function.update_of_ne hne] at hacked'
      exact h.windowId hsame l q g hp hstatus hacked'

theorem SessionInv.ack (h : SessionInv s) {ack : AckState W} {a : AckEvent W}
    (hack : ackStep maxWindows s.attempt.ack a = some ack) :
    SessionInv (s.note ⟨ack, s.attempt.calls, s.attempt.file⟩ (.ack a)) := by
  obtain ⟨rfl, hphase, -, -, rfl⟩ | ⟨i, k, out, pc, done, rfl, hphase, -, -, -, rfl⟩ |
    ⟨i, k, o, now, out, pc, done, rfl, hphase, -, -, rfl⟩ | ⟨out, pc, rfl, hphase, -, rfl⟩ |
    ⟨rfl, hphase, -, rfl⟩ := ackStep_cases hack
  · exact {
      windows_le := Nat.succ_le_succ h.windows_le
      inWindow := fun _ _ _ => Nat.succ_pos _
      noneAcked := fun hzero => absurd hzero (Nat.succ_ne_zero _)
      windowId := fun hused => h.windowId (Nat.succ.inj hused) }
  · exact h.kept rfl (fun _ _ _ => h.inWindow out pc hphase) (.refl _)
  · have hpos : 0 < s.windowsUsed := h.inWindow out pc hphase
    cases o with
    | ok gas => exact h.acked hpos k now gas _
    | failed output => exact h.kept rfl (fun _ _ _ => hpos) (ackedBefore_of_not_ok (by simp) _ k _ now)
    | timedOut => exact h.kept rfl (fun _ _ _ => hpos) (ackedBefore_of_not_ok (by simp) _ k _ now)
  · exact h.kept rfl (fun _ _ hacking => by cases hacking) (.refl _)
  · exact h.kept rfl (fun _ _ hacking => by cases hacking) (.refl _)

theorem SessionInv.step (h : SessionInv s) (hstep : sessionStep maxWindows s e = some t) :
    SessionInv t := by
  rcases sessionStep_cases hstep with ⟨-, rfl⟩ | ⟨a, ack, -, hack, rfl⟩ | ⟨_, _, _, -, rfl⟩
  · exact h.resume
  · exact h.ack hack
  · exact ⟨h.windows_le, h.inWindow, h.noneAcked, h.windowId⟩

/-! ## Windows that are lost -/

/-- Both counts grow together, and only a new attempt makes them differ: if the one before it had started
a window. -/
theorem SessionInv.lost_iff (h : SessionInv s) (hstep : sessionStep maxWindows s e = some t) :
    t.windowsUsed ≠ t.started ↔
      s.windowsUsed ≠ s.started ∨ (e = .resume ∧ s.windowsUsed ≠ 0) := by
  rcases sessionStep_cases hstep with ⟨rfl, rfl⟩ | ⟨a, ack, rfl, hack, rfl⟩ | ⟨_, _, _, rfl, rfl⟩
  · have hle := h.windows_le
    show 0 ≠ s.started ↔ _
    simp only [true_and]
    omega
  · rw [or_iff_left (by simp)]
    obtain ⟨rfl, -, -, -, rfl⟩ | ⟨_, _, _, _, _, rfl, -, -, -, -, rfl⟩ |
      ⟨_, _, o, _, _, _, _, rfl, -, -, -, rfl⟩ | ⟨_, _, rfl, -, -, rfl⟩ | ⟨rfl, -, -, rfl⟩ :=
      ackStep_cases hack
    · show s.windowsUsed + 1 ≠ s.started + 1 ↔ _
      omega
    · rfl
    · cases o <;> rfl
    · rfl
    · rfl
  · rw [or_iff_left (by simp)]
    rfl

/-- **Numbers over several attempts.** In every session, after every event, the windows used are those
started and packets with one number were acknowledged in one window, just if no attempt was interrupted
after it had started a window. -/
theorem windowNumbers_iff {packets : List Packet} {evs : List (SessionEvent W)}
    (hrun : run (sessionStep maxWindows) (sessionStart W packets) evs = some s) :
    WellNumbered s ↔
      ∀ u, Takes (sessionStep maxWindows) (sessionStart W packets) evs .resume u → u.windowsUsed = 0 := by
  have hinv : SessionInv s :=
    run_invariant (fun _ _ _ hs hstep => hs.step hstep) (sessionInv_start packets) hrun
  have hlost := run_iff_takes (P := fun s : Session W => s.windowsUsed ≠ s.started)
    (fun _ _ _ hs hstep => SessionInv.step hs hstep) (fun _ _ _ hs hstep => hs.lost_iff hstep)
    (sessionInv_start packets) hrun
  rw [or_iff_right (fun hne => hne rfl)] at hlost
  constructor
  · intro hnumbered u htakes
    by_contra hopened
    exact hlost.mpr ⟨.resume, u, htakes, rfl, hopened⟩ hnumbered.windowsUsed
  · intro hearly
    have hused : s.windowsUsed = s.started := by
      by_contra hne
      obtain ⟨_, u, htakes, rfl, hopened⟩ := hlost.mp hne
      exact hopened (hearly u htakes)
    refine ⟨hused, ?_⟩
    intro k l p q g h hp hq hpacked hqacked hg hh hsame
    have hpg : p.windowId = g := hinv.windowId hused k p g hp hpacked hg
    have hqh : q.windowId = h := hinv.windowId hused l q h hq hqacked hh
    rw [hpg, hqh] at hsame
    exact Int.ofNat.inj hsame

end

/-! ### One worker, two packets -/

/-- An attempt that acks packet `k` and returns. -/
def ackLast (k : ℕ) : List (SessionEvent 1) :=
  [.phase (.ack .openWindow), .phase (.ack (.begin 0 k)), .phase (.ack (.ended 0 k (.ok []) 1)),
    .phase (.ack .closeWindow), .phase (.ack .ret)]

/-- The first packet is acked and saved, and the program interrupted. -/
def ackFirst : List (SessionEvent 1) :=
  [.phase (.ack .openWindow), .phase (.ack (.begin 0 0)), .phase (.ack (.ended 0 0 (.ok []) 1)),
    .phase (.call (some 0)), .phase (.copy (some 0)), .phase (.copy (some 0)), .phase (.save (some 0)),
    .resume]

theorem windowNumbers_early : ∃ s : Session 1,
    run (sessionStep 6) (sessionStart 1 [creditedPacket 0]) (.resume :: ackLast 0) = some s ∧
      WellNumbered s := by
  have hrun : run (sessionStep 6) (sessionStart 1 [creditedPacket 0]) (.resume :: ackLast 0) = some _ := rfl
  refine ⟨_, hrun, (windowNumbers_iff hrun).mpr ?_⟩
  rintro u ⟨bs, cs, hsplit, hbs⟩
  cases bs with
  | nil =>
      obtain rfl := Option.some.inj hbs
      rfl
  | cons b bs =>
      have hmem : (SessionEvent.resume : SessionEvent 1) ∈ ackLast 0 := by
        rw [(List.cons.inj hsplit).2]
        simp
      simp [ackLast] at hmem

/-- Two windows were started, one is reported, and both packets carry number 0. -/
theorem windowNumbers_repeat : ∃ s : Session 1,
    run (sessionStep 6) (sessionStart 1 [creditedPacket 0, creditedPacket 1]) (ackFirst ++ ackLast 1) =
        some s ∧
      s.attempt.ack.phase = .returned ∧ s.started = 2 ∧ s.windowsUsed = 1 ∧
      s.packets.map (fun p => (p.status, p.windowId)) = [(.acked, 0), (.acked, 0)] ∧
      s.ackedIn 0 = some 0 ∧ s.ackedIn 1 = some 1 :=
  ⟨_, rfl, rfl, rfl, rfl, rfl, rfl, rfl⟩

end PqcMigration.BatchScaling
