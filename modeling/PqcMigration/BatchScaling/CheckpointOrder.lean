/-
# PqcMigration.BatchScaling.CheckpointOrder — `run_one`'s `checkpoint` during the ack phase.

`checkpoint_cb` builds the list `[asdict(p) for p in pkts]`, packet after packet, and then saves it;
the workers go on acking meanwhile, and several calls can be under way. A save is ONE step here (what
goes wrong inside it is in `Checkpoint`): the file then holds the caller's snapshot. Of the checkpoint
only the packets are kept, the other fields do not change in this phase; `asdict` of one packet is one
step, as its status is read once.

When the ack phase begins the file holds the packets as they are: `run_one` has just saved them, or
loaded them from there. A crash and resume is a run that starts again from what the file holds.

Calls may be made at any time (the cadence of `checkpoint_every` is left open), and saves then need not
come in the order of the snapshots. `checkpoint_keeps_acked` says when nothing is lost.
-/
import PqcMigration.BatchScaling.AckPool

namespace PqcMigration.BatchScaling

open Lib

/-- Where a thread stands in `checkpoint`. -/
inductive SnapshotPc where
  | idle
  /-- `[asdict(p) for p in pkts]`, as far as it has got -/
  | copying (snapshot : List Packet)
  deriving DecidableEq

/-- The ack phase with the checkpoint calls of its threads; the thread `none` is the one that opens and
closes windows. -/
structure PhaseState (W : ℕ) where
  ack : AckState W
  calls : Option (Fin W) → SnapshotPc
  file : List Packet

deriving instance DecidableEq for AckEvent

inductive PhaseEvent (W : ℕ) where
  | ack (e : AckEvent W)
  | call (i : Option (Fin W))
  | copy (i : Option (Fin W))
  | save (i : Option (Fin W))
  deriving DecidableEq

variable {W : ℕ}

/-- The threads that an event of the ack phase waits for are not in a call. -/
def Unoccupied (calls : Option (Fin W) → SnapshotPc) : AckEvent W → Prop
  | .begin i _ => calls (some i) = .idle
  | .ended i _ _ _ => calls (some i) = .idle
  | .openWindow => ∀ j, calls j = .idle
  | .closeWindow => ∀ j, calls j = .idle
  | .ret => ∀ j, calls j = .idle

instance (calls : Option (Fin W) → SnapshotPc) : (e : AckEvent W) → Decidable (Unoccupied calls e)
  | .begin i _ => inferInstanceAs (Decidable (calls (some i) = .idle))
  | .ended i _ _ _ => inferInstanceAs (Decidable (calls (some i) = .idle))
  | .openWindow => inferInstanceAs (Decidable (∀ j, calls j = .idle))
  | .closeWindow => inferInstanceAs (Decidable (∀ j, calls j = .idle))
  | .ret => inferInstanceAs (Decidable (∀ j, calls j = .idle))

/-- A worker calls between two packets, the other thread between two windows. -/
def mayCall (s : AckState W) : Option (Fin W) → Bool
  | none =>
      match s.phase with
      | .head => true
      | _ => false
  | some i =>
      match s.phase with
      | .acking _ pc =>
          match pc i with
          | .waiting done => 0 < done
          | .acking _ => false
      | _ => false

def phaseStep (maxWindows : ℕ) (s : PhaseState W) : PhaseEvent W → Option (PhaseState W)
  | .ack e =>
      if Unoccupied s.calls e then
        (ackStep maxWindows s.ack e).map fun ack => { s with ack := ack }
      else none
  | .call i =>
      match s.calls i with
      | .idle =>
          if mayCall s.ack i then
            some { s with calls := Function.update s.calls i (.copying []) }
          else none
      | .copying _ => none
  | .copy i =>
      match s.calls i with
      | .idle => none
      | .copying snapshot =>
          -- one packet at a time: the others may change before their turn comes
          s.ack.packets[snapshot.length]?.map fun p =>
            { s with calls := Function.update s.calls i (.copying (snapshot ++ [p])) }
  | .save i =>
      match s.calls i with
      | .idle => none
      | .copying snapshot =>
          if snapshot.length = s.ack.packets.length then
            some { s with calls := Function.update s.calls i .idle, file := snapshot }
          else none

def phaseStart (W : ℕ) (packets : List Packet) : PhaseState W :=
  ⟨ackStart W packets, fun _ => .idle, packets⟩

section

variable {maxWindows : ℕ} {s t : PhaseState W} {e : PhaseEvent W}

/-- Everything a step can do. -/
theorem phaseStep_cases (h : phaseStep maxWindows s e = some t) :
    (∃ e' ack, e = .ack e' ∧ ackStep maxWindows s.ack e' = some ack ∧ t = ⟨ack, s.calls, s.file⟩) ∨
    (∃ i, e = .call i ∧ t = ⟨s.ack, Function.update s.calls i (.copying []), s.file⟩) ∨
    (∃ i snapshot p, e = .copy i ∧ s.calls i = .copying snapshot ∧
      s.ack.packets[snapshot.length]? = some p ∧
      t = ⟨s.ack, Function.update s.calls i (.copying (snapshot ++ [p])), s.file⟩) ∨
    (∃ i snapshot, e = .save i ∧ s.calls i = .copying snapshot ∧
      snapshot.length = s.ack.packets.length ∧
      t = ⟨s.ack, Function.update s.calls i .idle, snapshot⟩) := by
  cases e with
  | ack e' =>
      simp only [phaseStep] at h
      split at h
      · obtain ⟨ack, hack, rfl⟩ := Option.map_eq_some_iff.mp h
        exact Or.inl ⟨e', ack, rfl, hack, rfl⟩
      · cases h
  | call i =>
      simp only [phaseStep] at h
      split at h
      · split at h
        · exact Or.inr (Or.inl ⟨i, rfl, (Option.some.inj h).symm⟩)
        · cases h
      · cases h
  | copy i =>
      simp only [phaseStep] at h
      split at h
      · cases h
      · next snapshot hcall =>
          obtain ⟨p, hp, rfl⟩ := Option.map_eq_some_iff.mp h
          exact Or.inr (Or.inr (Or.inl ⟨i, snapshot, p, rfl, hcall, hp, rfl⟩))
  | save i =>
      simp only [phaseStep] at h
      split at h
      · cases h
      · next snapshot hcall =>
          split at h
          · next hlen =>
              exact Or.inr (Or.inr (Or.inr ⟨i, snapshot, rfl, hcall, hlen,
                (Option.some.inj h).symm⟩))
          · cases h

end

/-! ## What a list of packets records -/

/-- Packet `k` is recorded as acked. -/
def AckedIn (packets : List Packet) (k : ℕ) : Prop :=
  ∃ p, packets[k]? = some p ∧ p.status = .acked

theorem AckedIn.lt_length {packets : List Packet} {k : ℕ} (h : AckedIn packets k) :
    k < packets.length := by
  obtain ⟨p, hp, -⟩ := h
  exact (List.getElem?_eq_some_iff.mp hp).1

theorem Moved.ackedIn {before after : List Packet} (h : Moved before after) {k : ℕ}
    (hk : AckedIn before k) : AckedIn after k := by
  obtain ⟨p, hp, hstatus⟩ := hk
  obtain ⟨q, hq, hsame, -⟩ := h.2 k p hp
  obtain rfl := hsame (by rw [hstatus]; decide)
  exact ⟨q, hq, hstatus⟩

theorem ackedIn_append {packets : List Packet} {p : Packet} {k : ℕ} (h : AckedIn packets k) :
    AckedIn (packets ++ [p]) k := by
  have hlt := h.lt_length
  obtain ⟨q, hq, hstatus⟩ := h
  exact ⟨q, by rw [List.getElem?_append_left hlt]; exact hq, hstatus⟩

/-! ## One state -/

/-- The file and every snapshot under way lag behind the packets. -/
structure PhaseInv (maxWindows : ℕ) (s : PhaseState W) : Prop where
  ack : AckInv maxWindows s.ack
  file : ∀ k, AckedIn s.file k → AckedIn s.ack.packets k
  copying : ∀ i snapshot, s.calls i = .copying snapshot → ∀ k, AckedIn snapshot k →
    AckedIn s.ack.packets k

section

variable {maxWindows : ℕ} {s t : PhaseState W} {e : PhaseEvent W}

theorem phaseInv_start (packets : List Packet) : PhaseInv maxWindows (phaseStart W packets) :=
  ⟨ackInv_start packets, fun _ hk => hk, fun _ _ hcall => by cases hcall⟩

theorem PhaseInv.step (h : PhaseInv maxWindows s) (hstep : phaseStep maxWindows s e = some t) :
    PhaseInv maxWindows t := by
  rcases phaseStep_cases hstep with ⟨e', ack, -, hack, rfl⟩ | ⟨i, -, rfl⟩ |
    ⟨i, snapshot, p, -, hcall, hp, rfl⟩ | ⟨i, snapshot, -, hcall, -, rfl⟩
  · have hmoved := h.ack.moved hack
    refine ⟨h.ack.step hack, ?_, ?_⟩
    · intro k hk
      exact hmoved.ackedIn (h.file k hk)
    · intro i snapshot hcall k hk
      exact hmoved.ackedIn (h.copying i snapshot hcall k hk)
  · refine ⟨h.ack, h.file, ?_⟩
    intro j snapshot hj k hk
    rcases of_update (Q := fun q : SnapshotPc => q = .copying snapshot) hj with
      ⟨-, hmoved⟩ | ⟨-, hbefore⟩
    · obtain rfl := SnapshotPc.copying.inj hmoved
      exact absurd hk.lt_length (Nat.not_lt_zero k)
    · exact h.copying j snapshot hbefore k hk
  · refine ⟨h.ack, h.file, ?_⟩
    intro j snapshot' hj k hk
    rcases of_update (Q := fun q : SnapshotPc => q = .copying snapshot') hj with
      ⟨-, hmoved⟩ | ⟨-, hbefore⟩
    · obtain rfl := SnapshotPc.copying.inj hmoved
      rcases Nat.lt_or_ge k snapshot.length with hlt | hge
      · obtain ⟨q, hq, hstatus⟩ := hk
        rw [List.getElem?_append_left hlt] at hq
        exact h.copying i snapshot hcall k ⟨q, hq, hstatus⟩
      · -- the packet that was copied last is the packet as it is
        have hlt := hk.lt_length
        rw [List.length_append, List.length_singleton] at hlt
        obtain rfl : k = snapshot.length := by omega
        obtain ⟨q, hq, hstatus⟩ := hk
        rw [List.getElem?_concat_length] at hq
        obtain rfl := Option.some.inj hq
        exact ⟨p, hp, hstatus⟩
    · exact h.copying j snapshot' hbefore k hk
  · refine ⟨h.ack, h.copying i snapshot hcall, ?_⟩
    intro j snapshot' hj k hk
    obtain ⟨-, hbefore⟩ := of_update_of_not (Q := fun q : SnapshotPc => q = .copying snapshot')
      (by simp) hj
    exact h.copying j snapshot' hbefore k hk

theorem phaseInv_run {packets : List Packet} {evs : List (PhaseEvent W)}
    (hrun : run (phaseStep maxWindows) (phaseStart W packets) evs = some s) :
    PhaseInv maxWindows s :=
  run_invariant (fun _ _ _ hs hstep => hs.step hstep) (phaseInv_start packets) hrun

/-- Packets stay acked. -/
theorem PhaseInv.keeps (h : PhaseInv maxWindows s) {evs : List (PhaseEvent W)}
    (hrun : run (phaseStep maxWindows) s evs = some t) {k : ℕ} (hk : AckedIn s.ack.packets k) :
    AckedIn t.ack.packets k := by
  refine run_rel (I := PhaseInv maxWindows)
    (R := fun a b => AckedIn a.ack.packets k → AckedIn b.ack.packets k)
    (fun _ hk => hk) (fun _ _ _ hab hbc hk => hbc (hab hk)) (fun _ _ _ hs hstep => hs.step hstep)
    ?_ h hrun hk
  intro s e t hs hstep hk
  rcases phaseStep_cases hstep with ⟨e', ack, -, hack, rfl⟩ | ⟨i, -, rfl⟩ | ⟨i, _, _, -, -, -, rfl⟩ |
    ⟨i, _, -, -, -, rfl⟩
  · exact (hs.ack.moved hack).ackedIn hk
  · exact hk
  · exact hk
  · exact hk

/-- A packet that is acked when the phase begins is not attempted in it. -/
theorem not_begin_of_ackedIn {packets : List Packet} {evs : List (PhaseEvent W)}
    (hrun : run (phaseStep maxWindows) (phaseStart W packets) evs = some s) {k : ℕ}
    (hk : AckedIn packets k) (i : Fin W) : PhaseEvent.ack (.begin i k) ∉ evs := by
  intro hmem
  obtain ⟨bs, cs, rfl⟩ := List.append_of_mem hmem
  obtain ⟨u, hu, hrest⟩ := run_append_eq_some.mp hrun
  obtain ⟨v, hstep, -⟩ := run_cons_eq_some.mp hrest
  obtain ⟨p, hp, hacked⟩ := (phaseInv_start packets).keeps hu hk
  obtain ⟨e', ack, he, hack, -⟩ | ⟨_, ⟨⟩, -⟩ | ⟨_, _, _, ⟨⟩, -⟩ | ⟨_, _, ⟨⟩, -⟩ :=
    phaseStep_cases hstep
  obtain rfl := PhaseEvent.ack.inj he
  obtain ⟨q, hq, hcredited⟩ := (phaseInv_run hu).ack.begin_credited hack
  obtain rfl : p = q := Option.some.inj (hp.symm.trans hq)
  rw [hacked] at hcredited
  cases hcredited

end

/-! ## Saves in the order of snapshots -/

/-- No save comes between the start of a call and its own. -/
def SavesInOrder (evs : List (PhaseEvent W)) : Prop :=
  ∀ i bs cs, evs = bs ++ .save i :: cs →
    ∃ ds es, bs = ds ++ .call i :: es ∧ ∀ j, PhaseEvent.save j ∉ es

theorem SavesInOrder.left {bs cs : List (PhaseEvent W)} (h : SavesInOrder (bs ++ cs)) :
    SavesInOrder bs := by
  rintro i ds es rfl
  apply h i ds (es ++ cs)
  rw [List.append_assoc, List.cons_append]

section

variable {maxWindows : ℕ} {packets : List Packet} {s : PhaseState W}

/-- While no save has come since a call began, what the file records the snapshot records, as far as
it has got: a packet that the file records was acked before it was copied. -/
theorem snapshot_covers {evs : List (PhaseEvent W)}
    (hrun : run (phaseStep maxWindows) (phaseStart W packets) evs = some s) :
    ∀ i snapshot, s.calls i = .copying snapshot → ∀ ds es, evs = ds ++ .call i :: es →
      (∀ j, PhaseEvent.save j ∉ es) → ∀ k, k < snapshot.length → AckedIn s.file k →
        AckedIn snapshot k := by
  suffices h : PhaseInv maxWindows s ∧ ∀ i snapshot, s.calls i = .copying snapshot → ∀ ds es,
      evs = ds ++ .call i :: es → (∀ j, PhaseEvent.save j ∉ es) → ∀ k, k < snapshot.length →
        AckedIn s.file k → AckedIn snapshot k from h.2
  refine run_history (I := fun bs s => PhaseInv maxWindows s ∧ ∀ i snapshot,
    s.calls i = .copying snapshot → ∀ ds es, bs = ds ++ .call i :: es →
      (∀ j, PhaseEvent.save j ∉ es) → ∀ k, k < snapshot.length → AckedIn s.file k →
        AckedIn snapshot k) ?_ ⟨phaseInv_start packets, fun _ _ h => by cases h⟩ hrun
  rintro bs s e t ⟨hinv, hcovers⟩ hstep
  refine ⟨hinv.step hstep, ?_⟩
  intro i snapshot hi ds es hsplit hnone k hlt hk
  -- either `e` is the call itself, or the call came before `e`
  rcases List.eq_nil_or_concat es with rfl | ⟨es, e', rfl⟩
  · obtain ⟨-, he⟩ := List.append_inj' hsplit rfl
    obtain rfl : e = .call i := List.head_eq_of_cons_eq he
    obtain ⟨_, _, ⟨⟩, -⟩ | ⟨i', he, rfl⟩ | ⟨_, _, _, ⟨⟩, -⟩ | ⟨_, _, ⟨⟩, -⟩ := phaseStep_cases hstep
    obtain rfl := PhaseEvent.call.inj he
    have hempty : snapshot = [] := by
      have hself : Function.update s.calls i (.copying []) i = .copying [] :=
        Function.update_self _ _ _
      exact SnapshotPc.copying.inj (hi.symm.trans hself)
    rw [hempty] at hlt
    exact absurd hlt (Nat.not_lt_zero k)
  · have hconcat : bs ++ [e] = (ds ++ .call i :: es) ++ [e'] := by
      rw [hsplit, List.concat_eq_append, List.append_assoc, List.cons_append]
    obtain ⟨rfl, he⟩ := List.append_inj' hconcat rfl
    obtain rfl : e = e' := List.head_eq_of_cons_eq he
    have hnone' : ∀ j, PhaseEvent.save j ∉ es := by
      intro j hj
      apply hnone j
      rw [List.concat_eq_append]
      exact List.mem_append_left _ hj
    rcases phaseStep_cases hstep with ⟨_, ack, -, -, rfl⟩ | ⟨i', -, rfl⟩ |
      ⟨i', snapshot', p, -, hcall, hp, rfl⟩ | ⟨i', _, rfl, -⟩
    · exact hcovers i snapshot hi ds es rfl hnone' k hlt hk
    · rcases of_update (Q := fun q : SnapshotPc => q = .copying snapshot) hi with
        ⟨-, hmoved⟩ | ⟨-, hbefore⟩
      · obtain rfl := SnapshotPc.copying.inj hmoved
        exact absurd hlt (Nat.not_lt_zero k)
      · exact hcovers i snapshot hbefore ds es rfl hnone' k hlt hk
    · rcases of_update (Q := fun q : SnapshotPc => q = .copying snapshot) hi with
        ⟨rfl, hmoved⟩ | ⟨-, hbefore⟩
      · obtain rfl := SnapshotPc.copying.inj hmoved
        rcases Nat.lt_or_ge k snapshot'.length with hold | hnew
        · exact ackedIn_append (hcovers i snapshot' hcall ds es rfl hnone' k hold hk)
        · -- the packet just copied: the file records it, so it had been acked
          rw [List.length_append, List.length_singleton] at hlt
          obtain rfl : k = snapshot'.length := by omega
          obtain ⟨q, hq, hacked⟩ := hinv.file _ hk
          obtain rfl : p = q := Option.some.inj (hp.symm.trans hq)
          exact ⟨p, List.getElem?_concat_length, hacked⟩
      · exact hcovers i snapshot hbefore ds es rfl hnone' k hlt hk
    · exact absurd (by simp) (hnone i')

/-- A step of a run whose saves are in order forgets no acked packet. -/
theorem file_step {t : PhaseState W} {bs cs : List (PhaseEvent W)} {e : PhaseEvent W}
    (hrun : run (phaseStep maxWindows) (phaseStart W packets) bs = some s)
    (hstep : phaseStep maxWindows s e = some t) (horder : SavesInOrder (bs ++ e :: cs)) {k : ℕ}
    (hk : AckedIn s.file k) : AckedIn t.file k := by
  rcases phaseStep_cases hstep with ⟨_, _, -, -, rfl⟩ | ⟨_, -, rfl⟩ | ⟨_, _, _, -, -, -, rfl⟩ |
    ⟨i, snapshot, rfl, hcall, hlen, rfl⟩
  · exact hk
  · exact hk
  · exact hk
  · obtain ⟨ds, es, hsplit, hnone⟩ := horder i bs cs rfl
    have hlt : k < snapshot.length := by
      rw [hlen]
      exact ((phaseInv_run hrun).file k hk).lt_length
    exact snapshot_covers hrun i snapshot hcall ds es hsplit hnone k hlt hk

/-- **Checkpoints do not go back.** In every run in which no save comes between the start of a call and
its own save, a packet that the file records as acked at one moment it records as acked at every later
one, and a run resumed from what the file holds then does not attempt the packet. -/
theorem checkpoint_keeps_acked {evs : List (PhaseEvent W)}
    (hrun : run (phaseStep maxWindows) (phaseStart W packets) evs = some s)
    (horder : SavesInOrder evs) :
    ∀ bs cs ds u v k, evs = bs ++ cs ++ ds →
      run (phaseStep maxWindows) (phaseStart W packets) bs = some u →
      run (phaseStep maxWindows) u cs = some v → AckedIn u.file k →
        AckedIn v.file k ∧ ∀ evs' s', run (phaseStep maxWindows) (phaseStart W v.file) evs' = some s' →
          ∀ i, PhaseEvent.ack (.begin i k) ∉ evs' := by
  rintro bs cs ds u v k rfl hbs hcs hk
  suffices hkept : AckedIn v.file k from
    ⟨hkept, fun evs' s' hresumed i => not_begin_of_ackedIn hresumed hkept i⟩
  have horder' : SavesInOrder (bs ++ cs) := horder.left
  clear hrun horder
  -- on the labels between the two moments; those before them grow
  induction cs generalizing bs u with
  | nil =>
      obtain rfl : u = v := by simpa using hcs
      exact hk
  | cons e cs ih =>
      obtain ⟨w, hstep, hrest⟩ := run_cons_eq_some.mp hcs
      have hw : run (phaseStep maxWindows) (phaseStart W packets) (bs ++ [e]) = some w :=
        run_append_eq_some.mpr ⟨u, hbs, run_cons_eq_some.mpr ⟨w, hstep, rfl⟩⟩
      apply ih (bs ++ [e]) w hw hrest (file_step hbs hstep horder' hk)
      rwa [List.append_assoc, List.singleton_append]

end

/-! ### Two workers, one packet each -/

def creditedPacket (seq : ℕ) : Packet := { seq := seq, amount := 1, status := .credited }

/-- The first call saves before the second begins. -/
def savesInTurn : List (PhaseEvent 2) :=
  [.ack .openWindow, .ack (.begin 0 0), .ack (.begin 1 1), .ack (.ended 0 0 (.ok []) 1),
    .call (some 0), .copy (some 0), .copy (some 0), .save (some 0), .ack (.ended 1 1 (.ok []) 2),
    .call (some 1), .copy (some 1), .copy (some 1), .save (some 1)]

/-- The second call begins later and saves first; the first call has yet to save. -/
def savesCrossed : List (PhaseEvent 2) :=
  [.ack .openWindow, .ack (.begin 0 0), .ack (.begin 1 1), .ack (.ended 0 0 (.ok []) 1),
    .call (some 0), .copy (some 0), .copy (some 0), .ack (.ended 1 1 (.ok []) 2),
    .call (some 1), .copy (some 1), .copy (some 1), .save (some 1)]

theorem savesInOrder_savesInTurn : SavesInOrder savesInTurn := by
  intro i bs cs hsplit
  have hbs : bs = savesInTurn.take bs.length := by
    rw [hsplit, List.take_left]
  have hat : savesInTurn[bs.length]? = some (.save i) := by
    rw [hsplit, List.getElem?_append_right (Nat.le_refl _), Nat.sub_self]
    rfl
  have hplaces : ∀ n < savesInTurn.length, ∀ i, savesInTurn[n]? = some (.save i) →
      (n = 7 ∧ i = some 0) ∨ (n = 12 ∧ i = some 1) := by decide
  rcases hplaces _ (List.getElem?_eq_some_iff.mp hat).1 i hat with ⟨hn, rfl⟩ | ⟨hn, rfl⟩
  · rw [hn] at hbs
    exact ⟨savesInTurn.take 4, (savesInTurn.take 7).drop 5, hbs, by decide⟩
  · rw [hn] at hbs
    exact ⟨savesInTurn.take 9, (savesInTurn.take 12).drop 10, hbs, by decide⟩

theorem checkpoint_keeps_acked_in_turn :
    SavesInOrder savesInTurn ∧
    ∃ u v, run (phaseStep 6) (phaseStart 2 [creditedPacket 0, creditedPacket 1])
        (savesInTurn.take 8) = some u ∧ AckedIn u.file 0 ∧
      run (phaseStep 6) u (savesInTurn.drop 8) = some v ∧ AckedIn v.file 0 :=
  have hrun : run (phaseStep 6) (phaseStart 2 [creditedPacket 0, creditedPacket 1]) savesInTurn =
      some _ := rfl
  ⟨savesInOrder_savesInTurn, _, _, rfl, ⟨_, rfl, rfl⟩, rfl,
    (checkpoint_keeps_acked hrun savesInOrder_savesInTurn (savesInTurn.take 8) (savesInTurn.drop 8) []
      _ _ 0 rfl rfl rfl ⟨_, rfl, rfl⟩).1⟩

/-- The first call saves a snapshot from before the second packet was acked: the file has recorded it
and does not any more, and a resumed run attempts it again. -/
theorem checkpoint_goes_back :
    ∃ u v s', run (phaseStep 6) (phaseStart 2 [creditedPacket 0, creditedPacket 1]) savesCrossed =
        some u ∧ AckedIn u.file 1 ∧
      run (phaseStep 6) u [.save (some 0)] = some v ∧ ¬ AckedIn v.file 1 ∧
      run (phaseStep 6) (phaseStart 2 v.file) [.ack .openWindow, .ack (.begin 0 1)] = some s' := by
  refine ⟨_, _, _, rfl, ⟨_, rfl, rfl⟩, rfl, ?_, rfl⟩
  rintro ⟨p, hp, hstatus⟩
  obtain rfl := Option.some.inj hp
  cases hstatus

end PqcMigration.BatchScaling
