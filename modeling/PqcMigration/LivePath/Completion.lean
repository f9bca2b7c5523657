/-
# PqcMigration.LivePath.Completion — what the transfer path can still do.

The invariants of the spec say what never happens. Two results here say what can, and what must. From a
reachable state a packet can be carried through to its acknowledgement exactly if it is `Open`: B has it
already, or some snapshot of A has its commitment, or A has a block left to make and the packet is
committed or can be paid for. A packet that is not open is never credited, whatever the run does; so what
is sent after the last block of `Heights` stays in escrow (`completable_iff`).

A run takes only so many steps, rejected submissions apart, and whatever the order of them, one that can
go no further has carried through every packet that is open (`maximal_run`).
-/
import PqcMigration.LivePath.Safety

namespace PqcMigration.LivePath

open Lib

universe u

variable {σ : Type u} [DecidableEq σ] {c : Constants σ} {st st' : State σ}

/-! ## Ranges -/

/-- The heights there are. Only `Advance` writes a snapshot, and only of heights above the first. -/
structure Ranges (c : Constants σ) (st : State σ) : Prop where
  snapshots : ∀ h s, s ∈ st.committedAt h → 2 ≤ h ∧ h ≤ st.height ∧ h ≤ c.n
  pos : 1 ≤ st.height
  height_le : st.height ≤ max 1 c.n
  trusted : st.trusted ⊆ c.heights

theorem Ranges.preserved {a : Action σ} (hrange : Ranges c st) (hstep : next c st a = some st') :
    Ranges c st' := by
  obtain ⟨hen, rfl⟩ := next_eq_some.mp hstep
  cases a with
  | advance =>
      have hlt : st.height < c.n := hen
      have hpos := hrange.pos
      refine ⟨fun h s hs => ?_, Nat.le_add_left 1 _, (Nat.succ_le_of_lt hlt).trans (le_max_right _ _),
        hrange.trusted⟩
      show 2 ≤ h ∧ h ≤ st.height + 1 ∧ h ≤ c.n
      by_cases hh : h = st.height + 1
      · omega
      · have hold := hrange.snapshots h s (by simpa [effect, Function.update_of_ne hh] using hs)
        omega
  | updateClient h =>
      exact ⟨hrange.snapshots, hrange.pos, hrange.height_le, Finset.insert_subset hen.1 hrange.trusted⟩
  | recvPacketRejected => exact hrange
  | sendTransfer | recvPacket | ackPacket =>
      exact ⟨hrange.snapshots, hrange.pos, hrange.height_le, hrange.trusted⟩

/-- What a run keeps, as far as it is needed here. -/
structure Sound (c : Constants σ) (st : State σ) : Prop where
  inv : Inv c st
  range : Ranges c st

theorem sound_init (c : Constants σ) : Sound c (init c) where
  inv := inv_init c
  range := ⟨by simp [init], Nat.le_refl 1, le_max_left _ _, Finset.empty_subset _⟩

theorem Sound.preserved (st : State σ) (a : Action σ) (st' : State σ) (hst : Sound c st)
    (hstep : next c st a = some st') : Sound c st' :=
  ⟨hst.inv.preserved st a st' hstep, hst.range.preserved hstep⟩

theorem Sound.run {acts : List (Action σ)} (hst : Sound c st)
    (hrun : run (next c) st acts = some st') : Sound c st' :=
  run_invariant Sound.preserved hst hrun

theorem Reaches.sound {acts : List (Action σ)} (hrun : Reaches c acts st) : Sound c st :=
  (sound_init c).run hrun

/-! ## Open packets -/

/-- The packet can still be carried through. -/
def Open (c : Constants σ) (st : State σ) (s : σ) : Prop :=
  s ∈ st.receipts ∨ (∃ h, s ∈ st.committedAt h) ∨
    (st.height < c.n ∧ s ∈ c.seqs ∧ (st.commitments s = true ∨ c.amount ≤ st.balA))

/-- **Closed packets stay closed.** No action opens a packet. -/
theorem not_open_next {a : Action σ} {s : σ} (hclosed : ¬ Open c st s)
    (hstep : next c st a = some st') : ¬ Open c st' s := by
  obtain ⟨hen, rfl⟩ := next_eq_some.mp hstep
  obtain ⟨hrec, hsnap, hlast⟩ : s ∉ st.receipts ∧ (¬ ∃ h, s ∈ st.committedAt h) ∧
      ¬ (st.height < c.n ∧ s ∈ c.seqs ∧ (st.commitments s = true ∨ c.amount ≤ st.balA)) := by
    unfold Open at hclosed
    tauto
  unfold Open
  cases a with
  | sendTransfer t =>
      obtain ⟨hseq, -, -, hbal⟩ := hen
      rintro (h | h | ⟨hlt, hs, -⟩)
      · exact hrec h
      · exact hsnap h
      · -- that could be paid for, so the packet could have been as well
        exact hlast ⟨hlt, hs, .inr hbal⟩
  | advance =>
      have hlt : st.height < c.n := hen
      rintro (h | ⟨h, hs⟩ | ⟨-, hs, hcan⟩)
      · exact hrec h
      · by_cases hh : h = st.height + 1
        · subst hh
          have hs' : s ∈ c.seqs ∧ st.commitments s = true := by simpa [effect] using hs
          exact hlast ⟨hlt, hs'.1, .inl hs'.2⟩
        · exact hsnap ⟨h, by simpa [effect, Function.update_of_ne hh] using hs⟩
      · exact hlast ⟨hlt, hs, hcan⟩
  | updateClient h => exact hclosed
  | recvPacket t h =>
      obtain ⟨-, -, -, -, hmem⟩ := hen
      rintro (hs | hs | hs)
      · rcases Finset.mem_insert.mp hs with rfl | hs
        · exact hsnap ⟨h, hmem⟩
        · exact hrec hs
      · exact hsnap hs
      · exact hlast hs
  | recvPacketRejected t h => exact hclosed
  | ackPacket t =>
      rintro (hs | hs | ⟨hlt, hs, hcan⟩)
      · exact hrec hs
      · exact hsnap hs
      · refine hlast ⟨hlt, hs, hcan.imp_left fun hcom => ?_⟩
        by_cases hst : s = t
        · subst hst
          simp [effect] at hcom
        · simpa [effect, Function.update_of_ne hst] using hcom

theorem not_open_run {acts : List (Action σ)} {s : σ} (hclosed : ¬ Open c st s)
    (hrun : run (next c) st acts = some st') : ¬ Open c st' s :=
  run_invariant (I := fun t => ¬ Open c t s) (fun _ _ _ ht hstep => not_open_next ht hstep) hclosed hrun

/-! ## Carrying an open packet through -/

/-- Somewhere a run leads, `P` holds. -/
def CanReach (c : Constants σ) (st : State σ) (P : State σ → Prop) : Prop :=
  ∃ acts st', run (next c) st acts = some st' ∧ P st'

theorem CanReach.refl {P : State σ → Prop} (h : P st) : CanReach c st P := ⟨[], st, rfl, h⟩

theorem Sound.step {P : State σ → Prop} {a : Action σ} (hst : Sound c st) (hen : Enabled c st a)
    (h : Sound c (effect c st a) → CanReach c (effect c st a) P) : CanReach c st P := by
  have hstep := next_eq_some.mpr ⟨hen, rfl⟩
  obtain ⟨acts, t, hrun, ht⟩ := h (hst.preserved _ _ _ hstep)
  exact ⟨a :: acts, t, run_cons_eq_some.mpr ⟨_, hstep, hrun⟩, ht⟩

/-- A received packet can be acknowledged, if it is not yet. -/
theorem canAck_of_receipt {s : σ} (hst : Sound c st) (hrec : s ∈ st.receipts) :
    CanReach c st fun t => s ∈ t.ackedA := by
  by_cases hack : s ∈ st.ackedA
  · exact .refl hack
  · obtain ⟨hseq, hcom⟩ := State.mem_sent.mp (hst.inv.receipts_sub_sent hrec)
    have hen : Enabled c st (.ackPacket s) := ⟨hseq, hcom.resolve_right hack, hrec, hack⟩
    exact hst.step hen fun _ => .refl (Finset.mem_insert_self s _)

/-- A packet whose commitment B can verify can be received. -/
theorem canAck_of_verifies {s : σ} {h : ℕ} (hst : Sound c st) (hver : ProofVerifies st s h) :
    CanReach c st fun t => s ∈ t.ackedA := by
  by_cases hrec : s ∈ st.receipts
  · exact canAck_of_receipt hst hrec
  · have hseq := (State.mem_sent.mp (hst.inv.snapshot h hver.2)).1
    have hh : h ∈ c.heights := by
      have hrange := hst.range.snapshots h s hver.2
      exact Finset.mem_Icc.mpr ⟨by omega, hrange.2.2⟩
    have hen : Enabled c st (.recvPacket s h) := ⟨hseq, hh, hrec, hver⟩
    exact hst.step hen fun hst' => canAck_of_receipt hst' (Finset.mem_insert_self s _)

/-- A packet in a snapshot can be proved, after an update to that height if there is need. -/
theorem canAck_of_snapshot {s : σ} {h : ℕ} (hst : Sound c st) (hs : s ∈ st.committedAt h) :
    CanReach c st fun t => s ∈ t.ackedA := by
  by_cases htr : h ∈ st.trusted
  · exact canAck_of_verifies hst ⟨htr, hs⟩
  · have hrange := hst.range.snapshots h s hs
    have hh : h ∈ c.heights := Finset.mem_Icc.mpr ⟨by omega, hrange.2.2⟩
    have hen : Enabled c st (.updateClient h) := ⟨hh, hrange.2.1, htr⟩
    exact hst.step hen fun hst' => canAck_of_verifies hst' ⟨Finset.mem_insert_self h _, hs⟩

/-- A committed packet gets into the next snapshot. -/
theorem canAck_of_committed {s : σ} (hst : Sound c st) (hlt : st.height < c.n) (hseq : s ∈ c.seqs)
    (hcom : st.commitments s = true) : CanReach c st fun t => s ∈ t.ackedA := by
  have hen : Enabled c st .advance := hlt
  refine hst.step hen fun hst' => canAck_of_snapshot (h := st.height + 1) hst' ?_
  simp [effect, hseq, hcom]

theorem canAck_of_open {s : σ} (hst : Sound c st) (hopen : Open c st s) :
    CanReach c st fun t => s ∈ t.ackedA := by
  rcases hopen with hrec | ⟨h, hs⟩ | ⟨hlt, hseq, hcan⟩
  · exact canAck_of_receipt hst hrec
  · exact canAck_of_snapshot hst hs
  · by_cases hack : s ∈ st.ackedA
    · exact .refl hack
    · cases hcom : st.commitments s with
      | true => exact canAck_of_committed hst hlt hseq hcom
      | false =>
          -- it is sent first
          have hbal : c.amount ≤ st.balA := hcan.resolve_left (by simp [hcom])
          have hen : Enabled c st (.sendTransfer s) := ⟨hseq, hcom, hack, hbal⟩
          exact hst.step hen fun hst' => canAck_of_committed hst' hlt hseq (by simp [effect])

/-- **What can still be completed.** From a reachable state a packet can be brought to its
acknowledgement exactly if it is open; and one that is not is received in no run from there. -/
theorem completable_iff (c : Constants σ) (acts : List (Action σ)) (st : State σ)
    (hreach : Reaches c acts st) (s : σ) :
    (CanReach c st (fun t => s ∈ t.ackedA) ↔ Open c st s) ∧
      (CanReach c st (fun t => s ∈ t.receipts) ↔ Open c st s) := by
  have hst := hreach.sound
  have hreceived : CanReach c st (fun t => s ∈ t.receipts) → Open c st s := by
    rintro ⟨acts', t, hrun, ht⟩
    by_contra hclosed
    exact not_open_run hclosed hrun (.inl ht)
  have hacked : CanReach c st (fun t => s ∈ t.ackedA) → CanReach c st (fun t => s ∈ t.receipts) := by
    rintro ⟨acts', t, hrun, ht⟩
    exact ⟨acts', t, hrun, (hst.run hrun).inv.acked_sub ht⟩
  exact ⟨⟨fun h => hreceived (hacked h), canAck_of_open hst⟩,
    ⟨hreceived, fun h => hacked (canAck_of_open hst h)⟩⟩

/-- The constants of `LivePath.cfg`, but A makes no second block. -/
def oneBlock : Constants ℕ := { cfg with n := 1 }

/-- What is sent there is in no snapshot, and stays in escrow. -/
theorem completable_one_block :
    ∃ st, Reaches oneBlock [.sendTransfer 1] st ∧ st.escrow = 10 ∧
      ¬ CanReach oneBlock st fun t => 1 ∈ t.receipts := by
  have hreach : Reaches oneBlock [.sendTransfer 1] (effect oneBlock (init oneBlock) (.sendTransfer 1)) := rfl
  refine ⟨_, hreach, rfl, ?_⟩
  rw [(completable_iff oneBlock _ _ hreach 1).2]
  rintro (h | ⟨h, hs⟩ | ⟨hlt, -⟩)
  · simp [effect, init] at h
  · simp [effect, init] at hs
  · exact absurd hlt (Nat.lt_irrefl 1)

/-! ## Runs that can go no further -/

/-- A rejected submission changes nothing. -/
def Action.effective : Action σ → Bool
  | .recvPacketRejected _ _ => false
  | _ => true

/-- What every other action adds one to. -/
def State.progress (c : Constants σ) (st : State σ) : ℕ :=
  (st.sent c).card + st.height + st.trusted.card + st.receipts.card + st.ackedA.card

theorem progress_next {a : Action σ} (hstep : next c st a = some st') :
    st'.progress c = st.progress c + if a.effective then 1 else 0 := by
  obtain ⟨hen, rfl⟩ := next_eq_some.mp hstep
  unfold State.progress
  cases a with
  | sendTransfer s =>
      obtain ⟨hseq, hcom, hack, -⟩ := hen
      have hnew : s ∉ st.sent c := by simp [State.mem_sent, hcom, hack]
      rw [sent_sendTransfer hseq, Finset.card_insert_of_notMem hnew]
      show (st.sent c).card + 1 + st.height + st.trusted.card + st.receipts.card + st.ackedA.card = _ + 1
      omega
  | advance =>
      show (st.sent c).card + (st.height + 1) + st.trusted.card + st.receipts.card + st.ackedA.card = _ + 1
      omega
  | updateClient h =>
      show (st.sent c).card + st.height + (insert h st.trusted).card + st.receipts.card + st.ackedA.card = _ + 1
      rw [Finset.card_insert_of_notMem hen.2.2]
      omega
  | recvPacket s h =>
      show (st.sent c).card + st.height + st.trusted.card + (insert s st.receipts).card + st.ackedA.card = _ + 1
      rw [Finset.card_insert_of_notMem hen.2.2.1]
      omega
  | recvPacketRejected s h => rfl
  | ackPacket s =>
      obtain ⟨hseq, hcom, -, hack⟩ := hen
      rw [sent_ackPacket hseq hcom]
      show (st.sent c).card + st.height + st.trusted.card + st.receipts.card + (insert s st.ackedA).card = _ + 1
      rw [Finset.card_insert_of_notMem hack]
      omega

/-- The progress counts the effective actions. -/
theorem progress_eq {acts : List (Action σ)} (hreach : Reaches c acts st) :
    st.progress c = (acts.countP Action.effective) + 1 := by
  refine run_history (I := fun bs t => t.progress c = bs.countP Action.effective + 1) ?_ ?_ hreach
  · intro bs t a u ht hstep
    rw [progress_next hstep, ht, List.countP_append, List.countP_singleton]
    omega
  · simp [State.progress, init, State.sent]

theorem Sound.progress_le (hst : Sound c st) :
    st.progress c ≤ 3 * c.seqs.card + (2 * c.n - 1) + 1 := by
  have hsent : (st.sent c).card ≤ c.seqs.card := Finset.card_filter_le _ _
  have hreceipts := Finset.card_le_card hst.inv.receipts_sub_sent
  have hacked := Finset.card_le_card hst.inv.acked_sub
  have htrusted := Finset.card_le_card hst.range.trusted
  rw [Constants.heights, Nat.card_Icc] at htrusted
  have hheight := hst.range.height_le
  unfold State.progress
  omega

/-- Where only rejections are enabled, nothing moves any more. -/
theorem run_of_stuck (hstuck : ∀ a, Enabled c st a → a.effective = false) {acts : List (Action σ)}
    (hrun : run (next c) st acts = some st') : st' = st := by
  refine run_invariant (I := fun t => t = st) ?_ rfl hrun
  rintro t a u rfl hstep
  obtain ⟨hen, rfl⟩ := next_eq_some.mp hstep
  cases a with
  | recvPacketRejected s h => rfl
  | sendTransfer | advance | updateClient | recvPacket | ackPacket => cases hstuck _ hen

/-- **Maximal runs.** A run has at most three actions for each sequence and two for each height, rejected
submissions apart. And where it can go no further, in whatever order it came there, exactly the open
packets are acknowledged. -/
theorem maximal_run (c : Constants σ) (acts : List (Action σ)) (st : State σ) (hreach : Reaches c acts st) :
    acts.countP Action.effective ≤ 3 * c.seqs.card + (2 * c.n - 1) ∧
      ((∀ a, Enabled c st a → a.effective = false) → ∀ s, s ∈ st.ackedA ↔ Open c st s) := by
  have hst := hreach.sound
  constructor
  · have hle := hst.progress_le
    rw [progress_eq hreach] at hle
    omega
  · intro hstuck s
    constructor
    · exact fun hs => .inl (hst.inv.acked_sub hs)
    · intro hopen
      obtain ⟨acts', t, hrun, ht⟩ := canAck_of_open hst hopen
      rwa [run_of_stuck hstuck hrun] at ht

/-- One packet and two blocks, and a run that needs all the actions there can be. -/
def onePacket : Constants ℕ := { cfg with seqs := {1}, n := 2 }

def onePacketRun : List (Action ℕ) :=
  [.sendTransfer 1, .updateClient 1, .advance, .updateClient 2, .recvPacket 1 2, .ackPacket 1]

theorem maximal_run_one_packet :
    ∃ st, Reaches onePacket onePacketRun st ∧ onePacketRun.countP Action.effective = 6 ∧
      ∀ s, s ∈ st.ackedA ↔ Open onePacket st s := by
  have hreach : Reaches onePacket onePacketRun
      (onePacketRun.foldl (effect onePacket) (init onePacket)) := rfl
  refine ⟨_, hreach, rfl, (maximal_run onePacket _ _ hreach).2 fun a hen => ?_⟩
  cases a with
  | recvPacketRejected s h => rfl
  | advance => exact absurd hen (Nat.lt_irrefl 2)
  | sendTransfer s | recvPacket s h =>
      exact absurd (Finset.mem_insert.mpr (.inl (Finset.mem_singleton.mp hen.1))) hen.2.2.1
  | ackPacket s => exact absurd (Finset.mem_insert.mpr (.inl (Finset.mem_singleton.mp hen.1))) hen.2.2.2
  | updateClient h =>
      obtain ⟨hh, -, hnew⟩ := hen
      have hrange : 1 ≤ h ∧ h ≤ 2 := Finset.mem_Icc.mp hh
      have htrusted : h ∈ ({2, 1} : Finset ℕ) := by
        simp only [Finset.mem_insert, Finset.mem_singleton]
        omega
      exact absurd htrusted hnew

end PqcMigration.LivePath
