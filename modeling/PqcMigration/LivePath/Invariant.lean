/-
# PqcMigration.LivePath.Invariant — the inductive invariant of the transfer path, and its
refinement of the one-way ladder.

None of the three invariants the spec states is inductive by itself. What carries them is `Inv`:
every commitment snapshot holds only sequences A escrowed for (`snapshot`), every trusted height is
one A has reached (`trusted_le`) — so `Advance` writes a height nobody trusts yet — and the two
balances are counted by sets (`escrow_eq`, `vouchers_eq`). One lemma per action shows it preserved.

The abstract model is `Lib.Ladder`: a sequence stands on rung 0 (idle), 1 (escrowed), 2 (received)
or 3 (acknowledged). `next_refines_climb` is the step simulation and `run_refines_climb` the run.
-/
import Mathlib.Data.Finset.Card
import PqcMigration.Lib.Ladder
import PqcMigration.LivePath.Spec

namespace PqcMigration.LivePath

open Lib

universe u

variable {σ : Type u} [DecidableEq σ] {c : Constants σ} {st st' : State σ}

/-! ## The invariant -/

/-- What holds in every reachable state, strong enough to be preserved by every action. -/
structure Inv (c : Constants σ) (st : State σ) : Prop where
  conserved : st.balA + st.escrow = c.initialA
  escrow_eq : st.escrow = c.amount * (st.sent c).card
  not_both : ∀ s, st.commitments s = true → s ∉ st.ackedA
  snapshot : ∀ h, st.committedAt h ⊆ st.sent c
  trusted_le : ∀ h ∈ st.trusted, h ≤ st.height
  verified : ∀ s ∈ st.credited, ∃ h ∈ st.trusted, s ∈ st.committedAt h
  credited_eq : st.credited = st.receipts
  vouchers_eq : st.vouchers = c.amount * st.credited.card
  acked_sub : st.ackedA ⊆ st.receipts

theorem inv_init (c : Constants σ) : Inv c (init c) where
  conserved := rfl
  escrow_eq := by simp [init, State.sent]
  not_both := by simp [init]
  snapshot := by simp [init]
  trusted_le := by simp [init]
  verified := by simp [init]
  credited_eq := rfl
  vouchers_eq := by simp [init]
  acked_sub := Finset.Subset.refl _

/-- Only escrowed sequences are ever credited: the snapshot that proved them says so. -/
theorem Inv.credited_sub_sent (hinv : Inv c st) : st.credited ⊆ st.sent c := by
  intro s hs
  obtain ⟨h, -, hmem⟩ := hinv.verified s hs
  exact hinv.snapshot h hmem

theorem Inv.receipts_sub_sent (hinv : Inv c st) : st.receipts ⊆ st.sent c :=
  hinv.credited_eq ▸ hinv.credited_sub_sent

/-! ## How the escrowed set moves -/

theorem sent_sendTransfer {s : σ} (hs : s ∈ c.seqs) :
    (effect c st (.sendTransfer s)).sent c = insert s (st.sent c) := by
  ext t
  by_cases hts : t = s
  · subst hts
    simp [State.mem_sent, effect, hs]
  · simp [State.mem_sent, effect, hts]

/-- Acknowledging trades the commitment for the acknowledgement; the escrowed set stays. -/
theorem sent_ackPacket {s : σ} (hs : s ∈ c.seqs) (hcom : st.commitments s = true) :
    (effect c st (.ackPacket s)).sent c = st.sent c := by
  ext t
  by_cases hts : t = s
  · subst hts
    simp [State.mem_sent, effect, hs, hcom]
  · simp [State.mem_sent, effect, hts]

/-- A guard of `SendTransfer` in one word: the sequence is not in the escrowed set. -/
theorem Enabled.notMem_sent {s : σ} (hen : Enabled c st (.sendTransfer s)) : s ∉ st.sent c := by
  obtain ⟨-, hcom, hack, -⟩ := hen
  simp [State.mem_sent, hcom, hack]

/-! ## One lemma per action -/

theorem Inv.sendTransfer {s : σ} (hinv : Inv c st) (hen : Enabled c st (.sendTransfer s)) :
    Inv c (effect c st (.sendTransfer s)) := by
  have hfresh := hen.notMem_sent
  obtain ⟨hs, -, hack, hbal⟩ := hen
  have hsent : (effect c st (.sendTransfer s)).sent c = insert s (st.sent c) :=
    sent_sendTransfer hs
  refine
    { conserved := ?_, escrow_eq := ?_, not_both := ?_, snapshot := ?_
      trusted_le := hinv.trusted_le, verified := hinv.verified
      credited_eq := hinv.credited_eq, vouchers_eq := hinv.vouchers_eq
      acked_sub := hinv.acked_sub }
  · have hcons := hinv.conserved
    simp only [effect]
    omega
  · rw [hsent, Finset.card_insert_of_notMem hfresh, Nat.mul_succ, ← hinv.escrow_eq]
    rfl
  · intro t ht
    by_cases hts : t = s
    · subst hts
      exact hack
    · exact hinv.not_both t (by simpa [effect, Function.update_of_ne hts] using ht)
  · intro h
    rw [hsent]
    exact (hinv.snapshot h).trans (Finset.subset_insert s _)

theorem Inv.advance (hinv : Inv c st) : Inv c (effect c st .advance) := by
  refine
    { conserved := hinv.conserved, escrow_eq := hinv.escrow_eq, not_both := hinv.not_both
      snapshot := ?_, trusted_le := ?_, verified := ?_
      credited_eq := hinv.credited_eq, vouchers_eq := hinv.vouchers_eq
      acked_sub := hinv.acked_sub }
  · intro h
    by_cases hh : h = st.height + 1
    · -- the fresh snapshot is the committed part of the escrowed set
      subst hh
      intro s hs
      have hs' : s ∈ c.seqs ∧ st.commitments s = true := by simpa [effect] using hs
      exact State.mem_sent.mpr ⟨hs'.1, Or.inl hs'.2⟩
    · have hold : (effect c st .advance).committedAt h = st.committedAt h := by
        simp [effect, Function.update_of_ne hh]
      rw [hold]
      exact hinv.snapshot h
  · intro h hh
    exact Nat.le_succ_of_le (hinv.trusted_le h hh)
  · intro s hs
    obtain ⟨h, htr, hmem⟩ := hinv.verified s hs
    have hne : h ≠ st.height + 1 := by
      have := hinv.trusted_le h htr
      omega
    exact ⟨h, htr, by simpa [effect, Function.update_of_ne hne] using hmem⟩

theorem Inv.updateClient {h : ℕ} (hinv : Inv c st) (hen : Enabled c st (.updateClient h)) :
    Inv c (effect c st (.updateClient h)) := by
  obtain ⟨-, hle, -⟩ := hen
  refine
    { conserved := hinv.conserved, escrow_eq := hinv.escrow_eq, not_both := hinv.not_both
      snapshot := hinv.snapshot, trusted_le := ?_, verified := ?_
      credited_eq := hinv.credited_eq, vouchers_eq := hinv.vouchers_eq
      acked_sub := hinv.acked_sub }
  · intro k hk
    rcases Finset.mem_insert.mp hk with rfl | hk
    · exact hle
    · exact hinv.trusted_le k hk
  · intro s hs
    obtain ⟨k, htr, hmem⟩ := hinv.verified s hs
    exact ⟨k, Finset.mem_insert_of_mem htr, hmem⟩

theorem Inv.recvPacket {s : σ} {h : ℕ} (hinv : Inv c st) (hen : Enabled c st (.recvPacket s h)) :
    Inv c (effect c st (.recvPacket s h)) := by
  obtain ⟨-, -, hnew, htr, hmem⟩ := hen
  refine
    { conserved := hinv.conserved, escrow_eq := hinv.escrow_eq, not_both := hinv.not_both
      snapshot := hinv.snapshot, trusted_le := hinv.trusted_le, verified := ?_
      credited_eq := ?_, vouchers_eq := ?_, acked_sub := ?_ }
  · intro t ht
    rcases Finset.mem_insert.mp ht with rfl | ht
    · exact ⟨h, htr, hmem⟩
    · exact hinv.verified t ht
  · simp only [effect, hinv.credited_eq]
  · -- the receipt check makes the credited sequence a new one, so the count goes up by one
    have hfresh : s ∉ st.credited := hinv.credited_eq ▸ hnew
    simp only [effect]
    rw [Finset.card_insert_of_notMem hfresh, Nat.mul_succ, hinv.vouchers_eq]
  · exact hinv.acked_sub.trans (Finset.subset_insert s _)

theorem Inv.ackPacket {s : σ} (hinv : Inv c st) (hen : Enabled c st (.ackPacket s)) :
    Inv c (effect c st (.ackPacket s)) := by
  obtain ⟨hs, hcom, hrec, -⟩ := hen
  have hsent := sent_ackPacket hs hcom
  refine
    { conserved := hinv.conserved, escrow_eq := ?_, not_both := ?_, snapshot := ?_
      trusted_le := hinv.trusted_le, verified := hinv.verified
      credited_eq := hinv.credited_eq, vouchers_eq := hinv.vouchers_eq, acked_sub := ?_ }
  · rw [hsent]
    exact hinv.escrow_eq
  · intro t ht
    by_cases hts : t = s
    · subst hts
      simp [effect] at ht
    · have hcom' : st.commitments t = true := by
        simpa [effect, Function.update_of_ne hts] using ht
      simpa [effect, hts] using hinv.not_both t hcom'
  · intro h
    rw [hsent]
    exact hinv.snapshot h
  · exact Finset.insert_subset hrec hinv.acked_sub

theorem Inv.preserved (st : State σ) (a : Action σ) (st' : State σ) (hinv : Inv c st)
    (hstep : next c st a = some st') : Inv c st' := by
  obtain ⟨hen, rfl⟩ := next_eq_some.mp hstep
  cases a with
  | sendTransfer s => exact hinv.sendTransfer hen
  | advance => exact hinv.advance
  | updateClient h => exact hinv.updateClient hen
  | recvPacket s h => exact hinv.recvPacket hen
  | recvPacketRejected s h => exact hinv
  | ackPacket s => exact hinv.ackPacket hen

theorem Reaches.inv {acts : List (Action σ)} (hrun : Reaches c acts st) : Inv c st :=
  run_invariant Inv.preserved (inv_init c) hrun

/-! ## What a run never undoes -/

/-- `Advance` writes the snapshot of a height above every trusted one; nothing else writes one. -/
theorem committedAt_next {a : Action σ} (hinv : Inv c st) (hstep : next c st a = some st')
    {h : ℕ} (hh : h ∈ st.trusted) : st'.committedAt h = st.committedAt h := by
  obtain ⟨-, rfl⟩ := next_eq_some.mp hstep
  cases a with
  | advance =>
      have hne : h ≠ st.height + 1 := by
        have := hinv.trusted_le h hh
        omega
      simp [effect, Function.update_of_ne hne]
  | sendTransfer s => rfl
  | updateClient k => rfl
  | recvPacket s k => rfl
  | recvPacketRejected s k => rfl
  | ackPacket s => rfl

theorem trusted_next {a : Action σ} (hstep : next c st a = some st') : st.trusted ⊆ st'.trusted := by
  obtain ⟨-, rfl⟩ := next_eq_some.mp hstep
  cases a with
  | updateClient k => exact Finset.subset_insert k _
  | sendTransfer s => exact Finset.Subset.refl _
  | advance => exact Finset.Subset.refl _
  | recvPacket s k => exact Finset.Subset.refl _
  | recvPacketRejected s k => exact Finset.Subset.refl _
  | ackPacket s => exact Finset.Subset.refl _

/-- **Trusted snapshots are final.** From a state that satisfies the invariant, a run keeps every
trusted height trusted and its snapshot as it was. -/
theorem Inv.snapshots_final (hinv : Inv c st) {acts : List (Action σ)}
    (hrun : run (next c) st acts = some st') :
    ∀ h ∈ st.trusted, h ∈ st'.trusted ∧ st'.committedAt h = st.committedAt h := by
  refine run_rel (I := Inv c)
    (R := fun s t => ∀ h ∈ s.trusted, h ∈ t.trusted ∧ t.committedAt h = s.committedAt h)
    (fun s h hh => ⟨hh, rfl⟩) ?_ Inv.preserved ?_ hinv hrun
  · intro s t u hst htu h hh
    obtain ⟨ht, heq⟩ := hst h hh
    obtain ⟨hu, heq'⟩ := htu h ht
    exact ⟨hu, heq'.trans heq⟩
  · intro s a t hs hstep h hh
    exact ⟨trusted_next hstep hh, committedAt_next hs hstep hh⟩

/-! ## Refinement of the ladder -/

/-- The rung of a sequence, from the sets it is in: each counts one. -/
def rungOf (sent received acked : Finset σ) (s : σ) : ℕ :=
  (if s ∈ sent then 1 else 0) + (if s ∈ received then 1 else 0) + (if s ∈ acked then 1 else 0)

/-- The rung a sequence stands on: escrowed, received, acknowledged. -/
def rung (c : Constants σ) (st : State σ) : σ → ℕ :=
  rungOf (st.sent c) st.receipts st.ackedA

/-- The move an action makes on the ladder; light-client and block steps, and rejected
submissions, make none. -/
def move : Action σ → Option (Climb σ)
  | .sendTransfer s => some ⟨s, 0⟩
  | .recvPacket s _ => some ⟨s, 1⟩
  | .ackPacket s => some ⟨s, 2⟩
  | .advance => none
  | .updateClient _ => none
  | .recvPacketRejected _ _ => none

/-- Where each set lies in the one before, the rung says which of them a sequence is in. -/
theorem mem_iff_rungOf {sent received acked : Finset σ} (hacked : acked ⊆ received) (hreceived : received ⊆ sent)
    (s : σ) : (s ∈ acked ↔ 3 ≤ rungOf sent received acked s) ∧
      (s ∈ received ↔ 2 ≤ rungOf sent received acked s) := by
  have hrec : s ∈ acked → s ∈ received := fun h => hacked h
  have hsent : s ∈ received → s ∈ sent := fun h => hreceived h
  unfold rungOf
  split <;> split <;> split <;> simp_all

theorem Inv.acked_iff_rung (hinv : Inv c st) (s : σ) : s ∈ st.ackedA ↔ 3 ≤ rung c st s :=
  (mem_iff_rungOf hinv.acked_sub hinv.receipts_sub_sent s).1

theorem Inv.receipt_iff_rung (hinv : Inv c st) (s : σ) : s ∈ st.receipts ↔ 2 ≤ rung c st s :=
  (mem_iff_rungOf hinv.acked_sub hinv.receipts_sub_sent s).2

theorem rung_init (c : Constants σ) (s : σ) : rung c (init c) s = 0 := by
  simp [rung, rungOf, init, State.sent]

/-- Putting a key into one of the three sets moves that key up by one and no other key. -/
theorem rungOf_insert {sent received acked sent' received' acked' : Finset σ} {s : σ} {k : ℕ}
    (hat : rungOf sent' received' acked' s = k)
    (hoff : ∀ t, t ≠ s → rungOf sent' received' acked' t = rungOf sent received acked t) :
    Function.update (rungOf sent received acked) s k = rungOf sent' received' acked' := by
  funext t
  by_cases hts : t = s
  · subst hts
    rw [Function.update_self, hat]
  · rw [Function.update_of_ne hts, hoff t hts]

/-- **Step refinement.** A step that makes a move is that move of the ladder. -/
theorem next_refines_climb (st : State σ) (a : Action σ) (st' : State σ) (m : Climb σ)
    (hinv : Inv c st) (hstep : next c st a = some st') (hm : move a = some m) :
    Ladder.climb (rung c st) m = some (rung c st') := by
  obtain ⟨hen, rfl⟩ := next_eq_some.mp hstep
  rw [Ladder.climb_eq_some]
  cases a with
  | sendTransfer s =>
      obtain rfl : ⟨s, 0⟩ = m := by simpa [move] using hm
      have hfresh := hen.notMem_sent
      have hrec : s ∉ st.receipts := fun h => hfresh (hinv.receipts_sub_sent h)
      have hack : s ∉ st.ackedA := fun h => hrec (hinv.acked_sub h)
      have hrung : rung c (effect c st (.sendTransfer s)) =
          rungOf (insert s (st.sent c)) st.receipts st.ackedA := by
        unfold rung
        rw [sent_sendTransfer hen.1]
        rfl
      rw [hrung]
      refine ⟨by simp [rung, rungOf, hfresh, hrec, hack], rungOf_insert ?_ ?_⟩
      · simp [rungOf, hrec, hack]
      · intro t hts
        simp [rungOf, hts]
  | recvPacket s h =>
      obtain rfl : ⟨s, 1⟩ = m := by simpa [move] using hm
      obtain ⟨-, -, hrec, -, hmem⟩ := hen
      have hsent := hinv.snapshot h hmem
      have hack : s ∉ st.ackedA := fun h => hrec (hinv.acked_sub h)
      have hrung : rung c (effect c st (.recvPacket s h)) =
          rungOf (st.sent c) (insert s st.receipts) st.ackedA := rfl
      rw [hrung]
      refine ⟨by simp [rung, rungOf, hsent, hrec, hack], rungOf_insert ?_ ?_⟩
      · simp [rungOf, hsent, hack]
      · intro t hts
        simp [rungOf, hts]
  | ackPacket s =>
      obtain rfl : ⟨s, 2⟩ = m := by simpa [move] using hm
      obtain ⟨hs, hcom, hrec, hack⟩ := hen
      have hin : s ∈ st.sent c := State.mem_sent.mpr ⟨hs, Or.inl hcom⟩
      have hrung : rung c (effect c st (.ackPacket s)) =
          rungOf (st.sent c) st.receipts (insert s st.ackedA) := by
        unfold rung
        rw [sent_ackPacket hs hcom]
        rfl
      rw [hrung]
      refine ⟨by simp [rung, rungOf, hin, hrec, hack], rungOf_insert ?_ ?_⟩
      · simp [rungOf, hin, hrec]
      · intro t hts
        simp [rungOf, hts]
  | advance => simp [move] at hm
  | updateClient h => simp [move] at hm
  | recvPacketRejected s h => simp [move] at hm

/-- A step that makes no move leaves every sequence on its rung. -/
theorem rung_of_no_move (st : State σ) (a : Action σ) (st' : State σ) (_ : Inv c st)
    (hstep : next c st a = some st') (hm : move a = none) : rung c st' = rung c st := by
  obtain ⟨-, rfl⟩ := next_eq_some.mp hstep
  cases a with
  | advance => rfl
  | updateClient h => rfl
  | recvPacketRejected s h => rfl
  | sendTransfer s => simp [move] at hm
  | recvPacket s h => simp [move] at hm
  | ackPacket s => simp [move] at hm

/-- **Run refinement.** Every run is, seen through `rung`, a run of the ladder over its moves. -/
theorem run_refines_climb (hinv : Inv c st) {acts : List (Action σ)}
    (hrun : run (next c) st acts = some st') :
    run Ladder.climb (rung c st) (acts.filterMap move) = some (rung c st') :=
  run_simulates (rung c) move Inv.preserved rung_of_no_move next_refines_climb hinv hrun

end PqcMigration.LivePath
