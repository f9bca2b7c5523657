/-
# PqcMigration.LivePath.Safety — the three invariants of the transfer path, for every constant and
every finite run.

The spec is model-checked for two or three sequences and heights; its own README says that neither
tool establishes the unbounded result. Here the constants are arbitrary, the run is any list of
actions `Next` accepts from `Init` (rejected relayer submissions included), and each result is
assembled from the two facts of `Invariant`: the inductive invariant of the state, and the ladder
the actions climb.
-/
import PqcMigration.LivePath.Invariant

namespace PqcMigration.LivePath

open Lib

universe u

variable {σ : Type u}

/-! ## Reading the ladder's moves back as actions -/

theorem move_eq_send_iff {a : Action σ} {s : σ} : move a = some ⟨s, 0⟩ ↔ a = .sendTransfer s := by
  cases a <;> simp [move]

theorem rung_le_two_of_move {a : Action σ} {m : Climb σ} (hm : move a = some m) : m.rung ≤ 2 := by
  cases a <;> simp only [move, Option.some.injEq, reduceCtorEq] at hm <;> subst hm <;> simp

theorem mem_moves_iff {acts : List (Action σ)} {m : Climb σ} :
    m ∈ acts.filterMap move ↔ ∃ a ∈ acts, move a = some m :=
  List.mem_filterMap

variable [DecidableEq σ] {c : Constants σ} {st st' : State σ}

theorem count_sendTransfer_eq (acts : List (Action σ)) (s : σ) :
    acts.count (.sendTransfer s) = (acts.filterMap move).count ⟨s, 0⟩ := by
  rw [List.count_filterMap, List.count]
  congr 1
  funext a
  rw [Bool.eq_iff_iff, beq_iff_eq, beq_iff_eq]
  exact move_eq_send_iff.symm

/-! ## A full cycle -/

/-- The constants of `LivePath.cfg`. -/
def cfg : Constants ℕ where
  seqs := {1, 2}
  n := 3
  amount := 10
  initialA := 30

/-- Send, commit, trust, a forged submission, receive, acknowledge. -/
def cycle : List (Action ℕ) :=
  [.sendTransfer 1, .advance, .updateClient 2, .recvPacketRejected 2 2, .recvPacket 1 2,
    .ackPacket 1]

/-- The cycle is a run, and it credits and acknowledges: the results below are not vacuous. -/
theorem cycle_reaches : ∃ st, Reaches cfg cycle st ∧ st.credited = {1} ∧ st.ackedA = {1} := by
  have hrun : ((run (next cfg) (init cfg) cycle).map fun st => (st.credited, st.ackedA)) =
      some ({1}, {1}) := by decide
  obtain ⟨st, hst, heq⟩ := Option.map_eq_some_iff.mp hrun
  exact ⟨st, hst, congrArg Prod.fst heq, congrArg Prod.snd heq⟩

/-! ## Value is conserved -/

/-- No sequence is escrowed for twice: the sends of `s` in a run from `Init` number at most one. -/
theorem Reaches.count_sendTransfer_le_one {acts : List (Action σ)} (hrun : Reaches c acts st)
    (s : σ) : acts.count (.sendTransfer s) ≤ 1 := by
  rw [count_sendTransfer_eq, Ladder.count_climb (run_refines_climb (inv_init c) hrun)]
  split <;> omega

theorem Inv.vouchers_le_escrow (hinv : Inv c st) : st.vouchers ≤ st.escrow := by
  rw [hinv.vouchers_eq, hinv.escrow_eq]
  exact Nat.mul_le_mul_left _ (Finset.card_le_card hinv.credited_sub_sent)

/-- **Conservation, unbounded.** In every state a run reaches, `balA + escrow = InitialA`, vouchers
never exceed escrow, escrow is `Amount` for each sequence committed or acknowledged on A, and the
run sent no sequence twice. -/
theorem value_conserved {acts : List (Action σ)} (hrun : Reaches c acts st) :
    ConservationAcrossCycle c st ∧
      st.escrow =
        c.amount * (c.seqs.filter fun s => st.commitments s = true ∨ s ∈ st.ackedA).card ∧
      ∀ s, acts.count (.sendTransfer s) ≤ 1 := by
  have hinv := hrun.inv
  refine ⟨⟨hinv.conserved, hinv.vouchers_le_escrow⟩, hinv.escrow_eq, ?_⟩
  intro s
  exact hrun.count_sendTransfer_le_one s

theorem value_conserved_cycle :
    ∃ st, Reaches cfg cycle st ∧ st.credited = {1} ∧ ConservationAcrossCycle cfg st := by
  obtain ⟨st, hrun, hcred, -⟩ := cycle_reaches
  exact ⟨st, hrun, hcred, (value_conserved hrun).1⟩

/-! ## No credit without a verified packet -/

theorem Reaches.sent_of_credited {acts : List (Action σ)} (hrun : Reaches c acts st) {s : σ}
    (hs : s ∈ st.credited) : .sendTransfer s ∈ acts := by
  have hclimb := run_refines_climb (inv_init c) hrun
  have hrung : 2 ≤ rung c st s := by
    rw [← hrun.inv.receipt_iff_rung, ← hrun.inv.credited_eq]
    exact hs
  have hmove : (⟨s, 0⟩ : Climb σ) ∈ acts.filterMap move := by
    rw [Ladder.mem_iff_crossed hclimb, rung_init]
    omega
  obtain ⟨a, ha, hma⟩ := mem_moves_iff.mp hmove
  rwa [move_eq_send_iff.mp hma] at ha

/-- The send stands BEFORE the receive in the run, not merely somewhere in it. -/
theorem Reaches.sent_before_recv {pre post : List (Action σ)} {s : σ} {h : ℕ}
    (hrun : Reaches c (pre ++ .recvPacket s h :: post) st) : .sendTransfer s ∈ pre := by
  have hclimb := run_refines_climb (inv_init c) hrun
  have hmoves : (pre ++ .recvPacket s h :: post).filterMap move =
      pre.filterMap move ++ ⟨s, 1⟩ :: post.filterMap move := by
    rw [List.filterMap_append]
    rfl
  rw [hmoves] at hclimb
  have hmove := Ladder.mem_before hclimb (j := 0) (by rw [rung_init]) Nat.zero_lt_one
  obtain ⟨a, ha, hma⟩ := mem_moves_iff.mp hmove
  rwa [move_eq_send_iff.mp hma] at ha

/-- **No credit without a verified packet, against any relayer.** Every credited sequence is in the
snapshot of a height B trusts now, was sent by A before it was received, and no continuation of the
run changes the snapshot of a height that is already trusted. -/
theorem no_credit_without_verified_packet {acts : List (Action σ)} (hrun : Reaches c acts st) :
    NoCreditWithoutVerifiedPacket st ∧
      (∀ s ∈ st.credited, .sendTransfer s ∈ acts) ∧
      (∀ pre s h post, acts = pre ++ .recvPacket s h :: post → .sendTransfer s ∈ pre) ∧
      ∀ more st', run (next c) st more = some st' →
        ∀ h ∈ st.trusted, st'.committedAt h = st.committedAt h := by
  refine ⟨hrun.inv.verified, ?_, ?_, ?_⟩
  · intro s hs
    exact hrun.sent_of_credited hs
  · rintro pre s h post rfl
    exact hrun.sent_before_recv
  · intro more st' hmore h hh
    exact (hrun.inv.snapshots_final hmore h hh).2

theorem no_credit_cycle :
    ∃ st, Reaches cfg cycle st ∧ 1 ∈ st.credited ∧ ∃ h ∈ st.trusted, 1 ∈ st.committedAt h := by
  obtain ⟨st, hrun, hcred, -⟩ := cycle_reaches
  have hmem : 1 ∈ st.credited := by simp [hcred]
  exact ⟨st, hrun, hmem, (no_credit_without_verified_packet hrun).1 1 hmem⟩

/-! ## Exactly once -/

/-- Past the last rung there are no moves left: a continuation never touches `s` again. -/
theorem Inv.acked_is_final (hinv : Inv c st) {s : σ} (hs : s ∈ st.ackedA) {more : List (Action σ)}
    (hrun : run (next c) st more = some st') {a : Action σ} (ha : a ∈ more) {m : Climb σ}
    (hm : move a = some m) : m.key ≠ s := by
  rintro rfl
  have hrung := (hinv.acked_iff_rung m.key).mp hs
  have hclimb := run_refines_climb hinv hrun
  have hcross := (Ladder.mem_iff_crossed hclimb m.key m.rung).mp (mem_moves_iff.mpr ⟨a, ha, hm⟩)
  have htop := rung_le_two_of_move hm
  omega

/-- **Exactly-once processing.** Vouchers are `Amount` per credited sequence, credits are receipts,
what A acknowledged B has received, nothing is both committed and acknowledged, and once a sequence
is acknowledged no continuation sends, receives (hence credits) or acknowledges it again. -/
theorem exactly_once {acts : List (Action σ)} (hrun : Reaches c acts st) :
    NoDoublePacketProcessing c st ∧ st.credited = st.receipts ∧ st.ackedA ⊆ st.receipts ∧
      (∀ s, ¬ (st.commitments s = true ∧ s ∈ st.ackedA)) ∧
      ∀ s ∈ st.ackedA, ∀ more st', run (next c) st more = some st' →
        .sendTransfer s ∉ more ∧ (∀ h, .recvPacket s h ∉ more) ∧ .ackPacket s ∉ more := by
  have hinv := hrun.inv
  refine ⟨⟨?_, hinv.credited_eq.subset⟩, hinv.credited_eq, hinv.acked_sub, ?_, ?_⟩
  · rw [hinv.vouchers_eq, Nat.mul_comm]
  · rintro s ⟨hcom, hack⟩
    exact hinv.not_both s hcom hack
  · intro s hs more st' hmore
    refine ⟨?_, ?_, ?_⟩
    · intro hmem
      exact hinv.acked_is_final hs hmore hmem (m := ⟨s, 0⟩) rfl rfl
    · intro h hmem
      exact hinv.acked_is_final hs hmore hmem (m := ⟨s, 1⟩) rfl rfl
    · intro hmem
      exact hinv.acked_is_final hs hmore hmem (m := ⟨s, 2⟩) rfl rfl

theorem exactly_once_cycle :
    ∃ st, Reaches cfg cycle st ∧ 1 ∈ st.ackedA ∧
      ∀ more st', run (next cfg) st more = some st' →
        .sendTransfer 1 ∉ more ∧ (∀ h, .recvPacket 1 h ∉ more) ∧ .ackPacket 1 ∉ more := by
  obtain ⟨st, hrun, -, hack⟩ := cycle_reaches
  have hmem : 1 ∈ st.ackedA := by simp [hack]
  exact ⟨st, hrun, hmem, (exactly_once hrun).2.2.2.2 1 hmem⟩

end PqcMigration.LivePath
