/-
# PqcMigration.LivePath.Spec — the ICS-20 transfer path over IBC v2, transcribed from
`docs/live-path-verification/LivePath.tla`.

Chain A escrows and commits; chain B tracks A through a light client, verifies a commitment against
a trusted height, and credits. The TLA+ constants and variables keep their names. An action of the
spec is a guard and an assignment to the primed variables: here `Enabled` holds the guards and
`effect` the assignments, one line per action each, and `next` is their conjunction. `Next`
quantifies its actions over `Seqs` and `Heights`, so membership in them is part of the guard.

Choices of the transcription, all of them where nothing depends on the difference:

  * `Heights` is `1..n`, so `Cardinality(Heights)` in `Advance` is `n`;
  * the functions `commitments` and `committedAt` are total, the initial value standing outside
    `Seqs` and `Heights`;
  * balances are naturals: the only subtraction, `balA - Amount`, is guarded by `balA >= Amount`;
  * sequence numbers are an arbitrary type — the spec only ever compares them.

`UpdateClient` is the trust boundary: the spec takes as given that a trusted height is a height A
really reached, and so does this model.
-/
import Mathlib.Order.Interval.Finset.Nat
import PqcMigration.Lib.Run

namespace PqcMigration.LivePath

universe u

variable {σ : Type u}

/-! ## Constants, variables, actions -/

/-- The `CONSTANTS` of the spec. -/
structure Constants (σ : Type u) where
  seqs : Finset σ
  n : ℕ
  amount : ℕ
  initialA : ℕ

/-- `Heights = 1..n`. -/
def Constants.heights (c : Constants σ) : Finset ℕ := Finset.Icc 1 c.n

/-- The `VARIABLES` of the spec: chain A, then chain B, then A's height. -/
structure State (σ : Type u) where
  balA : ℕ
  escrow : ℕ
  commitments : σ → Bool
  committedAt : ℕ → Finset σ
  ackedA : Finset σ
  vouchers : ℕ
  receipts : Finset σ
  trusted : Finset ℕ
  credited : Finset σ
  height : ℕ

/-- One disjunct of `Next`, with the values its quantifiers chose. -/
inductive Action (σ : Type u) where
  | sendTransfer (s : σ)
  | advance
  | updateClient (h : ℕ)
  | recvPacket (s : σ) (h : ℕ)
  | recvPacketRejected (s : σ) (h : ℕ)
  | ackPacket (s : σ)
  deriving DecidableEq

/-- `Init`. -/
def init (c : Constants σ) : State σ where
  balA := c.initialA
  escrow := 0
  commitments := fun _ => false
  committedAt := fun _ => ∅
  ackedA := ∅
  vouchers := 0
  receipts := ∅
  trusted := ∅
  credited := ∅
  height := 1

/-! ## `Next` -/

/-- `ProofVerifies(s, h)`: the commitment is in A's state at a height B trusts. -/
def ProofVerifies (st : State σ) (s : σ) (h : ℕ) : Prop :=
  h ∈ st.trusted ∧ s ∈ st.committedAt h

variable [DecidableEq σ]

instance (st : State σ) (s : σ) (h : ℕ) : Decidable (ProofVerifies st s h) :=
  inferInstanceAs (Decidable (_ ∧ _))

/-- The guard of each action. -/
def Enabled (c : Constants σ) (st : State σ) : Action σ → Prop
  | .sendTransfer s =>
      s ∈ c.seqs ∧ st.commitments s = false ∧ s ∉ st.ackedA ∧ c.amount ≤ st.balA
  | .advance => st.height < c.n
  | .updateClient h => h ∈ c.heights ∧ h ≤ st.height ∧ h ∉ st.trusted
  -- replay protection is checked BEFORE the proof, as in `recvPacket`
  | .recvPacket s h => s ∈ c.seqs ∧ h ∈ c.heights ∧ s ∉ st.receipts ∧ ProofVerifies st s h
  | .recvPacketRejected s h => s ∈ c.seqs ∧ h ∈ c.heights ∧ ¬ ProofVerifies st s h
  | .ackPacket s =>
      s ∈ c.seqs ∧ st.commitments s = true ∧ s ∈ st.receipts ∧ s ∉ st.ackedA

instance (c : Constants σ) (st : State σ) : (a : Action σ) → Decidable (Enabled c st a)
  | .sendTransfer _ => inferInstanceAs (Decidable (_ ∧ _))
  | .advance => inferInstanceAs (Decidable (_ < _))
  | .updateClient _ => inferInstanceAs (Decidable (_ ∧ _))
  | .recvPacket _ _ => inferInstanceAs (Decidable (_ ∧ _))
  | .recvPacketRejected _ _ => inferInstanceAs (Decidable (_ ∧ _))
  | .ackPacket _ => inferInstanceAs (Decidable (_ ∧ _))

/-- The primed variables of each action; what is not mentioned is `UNCHANGED`. -/
def effect (c : Constants σ) (st : State σ) : Action σ → State σ
  | .sendTransfer s =>
      { st with
        balA := st.balA - c.amount
        escrow := st.escrow + c.amount
        commitments := Function.update st.commitments s true }
  | .advance =>
      { st with
        height := st.height + 1
        committedAt := Function.update st.committedAt (st.height + 1)
          (c.seqs.filter fun s => st.commitments s = true) }
  | .updateClient h => { st with trusted := insert h st.trusted }
  | .recvPacket s _ =>
      { st with
        receipts := insert s st.receipts
        vouchers := st.vouchers + c.amount
        credited := insert s st.credited }
  | .recvPacketRejected _ _ => st
  | .ackPacket s =>
      { st with
        commitments := Function.update st.commitments s false
        ackedA := insert s st.ackedA }

/-- `Next`, under the label of the disjunct taken. -/
def next (c : Constants σ) (st : State σ) (a : Action σ) : Option (State σ) :=
  if Enabled c st a then some (effect c st a) else none

theorem next_eq_some {c : Constants σ} {st st' : State σ} {a : Action σ} :
    next c st a = some st' ↔ Enabled c st a ∧ effect c st a = st' := by
  unfold next
  split <;> simp [*]

/-- A finite run of `Next` from `Init`, under the actions taken. -/
def Reaches (c : Constants σ) (acts : List (Action σ)) (st : State σ) : Prop :=
  Lib.run (next c) (init c) acts = some st

/-- The sequences A has escrowed for: committed now, or acknowledged already. -/
def State.sent (c : Constants σ) (st : State σ) : Finset σ :=
  c.seqs.filter fun s => st.commitments s = true ∨ s ∈ st.ackedA

theorem State.mem_sent {c : Constants σ} {st : State σ} {s : σ} :
    s ∈ st.sent c ↔ s ∈ c.seqs ∧ (st.commitments s = true ∨ s ∈ st.ackedA) := by
  simp [State.sent]

/-! ## The invariants the spec states -/

/-- Nothing is credited on B unless its commitment existed on A at a height B trusts. -/
def NoCreditWithoutVerifiedPacket (st : State σ) : Prop :=
  ∀ s ∈ st.credited, ∃ h ∈ st.trusted, s ∈ st.committedAt h

/-- `Amount` per distinct credited sequence, and every credited sequence has its receipt. -/
def NoDoublePacketProcessing (c : Constants σ) (st : State σ) : Prop :=
  st.vouchers = st.credited.card * c.amount ∧ st.credited ⊆ st.receipts

/-- What left A's user is in escrow, and the vouchers on B never exceed it. -/
def ConservationAcrossCycle (c : Constants σ) (st : State σ) : Prop :=
  st.balA + st.escrow = c.initialA ∧ st.vouchers ≤ st.escrow

end PqcMigration.LivePath
