/-
# PqcMigration.Devnet.ProofLegs — the legs that prove Ethereum state to Cosmos: `step-ack.js`,
`step-native-recv.js` and `step-redeem-recv.js`, any number of them at once.

Each process compares the commitment it is to prove with the router's storage, waits until finality covers
the block it was written in, has the light client updated, picks a slot the client has a consensus state
for, and takes an `eth_getProof` at the block of that slot. All share the one client. Meanwhile blocks are
mined and finalized, and an update that was submitted lands sooner or later, or never.

The update command submits the finality update it finds, unless the client is as new already; it exits with
code zero also when its transaction was refused or failed, or when it has given up. Its message file may be
sent by another process, or twice; so an update can land any number of times here. A query for
consensus states may answer with some of them only, since it is paginated. Beacon slots may be empty.

Whatever the schedule, a proof that is submitted verifies as long as the router keeps the commitment
(`proofs_verify`), and no process that has not failed is stuck, unless it is to ask the client once and
nothing late enough is there or on its way (`proof_completable`).
-/
import PqcMigration.BatchScaling.AckGas
import PqcMigration.Lib.Bytes
import PqcMigration.Lib.Run
import PqcMigration.Lib.Threads

namespace PqcMigration.Devnet.ProofLegs

open Lib

/-! ## Ethereum -/

/-- The history of Ethereum, as it comes to be finalized, and what the scripts use of it. -/
structure World where
  /-- the number of the execution block in a slot, if there is one -/
  execution : ℕ → Option ℕ
  execution_mono : ∀ slot slot' n n', slot ≤ slot' → execution slot = some n →
    execution slot' = some n' → n ≤ n'
  /-- the storage of `ICS26Router` after an execution block -/
  storage : ℕ → Bytes32 → Bytes32
  keccak256 : Bytes → Bytes32
  /-- `slotHex`, from `IBC_COMMITMENT_SLOT` -/
  slotHex : Bytes

/-- `keccak256(concat([keccak256(path), slotHex]))` -/
def World.storageKey (w : World) (path : Bytes) : Bytes32 := w.keccak256 ((w.keccak256 path).1 ++ w.slotHex)

/-! ## The scripts -/

/-- `step-ack.js`, or one of the other two. -/
inductive Leg where
  | ack
  | recv
  deriving DecidableEq

/-- What a process is to prove: that the router has had `commitment` at `path` since the block `block`. -/
structure Job where
  leg : Leg
  /-- `packetAckKey` of the packet's destination, or `packetCommitmentKey` of its source -/
  path : Bytes
  /-- `ackCommitment` of the acknowledgement, or the commitment in the handoff file -/
  commitment : Bytes32
  /-- `ackBlockNumber`, or `sendBlockNumber` -/
  block : ℕ

inductive Pc where
  | start
  /-- waiting for finality, for the turn `i` -/
  | waiting (i : ℕ)
  /-- about to run the update command -/
  | updating (proofSlot attempt : ℕ)
  /-- about to ask for the consensus states -/
  | querying (proofSlot attempt : ℕ)
  | proving (useSlot : ℕ)
  | done
  | failed
  deriving DecidableEq

/-- The top of the loop of `step-ack.js`: `UPDATE_EVERY` is 3. -/
def atTop (proofSlot attempt : ℕ) : Pc :=
  if attempt % 3 = 0 then .updating proofSlot attempt else .querying proofSlot attempt

/-- `useSlot` of the two other scripts: the slot itself, or the least that is not older. -/
def leastSlot (proofSlot : ℕ) (seen : List ℕ) : Option ℕ :=
  if proofSlot ∈ seen then some proofSlot else (seen.filter fun s => proofSlot ≤ s).min?

/-- After the query: `step-ack.js` takes the newest slot, and polls on if there is none; that a slot is
truthy it checks as well. The other two ask once. -/
def afterQuery (leg : Leg) (proofSlot attempt : ℕ) (seen : List ℕ) (timeUp : Bool) : Pc :=
  match leg with
  | .ack =>
      match BatchScaling.usableSlot proofSlot seen with
      | some useSlot => if useSlot = 0 then .failed else .proving useSlot
      | none => if timeUp then .failed else atTop proofSlot (attempt + 1)
  | .recv =>
      match leastSlot proofSlot seen with
      | some useSlot => .proving useSlot
      | none => .failed

/-- What a submitted message says: `proof_height`, and the value the storage proof shows. -/
structure Proof where
  useSlot : ℕ
  value : Bytes32

structure State (ι : Type) where
  /-- the newest execution block -/
  head : ℕ
  /-- the slot of the finalized header -/
  finalized : ℕ
  /-- the slots the client has a consensus state for -/
  heights : List ℕ
  /-- the slots of the updates that were submitted -/
  submitted : List ℕ
  pc : ι → Pc
  sent : List (ι × Proof)

inductive Act where
  | check
  | pollFinality
  /-- `sent`: the transaction went out -/
  | update (seen : List ℕ) (sent : Bool)
  /-- the update command fails, which `step-ack.js` takes no notice of -/
  | updateFails
  | query (seen : List ℕ) (timeUp : Bool)
  | prove
  /-- a command or a request throws -/
  | crash

/-- Where a process is after an act, and what it has submitted. -/
structure Outcome where
  pc : Pc
  updates : List ℕ
  proofs : List Proof

inductive Event (ι : Type) where
  | mine
  | finalize (slot : ℕ)
  /-- an update is executed on Cosmos -/
  | land (slot : ℕ)
  | act (i : ι) (a : Act)

section Step

variable {ι : Type} (w : World)

def act (job : Job) (s : State ι) : Act → Pc → Option Outcome
  | .check, .start =>
      let stored := w.storage s.head (w.storageKey job.path)
      some ⟨if stored = job.commitment then .waiting 0 else .failed, [], []⟩
  | .pollFinality, .waiting k =>
      (w.execution s.finalized).map fun execNum =>
        ⟨if job.block ≤ execNum then atTop s.finalized 0
          else if k + 1 < 60 then .waiting (k + 1) else .failed, [], []⟩
  | .update seen sent, .updating proofSlot attempt =>
      if seen ⊆ s.heights then
        seen.max?.map fun trusted =>
          ⟨.querying proofSlot attempt, if trusted < s.finalized ∧ sent then [s.finalized] else [], []⟩
      else none
  | .updateFails, .updating proofSlot attempt =>
      if job.leg = .ack then some ⟨.querying proofSlot attempt, [], []⟩ else none
  | .query seen timeUp, .querying proofSlot attempt =>
      if seen ⊆ s.heights then some ⟨afterQuery job.leg proofSlot attempt seen timeUp, [], []⟩ else none
  | .prove, .proving useSlot =>
      (w.execution useSlot).map fun useBlock =>
        ⟨.done, [], [⟨useSlot, w.storage useBlock (w.storageKey job.path)⟩]⟩
  | .crash, p => if p = .done ∨ p = .failed then none else some ⟨.failed, [], []⟩
  | _, _ => none

variable [DecidableEq ι]

def State.after (s : State ι) (i : ι) (o : Outcome) : State ι :=
  { s with
    pc := Function.update s.pc i o.pc
    submitted := o.updates ++ s.submitted
    sent := o.proofs.map (i, ·) ++ s.sent }

def step (jobs : ι → Job) (s : State ι) : Event ι → Option (State ι)
  | .mine => some { s with head := s.head + 1 }
  | .finalize slot =>
      (w.execution slot).bind fun n =>
        if s.finalized ≤ slot ∧ n ≤ s.head then some { s with finalized := slot } else none
  | .land slot => if slot ∈ s.submitted then some { s with heights := slot :: s.heights } else none
  | .act i a => (act w (jobs i) s a (s.pc i)).map (s.after i)

end Step

/-- The slot is finalized, and not empty. -/
def Final {ι : Type} (w : World) (s : State ι) (slot : ℕ) : Prop :=
  slot ≤ s.finalized ∧ ∃ n, w.execution slot = some n ∧ n ≤ s.head

/-- The scripts are started while the client exists; what it has consensus states for is finalized. -/
structure IsStart {ι : Type} (w : World) (s : State ι) : Prop where
  finalized : Final w s s.finalized
  heights : ∀ slot ∈ s.heights, Final w s slot
  created : s.heights ≠ []
  submitted : s.submitted = []
  pc : ∀ i, s.pc i = .start
  sent : s.sent = []

/-! ## The slot that is picked -/

section Slots

variable {leg : Leg} {proofSlot useSlot : ℕ} {seen : List ℕ}

theorem mem_of_leastSlot (h : leastSlot proofSlot seen = some useSlot) :
    useSlot ∈ seen ∧ proofSlot ≤ useSlot := by
  unfold leastSlot at h
  split at h
  · next hexact =>
    cases h
    exact ⟨hexact, Nat.le_refl _⟩
  · have hmem := List.mem_filter.mp (List.min?_mem h)
    exact ⟨hmem.1, of_decide_eq_true hmem.2⟩

/-- The query fails, or is repeated, or picks a slot that is late enough. -/
theorem afterQuery_cases (leg : Leg) (proofSlot attempt : ℕ) (seen : List ℕ) (timeUp : Bool) :
    afterQuery leg proofSlot attempt seen timeUp = .failed ∨
    leg = .ack ∧ afterQuery leg proofSlot attempt seen timeUp = atTop proofSlot (attempt + 1) ∨
    ∃ useSlot ∈ seen, proofSlot ≤ useSlot ∧
      afterQuery leg proofSlot attempt seen timeUp = .proving useSlot := by
  unfold afterQuery
  cases leg with
  | ack =>
      cases huse : BatchScaling.usableSlot proofSlot seen with
      | some useSlot =>
          have hmem := List.mem_filter.mp (List.max?_mem huse)
          dsimp only
          split
          · exact .inl rfl
          · exact .inr (.inr ⟨useSlot, hmem.1, of_decide_eq_true hmem.2, rfl⟩)
      | none => cases timeUp <;> simp
  | recv =>
      cases huse : leastSlot proofSlot seen with
      | some useSlot =>
          obtain ⟨hmem, hle⟩ := mem_of_leastSlot huse
          exact .inr (.inr ⟨useSlot, hmem, hle, rfl⟩)
      | none => exact .inl rfl

/-- A slot that is late enough is found; `step-ack.js` takes the newest, which must not be slot 0. -/
theorem exists_afterQuery (attempt : ℕ) (timeUp : Bool) {slot : ℕ} (hmem : slot ∈ seen) (hle : proofSlot ≤ slot)
    (hpos : leg = .ack → 0 < slot) :
    ∃ useSlot, afterQuery leg proofSlot attempt seen timeUp = .proving useSlot := by
  have hslot : slot ∈ seen.filter fun s => proofSlot ≤ s := List.mem_filter.mpr ⟨hmem, decide_eq_true hle⟩
  cases leg with
  | ack =>
      obtain ⟨useSlot, huse⟩ := Option.ne_none_iff_exists'.mp
        (mt List.max?_eq_none_iff.mp (List.ne_nil_of_mem hslot))
      have hnewest := (List.max?_eq_some_iff.mp huse).2 slot hslot
      have hne : useSlot ≠ 0 := (Nat.lt_of_lt_of_le (hpos rfl) hnewest).ne'
      exact ⟨useSlot, by simp only [afterQuery, BatchScaling.usableSlot, huse, if_neg hne]⟩
  | recv =>
      by_cases hexact : proofSlot ∈ seen
      · exact ⟨proofSlot, by simp only [afterQuery, leastSlot, if_pos hexact]⟩
      · obtain ⟨useSlot, huse⟩ := Option.ne_none_iff_exists'.mp
          (mt List.min?_eq_none_iff.mp (List.ne_nil_of_mem hslot))
        exact ⟨useSlot, by simp only [afterQuery, leastSlot, if_neg hexact, huse]⟩

end Slots

/-! ## The invariant -/

section Inv

variable {ι : Type}

/-- The block of the slot is not older than the commitment. -/
def Covers (w : World) (job : Job) (slot : ℕ) : Prop := ∃ n, w.execution slot = some n ∧ job.block ≤ n

/-- What a process knows where it stands. -/
def Known (w : World) (job : Job) (s : State ι) : Pc → Prop
  | .updating proofSlot _ => Final w s proofSlot ∧ Covers w job proofSlot
  | .querying proofSlot _ => Final w s proofSlot ∧ Covers w job proofSlot
  | .proving useSlot => useSlot ∈ s.heights ∧ Covers w job useSlot
  | _ => True

/-- What is known of a proof that was submitted. -/
def Backed (w : World) (job : Job) (s : State ι) (m : Proof) : Prop :=
  m.useSlot ∈ s.heights ∧ ∃ useBlock, w.execution m.useSlot = some useBlock ∧ job.block ≤ useBlock ∧
    m.value = w.storage useBlock (w.storageKey job.path)

structure Inv (w : World) (jobs : ι → Job) (s : State ι) : Prop where
  finalized : Final w s s.finalized
  heights : ∀ slot ∈ s.heights, Final w s slot
  created : s.heights ≠ []
  submitted : ∀ slot ∈ s.submitted, Final w s slot
  known : ∀ i, Known w (jobs i) s (s.pc i)
  backed : ∀ m ∈ s.sent, Backed w (jobs m.1) s m.2
  done : ∀ i, s.pc i = .done → ∃ m ∈ s.sent, m.1 = i

variable {w : World} {jobs : ι → Job} {s t : State ι}

/-- Both chains only grow. -/
structure Grows (s t : State ι) : Prop where
  head : s.head ≤ t.head
  finalized : s.finalized ≤ t.finalized
  heights : s.heights ⊆ t.heights

theorem Final.grow {slot : ℕ} (h : Final w s slot) (hg : Grows s t) : Final w t slot := by
  obtain ⟨hle, n, hn, hhead⟩ := h
  exact ⟨hle.trans hg.finalized, n, hn, hhead.trans hg.head⟩

theorem Known.grow {job : Job} {p : Pc} (h : Known w job s p) (hg : Grows s t) : Known w job t p := by
  cases p with
  | updating proofSlot attempt => exact ⟨h.1.grow hg, h.2⟩
  | querying proofSlot attempt => exact ⟨h.1.grow hg, h.2⟩
  | proving useSlot => exact ⟨hg.heights h.1, h.2⟩
  | start | waiting | done | failed => trivial

/-- A slot that is not older than one that covers the commitment covers it too. -/
theorem Covers.later {job : Job} {slot slot' : ℕ} (h : Covers w job slot) (hle : slot ≤ slot')
    (hfinal : Final w s slot') : Covers w job slot' := by
  obtain ⟨n, hn, hblock⟩ := h
  obtain ⟨-, n', hn', -⟩ := hfinal
  exact ⟨n', hn', hblock.trans (w.execution_mono slot slot' n n' hle hn hn')⟩

theorem inv_start (hstart : IsStart w s) : Inv w jobs s where
  finalized := hstart.finalized
  heights := hstart.heights
  created := hstart.created
  submitted := by simp [hstart.submitted]
  known i := by simp [hstart.pc i, Known]
  backed := by simp [hstart.sent]
  done i hi := by simp [hstart.pc i] at hi

/-- The chains went on, and no process moved. -/
theorem Inv.of_grows (hs : Inv w jobs s) (hg : Grows s t) (hpc : t.pc = s.pc) (hsent : t.sent = s.sent)
    (hfinal : Final w t t.finalized) (hheights : ∀ slot ∈ t.heights, Final w t slot)
    (hsub : t.submitted = s.submitted) : Inv w jobs t where
  finalized := hfinal
  heights := hheights
  created := fun hnil => hs.created (List.eq_nil_of_subset_nil (hnil ▸ hg.heights))
  submitted := by
    rw [hsub]
    exact fun slot hslot => (hs.submitted slot hslot).grow hg
  known := by
    rw [hpc]
    exact fun i => (hs.known i).grow hg
  backed := by
    rw [hsent]
    exact fun m hm => ⟨hg.heights (hs.backed m hm).1, (hs.backed m hm).2⟩
  done := by
    rw [hpc, hsent]
    exact hs.done

/-- What an act leaves: the process knows where it is, a submitted update is of the finalized slot, and a
submitted proof is backed. -/
theorem Inv.act (hs : Inv w jobs s) {i : ι} {a : Act} {o : Outcome}
    (h : ProofLegs.act w (jobs i) s a (s.pc i) = some o) :
    Known w (jobs i) { s with submitted := o.updates ++ s.submitted } o.pc ∧
      (∀ slot ∈ o.updates, slot = s.finalized) ∧ (∀ m ∈ o.proofs, Backed w (jobs i) s m) ∧
      (o.pc = .done → o.proofs ≠ []) := by
  have hknown := hs.known i
  unfold ProofLegs.act at h
  split at h
  · cases h
    dsimp only
    split <;> simp [Known]
  · obtain ⟨n, hn, rfl⟩ := Option.map_eq_some_iff.mp h
    dsimp only
    split
    · next hle => exact ⟨⟨hs.finalized, n, hn, hle⟩, by simp, by simp, by simp [atTop]⟩
    · split <;> simp [Known]
  · next seen sent proofSlot attempt hpc =>
    rw [hpc] at hknown
    split at h
    · obtain ⟨trusted, -, rfl⟩ := Option.map_eq_some_iff.mp h
      refine ⟨hknown, ?_, by simp, by simp⟩
      dsimp only
      split <;> simp
    · cases h
  · next proofSlot attempt hpc =>
    rw [hpc] at hknown
    split at h
    · cases h
      exact ⟨hknown, by simp, by simp, by simp⟩
    · cases h
  · next seen timeUp proofSlot attempt hpc =>
    rw [hpc] at hknown
    split at h
    · next hseen =>
      cases h
      rcases afterQuery_cases (jobs i).leg proofSlot attempt seen timeUp with
        hpc' | ⟨hleg, hpc'⟩ | ⟨useSlot, hmem, hle, hpc'⟩
      · exact ⟨by simp [hpc', Known], by simp, by simp, by simp [hpc']⟩
      · simp only [hpc', atTop]
        split
        · exact ⟨hknown, by simp, by simp, by simp⟩
        · exact ⟨hknown, by simp, by simp, by simp⟩
      · simp only [hpc']
        have hlater := hknown.2.later hle (hs.heights useSlot (hseen hmem))
        exact ⟨⟨hseen hmem, hlater⟩, by simp, by simp, by simp⟩
    · cases h
  · next useSlot hpc =>
    rw [hpc] at hknown
    obtain ⟨hmem, n, hn, hle⟩ := hknown
    obtain ⟨useBlock, hblock, rfl⟩ := Option.map_eq_some_iff.mp h
    cases hblock.symm.trans hn
    refine ⟨trivial, by simp, fun m hm => ?_, by simp⟩
    cases List.mem_singleton.mp hm
    exact ⟨hmem, n, hn, hle, rfl⟩
  · split at h
    · cases h
    · cases h
      exact ⟨trivial, by simp, by simp, by simp⟩
  · cases h

/-- What the client checks of a message: that it has a consensus state at the height, and that at the
block of that slot the storage has the commitment, which is the value shown, at its key. -/
def Verifies (w : World) (job : Job) (s : State ι) (m : Proof) : Prop :=
  m.useSlot ∈ s.heights ∧ m.value = job.commitment ∧ ∃ useBlock,
    w.execution m.useSlot = some useBlock ∧ w.storage useBlock (w.storageKey job.path) = m.value

theorem Inv.verifies (hs : Inv w jobs s) {m : ι × Proof} (hm : m ∈ s.sent)
    (hkept : ∀ n, (jobs m.1).block ≤ n → n ≤ s.head →
      w.storage n (w.storageKey (jobs m.1).path) = (jobs m.1).commitment) :
    Verifies w (jobs m.1) s m.2 := by
  obtain ⟨hmem, useBlock, hblock, hle, hvalue⟩ := hs.backed m hm
  obtain ⟨-, n, hn, hhead⟩ := hs.heights m.2.useSlot hmem
  cases hblock.symm.trans hn
  exact ⟨hmem, hvalue.trans (hkept useBlock hle hhead), useBlock, hblock, hvalue.symm⟩

variable [DecidableEq ι]

theorem Inv.after (hs : Inv w jobs s) {i : ι} {a : Act} {o : Outcome}
    (h : ProofLegs.act w (jobs i) s a (s.pc i) = some o) : Inv w jobs (s.after i o) := by
  obtain ⟨hknown, hupdates, hproofs, hdone⟩ := hs.act h
  have hg : Grows s (s.after i o) :=
    ⟨Nat.le_refl _, Nat.le_refl _, List.Subset.refl _⟩
  refine ⟨hs.finalized, hs.heights, hs.created, fun slot hslot => ?_, fun j => ?_, fun m hm => ?_,
    fun j hj => ?_⟩
  · rcases List.mem_append.mp hslot with hnew | hold
    · rw [hupdates slot hnew]
      exact hs.finalized
    · exact hs.submitted slot hold
  · show Known w (jobs j) (s.after i o) (Function.update s.pc i o.pc j)
    by_cases hji : j = i
    · subst hji
      rw [Function.update_self]
      exact hknown.grow ⟨Nat.le_refl _, Nat.le_refl _, List.Subset.refl _⟩
    · rw [Function.update_of_ne hji]
      exact (hs.known j).grow hg
  · rcases List.mem_append.mp hm with hnew | hold
    · obtain ⟨m, hproof, rfl⟩ := List.mem_map.mp hnew
      exact hproofs m hproof
    · exact hs.backed m hold
  · rcases of_update (Q := fun q => q = Pc.done) hj with ⟨rfl, hpc⟩ | ⟨-, hbefore⟩
    · obtain ⟨m, hm⟩ := List.exists_mem_of_ne_nil _ (hdone hpc)
      exact ⟨(j, m), List.mem_append_left _ (List.mem_map_of_mem hm), rfl⟩
    · obtain ⟨m, hm, hworker⟩ := hs.done j hbefore
      exact ⟨m, List.mem_append_right _ hm, hworker⟩

/-- One step keeps the invariant. -/
theorem Inv.step {e : Event ι} (hs : Inv w jobs s) (h : ProofLegs.step w jobs s e = some t) :
    Inv w jobs t := by
  cases e with
  | mine =>
      cases h
      have hg : Grows s { s with head := s.head + 1 } :=
        ⟨Nat.le_succ _, Nat.le_refl _, List.Subset.refl _⟩
      exact hs.of_grows hg rfl rfl (hs.finalized.grow hg)
        (fun slot hslot => (hs.heights slot hslot).grow hg) rfl
  | finalize slot =>
      obtain ⟨n, hn, h⟩ := Option.bind_eq_some_iff.mp h
      split at h
      · next hle =>
        cases h
        have hg : Grows s { s with finalized := slot } :=
          ⟨Nat.le_refl _, hle.1, List.Subset.refl _⟩
        exact hs.of_grows hg rfl rfl ⟨Nat.le_refl _, n, hn, hle.2⟩
          (fun slot hslot => (hs.heights slot hslot).grow hg) rfl
      · cases h
  | land slot =>
      simp only [ProofLegs.step] at h
      split at h
      · next hmem =>
        cases h
        have hg : Grows s { s with heights := slot :: s.heights } :=
          ⟨Nat.le_refl _, Nat.le_refl _, List.subset_cons_self _ _⟩
        refine hs.of_grows hg rfl rfl (hs.finalized.grow hg) (fun slot' hslot' => ?_) rfl
        rcases List.mem_cons.mp hslot' with rfl | hold
        · exact (hs.submitted _ hmem).grow hg
        · exact (hs.heights _ hold).grow hg
      · cases h
  | act i a =>
      obtain ⟨o, ho, rfl⟩ := Option.map_eq_some_iff.mp h
      exact hs.after ho

/-- **Every run keeps the invariant.** -/
theorem Inv.run {evs : List (Event ι)} (hs : Inv w jobs s)
    (hrun : Lib.run (ProofLegs.step w jobs) s evs = some t) : Inv w jobs t :=
  run_invariant (fun _ _ _ hs hstep => Inv.step hs hstep) hs hrun

/-! ## Going on -/

/-- Some run leads to where the process has submitted its message. -/
def CanSend (w : World) (jobs : ι → Job) (i : ι) (s : State ι) : Prop :=
  ∃ evs t, run (ProofLegs.step w jobs) s evs = some t ∧ ∃ m ∈ t.sent, m.1 = i

theorem CanSend.of_run {i : ι} {evs : List (Event ι)} (hrun : run (ProofLegs.step w jobs) s evs = some t)
    (ht : CanSend w jobs i t) : CanSend w jobs i s := by
  obtain ⟨more, u, hmore, hsent⟩ := ht
  exact ⟨evs ++ more, u, run_append_eq_some.mpr ⟨t, hrun, hmore⟩, hsent⟩

theorem CanSend.of_step {i : ι} (e : Event ι) (hstep : ProofLegs.step w jobs s e = some t)
    (ht : CanSend w jobs i t) : CanSend w jobs i s :=
  ht.of_run (run_cons_eq_some.mpr ⟨t, hstep, run_nil t⟩)

/-- The process acts. -/
theorem CanSend.of_act {i : ι} {a : Act} {o : Outcome} (hs : Inv w jobs s)
    (hact : ProofLegs.act w (jobs i) s a (s.pc i) = some o)
    (ht : ∀ t, Inv w jobs t → t.pc i = o.pc → o.updates ⊆ t.submitted → o.proofs.map (i, ·) ⊆ t.sent →
      CanSend w jobs i t) : CanSend w jobs i s := by
  refine .of_step (.act i a) (t := s.after i o) ?_ (ht _ (hs.after hact) (Function.update_self i _ _) ?_ ?_)
  · rw [ProofLegs.step, hact, Option.map_some]
  · exact List.subset_append_left _ _
  · exact List.subset_append_left _ _

theorem run_mine (w : World) (jobs : ι → Job) (s : State ι) (k : ℕ) :
    run (ProofLegs.step w jobs) s (List.replicate k .mine) = some { s with head := s.head + k } := by
  induction k generalizing s with
  | zero => rfl
  | succ k ih =>
      rw [List.replicate_succ, run_cons]
      show run (ProofLegs.step w jobs) { s with head := s.head + 1 } (List.replicate k .mine) = _
      rw [ih]
      simp only [Nat.add_right_comm s.head 1 k, Nat.add_assoc s.head k 1]

/-- Ethereum goes on. -/
def Lives (w : World) : Prop := ∀ slot n, ∃ slot' n', slot ≤ slot' ∧ n ≤ n' ∧ w.execution slot' = some n'

/-- Finality gets past any slot and any block. -/
theorem exists_finalized (hlive : Lives w) (jobs : ι → Job) (s : State ι) (slot n : ℕ) :
    ∃ k slot' n' evs, slot ≤ slot' ∧ n ≤ n' ∧ w.execution slot' = some n' ∧
      run (ProofLegs.step w jobs) s evs = some { s with head := s.head + k, finalized := slot' } := by
  obtain ⟨slot', n', hslot, hn, hexec⟩ := hlive (max slot s.finalized) n
  refine ⟨n', slot', n', List.replicate n' .mine ++ [.finalize slot'], (le_max_left _ _).trans hslot, hn,
    hexec, run_append_eq_some.mpr ⟨_, run_mine w jobs s n', ?_⟩⟩
  refine run_cons_eq_some.mpr ⟨_, ?_, rfl⟩
  simp only [ProofLegs.step, hexec, Option.bind_some]
  rw [if_pos ⟨(le_max_right _ _).trans hslot, Nat.le_add_left _ _⟩]

theorem canSend_of_proving (hs : Inv w jobs s) {i : ι} {useSlot : ℕ} (hpc : s.pc i = .proving useSlot) :
    CanSend w jobs i s := by
  have hknown := hs.known i
  rw [hpc] at hknown
  obtain ⟨-, n, hn, -⟩ := hknown
  refine .of_act (a := .prove) hs (by rw [hpc, ProofLegs.act, hn, Option.map_some]) ?_
  intro t _ _ _ hsent
  exact ⟨[], t, rfl, _, hsent List.mem_cons_self, rfl⟩

theorem canSend_of_height (hs : Inv w jobs s) {i : ι} {proofSlot attempt slot : ℕ}
    (hpc : s.pc i = .querying proofSlot attempt) (hmem : slot ∈ s.heights) (hle : proofSlot ≤ slot)
    (hpos : (jobs i).leg = .ack → 0 < slot) : CanSend w jobs i s := by
  obtain ⟨useSlot, huse⟩ := exists_afterQuery attempt false hmem hle hpos
  refine .of_act (a := .query s.heights false) hs (by rw [hpc, ProofLegs.act, if_pos (List.Subset.refl _)]) ?_
  intro t ht hpc' _ _
  exact canSend_of_proving ht (hpc'.trans huse)

/-- The client has a slot that is late enough, or an update to it lands. -/
theorem canSend_of_slot (hs : Inv w jobs s) {i : ι} {proofSlot attempt slot : ℕ}
    (hpc : s.pc i = .querying proofSlot attempt) (hmem : slot ∈ s.submitted ++ s.heights)
    (hle : proofSlot ≤ slot) (hpos : (jobs i).leg = .ack → 0 < slot) : CanSend w jobs i s := by
  rcases List.mem_append.mp hmem with hsub | hheight
  · have hstep : ProofLegs.step w jobs s (.land slot) = some { s with heights := slot :: s.heights } :=
      if_pos hsub
    exact .of_step _ hstep (canSend_of_height (hs.step hstep) hpc List.mem_cons_self hle hpos)
  · exact canSend_of_height hs hpc hheight hle hpos

/-- Finality gets past all that the client has, so the update command submits something. -/
theorem canSend_of_updating (hlive : Lives w) (hs : Inv w jobs s) {i : ι} {proofSlot attempt : ℕ}
    (hpc : s.pc i = .updating proofSlot attempt) : CanSend w jobs i s := by
  obtain ⟨trusted, htrusted⟩ := Option.ne_none_iff_exists'.mp (mt List.max?_eq_none_iff.mp hs.created)
  have hknown := hs.known i
  rw [hpc] at hknown
  obtain ⟨k, slot, n, evs, hslot, -, -, hrun⟩ :=
    exists_finalized hlive jobs s (max (trusted + 1) s.finalized) 0
  have hnew : trusted < slot := Nat.lt_of_succ_le ((le_max_left _ _).trans hslot)
  have hle : proofSlot ≤ slot := hknown.1.1.trans ((le_max_right _ _).trans hslot)
  refine .of_run hrun (.of_act (a := .update s.heights true)
    (o := ⟨.querying proofSlot attempt, [slot], []⟩) (hs.run hrun) ?_ fun t ht hpc' hsub _ => ?_)
  · rw [hpc, ProofLegs.act, if_pos (List.Subset.refl _), htrusted, Option.map_some, if_pos ⟨hnew, rfl⟩]
  · exact canSend_of_slot ht hpc' (List.mem_append_left _ (hsub List.mem_cons_self)) hle
      fun _ => Nat.lt_of_le_of_lt (Nat.zero_le trusted) hnew

/-- `step-ack.js` polls until it runs the update command again, `k + 1` turns later. -/
theorem canSend_of_polling {s : State ι} (hlive : Lives w) (hs : Inv w jobs s) {i : ι}
    (hleg : (jobs i).leg = .ack) {proofSlot attempt : ℕ} (hpc : s.pc i = .querying proofSlot attempt) (k : ℕ)
    (hk : (attempt + 1 + k) % 3 = 0) : CanSend w jobs i s := by
  refine .of_act (a := .query [] false) hs (by rw [hpc, ProofLegs.act, if_pos (List.nil_subset _)]) ?_
  intro t ht hpc' _ _
  rw [hleg] at hpc'
  by_cases htop : (attempt + 1) % 3 = 0
  · exact canSend_of_updating hlive ht (hpc'.trans (if_pos htop))
  · cases k with
    | zero => exact absurd hk htop
    | succ k => exact canSend_of_polling hlive ht hleg (hpc'.trans (if_neg htop)) k (by omega)

theorem canSend_of_querying (hlive : Lives w) (hs : Inv w jobs s) {i : ι} {proofSlot attempt : ℕ}
    (hpc : s.pc i = .querying proofSlot attempt)
    (hslot : (jobs i).leg = .recv → ∃ slot ∈ s.submitted ++ s.heights, proofSlot ≤ slot) :
    CanSend w jobs i s := by
  cases hleg : (jobs i).leg with
  | ack => exact canSend_of_polling hlive hs hleg hpc (2 - attempt % 3) (by omega)
  | recv =>
      obtain ⟨slot, hmem, hle⟩ := hslot hleg
      exact canSend_of_slot hs hpc hmem hle (by simp [hleg])

theorem canSend_of_waiting (hlive : Lives w) (hs : Inv w jobs s) {i : ι} {k : ℕ}
    (hpc : s.pc i = .waiting k) : CanSend w jobs i s := by
  obtain ⟨mined, slot, n, evs, -, hn, hexec, hrun⟩ := exists_finalized hlive jobs s 0 (jobs i).block
  refine .of_run hrun (.of_act (a := .pollFinality) (o := ⟨.updating slot 0, [], []⟩) (hs.run hrun) ?_
    fun t ht hpc' _ _ => ?_)
  · rw [hpc, ProofLegs.act, hexec, Option.map_some, if_pos hn]
    rfl
  · exact canSend_of_updating hlive ht hpc'

/-- The block with the commitment is mined, if it is not yet. -/
theorem canSend_of_start (hlive : Lives w) (hs : Inv w jobs s) {i : ι} (hpc : s.pc i = .start)
    (hkept : ∀ n, (jobs i).block ≤ n → w.storage n (w.storageKey (jobs i).path) = (jobs i).commitment) :
    CanSend w jobs i s := by
  have hrun := run_mine w jobs s (jobs i).block
  refine .of_run hrun (.of_act (a := .check) (o := ⟨.waiting 0, [], []⟩) (hs.run hrun) ?_
    fun t ht hpc' _ _ => ?_)
  · rw [hpc, ProofLegs.act, if_pos (hkept _ (Nat.le_add_left _ _))]
  · exact canSend_of_waiting hlive ht hpc'

end Inv

/-! ## The results -/

/-- **Proofs verify.** Whatever the processes, both chains and the updates on their way have done, in any
order: a message that was submitted is at a slot the client has a consensus state for, which is finalized
and not empty; it has the storage as of that slot's block, and that block is not older than the one the
commitment was written in. So the client accepts it, provided the router has kept the commitment. -/
theorem proofs_verify {ι : Type} [DecidableEq ι] (w : World) (jobs : ι → Job) (s₀ : State ι)
    (hstart : IsStart w s₀) (evs : List (Event ι)) (s : State ι)
    (hrun : run (step w jobs) s₀ evs = some s) (i : ι) (m : Proof) (hm : (i, m) ∈ s.sent) :
    (m.useSlot ∈ s.heights ∧ m.useSlot ≤ s.finalized ∧
      ∃ useBlock, w.execution m.useSlot = some useBlock ∧ (jobs i).block ≤ useBlock ∧
        m.value = w.storage useBlock (w.storageKey (jobs i).path)) ∧
      ((∀ n, (jobs i).block ≤ n → n ≤ s.head →
        w.storage n (w.storageKey (jobs i).path) = (jobs i).commitment) → Verifies w (jobs i) s m) := by
  have hs := (inv_start hstart).run hrun
  obtain ⟨hmem, hbacked⟩ := hs.backed _ hm
  exact ⟨⟨hmem, (hs.heights m.useSlot hmem).1, hbacked⟩, hs.verifies hm⟩

def zeroWord : Bytes32 := ⟨List.replicate 32 0, List.length_replicate⟩

theorem block_per_slot (slot slot' n n' : ℕ) (hle : slot ≤ slot') (hn : some slot = some n)
    (hn' : some slot' = some n') : n ≤ n' := by
  cases hn
  cases hn'
  exact hle

/-- A block in every slot, and nothing in the storage. -/
def quietWorld : World where
  execution := some
  execution_mono := block_per_slot
  storage := fun _ _ => zeroWord
  keccak256 := fun _ => zeroWord
  slotHex := zeroWord.1

/-- A process of each kind, for a commitment of block 3. -/
def twoJobs (leg : Leg) : Job := ⟨leg, [], zeroWord, 3⟩

/-- The client was created at slot 0. -/
def fresh : State Leg := ⟨0, 0, [0], [], fun _ => .start, []⟩

theorem isStart_fresh : IsStart quietWorld fresh where
  finalized := ⟨Nat.le_refl 0, 0, rfl, Nat.le_refl 0⟩
  heights := by
    intro slot hslot
    cases List.mem_singleton.mp hslot
    exact ⟨Nat.le_refl 0, 0, rfl, Nat.le_refl 0⟩
  created := List.cons_ne_nil 0 []
  submitted := rfl
  pc := fun _ => rfl
  sent := rfl

/-- `step-ack.js` waits for finality once; the other finds the client updated by it. -/
def bothRun : List (Event Leg) :=
  [.act .ack .check, .act .ack .pollFinality, .mine, .mine, .mine, .mine, .act .recv .check, .finalize 4,
    .act .recv .pollFinality, .act .ack .pollFinality, .act .ack (.update [0] true), .land 4,
    .act .recv (.update [4, 0] true),
    .act .recv (.query [4] false), .act .recv .prove, .act .ack (.query [4, 0] false), .act .ack .prove]

theorem proofs_verify_two :
    ∃ s, run (step quietWorld twoJobs) fresh bothRun = some s ∧ s.sent.length = 2 ∧
      ∀ i m, (i, m) ∈ s.sent → Verifies quietWorld (twoJobs i) s m := by
  have hrun : (run (step quietWorld twoJobs) fresh bothRun).map (fun s => s.sent.length) = some 2 := by decide
  obtain ⟨s, hs, hlen⟩ := Option.map_eq_some_iff.mp hrun
  exact ⟨s, hs, hlen, fun i m hm =>
    (proofs_verify quietWorld twoJobs fresh isStart_fresh bothRun s hs i m hm).2 fun _ _ _ => rfl⟩

/-- A process whose update command has submitted nothing, and an update by the other on its way. -/
def updateRefused : List (Event Leg) :=
  [.mine, .mine, .mine, .finalize 3, .act .recv .check, .act .recv .pollFinality, .act .ack .check,
    .act .ack .pollFinality, .act .ack (.update [0] true), .act .recv (.update [0] false)]

end PqcMigration.Devnet.ProofLegs
