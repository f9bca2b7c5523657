/-
# PqcMigration.MigrationCost.AckSenders — the return leg of `measure_ack.py`, with several senders.

The deliveries that can be acknowledged are numbered, and a `ThreadPoolExecutor` of `concurrency`
workers runs `relay-ack-batch.js` for them in that order. Job `i` sends from account `i % concurrency`
of the pool. So the account goes by the job's number, and the moment a job starts goes by which worker
is free: `senders_distinct_iff` says when the two agree.

The executor is `Lib.WorkQueue`. A free worker does not wait while jobs remain (`Eager`).
-/
import PqcMigration.Lib.WorkQueue
import PqcMigration.MigrationCost.RelayRecvBatch

namespace PqcMigration.MigrationCost

open Lib

/-! ## The jobs -/

/-- What `measure_ack.py` reads of `recv-<label>.json`; an empty hash counts as none. -/
structure Recv where
  ok : Bool
  txhash : Option Text
  chunks : Option ℕ
  count : ℕ

structure AckJob where
  label : Text
  txhash : Text
  count : ℕ

/-- Why a delivery is left out. -/
inductive Skip where
  /-- `delivery did not succeed` -/
  | notSucceeded
  /-- `delivery used {recv['chunks']} transactions` -/
  | severalTransactions (chunks : ℕ)

def ackJob (label : Text) (recv : Recv) : Except Skip AckJob :=
  match recv.ok, recv.txhash with
  | true, some txhash =>
      if recv.chunks.getD 1 ≠ 1 then .error (.severalTransactions (recv.chunks.getD 1))
      else .ok ⟨label, txhash, recv.count⟩
  | _, _ => .error .notSucceeded

def todo (deliveries : List (Text × Recv)) : List AckJob :=
  deliveries.filterMap fun d => (ackJob d.1 d.2).toOption

/-- A call of `relay-ack-batch.js`. -/
structure AckCommand where
  txhash : Text
  label : Text
  expect : ℕ
  /-- `--sender-index`, given together with `--sender-pool` -/
  senderIndex : Option ℕ
  dryRun : Bool

def relay (concurrency : ℕ) (dryRun : Bool) (i : ℕ) (job : AckJob) : AckCommand :=
  { txhash := job.txhash, label := job.label, expect := job.count
    senderIndex := if 1 < concurrency then some (i % concurrency) else none
    dryRun := dryRun }

/-- The pool `setup-user-pool.js` leaves: an account for each sender at least, and no account twice,
each being a wallet of its own. -/
structure SenderPool (concurrency : ℕ) where
  accounts : List Text
  enough : concurrency ≤ accounts.length
  nodup : accounts.Nodup

/-- The account a call sends from; `none` is the error for an index the pool does not have. -/
def AckCommand.sender (deployer : Text) (accounts : List Text) (cmd : AckCommand) : Option Text :=
  match cmd.senderIndex with
  | none => some deployer
  | some i => accounts[i]?

/-- The account of the `j`-th job. -/
def senderOf (deployer : Text) (accounts : List Text) (concurrency : ℕ) (dryRun : Bool)
    (jobs : List AckJob) (j : ℕ) : Option Text :=
  jobs[j]?.bind fun job => (relay concurrency dryRun j job).sender deployer accounts

theorem senderOf_eq {deployer : Text} {accounts : List Text} {concurrency : ℕ}
    (hcon : 1 < concurrency) (dryRun : Bool) {jobs : List AckJob} {j : ℕ} (hj : j < jobs.length) :
    senderOf deployer accounts concurrency dryRun jobs j = accounts[j % concurrency]? := by
  rw [senderOf, List.getElem?_eq_getElem hj, Option.bind_some, relay, if_pos hcon]
  rfl

/-- Two jobs have one sender when their numbers agree modulo the concurrency. -/
theorem senderOf_eq_iff {deployer : Text} {concurrency : ℕ} (pool : SenderPool concurrency)
    (hcon : 1 < concurrency) (dryRun : Bool) {jobs : List AckJob} {j k : ℕ} (hj : j < jobs.length)
    (hk : k < jobs.length) :
    senderOf deployer pool.accounts concurrency dryRun jobs j =
        senderOf deployer pool.accounts concurrency dryRun jobs k ↔
      j % concurrency = k % concurrency := by
  have hmod : ∀ i, i % concurrency < pool.accounts.length :=
    fun i => (Nat.mod_lt i (Nat.zero_lt_of_lt hcon)).trans_le pool.enough
  rw [senderOf_eq hcon dryRun hj, senderOf_eq hcon dryRun hk, List.getElem?_eq_getElem (hmod j),
    List.getElem?_eq_getElem (hmod k), Option.some_inj]
  exact pool.nodup.getElem_inj_iff

/-! ## The executor -/

/-- The executor's state: what each worker does, and the exit status of the jobs that ended. -/
abbrev AckState (concurrency : ℕ) := WorkQueue.State (Fin concurrency) (ℕ → Option Bool)

abbrev AckEvent (concurrency : ℕ) := WorkQueue.Event (Fin concurrency) Bool

def keepResult (results : ℕ → Option Bool) (job : ℕ) (exitZero : Bool) : ℕ → Option Bool :=
  Function.update results job (some exitZero)

abbrev ackStep (jobs : ℕ) {concurrency : ℕ} :
    AckState concurrency → AckEvent concurrency → Option (AckState concurrency) :=
  WorkQueue.step jobs keepResult

abbrev ackStart (concurrency : ℕ) : AckState concurrency := WorkQueue.start fun _ => none

/-- A worker that is free takes a job before another job ends, as long as there are any. -/
def Eager (jobs : ℕ) {concurrency : ℕ} (s : AckState concurrency) : AckEvent concurrency → Prop
  | .finish _ _ _ => jobs ≤ s.next ∨ ∀ w, s.pc w ≠ .ready
  | _ => True

instance (jobs : ℕ) {concurrency : ℕ} (s : AckState concurrency) :
    (e : AckEvent concurrency) → Decidable (Eager jobs s e)
  | .take _ _ => inferInstanceAs (Decidable True)
  | .finish _ _ _ => inferInstanceAs (Decidable (_ ∨ _))
  | .leave _ => inferInstanceAs (Decidable True)

/-- No two workers are at jobs with one sender. -/
def SendersDistinct (sender : ℕ → Option Text) {concurrency : ℕ} (s : AckState concurrency) : Prop :=
  ∀ w w' j j', w ≠ w' → s.pc w = .running j → s.pc w' = .running j' → sender j ≠ sender j'

/-- The job that shares a sender with the one taken, `concurrency` places before it, is not in flight. -/
def InTurn {concurrency : ℕ} (s : AckState concurrency) : AckEvent concurrency → Prop
  | .take _ job => concurrency ≤ job → ∀ w, s.pc w ≠ .running (job - concurrency)
  | _ => True

section Runs

variable {concurrency jobs : ℕ} {s t : AckState concurrency} {evs : List (AckEvent concurrency)}

/-- The jobs in flight are among the last `concurrency` that were taken. -/
def Windowed (s : AckState concurrency) : Prop :=
  ∀ w j, s.pc w = .running j → j < s.next ∧ s.next ≤ j + concurrency

theorem Windowed.step {e : AckEvent concurrency} (hwindow : Windowed s) (hturn : InTurn s e)
    (hstep : ackStep jobs s e = some t) : Windowed t := by
  obtain ⟨i, rfl, -, -, rfl⟩ | ⟨i, job, result, rfl, -, rfl⟩ | ⟨i, rfl, -, -, rfl⟩ :=
    WorkQueue.step_cases hstep
  · intro w j hw
    show j < s.next + 1 ∧ s.next + 1 ≤ j + concurrency
    rcases of_update (Q := fun p => p = WorkQueue.Pc.running j) hw with ⟨-, hj⟩ | ⟨-, hold⟩
    · obtain rfl := WorkQueue.Pc.running.inj hj
      have hpos : 0 < concurrency := Nat.zero_lt_of_lt i.isLt
      omega
    · obtain ⟨hlt, hle⟩ := hwindow w j hold
      have hne : s.next ≠ j + concurrency := by
        intro heq
        apply hturn (by omega) w
        rw [hold]
        congr 1
        omega
      omega
  · intro w j hw
    exact hwindow w j (of_update_of_not (Q := fun p => p = WorkQueue.Pc.running j) (by simp) hw).2
  · intro w j hw
    exact hwindow w j (of_update_of_not (Q := fun p => p = WorkQueue.Pc.running j) (by simp) hw).2

theorem windowed_of_inTurn (hrun : run (ackStep jobs) (ackStart concurrency) evs = some s)
    (hturn : ∀ e u, Takes (ackStep jobs) (ackStart concurrency) evs e u → InTurn u e) : Windowed s := by
  apply run_invariant_of_takes (I := Windowed) (C := InTurn) _ _ hrun hturn
  · exact fun s e t hwindow hturn hstep => hwindow.step hturn hstep
  · intro w j hw
    cases hw

theorem running_lt (hrun : run (ackStep jobs) (ackStart concurrency) evs = some s)
    {w : Fin concurrency} {j : ℕ} (hw : s.pc w = .running j) : j < s.next ∧ j < jobs := by
  have hinv := WorkQueue.run_inv hrun
  have hlt := (hinv.covered j).mpr (Or.inr ⟨w, hw⟩)
  exact ⟨hlt, hlt.trans_le hinv.bound⟩

end Runs

section Senders

variable {concurrency : ℕ} {deployer : Text} {dryRun : Bool} {jobs : List AckJob}
  {s : AckState concurrency} {evs : List (AckEvent concurrency)}

theorem eq_of_mod_eq {j j' : ℕ} (hmod : j % concurrency = j' % concurrency) (hle : j ≤ j')
    (hlt : j' < j + concurrency) : j = j' := by
  have hzero := Nat.sub_mod_eq_zero_of_mod_eq hmod.symm
  rw [Nat.mod_eq_of_lt (by omega)] at hzero
  omega

/-- Jobs of one window have different senders. -/
theorem sendersDistinct_of_windowed (pool : SenderPool concurrency) (hcon : 1 < concurrency)
    (hrun : run (ackStep jobs.length) (ackStart concurrency) evs = some s) (hwindow : Windowed s) :
    SendersDistinct (senderOf deployer pool.accounts concurrency dryRun jobs) s := by
  intro w w' j j' hne hw hw' hsame
  have hmod := (senderOf_eq_iff pool hcon dryRun (running_lt hrun hw).2 (running_lt hrun hw').2).mp
    hsame
  have hj := hwindow w j hw
  have hj' := hwindow w' j' hw'
  have heq : j = j' := by
    rcases Nat.le_total j j' with hle | hle
    · exact eq_of_mod_eq hmod hle (by omega)
    · exact (eq_of_mod_eq hmod.symm hle (by omega)).symm
  subst heq
  exact hne ((WorkQueue.run_inv hrun).alone w w' j hw hw')

/-- A job taken out of turn is in flight together with the one whose sender it has. -/
theorem inTurn_of_sendersDistinct (pool : SenderPool concurrency) (hcon : 1 < concurrency)
    (hrun : run (ackStep jobs.length) (ackStart concurrency) evs = some s)
    (hdistinct : ∀ t ∈ trail (ackStep jobs.length) (ackStart concurrency) evs,
      SendersDistinct (senderOf deployer pool.accounts concurrency dryRun jobs) t)
    {e : AckEvent concurrency} {u : AckState concurrency}
    (htakes : Takes (ackStep jobs.length) (ackStart concurrency) evs e u) : InTurn u e := by
  obtain ⟨bs, cs, rfl, hbs⟩ := htakes
  obtain ⟨u₁, hu₁, hrest⟩ := run_append_eq_some.mp hrun
  obtain rfl : u = u₁ := Option.some.inj (hbs.symm.trans hu₁)
  obtain ⟨u', hstep, hcs⟩ := run_cons_eq_some.mp hrest
  have hafter : run (ackStep jobs.length) (ackStart concurrency) (bs ++ [e]) = some u' :=
    run_append_eq_some.mpr ⟨u, hbs, run_cons_eq_some.mpr ⟨u', hstep, rfl⟩⟩
  have hmem : u' ∈ trail (ackStep jobs.length) (ackStart concurrency) (bs ++ e :: cs) :=
    (mem_trail_iff hrun).mpr ⟨bs ++ [e], cs, by simp, hafter, hcs⟩
  obtain ⟨i, rfl, hready, -, rfl⟩ | ⟨i, job, result, rfl, -, -⟩ | ⟨i, rfl, -, -, -⟩ :=
    WorkQueue.step_cases hstep
  · intro hle w hw
    have hwi : w ≠ i := by
      rintro rfl
      rw [hready] at hw
      cases hw
    have hi : Function.update u.pc i (WorkQueue.Pc.running u.next) i = .running u.next :=
      Function.update_self _ _ _
    have hw' : Function.update u.pc i (WorkQueue.Pc.running u.next) w =
        .running (u.next - concurrency) := (Function.update_of_ne hwi _ _).trans hw
    apply hdistinct _ hmem i w u.next (u.next - concurrency) hwi.symm hi hw'
    apply (senderOf_eq_iff pool hcon dryRun (running_lt hafter hi).2 (running_lt hafter hw').2).mpr
    rw [Nat.mod_eq_sub_mod hle]
  · trivial
  · trivial

end Senders

/-! ## A job that ends early -/

section Early

variable {concurrency jobs : ℕ}

/-- The first `k` workers are at the first `k` jobs. -/
def filled (concurrency k : ℕ) : AckState concurrency :=
  ⟨k, fun w => if w.val < k then .running w.val else .ready, fun _ => none⟩

theorem exists_fill (hjobs : concurrency < jobs) {k : ℕ} (hk : k ≤ concurrency) :
    ∃ evs, run (ackStep jobs) (ackStart concurrency) evs = some (filled concurrency k) ∧
      ∀ e u, Takes (ackStep jobs) (ackStart concurrency) evs e u → Eager jobs u e := by
  induction k with
  | zero =>
      exact ⟨[], rfl, fun e u htakes => absurd htakes not_takes_nil⟩
  | succ k ih =>
      obtain ⟨evs, hrun, heager⟩ := ih (by omega)
      have hstep : ackStep jobs (filled concurrency k) (.take ⟨k, by omega⟩ k) =
          some (filled concurrency (k + 1)) := by
        have hguard : (filled concurrency k).pc ⟨k, by omega⟩ = .ready ∧
            (filled concurrency k).next < jobs ∧ k = (filled concurrency k).next :=
          ⟨if_neg (Nat.lt_irrefl k), show k < jobs by omega, rfl⟩
        rw [ackStep, WorkQueue.step, if_pos hguard]
        congr 2
        funext w
        rcases eq_or_ne w ⟨k, by omega⟩ with rfl | hne
        · rw [Function.update_self]
          exact (if_pos (Nat.lt_succ_self k)).symm
        · have hval : w.val ≠ k := fun h => hne (Fin.ext h)
          rw [Function.update_of_ne hne]
          have hiff : w.val < k ↔ w.val < k + 1 := by omega
          simp only [filled, hiff]
      refine ⟨evs ++ [.take ⟨k, by omega⟩ k],
        run_append_eq_some.mpr ⟨_, hrun, run_cons_eq_some.mpr ⟨_, hstep, rfl⟩⟩, ?_⟩
      intro e u htakes
      rcases (takes_append_iff hrun).mp htakes with htakes | htakes
      · exact heager e u htakes
      · rcases takes_cons_iff.mp htakes with ⟨rfl, -⟩ | ⟨t, -, htakes⟩
        · trivial
        · exact absurd htakes not_takes_nil

theorem filled_pc (w : Fin concurrency) :
    (filled concurrency concurrency).pc w = .running w.val := if_pos w.isLt

/-- Then the second job ends. -/
def freed (hcon : 1 < concurrency) : AckState concurrency :=
  ⟨concurrency, Function.update (filled concurrency concurrency).pc ⟨1, hcon⟩ .ready,
    keepResult (fun _ => none) 1 true⟩

/-- And its worker goes on with the next, which has the first one's sender. -/
def early (hcon : 1 < concurrency) : AckState concurrency :=
  ⟨concurrency + 1, Function.update (freed hcon).pc ⟨1, hcon⟩ (.running concurrency), (freed hcon).mem⟩

theorem freed_pc_one (hcon : 1 < concurrency) : (freed hcon).pc ⟨1, hcon⟩ = .ready := by
  simp [freed]

theorem early_pc_one (hcon : 1 < concurrency) : (early hcon).pc ⟨1, hcon⟩ = .running concurrency := by
  simp [early]

theorem early_pc_zero (hcon : 1 < concurrency) : (early hcon).pc ⟨0, by omega⟩ = .running 0 := by
  have hne : (⟨0, by omega⟩ : Fin concurrency) ≠ ⟨1, hcon⟩ := by simp
  simp only [early, freed, Function.update_of_ne hne]
  exact filled_pc _

theorem exists_early (hcon : 1 < concurrency) (hjobs : concurrency < jobs) :
    ∃ evs, run (ackStep jobs) (ackStart concurrency) evs = some (early hcon) ∧
      ∀ e u, Takes (ackStep jobs) (ackStart concurrency) evs e u → Eager jobs u e := by
  obtain ⟨evs, hrun, heager⟩ := exists_fill hjobs (Nat.le_refl concurrency)
  have hfinish : ackStep jobs (filled concurrency concurrency) (.finish ⟨1, hcon⟩ 1 true) =
      some (freed hcon) := if_pos (filled_pc ⟨1, hcon⟩)
  have htake : ackStep jobs (freed hcon) (.take ⟨1, hcon⟩ concurrency) = some (early hcon) :=
    if_pos ⟨freed_pc_one hcon, hjobs, rfl⟩
  refine ⟨evs ++ [.finish ⟨1, hcon⟩ 1 true, .take ⟨1, hcon⟩ concurrency],
    run_append_eq_some.mpr ⟨_, hrun, run_cons_eq_some.mpr ⟨_, hfinish,
      run_cons_eq_some.mpr ⟨_, htake, rfl⟩⟩⟩, ?_⟩
  intro e u htakes
  rcases (takes_append_iff hrun).mp htakes with htakes | htakes
  · exact heager e u htakes
  · rcases takes_cons_iff.mp htakes with ⟨rfl, rfl⟩ | ⟨t, -, htakes⟩
    · -- every worker is at a job when the second one ends
      right
      intro w hw
      rw [filled_pc w] at hw
      cases hw
    · rcases takes_cons_iff.mp htakes with ⟨rfl, -⟩ | ⟨t', -, htakes⟩
      · trivial
      · exact absurd htakes not_takes_nil

end Early

/-- **Acknowledgements in flight have different senders.** A run keeps them apart in every state it
passes exactly when it takes each job in turn. And every run of an eager executor does, whatever the
order its jobs end in, exactly when there are no more jobs than workers. -/
theorem senders_distinct_iff (deployer : Text) (concurrency : ℕ) (pool : SenderPool concurrency)
    (dryRun : Bool) (deliveries : List (Text × Recv)) (hcon : 1 < concurrency) :
    let jobs := todo deliveries
    let sender := senderOf deployer pool.accounts concurrency dryRun jobs
    (∀ evs s, run (ackStep jobs.length) (ackStart concurrency) evs = some s →
      ((∀ t ∈ trail (ackStep jobs.length) (ackStart concurrency) evs, SendersDistinct sender t) ↔
        ∀ e u, Takes (ackStep jobs.length) (ackStart concurrency) evs e u → InTurn u e)) ∧
    ((∀ evs s, run (ackStep jobs.length) (ackStart concurrency) evs = some s →
        (∀ e u, Takes (ackStep jobs.length) (ackStart concurrency) evs e u →
          Eager jobs.length u e) → SendersDistinct sender s) ↔
      jobs.length ≤ concurrency) := by
  intro jobs sender
  refine ⟨?_, ?_, ?_⟩
  · intro evs s hrun
    constructor
    · intro hdistinct e u htakes
      exact inTurn_of_sendersDistinct pool hcon hrun hdistinct htakes
    · intro hturn t ht
      obtain ⟨bs, cs, rfl, hbs, -⟩ := (mem_trail_iff hrun).mp ht
      apply sendersDistinct_of_windowed pool hcon hbs
      exact windowed_of_inTurn hbs fun e u htakes => hturn e u (htakes.append cs)
  · intro hall
    by_contra hmore
    obtain ⟨evs, hrun, heager⟩ := exists_early hcon (not_le.mp hmore)
    have hzero := early_pc_zero hcon
    have hone := early_pc_one hcon
    apply hall evs _ hrun heager _ _ 0 concurrency _ hzero hone
    · apply (senderOf_eq_iff pool hcon dryRun (running_lt hrun hzero).2
        (running_lt hrun hone).2).mpr
      rw [Nat.zero_mod, Nat.mod_self]
    · simp
  · intro hfew evs s hrun _
    apply sendersDistinct_of_windowed pool hcon hrun
    intro w j hw
    have hlt := running_lt hrun hw
    have hbound := (WorkQueue.run_inv hrun).bound
    omega

/-- Two accounts. -/
def twoAccounts : SenderPool 2 := ⟨["a".toList, "b".toList], by decide, by decide⟩

/-- A delivery of one packet that went through. -/
def delivered (label : String) : Text × Recv := (label.toList, ⟨true, some "AB".toList, some 1, 1⟩)

theorem senders_distinct_two :
    ∃ s, run (ackStep 2) (ackStart 2) [.take 0 0, .take 1 1] = some s ∧
      SendersDistinct (senderOf [] twoAccounts.accounts 2 false (todo [delivered "p", delivered "q"]))
        s := by
  refine ⟨_, rfl, (senders_distinct_iff [] 2 twoAccounts false [delivered "p", delivered "q"]
    (by decide)).2.mpr (by decide) [.take 0 0, .take 1 1] _ rfl ?_⟩
  exact forall_takes_iff.mpr (by decide)

/-- Three deliveries and two senders. The second job ends first, and the third starts on the account of
the first, which is still in flight. -/
theorem senders_shared :
    let jobs := todo [delivered "p", delivered "q", delivered "r"]
    let evs : List (AckEvent 2) := [.take 0 0, .take 1 1, .finish 1 1 true, .take 1 2]
    (run (ackStep jobs.length) (ackStart 2) evs).map (fun s => (s.pc 0, s.pc 1)) =
        some (.running 0, .running 2) ∧
      (∀ e u, Takes (ackStep jobs.length) (ackStart 2) evs e u → Eager jobs.length u e) ∧
      senderOf [] twoAccounts.accounts 2 false jobs 0 = some "a".toList ∧
      senderOf [] twoAccounts.accounts 2 false jobs 2 = some "a".toList := by
  refine ⟨by decide, ?_, by decide, by decide⟩
  exact forall_takes_iff.mpr (by decide)

end PqcMigration.MigrationCost
