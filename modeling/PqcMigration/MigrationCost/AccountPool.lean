/-
# PqcMigration.MigrationCost.AccountPool — the account pools of `setup-user-pool.js` and `setup-evm-pool.js`.

Both scripts read a pool file, make a random account for every index asked for that the file has no entry
for, send ether from the deployer to each account that holds too little, wait for these transactions, and
write the file. `setup-user-pool.js` mints tokens and gives allowances before it writes;
`setup-evm-pool.js` writes at once.

A session is what happens around one pool file: runs of a script one after the other, the chain including
or dropping what was sent, accounts spending. A run can be stopped before each step, and what it has sent
by then is still sent: a transaction may be included when the process is gone.

The private key of a new account is in the memory of the process and nowhere else until the file is
written, which is after the account was funded. `funded_kept` says that this is the only way to lose one:
nothing a session does takes an entry out of the file, so as long as no run funds an account it has made
itself every funded account is in the file at every moment.
-/
import Mathlib.Data.List.ReduceOption
import PqcMigration.Lib.Run

namespace PqcMigration.AccountPool

open Lib

/-! ## The pool -/

abbrev Text := List Char

/-- An entry of the pool file. -/
structure Account where
  index : ℕ
  address : Text
  privateKey : Text
  deriving DecidableEq

/-- The array, in memory or in the file. An index without an entry is `none`. -/
abbrev Pool := List (Option Account)

/-- `pool[i]`, `none` where it is falsy. -/
def Pool.entry (pool : Pool) (i : ℕ) : Option Account := pool[i]?.join

/-- `pool[i] = a`: an array that is too short grows. -/
def Pool.assign (pool : Pool) (i : ℕ) (a : Account) : Pool :=
  (pool ++ List.replicate (i + 1 - pool.length) none).set i (some a)

/-- One turn of the loop that makes accounts; `fresh i` is what `Wallet.createRandom` gives it. -/
def Pool.ensure (fresh : ℕ → Account) (pool : Pool) (i : ℕ) : Pool :=
  if (pool.entry i).isSome then pool else pool.assign i (fresh i)

/-- `for (let i = 0; i < poolSize; i++)` -/
def Pool.create (fresh : ℕ → Account) (poolSize : ℕ) (pool : Pool) : Pool :=
  (List.range poolSize).foldl (Pool.ensure fresh) pool

/-- The accounts that have an entry. -/
def Pool.accounts (pool : Pool) : List Account := pool.reduceOption

/-- What is on disk under the name of the pool file. -/
inductive PoolFile
  | absent
  | malformed
  | holds (pool : Pool)
  deriving DecidableEq

/-- What a script starts from; `none` when `JSON.parse` throws. -/
def PoolFile.read : PoolFile → Option Pool
  | .absent => some []
  | .malformed => none
  | .holds pool => some pool

def PoolFile.accounts (file : PoolFile) : List Account := (file.read.getD []).accounts

/-! ## Sessions -/

inductive Script
  | userPool
  | evmPool
  deriving DecidableEq

/-- A transaction by which the deployer funds an account. -/
structure FundTx where
  nonce : ℕ
  recipient : Account
  value : ℕ
  deriving DecidableEq

/-- The loop over `entries`: one transaction for each account that holds less than `amount`, under
consecutive nonces. -/
def fundTxs (balance : Text → ℕ) (amount : ℕ) : ℕ → List Account → List FundTx
  | _, [] => []
  | nonce, e :: entries =>
      if balance e.address < amount then
        ⟨nonce, e, amount - balance e.address⟩ :: fundTxs balance amount (nonce + 1) entries
      else fundTxs balance amount nonce entries

/-- How far a run has come. -/
inductive Stage
  /-- the accounts are made -/
  | created
  /-- `unsent` are the transactions still to be sent, `awaited` those not yet seen included -/
  | funding (unsent awaited : List FundTx)
  /-- tokens minted and allowances given, in `setup-user-pool.js` -/
  | prepared
  deriving DecidableEq

/-- A process that runs one of the scripts. -/
structure Process where
  pool : Pool
  poolSize : ℕ
  amount : ℕ
  stage : Stage

/-- `pool.slice(0, poolSize)` -/
def Process.entries (p : Process) : List Account := Pool.accounts (p.pool.take p.poolSize)

/-- Where the script writes the file. -/
def Script.writesAt : Script → Stage → Bool
  | .userPool, .prepared => true
  | .evmPool, .funding [] [] => true
  | _, _ => false

structure World where
  file : PoolFile
  process : Option Process
  /-- sent, and neither included nor dropped -/
  pending : List FundTx
  /-- included in a block -/
  included : List FundTx
  balance : Text → ℕ

inductive Event
  /-- a run begins: the file is read and the missing accounts are made -/
  | start (poolSize amount : ℕ) (fresh : ℕ → Account)
  /-- balances and the deployer's nonce are read -/
  | check (nonce : ℕ)
  | send (tx : FundTx)
  | mine (tx : FundTx)
  | drop (tx : FundTx)
  /-- `wait()` of one transaction returns -/
  | confirm (tx : FundTx)
  | prepare
  | write
  | crash
  /-- anything else that changes what an address holds -/
  | move (address : Text) (balance : ℕ)

/-- The world after the process has come to `stage`. -/
def World.reach (w : World) (p : Process) (stage : Stage) : World :=
  { w with process := some { p with stage := stage } }

/-- The steps of the running process. -/
def processStep (script : Script) (w : World) (p : Process) : Event → Option World
  | .check nonce =>
      if p.stage = .created then
        some (w.reach p (.funding (fundTxs w.balance p.amount nonce p.entries) []))
      else none
  | .send tx =>
      match p.stage with
      | .funding unsent awaited =>
          if tx ∈ unsent then
            some { w.reach p (.funding (unsent.erase tx) (tx :: awaited)) with pending := tx :: w.pending }
          else none
      | _ => none
  | .confirm tx =>
      match p.stage with
      -- every send is awaited before the first receipt
      | .funding [] awaited =>
          if tx ∈ awaited ∧ tx ∈ w.included then some (w.reach p (.funding [] (awaited.erase tx))) else none
      | _ => none
  | .prepare =>
      if script = .userPool ∧ p.stage = .funding [] [] then some (w.reach p .prepared) else none
  | .write =>
      if script.writesAt p.stage then some { w with file := .holds p.pool, process := none } else none
  | .crash => some { w with process := none }
  | _ => none

/-- One step of a session; `none` where it cannot be taken. -/
def step (script : Script) (w : World) : Event → Option World
  | .start poolSize amount fresh =>
      if w.process.isNone ∧ 1 ≤ poolSize then
        match w.file.read with
        | none => some w
        | some pool => some { w with process := some ⟨pool.create fresh poolSize, poolSize, amount, .created⟩ }
      else none
  | .mine tx =>
      if tx ∈ w.pending then
        some { w with
          pending := w.pending.erase tx
          included := tx :: w.included
          balance := fun a => if a = tx.recipient.address then w.balance a + tx.value else w.balance a }
      else none
  | .drop tx => if tx ∈ w.pending then some { w with pending := w.pending.erase tx } else none
  | .move address balance =>
      some { w with balance := fun a => if a = address then balance else w.balance a }
  | e => w.process.bind fun p => processStep script w p e

/-- Every account that has received funds from the deployer is in the file, its private key with it. -/
def World.Kept (w : World) : Prop := ∀ tx ∈ w.included, tx.recipient ∈ w.file.accounts

/-- The file has an entry for each index below `poolSize`. -/
def PoolFile.Covers (file : PoolFile) (poolSize : ℕ) : Prop :=
  ∀ pool, file.read = some pool → ∀ i < poolSize, (pool.entry i).isSome

/-- If the event starts a run, the run will not fund an account it makes: it is to make none, or to bring
accounts to a balance of zero. -/
def FundsNoNew (w : World) (e : Event) : Prop :=
  ∀ poolSize amount fresh, e = .start poolSize amount fresh → amount = 0 ∨ w.file.Covers poolSize

/-! ## Making accounts keeps what is there -/

section Create

variable {fresh : ℕ → Account} {pool : Pool} {a : Account}

theorem Pool.mem_accounts : a ∈ pool.accounts ↔ ∃ i, pool.entry i = some a := by
  unfold Pool.accounts Pool.entry
  rw [List.reduceOption_mem_iff, List.mem_iff_getElem?]
  simp [Option.join_eq_some_iff]

theorem Process.mem_entries {p : Process} : a ∈ p.entries ↔ ∃ i < p.poolSize, p.pool.entry i = some a := by
  unfold Process.entries
  rw [Pool.mem_accounts]
  refine exists_congr fun i => ?_
  unfold Pool.entry
  rw [List.getElem?_take]
  split
  · next hi => simp [hi]
  · next hi => simp [hi]

theorem Pool.entry_assign (pool : Pool) (i j : ℕ) (a : Account) :
    (pool.assign i a).entry j = if j = i then some a else pool.entry j := by
  unfold Pool.assign Pool.entry
  rw [List.getElem?_set]
  split
  · next hij =>
    subst hij
    have hgrown : i < (pool ++ List.replicate (i + 1 - pool.length) none).length := by
      rw [List.length_append, List.length_replicate]
      omega
    rw [if_pos hgrown, if_pos rfl, Option.join_some]
  · next hij =>
    rw [if_neg (Ne.symm hij)]
    rcases Nat.lt_or_ge j pool.length with hj | hj
    · rw [List.getElem?_append_left hj]
    · -- past the end both are empty, whether or not the array grew
      rw [List.getElem?_append_right hj, List.getElem?_eq_none hj, List.getElem?_replicate]
      split <;> rfl

theorem Pool.entry_ensure (fresh : ℕ → Account) (pool : Pool) (i j : ℕ) :
    (pool.ensure fresh i).entry j = (pool.entry j).or (if j = i then some (fresh i) else none) := by
  unfold Pool.ensure
  split
  · next hentry =>
    split
    · next hij => rw [hij, Option.or_of_isSome hentry]
    · rw [Option.or_none]
  · next hmissing =>
    rw [Pool.entry_assign]
    split
    · next hij => rw [hij, Option.not_isSome_iff_eq_none.mp hmissing, Option.none_or]
    · rw [Option.or_none]

/-- The loop leaves every entry there is, and fills in the others. -/
theorem Pool.entry_create (fresh : ℕ → Account) (pool : Pool) (n j : ℕ) :
    (pool.create fresh n).entry j = (pool.entry j).or (if j < n then some (fresh j) else none) := by
  induction n with
  | zero => simp [Pool.create]
  | succ n ih =>
      have hlast : pool.create fresh (n + 1) = (pool.create fresh n).ensure fresh n := by
        unfold Pool.create
        rw [List.range_succ, List.foldl_append, List.foldl_cons, List.foldl_nil]
      rw [hlast, Pool.entry_ensure, ih, Option.or_assoc]
      congr 1
      rcases Nat.lt_trichotomy j n with hj | rfl | hj
      · simp [hj, Nat.lt_succ_of_lt hj]
      · simp
      · simp [Nat.not_lt_of_gt hj, Nat.not_lt.mpr (Nat.succ_le_of_lt hj), Nat.ne_of_gt hj]

theorem Pool.accounts_subset_create (n : ℕ) : pool.accounts ⊆ (pool.create fresh n).accounts := by
  intro a ha
  obtain ⟨j, hj⟩ := Pool.mem_accounts.mp ha
  exact Pool.mem_accounts.mpr ⟨j, by rw [Pool.entry_create, hj, Option.some_or]⟩

end Create

/-! ## What a step keeps -/

/-- A transaction that is to be sent goes to one of the entries. -/
theorem recipient_mem_of_mem_fundTxs {balance : Text → ℕ} {amount nonce : ℕ} {entries : List Account}
    {tx : FundTx} (h : tx ∈ fundTxs balance amount nonce entries) : tx.recipient ∈ entries ∧ 0 < amount := by
  induction entries generalizing nonce with
  | nil => exact absurd h List.not_mem_nil
  | cons e entries ih =>
      unfold fundTxs at h
      split at h
      · next hshort =>
        rcases List.mem_cons.mp h with rfl | htail
        · exact ⟨List.mem_cons_self, Nat.zero_lt_of_lt hshort⟩
        · exact (ih htail).imp_left (List.mem_cons_of_mem e)
      · exact (ih h).imp_left (List.mem_cons_of_mem e)

/-- The transactions a process has still to send. -/
def Stage.unsent : Stage → List FundTx
  | .funding unsent _ => unsent
  | _ => []

/-- What holds of a running process: it knows every account of the file, and whom it funds, or is going
to fund, is one of them. -/
structure Process.Sound (file : PoolFile) (p : Process) : Prop where
  knows : file.accounts ⊆ p.pool.accounts
  entries : p.amount = 0 ∨ p.entries ⊆ file.accounts
  unsent : ∀ tx ∈ p.stage.unsent, tx.recipient ∈ file.accounts

/-- The invariant of a session: what is on its way counts as received. -/
structure World.Sound (w : World) : Prop where
  kept : w.Kept
  pending : ∀ tx ∈ w.pending, tx.recipient ∈ w.file.accounts
  process : ∀ p, w.process = some p → p.Sound w.file

section Steps

variable {script : Script} {w t : World} {p : Process} {e : Event}

/-- Going on to a stage that has nothing new to send. -/
theorem World.Sound.reach (h : w.Sound) (hp : p.Sound w.file) {stage : Stage}
    (hunsent : ∀ tx ∈ stage.unsent, tx.recipient ∈ w.file.accounts) : (w.reach p stage).Sound where
  kept := h.kept
  pending := h.pending
  process := by
    intro q hq
    obtain rfl : { p with stage := stage } = q := Option.some.inj hq
    exact ⟨hp.knows, hp.entries, hunsent⟩

theorem World.Sound.stopped (h : w.Sound) : World.Sound { w with process := none } where
  kept := h.kept
  pending := h.pending
  process := by simp

theorem sound_start {poolSize amount : ℕ} {fresh : ℕ → Account} (h : w.Sound)
    (hnew : amount = 0 ∨ w.file.Covers poolSize) {pool : Pool} (hread : w.file.read = some pool) :
    World.Sound
      { w with process := some ⟨pool.create fresh poolSize, poolSize, amount, .created⟩ } where
  kept := h.kept
  pending := h.pending
  process := by
    rintro _ ⟨⟩
    have haccounts : w.file.accounts = pool.accounts := by
      unfold PoolFile.accounts
      rw [hread, Option.getD_some]
    refine ⟨?_, hnew.imp_right ?_, by simp [Stage.unsent]⟩
    · show w.file.accounts ⊆ (pool.create fresh poolSize).accounts
      rw [haccounts]
      exact Pool.accounts_subset_create poolSize
    · intro hcovers a ha
      -- an index that has an entry is left alone
      obtain ⟨i, hi, hentry⟩ := Process.mem_entries.mp ha
      rw [Pool.entry_create, Option.or_of_isSome (hcovers pool hread i hi)] at hentry
      rw [haccounts]
      exact Pool.mem_accounts.mpr ⟨i, hentry⟩

theorem sound_processStep (h : w.Sound) (hp : p.Sound w.file)
    (hstep : processStep script w p e = some t) : t.Sound := by
  cases e with
  | check nonce =>
      simp only [processStep, Option.ite_none_right_eq_some, Option.some.injEq] at hstep
      obtain ⟨-, rfl⟩ := hstep
      refine h.reach hp fun tx htx => ?_
      obtain ⟨hmem, hamount⟩ := recipient_mem_of_mem_fundTxs htx
      exact hp.entries.resolve_left (Nat.ne_of_gt hamount) hmem
  | send tx =>
      simp only [processStep] at hstep
      split at hstep
      · next unsent awaited hstage =>
        simp only [Option.ite_none_right_eq_some, Option.some.injEq] at hstep
        obtain ⟨hmem, rfl⟩ := hstep
        have hunsent : ∀ tx ∈ unsent, tx.recipient ∈ w.file.accounts := by
          simpa [hstage, Stage.unsent] using hp.unsent
        have hsent : (w.reach p (.funding (unsent.erase tx) (tx :: awaited))).Sound :=
          h.reach hp fun tx' htx' => hunsent tx' (List.mem_of_mem_erase htx')
        exact ⟨h.kept, List.forall_mem_cons.mpr ⟨hunsent tx hmem, h.pending⟩, hsent.process⟩
      · exact absurd hstep (by simp)
  | confirm tx =>
      simp only [processStep] at hstep
      split at hstep
      · simp only [Option.ite_none_right_eq_some, Option.some.injEq] at hstep
        obtain ⟨-, rfl⟩ := hstep
        exact h.reach hp (by simp [Stage.unsent])
      · exact absurd hstep (by simp)
  | prepare =>
      simp only [processStep, Option.ite_none_right_eq_some, Option.some.injEq] at hstep
      obtain ⟨-, rfl⟩ := hstep
      exact h.reach hp (by simp [Stage.unsent])
  | write =>
      simp only [processStep, Option.ite_none_right_eq_some, Option.some.injEq] at hstep
      obtain ⟨-, rfl⟩ := hstep
      -- the file only grows
      exact ⟨fun tx htx => hp.knows (h.kept tx htx), fun tx htx => hp.knows (h.pending tx htx), by simp⟩
  | crash =>
      obtain rfl : { w with process := none } = t := by simpa [processStep] using hstep
      exact h.stopped
  | start poolSize amount fresh => exact absurd hstep (by simp [processStep])
  | mine tx => exact absurd hstep (by simp [processStep])
  | drop tx => exact absurd hstep (by simp [processStep])
  | move address balance => exact absurd hstep (by simp [processStep])

/-- The events of the process go through `processStep`. -/
theorem sound_of_process (h : w.Sound)
    (hstep : (w.process.bind fun p => processStep script w p e) = some t) : t.Sound := by
  obtain ⟨p, hp, hstep⟩ := Option.bind_eq_some_iff.mp hstep
  exact sound_processStep h (h.process p hp) hstep

theorem sound_step (h : w.Sound) (hnew : FundsNoNew w e) (hstep : step script w e = some t) :
    t.Sound := by
  cases e with
  | start poolSize amount fresh =>
      simp only [step, Option.ite_none_right_eq_some] at hstep
      obtain ⟨-, hstep⟩ := hstep
      split at hstep
      · obtain rfl : w = t := by simpa using hstep
        exact h
      · next pool hread =>
        obtain rfl := Option.some.inj hstep
        exact sound_start h (hnew poolSize amount fresh rfl) hread
  | mine tx =>
      simp only [step, Option.ite_none_right_eq_some, Option.some.injEq] at hstep
      obtain ⟨hmem, rfl⟩ := hstep
      exact ⟨List.forall_mem_cons.mpr ⟨h.pending tx hmem, h.kept⟩,
        fun tx' htx' => h.pending tx' (List.mem_of_mem_erase htx'), h.process⟩
  | drop tx =>
      simp only [step, Option.ite_none_right_eq_some, Option.some.injEq] at hstep
      obtain ⟨-, rfl⟩ := hstep
      exact ⟨h.kept, fun tx' htx' => h.pending tx' (List.mem_of_mem_erase htx'), h.process⟩
  | move address balance =>
      obtain rfl := Option.some.inj hstep
      exact ⟨h.kept, h.pending, h.process⟩
  | check nonce => exact sound_of_process h hstep
  | send tx => exact sound_of_process h hstep
  | confirm tx => exact sound_of_process h hstep
  | prepare => exact sound_of_process h hstep
  | write => exact sound_of_process h hstep
  | crash => exact sound_of_process h hstep

end Steps

/-! ## Sessions keep every funded account -/

/-- A session begins between two runs: nothing runs and nothing is on its way. -/
structure World.Idle (w : World) : Prop where
  process : w.process = none
  pending : w.pending = []

theorem World.Idle.sound {w : World} (h : w.Idle) (hkept : w.Kept) : w.Sound where
  kept := hkept
  pending := by simp [h.pending]
  process := by simp [h.process]

/-- **Funded accounts are kept.** Whatever the pool file holds and however often runs are begun and
stopped, as long as no run is begun that funds an account it has to make, every account the deployer has
funded is in the file. -/
theorem funded_kept (script : Script) (w : World) (hidle : w.Idle) (hkept : w.Kept)
    (events : List Event) (t : World) (hrun : run (step script) w events = some t)
    (hnew : ∀ e u, Takes (step script) w events e u → FundsNoNew u e) : t.Kept := by
  have hsound : t.Sound :=
    run_invariant_of_takes (I := World.Sound) (C := FundsNoNew)
      (fun _ _ _ hs hC hstep => sound_step hs hC hstep) (hidle.sound hkept) hrun hnew
  exact hsound.kept

/-- An account, the transaction that funds it, and a run that is stopped when the transaction is
included. -/
def alice : Account := ⟨0, ['a'], ['k']⟩

def fundsAlice : FundTx := ⟨0, alice, 5⟩

def stoppedRun : List Event :=
  [.start 1 5 fun _ => alice, .check 0, .send fundsAlice, .mine fundsAlice, .crash]

/-- A devnet with this pool file on which nobody holds anything. -/
def World.fresh (file : PoolFile) : World := ⟨file, none, [], [], fun _ => 0⟩

/-- The run finds its account in the file. -/
theorem funded_kept_reused :
    ∃ t, run (step .evmPool) (.fresh (.holds [some alice])) stoppedRun = some t ∧
      fundsAlice ∈ t.included ∧ t.Kept := by
  have hincluded : (run (step .evmPool) (.fresh (.holds [some alice])) stoppedRun).map World.included =
      some [fundsAlice] := by decide
  obtain ⟨t, hrun, ht⟩ := Option.map_eq_some_iff.mp hincluded
  refine ⟨t, hrun, by rw [ht]; exact List.mem_cons_self, ?_⟩
  refine funded_kept .evmPool _ ⟨rfl, rfl⟩ (by simp [World.Kept, World.fresh]) stoppedRun t hrun ?_
  rintro e u htakes poolSize amount fresh rfl
  rcases takes_cons_iff.mp htakes with ⟨⟨⟩, rfl⟩ | ⟨m, -, bs, cs, hevents, -⟩
  · refine Or.inr ?_
    rintro _ ⟨⟩ i hi
    obtain rfl : i = 0 := Nat.lt_one_iff.mp hi
    rfl
  · -- no other event starts a run
    have hmem := hevents ▸ List.mem_append_right bs (List.mem_cons_self (l := cs))
    simp at hmem

/-- Either script, when there is no pool file: the account is funded, and there is no file still. -/
theorem new_account_lost :
    (∃ t, run (step .userPool) (.fresh .absent) stoppedRun = some t ∧ t.process.isNone ∧ ¬ t.Kept) ∧
      ∃ t, run (step .evmPool) (.fresh .absent) stoppedRun = some t ∧ t.process.isNone ∧ ¬ t.Kept := by
  have hlost : ∀ script, ∃ t, run (step script) (.fresh .absent) stoppedRun = some t ∧
      t.process.isNone ∧ ¬ t.Kept := by
    intro script
    have hend : (run (step script) (.fresh .absent) stoppedRun).map
        (fun t => (t.process.isNone, t.file, t.included)) = some (true, .absent, [fundsAlice]) := by
      cases script <;> decide
    obtain ⟨t, hrun, ht⟩ := Option.map_eq_some_iff.mp hend
    obtain ⟨hprocess, hfile, hincluded⟩ : t.process.isNone = true ∧ t.file = .absent ∧
        t.included = [fundsAlice] := by simpa using ht
    refine ⟨t, hrun, hprocess, fun hkept => ?_⟩
    have hmem := hkept fundsAlice (by rw [hincluded]; exact List.mem_cons_self)
    rw [hfile] at hmem
    exact absurd hmem List.not_mem_nil
  exact ⟨hlost .userPool, hlost .evmPool⟩

end PqcMigration.AccountPool
