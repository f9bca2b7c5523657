/-
# PqcMigration.Tools.StorageSim — what a chain stores after a number of transactions.

`tools/storage_sim/main.go` draws one message type after another and keeps counters: the bytes of all
transactions, the accounts there are, and the bytes of state those take. A receive is signed by the
relayer, whose account is stored with the first one, and makes an account without a public key; any other
message is signed by a user, and the number of users follows a growth curve.

Sizes, bytes and accounts are `int64`, which wrap, so the identities are ones of that arithmetic. The two
counters of transactions stay within `numTx`, an `int64` too, and are exact. The curve is floating-point in
the source; what it converts to here is any function (`curve`).
-/
import Mathlib.Data.List.Induction
import Mathlib.Tactic.Common

namespace PqcMigration.Tools.StorageSim

/-! ## The sizes -/

def txEnvelopeOverhead : Int64 := 110

def accountStateOverhead : Int64 := 100

inductive Msg where
  | recv
  | transfer
  | stake
  | gov
  deriving DecidableEq, Repr

/-- `MsgBodySizes` -/
def Msg.bodySize : Msg → Int64
  | .recv => 4513
  | .transfer => 112
  | .stake => 95
  | .gov => 55

/-! ## The simulator -/

/-- The counters of `Simulator`; its mix and its random source are in what it draws. -/
structure Simulator where
  numTx : ℕ
  pubKeySize : Int64
  sigSize : Int64
  txCount : ℕ
  userTxCount : ℕ
  totalTxBytes : Int64
  totalStateBytes : Int64
  uniqueAccounts : Int64
  userAccounts : Int64
  recvAccounts : Int64
  relayerStored : Bool
  deriving DecidableEq, Repr

/-- The accounts the curve asks for, one at least from the first transaction on. -/
def expectedAccounts (curve : ℕ → Int64) (n : ℕ) : Int64 :=
  if n ≤ 0 then 0 else if curve n < 1 then 1 else curve n

namespace Simulator

/-- `newSim`, for the sizes of a scheme. -/
def new (numTx : ℕ) (pubKeySize sigSize : Int64) : Simulator where
  numTx := numTx
  pubKeySize := pubKeySize
  sigSize := sigSize
  txCount := 0
  userTxCount := 0
  totalTxBytes := 0
  totalStateBytes := 0
  uniqueAccounts := 0
  userAccounts := 0
  recvAccounts := 0
  relayerStored := false

/-- The bytes of one transaction: its signer's public key and signature go with it. -/
def txBytes (s : Simulator) (msg : Msg) : Int64 :=
  txEnvelopeOverhead + msg.bodySize + s.pubKeySize + s.sigSize

def sign (s : Simulator) (msg : Msg) : Simulator :=
  { s with totalTxBytes := s.totalTxBytes + s.txBytes msg, txCount := s.txCount + 1 }

/-- The relayer's account is stored with the first receive. -/
def storeRelayer (s : Simulator) : Simulator :=
  if s.relayerStored then s
  else
    { s with
      relayerStored := true
      uniqueAccounts := s.uniqueAccounts + 1
      totalStateBytes := s.totalStateBytes + (accountStateOverhead + s.pubKeySize) }

/-- The receiver's account has no public key yet. -/
def creditReceiver (s : Simulator) : Simulator :=
  { s with
    recvAccounts := s.recvAccounts + 1
    uniqueAccounts := s.uniqueAccounts + 1
    totalStateBytes := s.totalStateBytes + accountStateOverhead }

/-- The users are brought up to the curve; a curve that comes down takes none away. -/
def growUsers (curve : ℕ → Int64) (s : Simulator) : Simulator :=
  let target := expectedAccounts curve (s.userTxCount + 1)
  let s := { s with userTxCount := s.userTxCount + 1 }
  if target > s.userAccounts then
    let delta := target - s.userAccounts
    { s with
      userAccounts := target
      uniqueAccounts := s.uniqueAccounts + delta
      totalStateBytes := s.totalStateBytes + delta * (accountStateOverhead + s.pubKeySize) }
  else s

/-- `step`, with the message it draws. -/
def step (curve : ℕ → Int64) (s : Simulator) (msg : Msg) : Simulator :=
  let s := s.sign msg
  if msg = .recv then s.storeRelayer.creditReceiver else s.growUsers curve

def stateAfterFirstSignature (s : Simulator) : Int64 := s.totalStateBytes + s.recvAccounts * s.pubKeySize

/-- The simulator after it has drawn `msgs`. -/
def after (curve : ℕ → Int64) (s : Simulator) (msgs : List Msg) : Simulator :=
  msgs.foldl (step curve) s

end Simulator

open Simulator

/-! ## The users -/

/-- How many of the messages a user signed. -/
def userSteps (msgs : List Msg) : ℕ := msgs.countP (· ≠ .recv)

/-- The maximum of what is expected in the first `n` user steps, 0 before the first. -/
structure IsMost (curve : ℕ → Int64) (n : ℕ) (users : Int64) : Prop where
  none : n = 0 → users = 0
  some : 0 < n → ∃ i < n, users = expectedAccounts curve (i + 1)
  le : ∀ i < n, expectedAccounts curve (i + 1) ≤ users

theorem zero_lt_expectedAccounts (curve : ℕ → Int64) (n : ℕ) : 0 < expectedAccounts curve (n + 1) := by
  unfold expectedAccounts
  rw [if_neg (Nat.not_succ_le_zero n)]
  split
  · decide
  · next hnot => exact Int64.lt_of_lt_of_le (by decide) (Int64.not_lt.mp hnot)

section

variable {curve : ℕ → Int64} {n : ℕ} {users : Int64}

theorem IsMost.grow (h : IsMost curve n users) (hgrow : users < expectedAccounts curve (n + 1)) :
    IsMost curve (n + 1) (expectedAccounts curve (n + 1)) where
  none h0 := by cases h0
  some _ := ⟨n, Nat.lt_succ_self n, rfl⟩
  le i hi := by
    rcases Nat.lt_succ_iff_lt_or_eq.mp hi with hlt | rfl
    · exact Int64.le_trans (h.le i hlt) (Int64.le_of_lt hgrow)
    · exact Int64.le_refl _

theorem IsMost.keep (h : IsMost curve n users) (hkeep : expectedAccounts curve (n + 1) ≤ users) :
    IsMost curve (n + 1) users where
  none h0 := by cases h0
  some _ := by
    -- the first step always grows the users: one is expected at least
    rcases Nat.eq_zero_or_pos n with h0 | hpos
    · rw [h.none h0] at hkeep
      exact absurd (zero_lt_expectedAccounts curve n) (Int64.not_lt.mpr hkeep)
    · obtain ⟨i, hi, husers⟩ := h.some hpos
      exact ⟨i, Nat.lt_succ_of_lt hi, husers⟩
  le i hi := by
    rcases Nat.lt_succ_iff_lt_or_eq.mp hi with hlt | rfl
    · exact h.le i hlt
    · exact hkeep

end

/-! ## The accounts -/

/-- The counters, for the messages drawn so far. The accounts with a key in state are the users' and the
relayer's. -/
structure Accounted (curve : ℕ → Int64) (numTx : ℕ) (pub sig : Int64) (msgs : List Msg) (s : Simulator) :
    Prop where
  numTx_eq : s.numTx = numTx
  pub_eq : s.pubKeySize = pub
  sig_eq : s.sigSize = sig
  drawn : s.txCount = msgs.length
  users : s.userTxCount = userSteps msgs
  relayer : s.relayerStored = decide (Msg.recv ∈ msgs)
  unique : s.uniqueAccounts = s.userAccounts + s.recvAccounts + if s.relayerStored then 1 else 0
  state : s.totalStateBytes =
    accountStateOverhead * s.uniqueAccounts + pub * (s.uniqueAccounts - s.recvAccounts)
  tx : s.totalTxBytes = (msgs.map fun msg => txEnvelopeOverhead + msg.bodySize + pub + sig).sum
  most : IsMost curve (userSteps msgs) s.userAccounts

namespace Accounted

variable {curve : ℕ → Int64} {numTx : ℕ} {pub sig : Int64} {msgs : List Msg} {s : Simulator} {msg : Msg}

theorem new : Accounted curve numTx pub sig [] (.new numTx pub sig) where
  numTx_eq := rfl
  pub_eq := rfl
  sig_eq := rfl
  drawn := rfl
  users := rfl
  relayer := rfl
  unique := rfl
  state := by simp [Simulator.new]
  tx := rfl
  most := ⟨fun _ => rfl, fun h => absurd h (Nat.lt_irrefl 0), fun i hi => absurd hi (Nat.not_lt_zero i)⟩

theorem tx_append (h : Accounted curve numTx pub sig msgs s) (msg : Msg) :
    s.totalTxBytes + s.txBytes msg =
      ((msgs ++ [msg]).map fun msg => txEnvelopeOverhead + msg.bodySize + pub + sig).sum := by
  rw [List.map_append, List.sum_append, ← h.tx, Simulator.txBytes, h.pub_eq, h.sig_eq]
  simp

theorem step_recv (h : Accounted curve numTx pub sig msgs s) :
    Accounted curve numTx pub sig (msgs ++ [.recv]) (s.step curve .recv) := by
  have husers : userSteps (msgs ++ [.recv]) = userSteps msgs := by simp [userSteps]
  have htx := h.tx_append .recv
  have hunique := h.unique
  have hstate := h.state
  have hpub := h.pub_eq
  show Accounted curve numTx pub sig _ (s.sign .recv).storeRelayer.creditReceiver
  unfold storeRelayer creditReceiver sign
  cases hstored : s.relayerStored
  all_goals
    simp only [hstored, Bool.false_eq_true, if_true, if_false] at hunique ⊢
    refine ⟨h.numTx_eq, hpub, h.sig_eq, by simp [h.drawn], husers ▸ h.users, by simp, ?_, ?_, htx,
      husers ▸ h.most⟩
    · grind
    · grind

theorem step_user (h : Accounted curve numTx pub sig msgs s) (hmsg : msg ≠ .recv) :
    Accounted curve numTx pub sig (msgs ++ [msg]) (s.step curve msg) := by
  have husers : userSteps (msgs ++ [msg]) = userSteps msgs + 1 := by simp [userSteps, hmsg]
  have hrelayer : s.relayerStored = decide (Msg.recv ∈ msgs ++ [msg]) := by
    simp [h.relayer, Ne.symm hmsg]
  have hunique := h.unique
  have hstate := h.state
  have hpub := h.pub_eq
  have hdrawn : s.txCount + 1 = (msgs ++ [msg]).length := by simp [h.drawn]
  have hcount : s.userTxCount + 1 = userSteps (msgs ++ [msg]) := by rw [husers, h.users]
  unfold Simulator.step
  rw [if_neg hmsg]
  unfold growUsers sign
  dsimp only
  split
  · next hgrow =>
      refine ⟨h.numTx_eq, hpub, h.sig_eq, hdrawn, hcount, hrelayer, ?_, ?_, h.tx_append msg, ?_⟩
      · grind
      · grind
      · rw [h.users] at hgrow
        rw [husers, h.users]
        exact h.most.grow hgrow
  · next hkeep =>
      refine ⟨h.numTx_eq, hpub, h.sig_eq, hdrawn, hcount, hrelayer, hunique, hstate, h.tx_append msg, ?_⟩
      rw [h.users] at hkeep
      rw [husers]
      exact h.most.keep (Int64.not_lt.mp hkeep)

theorem step (h : Accounted curve numTx pub sig msgs s) (msg : Msg) :
    Accounted curve numTx pub sig (msgs ++ [msg]) (s.step curve msg) := by
  by_cases hmsg : msg = .recv
  · rw [hmsg]
    exact h.step_recv
  · exact h.step_user hmsg

/-- The counters after any messages. -/
theorem after (msgs : List Msg) :
    Accounted curve numTx pub sig msgs ((Simulator.new numTx pub sig).after curve msgs) := by
  induction msgs using List.reverseRecOn with
  | nil => exact new
  | append_singleton msgs msg ih =>
      rw [Simulator.after, List.foldl_append]
      exact ih.step msg

end Accounted

/-- **The accounts are kept.** Whatever is drawn, and whatever the curve: the accounts are the users', the
receivers' and the relayer's; each takes its overhead, and all but the receivers' a key; and the users are
the most that was expected. -/
theorem accounting (curve : ℕ → Int64) (numTx : ℕ) (pub sig : Int64) (msgs : List Msg) :
    let s := (Simulator.new numTx pub sig).after curve msgs
    s.uniqueAccounts = s.userAccounts + s.recvAccounts + (if Msg.recv ∈ msgs then 1 else 0) ∧
      s.totalStateBytes =
        accountStateOverhead * s.uniqueAccounts + pub * (s.uniqueAccounts - s.recvAccounts) ∧
      s.totalTxBytes = (msgs.map fun msg => txEnvelopeOverhead + msg.bodySize + pub + sig).sum ∧
      IsMost curve (userSteps msgs) s.userAccounts ∧
      s.stateAfterFirstSignature = (accountStateOverhead + pub) * s.uniqueAccounts := by
  intro s
  have h : Accounted curve numTx pub sig msgs s := Accounted.after msgs
  have hunique := h.unique
  simp only [h.relayer, decide_eq_true_eq] at hunique
  refine ⟨hunique, h.state, h.tx, h.most, ?_⟩
  rw [Simulator.stateAfterFirstSignature, h.state, h.pub_eq]
  grind

end PqcMigration.Tools.StorageSim
