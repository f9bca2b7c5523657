/-
# PqcMigration.BatchScaling.SubmitGroup — `submit_group` of `loadgen.py`.

The transfers of a group are dealt to the accounts of a pool in contiguous shares. A thread for each account
goes through its share in order, one transfer at a time, and writes a packet at the transfer's place in the
list, whether the transaction was taken or not. The threads run side by side.

An account is its place in the pool; the threads are the actors of a transition system, in which a thread
starts a transfer (`send`) and comes back from it (`reply`). `sent` keeps which account started which
transfer, in order, and is read by nothing. The progress counter and the log are left out.

Whatever the interleaving, the shares stay apart, and when all threads are through every place has been
written (`submitGroup_spec`).
-/
import Mathlib.Data.List.Perm.Basic
import PqcMigration.BatchScaling.Packet
import PqcMigration.Lib.Run
import PqcMigration.Lib.Shares

namespace PqcMigration.BatchScaling

open Lib

/-- What `send_transfer` comes back with: a hash, or an exception. -/
inductive SendReply where
  | hash (txHash : Text)
  | raised (message : Text)
  deriving DecidableEq

/-- The packet of a transfer that was started, once the reply is there. -/
def submittedPacket (seq amount : ℕ) (submitTs : Time) : SendReply → Packet
  | .hash txHash => { seq, amount, submitTs, txHash, status := .submitted }
  | .raised message => { seq, amount, submitTs, status := .failed, error := message.take 300 }

/-- Where the thread of an account is: before the transfer `j` of its share, or within it. -/
inductive SharePc where
  | next (j : ℕ)
  | sending (j : ℕ) (submitTs : Time)
  deriving DecidableEq

/-- How many transfers of its share the thread has started. -/
def SharePc.started : SharePc → ℕ
  | .next j => j
  | .sending j _ => j + 1

/-- How many of them it has written down. -/
def SharePc.written : SharePc → ℕ
  | .next j => j
  | .sending j _ => j

structure SubmitState (P : ℕ) where
  packets : ℕ → Option Packet
  pc : Fin P → SharePc
  sent : List (Fin P × ℕ)

inductive SubmitEvent (P : ℕ) where
  | send (a : Fin P) (now : Time)
  | reply (a : Fin P) (r : SendReply)

section Step

variable {P : ℕ}

def submitStart (P : ℕ) : SubmitState P := ⟨fun _ => none, fun _ => .next 0, []⟩

/-- A group of `n` transfers of `amount` each. -/
def submitStep (n amount : ℕ) (s : SubmitState P) : SubmitEvent P → Option (SubmitState P)
  | .send a now =>
      match s.pc a with
      | .next j =>
          if j < share n P a then
            some { s with
              pc := Function.update s.pc a (.sending j now)
              sent := s.sent ++ [(a, shareStart n P a + j)] }
          else none
      | .sending _ _ => none
  | .reply a r =>
      match s.pc a with
      | .next _ => none
      | .sending j submitTs =>
          some { s with
            packets := Function.update s.packets (shareStart n P a + j)
              (some (submittedPacket (shareStart n P a + j) amount submitTs r))
            pc := Function.update s.pc a (.next (j + 1)) }

/-- Every thread has ended. -/
def SubmitState.Done (n : ℕ) (s : SubmitState P) : Prop := ∀ a, s.pc a = .next (share n P a)

instance (n : ℕ) (s : SubmitState P) : Decidable (s.Done n) :=
  inferInstanceAs (Decidable (∀ a, s.pc a = .next (share n P a)))

/-- The transfers an account has started, in order. -/
def SubmitState.sentBy (s : SubmitState P) (a : Fin P) : List ℕ :=
  (s.sent.filter fun e => e.1 = a).map Prod.snd

variable {n amount : ℕ} {s t : SubmitState P} {e : SubmitEvent P}

/-- Everything a step can do. -/
theorem submitStep_cases (h : submitStep n amount s e = some t) :
    (∃ a now j, e = .send a now ∧ s.pc a = .next j ∧ j < share n P a ∧
      t = ⟨s.packets, Function.update s.pc a (.sending j now), s.sent ++ [(a, shareStart n P a + j)]⟩) ∨
    (∃ a r j submitTs, e = .reply a r ∧ s.pc a = .sending j submitTs ∧
      t = ⟨Function.update s.packets (shareStart n P a + j)
          (some (submittedPacket (shareStart n P a + j) amount submitTs r)),
        Function.update s.pc a (.next (j + 1)), s.sent⟩) := by
  cases e with
  | send a now =>
      simp only [submitStep] at h
      split at h
      · next j hpc =>
          split at h
          · next hj => exact .inl ⟨a, now, j, rfl, hpc, hj, (Option.some.inj h).symm⟩
          · cases h
      · cases h
  | reply a r =>
      simp only [submitStep] at h
      split at h
      · cases h
      · next j submitTs hpc => exact .inr ⟨a, r, j, submitTs, rfl, hpc, (Option.some.inj h).symm⟩

/-! ## The invariant -/

/-- No thread leaves its share; each has started its transfers in order, and the places written are those
its account has come back from. -/
structure SubmitInv (n : ℕ) (s : SubmitState P) : Prop where
  within : ∀ a, (s.pc a).started ≤ share n P a
  inOrder : ∀ a, s.sentBy a = List.range' (shareStart n P a) (s.pc a).started
  once : (s.sent.map Prod.snd).Nodup
  written : ∀ a j, j < (s.pc a).written → ∃ p, s.packets (shareStart n P a + j) = some p ∧
    p.seq = shareStart n P a + j
  unwritten : ∀ i, (∀ a j, j < (s.pc a).written → i ≠ shareStart n P a + j) → s.packets i = none

theorem submitInv_start : SubmitInv n (submitStart P) where
  within _ := Nat.zero_le _
  inOrder _ := rfl
  once := List.nodup_nil
  written _ j hj := absurd hj (Nat.not_lt_zero j)
  unwritten _ _ := rfl

theorem submittedPacket_seq (seq amount : ℕ) (submitTs : Time) (r : SendReply) :
    (submittedPacket seq amount submitTs r).seq = seq := by
  cases r <;> rfl

theorem sentBy_append (sent : List (Fin P × ℕ)) (a b : Fin P) (i : ℕ) :
    ((sent ++ [(a, i)]).filter fun e => e.1 = b).map Prod.snd =
      (sent.filter fun e => e.1 = b).map Prod.snd ++ if a = b then [i] else [] := by
  rw [List.filter_append, List.map_append, List.filter_singleton]
  by_cases hab : a = b <;> simp [hab]

theorem SubmitInv.mem_sent (h : SubmitInv n s) {a : Fin P} {i : ℕ} :
    (a, i) ∈ s.sent ↔ ∃ j < (s.pc a).started, i = shareStart n P a + j := by
  have hsent : (a, i) ∈ s.sent ↔ i ∈ s.sentBy a := by
    unfold SubmitState.sentBy
    simp
  rw [hsent, h.inOrder a, List.mem_range']
  simp only [Nat.one_mul]

/-- The next transfer of an account was started by nobody. -/
theorem SubmitInv.fresh (h : SubmitInv n s) {a : Fin P} {j : ℕ} (hpc : s.pc a = .next j)
    (hj : j < share n P a) : shareStart n P a + j ∉ s.sent.map Prod.snd := by
  intro hmem
  obtain ⟨⟨b, i⟩, hsent, hi⟩ := List.mem_map.mp hmem
  obtain ⟨j', hj', hplace⟩ := h.mem_sent.mp hsent
  obtain ⟨hab, rfl⟩ := share_unique hj (hj'.trans_le (h.within b)) (hi.symm.trans hplace)
  obtain rfl : a = b := Fin.ext hab
  rw [hpc] at hj'
  exact absurd hj' (Nat.lt_irrefl j)

/-- To start a transfer writes nothing. -/
theorem SubmitInv.send (h : SubmitInv n s) {a : Fin P} {j : ℕ} {now : Time} (hpc : s.pc a = .next j)
    (hj : j < share n P a) :
    SubmitInv n
      ⟨s.packets, Function.update s.pc a (.sending j now), s.sent ++ [(a, shareStart n P a + j)]⟩ := by
  have hwritten : ∀ b, (Function.update s.pc a (.sending j now) b).written = (s.pc b).written :=
    (Function.forall_update_iff s.pc fun b pc => pc.written = (s.pc b).written).mpr
      ⟨by rw [hpc]; rfl, fun _ _ => rfl⟩
  refine ⟨?_, ?_, ?_, fun b j' hj' => ?_, fun i hi => ?_⟩
  · exact (Function.forall_update_iff s.pc fun b pc => pc.started ≤ share n P b).mpr
      ⟨hj, fun b _ => h.within b⟩
  · refine (Function.forall_update_iff s.pc fun b pc => _ = List.range' (shareStart n P b) pc.started).mpr
      ⟨?_, fun b hb => ?_⟩
    · have hbefore : s.sentBy a = List.range' (shareStart n P a) j := by rw [h.inOrder a, hpc]; rfl
      rw [SubmitState.sentBy, sentBy_append, if_pos rfl]
      show s.sentBy a ++ _ = List.range' _ (j + 1)
      rw [hbefore, List.range'_concat, Nat.one_mul]
    · rw [SubmitState.sentBy, sentBy_append, if_neg (Ne.symm hb), List.append_nil]
      exact h.inOrder b
  · rw [List.map_append, List.map_singleton]
    exact List.nodup_append.mpr ⟨h.once, List.nodup_singleton _, fun i hi i' hi' => by
      rw [List.mem_singleton.mp hi']
      rintro rfl
      exact h.fresh hpc hj hi⟩
  · rw [hwritten] at hj'
    exact h.written b j' hj'
  · refine h.unwritten i fun b j' hj' => hi b j' ?_
    rwa [hwritten]

/-- To come back from a transfer writes its place, which is in no other share and not written yet. -/
theorem SubmitInv.reply (h : SubmitInv n s) {a : Fin P} {j : ℕ} {submitTs : Time} (r : SendReply)
    (hpc : s.pc a = .sending j submitTs) :
    SubmitInv n ⟨Function.update s.packets (shareStart n P a + j)
        (some (submittedPacket (shareStart n P a + j) amount submitTs r)),
      Function.update s.pc a (.next (j + 1)), s.sent⟩ := by
  have hstarted : ∀ b, (Function.update s.pc a (.next (j + 1)) b).started = (s.pc b).started :=
    (Function.forall_update_iff s.pc fun b pc => pc.started = (s.pc b).started).mpr
      ⟨by rw [hpc]; rfl, fun _ _ => rfl⟩
  have hwritten : ∀ b j', j' < (Function.update s.pc a (.next (j + 1)) b).written ↔
      b = a ∧ j' = j ∨ j' < (s.pc b).written := by
    refine (Function.forall_update_iff s.pc fun b pc => ∀ j', j' < pc.written ↔
      b = a ∧ j' = j ∨ j' < (s.pc b).written).mpr ⟨fun j' => ?_, fun b hb j' => by simp [hb]⟩
    rw [hpc]
    show j' < j + 1 ↔ a = a ∧ j' = j ∨ j' < j
    rw [eq_self, true_and]
    omega
  refine ⟨fun b => ?_, fun b => ?_, h.once, fun b j' hj' => ?_, fun i hi => ?_⟩
  · rw [hstarted]
    exact h.within b
  · rw [hstarted]
    exact h.inOrder b
  · dsimp only
    by_cases hplace : shareStart n P b + j' = shareStart n P a + j
    · rw [hplace, Function.update_self]
      exact ⟨_, rfl, submittedPacket_seq ..⟩
    · rw [Function.update_of_ne hplace]
      obtain ⟨rfl, rfl⟩ | hj' := (hwritten b j').mp hj'
      · exact absurd rfl hplace
      · exact h.written b j' hj'
  · have hne : i ≠ shareStart n P a + j := hi a j ((hwritten a j).mpr (.inl ⟨rfl, rfl⟩))
    dsimp only
    rw [Function.update_of_ne hne]
    exact h.unwritten i fun b j' hj' => hi b j' ((hwritten b j').mpr (.inr hj'))

theorem SubmitInv.step (h : SubmitInv n s) (hstep : submitStep n amount s e = some t) : SubmitInv n t := by
  obtain ⟨a, now, j, rfl, hpc, hj, rfl⟩ | ⟨a, r, j, submitTs, rfl, hpc, rfl⟩ := submitStep_cases hstep
  · exact h.send hpc hj
  · exact h.reply r hpc

/-! ## The group -/

theorem SubmitInv.mem_sent_of_done (h : SubmitInv n s) (hdone : s.Done n) {a : Fin P} {i : ℕ} :
    (a, i) ∈ s.sent ↔ ∃ j < share n P a, i = shareStart n P a + j := by
  rw [h.mem_sent, hdone a]
  rfl

theorem SubmitInv.sentBy_of_done (h : SubmitInv n s) (hdone : s.Done n) (a : Fin P) :
    s.sentBy a = List.range' (shareStart n P a) (share n P a) := by
  rw [h.inOrder, hdone a]
  rfl

/-- Every place of the group is written, and none outside it. -/
theorem SubmitInv.packets_of_done (h : SubmitInv n s) (hdone : s.Done n) (hP : 0 < P) :
    (∀ i < n, ∃ p, s.packets i = some p ∧ p.seq = i) ∧ ∀ i, n ≤ i → s.packets i = none := by
  have hwritten : ∀ a, (s.pc a).written = share n P a := fun a => by rw [hdone a]; rfl
  constructor
  · intro i hi
    obtain ⟨a, ha, j, hj, rfl⟩ := exists_share hP hi
    exact h.written ⟨a, ha⟩ j (by rwa [hwritten])
  · intro i hi
    refine h.unwritten i fun a j hj heq => ?_
    rw [hwritten] at hj
    have := shareStart_add_lt a.isLt hj
    omega

/-- Every transfer of the group is started once, and by one account. -/
theorem SubmitInv.sent_of_done (h : SubmitInv n s) (hdone : s.Done n) (hP : 0 < P) :
    (∀ i < n, ∃! a, (a, i) ∈ s.sent) ∧ (s.sent.map Prod.snd).Perm (List.range n) := by
  have hexists : ∀ i < n, ∃ a, (a, i) ∈ s.sent := fun i hi => by
    obtain ⟨a, ha, hj⟩ := exists_share hP hi
    exact ⟨⟨a, ha⟩, (h.mem_sent_of_done hdone).mpr hj⟩
  constructor
  · intro i hi
    obtain ⟨a, ha⟩ := hexists i hi
    refine ⟨a, ha, fun b hb => ?_⟩
    obtain ⟨j, hj, rfl⟩ := (h.mem_sent_of_done hdone).mp ha
    obtain ⟨j', hj', hplace⟩ := (h.mem_sent_of_done hdone).mp hb
    exact Fin.ext (share_unique hj hj' hplace).1.symm
  · refine (List.perm_ext_iff_of_nodup h.once List.nodup_range).mpr fun i => ?_
    rw [List.mem_range, List.mem_map]
    constructor
    · rintro ⟨⟨a, _⟩, hsent, rfl⟩
      obtain ⟨j, hj, rfl⟩ := (h.mem_sent_of_done hdone).mp hsent
      exact shareStart_add_lt a.isLt hj
    · intro hi
      obtain ⟨a, ha⟩ := hexists i hi
      exact ⟨(a, i), ha, rfl⟩

end Step

/-- Once all threads of a group are through, every index from `0` to `n - 1` holds a packet with that
sequence, every one of them was submitted once and by one account, each account submitted a run of indices
from the lowest to the highest, and no account submitted two more than another. -/
theorem submitGroup_spec (n amount : ℕ) (pool : List Text) (hpool : pool ≠ [])
    {events : List (SubmitEvent pool.length)} {s : SubmitState pool.length}
    (hrun : run (submitStep n amount) (submitStart pool.length) events = some s) (hdone : s.Done n) :
    ((∀ i < n, ∃ p, s.packets i = some p ∧ p.seq = i) ∧ ∀ i, n ≤ i → s.packets i = none) ∧
      ((∀ i < n, ∃! a, (a, i) ∈ s.sent) ∧ (s.sent.map Prod.snd).Perm (List.range n)) ∧
      (∀ a, ∃ first count, s.sentBy a = List.range' first count) ∧
      ∀ a b, (s.sentBy a).length ≤ (s.sentBy b).length + 1 := by
  have hP : 0 < pool.length := List.length_pos_of_ne_nil hpool
  have h : SubmitInv n s := run_invariant (fun _ _ _ => SubmitInv.step) submitInv_start hrun
  refine ⟨h.packets_of_done hdone hP, h.sent_of_done hdone hP,
    fun a => ⟨_, _, h.sentBy_of_done hdone a⟩, fun a b => ?_⟩
  rw [h.sentBy_of_done hdone, h.sentBy_of_done hdone, List.length_range', List.length_range']
  exact share_le_succ ..

def firstAccount : Fin 2 := Fin.castSucc (Fin.last 0)

def secondAccount : Fin 2 := Fin.last 1

/-- Three transfers over two accounts: the second account goes first, and a transfer fails. -/
def threeTransfers : List (SubmitEvent 2) :=
  [.send secondAccount 5, .send firstAccount 6, .reply secondAccount (.hash "AB".toList),
    .reply firstAccount (.raised "refused".toList), .send firstAccount 9,
    .reply firstAccount (.hash "CD".toList)]

theorem submitGroup_spec_three :
    ∃ s, run (submitStep 3 1000) (submitStart 2) threeTransfers = some s ∧
      (s.sent.map Prod.snd).Perm (List.range 3) ∧ ∀ i < 3, ∃ p, s.packets i = some p ∧ p.seq = i := by
  refine ⟨_, rfl, ?_⟩
  have h := @submitGroup_spec 3 1000 ["loadgen-pool-0".toList, "loadgen-pool-1".toList] (by decide)
    threeTransfers _ rfl (by decide)
  exact ⟨h.2.1.2, h.1.1⟩

end PqcMigration.BatchScaling
