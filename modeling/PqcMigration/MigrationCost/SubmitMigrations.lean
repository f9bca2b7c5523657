/-
# PqcMigration.MigrationCost.SubmitMigrations — nonces and receipts of `submit-migrations.js`.

Three phases, each a `Promise.all`: the pending count of every user is asked for; every user's loop
sends its transfers one after another, under `nonces[i] + j`; then the receipts of those that were
accepted are awaited. The loops run at the same time, in any interleaving, and the node mines as it
likes. Every user has an account of its own.

A send that is refused is caught, and the loop goes on with the NEXT nonce. So the accepted nonces are a
run without a hole exactly if no send was accepted after a refused one; and behind a hole that nobody
else fills no receipt ever arrives (`accepted_contiguous_iff`).
-/
import PqcMigration.Lib.Mempool
import PqcMigration.Lib.Run
import Mathlib.Data.Fintype.Basic

namespace PqcMigration.MigrationCost.SubmitMigrations

open Lib

universe u

/-! ## The script -/

/-- The users are indices, and so are their accounts. -/
structure SubmitState (ι : Type u) where
  /-- the answers to `getTransactionCount(u.address, "pending")` so far -/
  counts : ι → Option ℕ
  /-- the sends of each loop that are over, in order: accepted (`rec._tx` is set), or refused -/
  outcomes : ι → List Bool
  /-- the nonces of the transactions that were accepted -/
  accepted : ι → List ℕ
  /-- the transfers, by `subIndex`, whose `tx.wait()` has returned -/
  receipts : ι → List ℕ
  pool : ι → Pool

inductive SubmitEvent (ι : Type u) where
  /-- the node answers for a user -/
  | count (i : ι)
  /-- the send that a user's loop awaits is over -/
  | settle (i : ι) (accepted : Bool)
  /-- the receipt of a user's transfer arrives -/
  | receipt (i : ι) (j : ℕ)
  /-- a transaction of a user is mined -/
  | mine (i : ι)

section Script

variable {ι : Type u} [DecidableEq ι] [Fintype ι]

def submitStep (perUser : ℕ) (s : SubmitState ι) : SubmitEvent ι → Option (SubmitState ι)
  | .count i =>
      match s.counts i with
      | none => some { s with counts := Function.update s.counts i (some (s.pool i).pending) }
      | some _ => none
  | .settle i accepted =>
      match s.counts i with
      | none => none
      | some nonce =>
          let j := (s.outcomes i).length
          -- the loops start when every count is there
          if (∀ k, (s.counts k).isSome) ∧ j < perUser then
            some { s with
              outcomes := Function.update s.outcomes i (s.outcomes i ++ [accepted])
              accepted := if accepted then
                Function.update s.accepted i (s.accepted i ++ [nonce + j]) else s.accepted
              pool := if accepted then
                Function.update s.pool i ((s.pool i).accept (nonce + j)) else s.pool }
          else none
  | .receipt i j =>
      match s.counts i with
      | none => none
      | some nonce =>
          -- the receipts are awaited when every loop is over
          if (∀ k, (s.outcomes k).length = perUser) ∧ (s.outcomes i)[j]? = some true ∧
              nonce + j < (s.pool i).mined then
            some { s with receipts := Function.update s.receipts i (j :: s.receipts i) }
          else none
  | .mine i => some { s with pool := Function.update s.pool i (s.pool i).mine }

def submitStart (pool : ι → Pool) : SubmitState ι :=
  ⟨fun _ => none, fun _ => [], fun _ => [], fun _ => [], pool⟩

end Script

/-! ## The nonces of the accepted transactions -/

/-- The nonces, from the first on, of the sends that were accepted. -/
def acceptedNonces : ℕ → List Bool → List ℕ
  | _, [] => []
  | nonce, accepted :: rest =>
      if accepted then nonce :: acceptedNonces (nonce + 1) rest else acceptedNonces (nonce + 1) rest

/-- No send is accepted after a refused one. -/
def NoneAfterRefused (outcomes : List Bool) : Prop :=
  ∀ j k : ℕ, j < k → outcomes[k]? = some true → outcomes[j]? = some true

theorem mem_acceptedNonces {nonce m : ℕ} {outcomes : List Bool} :
    m ∈ acceptedNonces nonce outcomes ↔ ∃ j, outcomes[j]? = some true ∧ m = nonce + j := by
  induction outcomes generalizing nonce with
  | nil => simp [acceptedNonces]
  | cons accepted rest ih =>
      have hrest : (∃ j, (accepted :: rest)[j]? = some true ∧ m = nonce + j) ↔
          (accepted = true ∧ m = nonce) ∨ ∃ j, rest[j]? = some true ∧ m = nonce + 1 + j := by
        constructor
        · rintro ⟨j, hj, rfl⟩
          cases j with
          | zero => exact Or.inl ⟨Option.some.inj hj, rfl⟩
          | succ j => exact Or.inr ⟨j, hj, by omega⟩
        · rintro (⟨rfl, rfl⟩ | ⟨j, hj, rfl⟩)
          · exact ⟨0, rfl, rfl⟩
          · exact ⟨j + 1, hj, by omega⟩
      rw [hrest, ← ih, acceptedNonces]
      cases accepted <;> simp

/-- **A run without a hole**: exactly if no send was accepted after a refused one. -/
theorem acceptedNonces_range_iff {nonce : ℕ} {outcomes : List Bool} :
    (∃ k, acceptedNonces nonce outcomes = List.range' nonce k) ↔ NoneAfterRefused outcomes := by
  constructor
  · rintro ⟨n, hn⟩ j k hjk hk
    have hmem : nonce + k ∈ acceptedNonces nonce outcomes := mem_acceptedNonces.mpr ⟨k, hk, rfl⟩
    rw [hn, List.mem_range'_1] at hmem
    have hmem' : nonce + j ∈ acceptedNonces nonce outcomes := by
      rw [hn, List.mem_range'_1]
      omega
    obtain ⟨j', hj', heq⟩ := mem_acceptedNonces.mp hmem'
    rwa [Nat.add_left_cancel heq]
  · intro h
    induction outcomes generalizing nonce with
    | nil => exact ⟨0, rfl⟩
    | cons accepted rest ih =>
        cases accepted with
        | true =>
            have hrest : NoneAfterRefused rest := fun i j hij hj =>
              h (i + 1) (j + 1) (Nat.succ_lt_succ hij) hj
            obtain ⟨k, hk⟩ := @ih (nonce + 1) hrest
            exact ⟨k + 1, congrArg (nonce :: ·) hk⟩
        | false =>
            -- the first was refused, so nothing was accepted
            refine ⟨0, List.eq_nil_iff_forall_not_mem.mpr fun m hm => ?_⟩
            obtain ⟨j, hj, rfl⟩ := mem_acceptedNonces.mp hm
            cases j with
            | zero => exact nomatch hj
            | succ j => exact nomatch h 0 (j + 1) (by omega) hj

theorem acceptedNonces_concat (nonce : ℕ) (outcomes : List Bool) (accepted : Bool) :
    acceptedNonces nonce (outcomes ++ [accepted]) = acceptedNonces nonce outcomes ++
      if accepted then [nonce + outcomes.length] else [] := by
  induction outcomes generalizing nonce with
  | nil => cases accepted <;> rfl
  | cons first rest ih =>
      have hlen : nonce + 1 + rest.length = nonce + (first :: rest).length := by
        rw [List.length_cons]
        omega
      rw [List.cons_append, acceptedNonces, acceptedNonces, ih, hlen]
      cases first <;> rfl

/-! ## Counts, pools and receipts -/

section Runs

variable {ι : Type u} {s t : SubmitState ι}

/-- Every count is the pending count of the start; what is occupied was so at the start or is accepted;
and a receipt that has arrived is of a mined transaction. -/
structure SubmitInv (start : ι → Pool) (s : SubmitState ι) : Prop where
  counted : ∀ i n, s.counts i = some n → n = (start i).pending
  waiting : ∀ i, s.counts i = none → s.outcomes i = []
  accepted : ∀ i, s.accepted i = acceptedNonces (start i).pending (s.outcomes i)
  occupied : ∀ i m, (s.pool i).Occupied m ↔ (start i).Occupied m ∨ m ∈ s.accepted i
  received : ∀ i, ∀ j ∈ s.receipts i, (start i).pending + j < (s.pool i).mined

theorem submitInv_start (start : ι → Pool) : SubmitInv start (submitStart start) where
  counted := fun _ _ h => nomatch h
  waiting := fun _ _ => rfl
  accepted := fun _ => rfl
  occupied := fun _ _ => by simp [submitStart]
  received := fun _ _ h => absurd h List.not_mem_nil

theorem SubmitInv.mem_accepted {start : ι → Pool} (h : SubmitInv start s) (i : ι) (j : ℕ) :
    (start i).pending + j ∈ s.accepted i ↔ (s.outcomes i)[j]? = some true := by
  rw [h.accepted, mem_acceptedNonces]
  constructor
  · rintro ⟨j', hj', heq⟩
    rwa [Nat.add_left_cancel heq]
  · exact fun hj => ⟨j, hj, rfl⟩

variable [DecidableEq ι]

/-- A send has ended: the next in the user's loop. -/
def SubmitState.settle (s : SubmitState ι) (i : ι) (nonce : ℕ) (accepted : Bool) : SubmitState ι :=
  { s with
    outcomes := Function.update s.outcomes i (s.outcomes i ++ [accepted])
    accepted := if accepted then
      Function.update s.accepted i (s.accepted i ++ [nonce + (s.outcomes i).length]) else s.accepted
    pool := if accepted then
      Function.update s.pool i ((s.pool i).accept (nonce + (s.outcomes i).length)) else s.pool }

theorem SubmitInv.count {start : ι → Pool} (h : SubmitInv start s) {i : ι} (hnone : s.counts i = none) :
    SubmitInv start { s with counts := Function.update s.counts i (some (s.pool i).pending) } := by
  refine ⟨?_, ?_, h.accepted, h.occupied, h.received⟩
  · -- nothing has been sent for the user, so only mining has happened
    have hpending : (s.pool i).pending = (start i).pending := by
      apply Pool.pending_congr
      intro m
      rw [h.occupied, h.accepted, h.waiting i hnone, acceptedNonces, or_iff_left List.not_mem_nil]
    intro k n hk
    by_cases hki : k = i
    · subst hki
      simp only [Function.update_self, Option.some.injEq] at hk
      rw [← hk, hpending]
    · simp only [Function.update_of_ne hki] at hk
      exact h.counted k n hk
  · intro k hk
    by_cases hki : k = i
    · subst hki
      simp at hk
    · simp only [Function.update_of_ne hki] at hk
      exact h.waiting k hk

theorem SubmitInv.settle {start : ι → Pool} (h : SubmitInv start s) {i : ι} {nonce : ℕ}
    (hcount : s.counts i = some nonce) (hall : ∀ k, (s.counts k).isSome) (accepted : Bool) :
    SubmitInv start (s.settle i nonce accepted) := by
  obtain rfl := h.counted i nonce hcount
  unfold SubmitState.settle
  refine ⟨h.counted, ?_, ?_, ?_, ?_⟩
  · intro k hk
    have hsome := hall k
    rw [hk] at hsome
    exact nomatch hsome
  · intro k
    by_cases hki : k = i
    · subst hki
      show _ = acceptedNonces _ (Function.update s.outcomes k _ k)
      rw [Function.update_self, acceptedNonces_concat, ← h.accepted]
      cases accepted <;> simp
    · cases accepted <;> simp [Function.update_of_ne hki, h.accepted]
  · intro k m
    cases accepted with
    | false => exact h.occupied k m
    | true =>
        by_cases hki : k = i
        · subst hki
          simp [h.occupied, or_left_comm, or_comm]
        · simp [Function.update_of_ne hki, h.occupied]
  · intro k j hj
    have hmined := h.received k j hj
    cases accepted with
    | false => exact hmined
    | true =>
        by_cases hki : k = i
        · subst hki
          simpa [Pool.accept] using hmined
        · simpa [Function.update_of_ne hki] using hmined

theorem SubmitInv.mine {start : ι → Pool} (h : SubmitInv start s) (i : ι) :
    SubmitInv start { s with pool := Function.update s.pool i (s.pool i).mine } := by
  refine ⟨h.counted, h.waiting, h.accepted, fun k m => ?_, fun k j hj => ?_⟩
  · rw [← h.occupied]
    by_cases hki : k = i
    · subst hki
      simp
    · simp [Function.update_of_ne hki]
  · have hmined := h.received k j hj
    by_cases hki : k = i
    · subst hki
      simpa using Nat.lt_of_lt_of_le hmined (Pool.mined_le_mined_mine _)
    · simpa [Function.update_of_ne hki] using hmined

variable [Fintype ι] {perUser : ℕ}

/-- Everything a step can do. -/
theorem submitStep_cases {e : SubmitEvent ι} (h : submitStep perUser s e = some t) :
    (∃ i, e = .count i ∧ s.counts i = none ∧
      t = { s with counts := Function.update s.counts i (some (s.pool i).pending) }) ∨
    (∃ i accepted nonce, e = .settle i accepted ∧ s.counts i = some nonce ∧
      (∀ k, (s.counts k).isSome) ∧ (s.outcomes i).length < perUser ∧
      t = s.settle i nonce accepted) ∨
    (∃ i j nonce, e = .receipt i j ∧ s.counts i = some nonce ∧
      (∀ k, (s.outcomes k).length = perUser) ∧ (s.outcomes i)[j]? = some true ∧
      nonce + j < (s.pool i).mined ∧
      t = { s with receipts := Function.update s.receipts i (j :: s.receipts i) }) ∨
    (∃ i, e = .mine i ∧ t = { s with pool := Function.update s.pool i (s.pool i).mine }) := by
  cases e with
  | count i =>
      rw [submitStep] at h
      cases hcount : s.counts i with
      | none =>
          rw [hcount] at h
          exact Or.inl ⟨i, rfl, hcount, (Option.some.inj h).symm⟩
      | some nonce =>
          rw [hcount] at h
          exact nomatch h
  | settle i accepted =>
      rw [submitStep] at h
      cases hcount : s.counts i with
      | none =>
          rw [hcount] at h
          exact nomatch h
      | some nonce =>
          simp only [hcount] at h
          by_cases hrun : (∀ k, (s.counts k).isSome = true) ∧ (s.outcomes i).length < perUser
          · rw [if_pos hrun] at h
            exact Or.inr (Or.inl ⟨i, accepted, nonce, rfl, hcount, hrun.1, hrun.2,
              (Option.some.inj h).symm⟩)
          · rw [if_neg hrun] at h
            exact nomatch h
  | receipt i j =>
      rw [submitStep] at h
      cases hcount : s.counts i with
      | none =>
          rw [hcount] at h
          exact nomatch h
      | some nonce =>
          simp only [hcount] at h
          by_cases hrun : (∀ k, (s.outcomes k).length = perUser) ∧ (s.outcomes i)[j]? = some true ∧
              nonce + j < (s.pool i).mined
          · rw [if_pos hrun] at h
            exact Or.inr (Or.inr (Or.inl ⟨i, j, nonce, rfl, hcount, hrun.1, hrun.2.1, hrun.2.2,
              (Option.some.inj h).symm⟩))
          · rw [if_neg hrun] at h
            exact nomatch h
  | mine i => exact Or.inr (Or.inr (Or.inr ⟨i, rfl, (Option.some.inj h).symm⟩))

theorem SubmitInv.step {start : ι → Pool} {e : SubmitEvent ι} (h : SubmitInv start s)
    (hstep : submitStep perUser s e = some t) : SubmitInv start t := by
  obtain ⟨i, -, hnone, rfl⟩ | ⟨i, accepted, nonce, -, hcount, hall, -, rfl⟩ |
    ⟨i, j, nonce, -, hcount, -, -, hmined, rfl⟩ | ⟨i, -, rfl⟩ := submitStep_cases hstep
  · exact h.count hnone
  · exact h.settle hcount hall accepted
  · obtain rfl := h.counted i nonce hcount
    refine ⟨h.counted, h.waiting, h.accepted, h.occupied, fun k j' hj' => ?_⟩
    by_cases hki : k = i
    · subst hki
      simp only [Function.update_self, List.mem_cons] at hj'
      rcases hj' with rfl | hj'
      · exact hmined
      · exact h.received k j' hj'
    · simp only [Function.update_of_ne hki] at hj'
      exact h.received k j' hj'
  · exact h.mine i

/-! ## Receipts -/

/-- Some way on from here, the receipt of the transfer is there. -/
def CanArrive (perUser : ℕ) (s : SubmitState ι) (i : ι) (j : ℕ) : Prop :=
  ∃ evs t, run (submitStep perUser) s evs = some t ∧ j ∈ t.receipts i

/-- When every loop is over, no send is added. -/
theorem outcomes_run {evs : List (SubmitEvent ι)} (hdone : ∀ i, (s.outcomes i).length = perUser)
    (hrun : run (submitStep perUser) s evs = some t) : t.outcomes = s.outcomes := by
  refine run_invariant (I := fun v : SubmitState ι => v.outcomes = s.outcomes) ?_ rfl hrun
  intro v e v' hv hstep
  obtain ⟨i, -, -, rfl⟩ | ⟨i, _, _, -, -, -, hlt, rfl⟩ | ⟨i, _, _, -, -, -, -, -, rfl⟩ | ⟨i, -, rfl⟩ :=
    submitStep_cases hstep
  · exact hv
  · rw [hv, hdone] at hlt
    exact absurd hlt (Nat.lt_irrefl _)
  · exact hv
  · exact hv

theorem run_mine (s : SubmitState ι) (i : ι) (k : ℕ) :
    run (submitStep perUser) s (List.replicate k (.mine i)) =
      some { s with pool := Function.update s.pool i (Pool.mine^[k] (s.pool i)) } := by
  induction k generalizing s with
  | zero => simp
  | succ k ih =>
      rw [List.replicate_succ, run_cons]
      show run (submitStep perUser) _ (List.replicate k (.mine i)) = _
      rw [ih, Function.iterate_succ_apply]
      simp

/-- A receipt can arrive exactly if no refused nonce below it is free. -/
theorem SubmitInv.canArrive_iff {start : ι → Pool} (h : SubmitInv start s)
    (hdone : ∀ i, (s.outcomes i).length = perUser) {i : ι} {k : ℕ}
    (hk : (s.outcomes i)[k]? = some true) :
    CanArrive perUser s i k ↔ ∀ j < k, (s.outcomes i)[j]? = some false →
      (start i).Occupied ((start i).pending + j) := by
  constructor
  · rintro ⟨evs, t, hrun, hk'⟩ j hjk hj
    have ht : SubmitInv start t := run_invariant (fun _ _ _ hs hstep => hs.step hstep) h hrun
    have hmined := ht.received i k hk'
    have hpending := Pool.mined_le_pending (t.pool i)
    have hoccupied : (t.pool i).Occupied ((start i).pending + j) :=
      Pool.occupied_of_lt_pending (by omega)
    rcases (ht.occupied i _).mp hoccupied with hstart | hsent
    · exact hstart
    · rw [ht.mem_accepted, outcomes_run hdone hrun, hj] at hsent
      exact nomatch hsent
  · intro hfilled
    have hlen : k < (s.outcomes i).length := (List.getElem?_eq_some_iff.mp hk).1
    -- everything up to the nonce is occupied
    have hbelow : ∀ m ≤ (start i).pending + k, (s.pool i).Occupied m := by
      intro m hm
      rw [h.occupied]
      rcases Nat.lt_or_ge m (start i).pending with hlt | hge
      · exact Or.inl (Pool.occupied_of_lt_pending hlt)
      · obtain ⟨j, rfl⟩ := Nat.exists_eq_add_of_le hge
        cases hj : (s.outcomes i)[j]? with
        | none =>
            have := List.getElem?_eq_none_iff.mp hj
            omega
        | some accepted =>
            cases accepted with
            | true => exact Or.inr ((h.mem_accepted i j).mpr hj)
            | false =>
                refine Or.inl (hfilled j ?_ hj)
                rcases Nat.eq_or_lt_of_le (Nat.le_of_add_le_add_left hm) with rfl | hlt
                · exact nomatch hj.symm.trans hk
                · exact hlt
    have hpending : (start i).pending + k < (s.pool i).pending := by
      by_contra hle
      exact Pool.not_occupied_pending _ (hbelow _ (Nat.le_of_not_lt hle))
    obtain ⟨nonce, hcount⟩ : ∃ nonce, s.counts i = some nonce := by
      cases hc : s.counts i with
      | none =>
          rw [h.waiting i hc] at hlen
          exact absurd hlen (Nat.not_lt_zero _)
      | some nonce => exact ⟨nonce, rfl⟩
    have hnonce := h.counted i nonce hcount
    have hmined : nonce + k < (Pool.mine^[(s.pool i).pending] (s.pool i)).mined := by
      rw [Pool.mined_iterate, hnonce]
      omega
    refine ⟨List.replicate (s.pool i).pending (.mine i) ++ [.receipt i k], { s with
      pool := Function.update s.pool i (Pool.mine^[(s.pool i).pending] (s.pool i))
      receipts := Function.update s.receipts i (k :: s.receipts i) }, ?_, ?_⟩
    · rw [run_append, run_mine]
      simp [run, submitStep, hcount, hdone, hk, hmined]
    · simp

/-- **Bulk submission.** When every loop is over, for any number of users and transfers and any pattern
of refused sends:

* the accepted nonces of each user are a run from its pending count exactly if none of its sends was
  accepted after a refused one;
* every receipt that is awaited can arrive exactly if each nonce refused before an accepted one was
  already occupied at the start; with nothing waiting at the node, that is the same condition. -/
theorem accepted_contiguous_iff (start : ι → Pool) {evs : List (SubmitEvent ι)}
    (hrun : run (submitStep perUser) (submitStart start) evs = some s)
    (hdone : ∀ i, (s.outcomes i).length = perUser) :
    ((∀ i, ∃ k, s.accepted i = List.range' (start i).pending k) ↔
      ∀ i, NoneAfterRefused (s.outcomes i)) ∧
    ((∀ i k, (s.outcomes i)[k]? = some true → CanArrive perUser s i k) ↔
      ∀ i j k, j < k → (s.outcomes i)[j]? = some false → (s.outcomes i)[k]? = some true →
        (start i).Occupied ((start i).pending + j)) ∧
    ((∀ i m, (start i).Occupied m → m < (start i).pending) →
      ((∀ i k, (s.outcomes i)[k]? = some true → CanArrive perUser s i k) ↔
        ∀ i, NoneAfterRefused (s.outcomes i))) := by
  have h : SubmitInv start s := run_invariant (fun _ _ _ hs hstep => hs.step hstep)
    (submitInv_start start) hrun
  have harrive : (∀ i k, (s.outcomes i)[k]? = some true → CanArrive perUser s i k) ↔
      ∀ i j k, j < k → (s.outcomes i)[j]? = some false → (s.outcomes i)[k]? = some true →
        (start i).Occupied ((start i).pending + j) := by
    constructor
    · intro hall i j k hjk hj hk
      exact (h.canArrive_iff hdone hk).mp (hall i k hk) j hjk hj
    · intro hall i k hk
      exact (h.canArrive_iff hdone hk).mpr fun j hjk hj => hall i j k hjk hj hk
  refine ⟨forall_congr' fun i => ?_, harrive, fun hclean => ?_⟩
  · rw [h.accepted]
    exact acceptedNonces_range_iff
  · rw [harrive]
    refine forall_congr' fun i => ⟨fun hall j k hjk hk => ?_, fun hnone j k hjk hj hk => ?_⟩
    · have hlen : k < (s.outcomes i).length := (List.getElem?_eq_some_iff.mp hk).1
      cases hj : (s.outcomes i)[j]? with
      | none =>
          have := List.getElem?_eq_none_iff.mp hj
          omega
      | some accepted =>
          cases accepted with
          | true => rfl
          | false =>
              have := hclean i _ (hall j k hjk hj hk)
              omega
    · exact nomatch hj.symm.trans (hnone j k hjk hk)

end Runs

/-! ## One refused send -/

/-- One user whose pending count is 7, and three transfers; only the second one is refused. -/
def oneRefused : List (SubmitEvent Unit) :=
  [.count (), .settle () true, .settle () false, .settle () true]

/-- All accepted. -/
def noneRefused : List (SubmitEvent Unit) :=
  [.count (), .settle () true, .settle () true, .settle () true]

theorem accepted_contiguous_iff_none_refused :
    ∃ s, run (submitStep 3) (submitStart fun _ : Unit => ⟨7, []⟩) noneRefused = some s ∧
      s.accepted () = [7, 8, 9] ∧ ∀ i, ∃ k, s.accepted i = List.range' 7 k := by
  refine ⟨_, rfl, rfl, ?_⟩
  have hrun : run (submitStep 3) (submitStart fun _ : Unit => ⟨7, []⟩) noneRefused = some _ := rfl
  have hnone : NoneAfterRefused [true, true, true] := by
    intro j k hjk hk
    have hlen : k < 3 := (List.getElem?_eq_some_iff.mp hk).1
    have hall : ∀ j < 3, [true, true, true][j]? = some true := by decide
    exact hall j (by omega)
  exact (accepted_contiguous_iff _ hrun fun _ => rfl).1.mpr fun _ => hnone

/-- **The hole.** The nonces 7 and 9 are accepted and 8 is not, and however long the script waits, the
receipt of the third transfer does not arrive. -/
theorem refused_send_blocks_receipt :
    ∃ s, run (submitStep 3) (submitStart fun _ : Unit => ⟨7, []⟩) oneRefused = some s ∧
      s.accepted () = [7, 9] ∧ (s.outcomes ())[2]? = some true ∧ ¬ CanArrive 3 s () 2 := by
  refine ⟨_, rfl, rfl, rfl, fun harrive => ?_⟩
  have hrun : run (submitStep 3) (submitStart fun _ : Unit => ⟨7, []⟩) oneRefused = some _ := rfl
  have h := run_invariant (fun _ _ _ hs hstep => SubmitInv.step hs hstep)
    (submitInv_start fun _ : Unit => ⟨7, []⟩) hrun
  have hfilled := (h.canArrive_iff (fun _ => rfl) rfl).mp harrive 1 (by decide) rfl
  exact absurd hfilled (by decide)

end PqcMigration.MigrationCost.SubmitMigrations
