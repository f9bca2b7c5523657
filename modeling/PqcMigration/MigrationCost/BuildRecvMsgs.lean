/-
# PqcMigration.MigrationCost.BuildRecvMsgs — `experiments/migration_cost/build-recv-msgs.js`, and the
three ways to choose a consensus state.

The script builds the receive messages of `relay-recv-batch.js` without broadcasting them; only its choice
of the state to prove against is modelled. It has its own rule for that, and so have the phases of
`relay-recv-batch.js` that take no pinned slot: phase `all` filters by the slot finality has reached, phase
`deliver` takes the newest state that covers the batch, and this script accepts either.
`chosen_newest_iff` compares the three on a client that holds a covering state.
-/
import PqcMigration.MigrationCost.RelayRecvBatch

namespace PqcMigration.MigrationCost

/-! ## The script -/

/-- The newest held state that passes, and after an update the newest that covers the send block. -/
def buildSlot (maxSendBlock proofSlot : ℕ) (execBlockOf : ℕ → ℕ) (have_ updated : List ℕ) :
    Except Failure ℕ :=
  match (have_.insertionSort (· ≤ ·)).reverse.find?
      fun s => proofSlot ≤ s ∨ maxSendBlock ≤ execBlockOf s with
  | some slot => .ok slot
  | none =>
      match (updated.insertionSort (· ≤ ·)).reverse.find? fun s => maxSendBlock ≤ execBlockOf s with
      | some slot => .ok slot
      | none => .error (.noneCovering maxSendBlock updated)

/-! ## The newest state -/

section Newest

variable {l r : List ℕ} {newest : ℕ}

theorem le_newest (hnewest : l.max? = some newest) {s : ℕ} (hs : s ∈ l) : s ≤ newest :=
  (List.max?_eq_some_iff.mp hnewest).2 s hs

theorem newest_mem (hnewest : l.max? = some newest) : newest ∈ l :=
  (List.max?_eq_some_iff.mp hnewest).1

/-- Newest first, a search stops at once if the newest passes. -/
theorem find?_newest_first (hperm : r.Perm l) (hsorted : r.Pairwise (· ≥ ·))
    (hnewest : l.max? = some newest) {p : ℕ → Bool} (hp : p newest = true) :
    r.find? p = some newest := by
  cases r with
  | nil => exact absurd (hperm.mem_iff.mpr (newest_mem hnewest)) List.not_mem_nil
  | cons first rest =>
      have hfirst : first = newest := by
        apply Nat.le_antisymm
        · exact le_newest hnewest (hperm.mem_iff.mp List.mem_cons_self)
        · rcases List.mem_cons.mp (hperm.mem_iff.mpr (newest_mem hnewest)) with rfl | hrest
          · exact Nat.le_refl _
          · exact (List.pairwise_cons.mp hsorted).1 newest hrest
      rw [hfirst]
      exact List.find?_cons_of_pos hp

theorem find?_sorted_down (hnewest : l.max? = some newest) {p : ℕ → Bool} (hp : p newest = true) :
    (l.insertionSort (· ≥ ·)).find? p = some newest :=
  find?_newest_first (List.perm_insertionSort _ l) (List.pairwise_insertionSort _ l) hnewest hp

theorem find?_sorted_up_reverse (hnewest : l.max? = some newest) {p : ℕ → Bool}
    (hp : p newest = true) : (l.insertionSort (· ≤ ·)).reverse.find? p = some newest := by
  apply find?_newest_first ((List.reverse_perm _).trans (List.perm_insertionSort _ l)) _ hnewest hp
  exact List.pairwise_reverse.mpr (List.pairwise_insertionSort _ l)

/-- The states from a slot on have the newest as their newest, or there are none. -/
theorem max?_filter_le (hnewest : l.max? = some newest) (slot : ℕ) :
    (l.filter (slot ≤ ·)).max? = if slot ≤ newest then some newest else none := by
  split
  · rename_i hle
    rw [List.max?_eq_some_iff]
    refine ⟨List.mem_filter.mpr ⟨newest_mem hnewest, by simpa using hle⟩, ?_⟩
    exact fun s hs => le_newest hnewest (List.mem_filter.mp hs).1
  · rename_i hlt
    rw [List.max?_eq_none_iff, List.filter_eq_nil_iff]
    intro s hs hle
    exact hlt ((of_decide_eq_true hle).trans (le_newest hnewest hs))

end Newest

/-! ## The three choices -/

section Choices

variable {maxSend newest : ℕ} {execBlockOf : ℕ → ℕ} {have_ : List ℕ} (proofSlot : ℕ)

theorem useSlot_deliver (hnewest : have_.max? = some newest) (hcovers : maxSend ≤ execBlockOf newest) :
    useSlot .deliver none maxSend proofSlot execBlockOf have_ = .ok newest := by
  have hp : decide (maxSend ≤ execBlockOf newest) = true := decide_eq_true hcovers
  simp only [useSlot, find?_sorted_down (p := fun s => maxSend ≤ execBlockOf s) hnewest hp]

theorem buildSlot_held (hnewest : have_.max? = some newest) (hcovers : maxSend ≤ execBlockOf newest)
    (updated : List ℕ) : buildSlot maxSend proofSlot execBlockOf have_ updated = .ok newest := by
  have hp : decide (proofSlot ≤ newest ∨ maxSend ≤ execBlockOf newest) = true :=
    decide_eq_true (Or.inr hcovers)
  simp only [buildSlot, find?_sorted_up_reverse
    (p := fun s => proofSlot ≤ s ∨ maxSend ≤ execBlockOf s) hnewest hp]

theorem useSlot_all (hnewest : have_.max? = some newest) :
    useSlot .all none maxSend proofSlot execBlockOf have_ =
      if proofSlot ≤ newest then .ok newest else .error (.noneAtOrAfter proofSlot have_) := by
  simp only [useSlot, max?_filter_le hnewest]
  split_ifs <;> rfl

end Choices

/-- **The three choices without an update.** The client holds a state that covers the batch. Then
phase `deliver` and `build-recv-msgs.js` take the newest state held. Phase `all` takes it too, and the
three agree, exactly when that state is not older than the slot finality has reached; otherwise phase
`all` refuses. -/
theorem chosen_newest_iff (batch : List SentPacket) (proofSlot newest : ℕ) (execBlockOf : ℕ → ℕ)
    (have_ updated : List ℕ) (hmono : Monotone execBlockOf) (hnewest : have_.max? = some newest)
    (hheld : ∃ slot ∈ have_, maxSendBlock batch ≤ execBlockOf slot) :
    (useSlot .deliver none (maxSendBlock batch) proofSlot execBlockOf have_ = .ok newest ∧
      buildSlot (maxSendBlock batch) proofSlot execBlockOf have_ updated = .ok newest) ∧
    ((useSlot .all none (maxSendBlock batch) proofSlot execBlockOf have_ = .ok newest ∧
      useSlot .deliver none (maxSendBlock batch) proofSlot execBlockOf have_ = .ok newest ∧
      buildSlot (maxSendBlock batch) proofSlot execBlockOf have_ updated = .ok newest) ↔
      proofSlot ≤ newest) := by
  obtain ⟨slot, hslot, hcover⟩ := hheld
  have hcovers : maxSendBlock batch ≤ execBlockOf newest :=
    hcover.trans (hmono (le_newest hnewest hslot))
  have hdeliver := useSlot_deliver proofSlot hnewest hcovers
  have hbuild := buildSlot_held proofSlot hnewest hcovers updated
  refine ⟨⟨hdeliver, hbuild⟩, ?_⟩
  rw [useSlot_all proofSlot hnewest]
  constructor
  · rintro ⟨hall, -⟩
    by_contra hlt
    rw [if_neg hlt] at hall
    cases hall
  · intro hle
    exact ⟨if_pos hle, hdeliver, hbuild⟩

theorem chosen_newest_at_finality :
    useSlot .all none (maxSendBlock [bareSent 1 10]) 60 (fun slot => slot) [50, 60] = .ok 60 :=
  (((chosen_newest_iff [bareSent 1 10] 60 60 (fun slot => slot) [50, 60] [] monotone_id (by decide)
    ⟨50, by decide, by decide⟩).2).mpr (by decide)).1

/-- The client holds the state of slot 50, which covers the packet; finality has gone on to slot 60.
Phase `all` refuses with `--no-update`, where the other two go ahead. -/
theorem covering_state_refused :
    let execBlockOf := fun slot : ℕ => slot
    Monotone execBlockOf ∧ maxSendBlock [bareSent 1 10] ≤ execBlockOf 60 ∧
      (∃ slot ∈ [50], maxSendBlock [bareSent 1 10] ≤ execBlockOf slot) ∧
      useSlot .all none (maxSendBlock [bareSent 1 10]) 60 execBlockOf [50] =
        .error (.noneAtOrAfter 60 [50]) ∧
      useSlot .deliver none (maxSendBlock [bareSent 1 10]) 60 execBlockOf [50] = .ok 50 ∧
      buildSlot (maxSendBlock [bareSent 1 10]) 60 execBlockOf [50] [] = .ok 50 :=
  ⟨monotone_id, by decide, ⟨50, by decide, by decide⟩, by rfl, by rfl, by rfl⟩

end PqcMigration.MigrationCost
