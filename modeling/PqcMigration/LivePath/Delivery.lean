/-
# PqcMigration.LivePath.Delivery — relayer submissions, one after another.

A relayer proposes a sequence and a height. `RecvPacket` is taken when it is enabled, and otherwise
the submission changes nothing: it does not verify, or it is a replay. What a list of submissions
credits has a closed form (`deliverAll_eq`) that mentions the list only through its members. Repeating
submissions and changing their order are therefore the same as doing nothing.
-/
import Mathlib.Data.Finset.Image
import PqcMigration.LivePath.Safety

namespace PqcMigration.LivePath

open Lib

universe u

variable {σ : Type u} [DecidableEq σ]

/-! ## Deliveries -/

/-- One submission: `RecvPacket` when it is enabled, the state unchanged otherwise. -/
def deliver (c : Constants σ) (st : State σ) (sub : σ × ℕ) : State σ :=
  (next c st (.recvPacket sub.1 sub.2)).getD st

def deliverAll (c : Constants σ) (st : State σ) (subs : List (σ × ℕ)) : State σ :=
  subs.foldl (deliver c) st

/-- Credit a set of sequences at once. -/
def State.credit (c : Constants σ) (st : State σ) (new : Finset σ) : State σ :=
  { st with
    receipts := st.receipts ∪ new
    vouchers := st.vouchers + new.card * c.amount
    credited := st.credited ∪ new }

/-- The sequences a list of submissions gets credited. -/
def accepted (c : Constants σ) (st : State σ) (subs : List (σ × ℕ)) : Finset σ :=
  ((subs.filter fun sub => Enabled c st (.recvPacket sub.1 sub.2)).map Prod.fst).toFinset

variable {c : Constants σ} {st : State σ} {subs subs' : List (σ × ℕ)}

theorem mem_accepted {s : σ} :
    s ∈ accepted c st subs ↔ ∃ h, (s, h) ∈ subs ∧ Enabled c st (.recvPacket s h) := by
  simp [accepted]

/-! ## What a list of submissions credits -/

@[simp]
theorem State.credit_empty (c : Constants σ) (st : State σ) : st.credit c ∅ = st := by
  simp [State.credit]

/-- Crediting disjoint sets one after the other. -/
theorem State.credit_credit {new new' : Finset σ} (h : Disjoint new new') :
    (st.credit c new).credit c new' = st.credit c (new ∪ new') := by
  simp only [State.credit, Finset.union_assoc, Finset.card_union_of_disjoint h, Nat.add_mul,
    Nat.add_assoc]

theorem deliver_of_enabled {sub : σ × ℕ} (h : Enabled c st (.recvPacket sub.1 sub.2)) :
    deliver c st sub = st.credit c {sub.1} := by
  rw [deliver, next, if_pos h, Option.getD_some, State.credit, Finset.card_singleton, Nat.one_mul]
  simp only [effect, Finset.insert_eq, Finset.union_comm]

theorem deliver_of_not_enabled {sub : σ × ℕ} (h : ¬ Enabled c st (.recvPacket sub.1 sub.2)) :
    deliver c st sub = st := by
  rw [deliver, next, if_neg h, Option.getD_none]

/-- After a credit, what is enabled is what was, for sequences not among the credited. -/
theorem enabled_credit {new : Finset σ} {s : σ} {h : ℕ} :
    Enabled c (st.credit c new) (.recvPacket s h) ↔ Enabled c st (.recvPacket s h) ∧ s ∉ new := by
  simp only [Enabled, ProofVerifies, State.credit, Finset.mem_union, not_or]
  tauto

theorem accepted_credit (new : Finset σ) :
    accepted c (st.credit c new) subs = accepted c st subs \ new := by
  ext s
  simp only [mem_accepted, enabled_credit, Finset.mem_sdiff]
  constructor
  · rintro ⟨h, hmem, henabled, hnew⟩
    exact ⟨⟨h, hmem, henabled⟩, hnew⟩
  · rintro ⟨⟨h, hmem, henabled⟩, hnew⟩
    exact ⟨h, hmem, henabled, hnew⟩

theorem accepted_cons_of_enabled {sub : σ × ℕ} (h : Enabled c st (.recvPacket sub.1 sub.2)) :
    accepted c st (sub :: subs) = {sub.1} ∪ accepted c st subs := by
  rw [accepted, List.filter_cons_of_pos (by simpa using h), List.map_cons, List.toFinset_cons]
  rfl

theorem accepted_cons_of_not_enabled {sub : σ × ℕ}
    (h : ¬ Enabled c st (.recvPacket sub.1 sub.2)) :
    accepted c st (sub :: subs) = accepted c st subs := by
  rw [accepted, List.filter_cons_of_neg (by simpa using h)]
  rfl

/-- **A list of submissions credits its accepted sequences, each once.** -/
theorem deliverAll_eq (c : Constants σ) (st : State σ) (subs : List (σ × ℕ)) :
    deliverAll c st subs = st.credit c (accepted c st subs) := by
  induction subs generalizing st with
  | nil => exact (State.credit_empty c st).symm
  | cons sub subs ih =>
      show deliverAll c (deliver c st sub) subs = _
      by_cases h : Enabled c st (.recvPacket sub.1 sub.2)
      · -- the rest is delivered in a state where this sequence has its receipt
        rw [deliver_of_enabled h, ih, accepted_credit, accepted_cons_of_enabled h,
          State.credit_credit Finset.disjoint_sdiff, Finset.union_sdiff_self_eq_union]
      · rw [deliver_of_not_enabled h, ih, accepted_cons_of_not_enabled h]

theorem accepted_congr (h : ∀ sub, sub ∈ subs ↔ sub ∈ subs') :
    accepted c st subs = accepted c st subs' := by
  ext s
  simp only [mem_accepted, h]

/-- A delivery is a run of the spec: the submissions that are accepted are its actions. -/
theorem exists_run_deliverAll (c : Constants σ) (st : State σ) (subs : List (σ × ℕ)) :
    ∃ acts, run (next c) st acts = some (deliverAll c st subs) := by
  induction subs generalizing st with
  | nil => exact ⟨[], rfl⟩
  | cons sub subs ih =>
      obtain ⟨acts, hacts⟩ := ih (deliver c st sub)
      cases hnext : next c st (.recvPacket sub.1 sub.2) with
      | none =>
          rw [deliver, hnext, Option.getD_none] at hacts
          refine ⟨acts, hacts.trans ?_⟩
          rw [deliverAll, deliverAll, List.foldl_cons, deliver, hnext, Option.getD_none]
      | some st' =>
          refine ⟨.recvPacket sub.1 sub.2 :: acts, run_cons_eq_some.mpr ⟨st', hnext, ?_⟩⟩
          rw [deliver, hnext, Option.getD_some] at hacts
          rw [hacts, deliverAll, deliverAll, List.foldl_cons, deliver, hnext, Option.getD_some]

theorem Reaches.deliverAll {acts : List (Action σ)} (hst : Reaches c acts st)
    (subs : List (σ × ℕ)) : ∃ acts', Reaches c acts' (deliverAll c st subs) := by
  obtain ⟨more, hmore⟩ := exists_run_deliverAll c st subs
  exact ⟨acts ++ more, run_append_eq_some.mpr ⟨st, hst, hmore⟩⟩

/-- **Replays and order do not matter.** From every reachable state, two lists with the same
submissions, in any order and with any repetitions, lead to reachable states with the same receipts,
vouchers and credited set. -/
theorem delivery_order_independent (c : Constants σ) (acts : List (Action σ)) (st : State σ)
    (hst : Reaches c acts st) (subs subs' : List (σ × ℕ)) (h : ∀ sub, sub ∈ subs ↔ sub ∈ subs') :
    (∃ acts', Reaches c acts' (deliverAll c st subs)) ∧
      (deliverAll c st subs).receipts = (deliverAll c st subs').receipts ∧
      (deliverAll c st subs).vouchers = (deliverAll c st subs').vouchers ∧
      (deliverAll c st subs).credited = (deliverAll c st subs').credited := by
  have hsame : deliverAll c st subs = deliverAll c st subs' := by
    rw [deliverAll_eq, deliverAll_eq, accepted_congr h]
  rw [hsame]
  exact ⟨hst.deliverAll subs', rfl, rfl, rfl⟩

/-- Two packets in a snapshot that B trusts. -/
def bothTrusted : List (Action ℕ) :=
  [.sendTransfer 1, .sendTransfer 2, .advance, .updateClient 2]

/-- In turn, with a replay and a submission that does not verify; and the other way round. -/
theorem delivery_order_independent_both :
    ∃ st, Reaches cfg bothTrusted st ∧
      (deliverAll cfg st [(1, 2), (2, 2), (1, 2), (1, 3)]).vouchers = 20 ∧
      (deliverAll cfg st [(1, 2), (2, 2), (1, 2), (1, 3)]).credited =
        (deliverAll cfg st [(1, 3), (2, 2), (1, 2)]).credited := by
  have hsame : ∀ sub : ℕ × ℕ,
      sub ∈ [(1, 2), (2, 2), (1, 2), (1, 3)] ↔ sub ∈ [(1, 3), (2, 2), (1, 2)] := by
    intro sub
    simp only [List.mem_cons, List.not_mem_nil, or_false]
    tauto
  have hrun : ((run (next cfg) (init cfg) bothTrusted).map fun st =>
      (deliverAll cfg st [(1, 2), (2, 2), (1, 2), (1, 3)]).vouchers) = some 20 := by
    decide
  obtain ⟨st, hst, hvouchers⟩ := Option.map_eq_some_iff.mp hrun
  exact ⟨st, hst, hvouchers, (delivery_order_independent cfg bothTrusted st hst _ _ hsame).2.2.2⟩

end PqcMigration.LivePath
