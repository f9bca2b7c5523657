/-
# PqcMigration.Lib.Mempool — the transactions of one account at a node.

A node mines the transactions of an account in the order of their nonces, and holds the others: those
that come next, and those that wait for a nonce below them. Which nonces are OCCUPIED, mined or held, is
all that its answers depend on. Mining does not change it; and the pending count, the first free nonce,
is as far as mining can ever get (`mined_iterate`).
-/
import Mathlib.Logic.Function.Iterate
import Mathlib.Order.Lattice
import Mathlib.Tactic.Common

namespace PqcMigration.Lib

/-- The nonces below `mined` are mined; a transaction is held for each of `held`. -/
structure Pool where
  mined : ℕ
  held : List ℕ
  deriving DecidableEq

/-- The first number from `n` on that is not in the list; the list's length is enough fuel. -/
def firstFree (held : List ℕ) : ℕ → ℕ → ℕ
  | 0, n => n
  | fuel + 1, n => if n ∈ held then firstFree held fuel (n + 1) else n

/-- Each number passed is one of the list that does not come again. -/
theorem firstFree_spec (held : List ℕ) (fuel n : ℕ)
    (hfuel : (held.filter fun m => decide (n ≤ m)).length ≤ fuel) :
    n ≤ firstFree held fuel n ∧ (∀ m, n ≤ m → m < firstFree held fuel n → m ∈ held) ∧
      firstFree held fuel n ∉ held := by
  have hkept {n : ℕ} (hn : n ∈ held) : n ∈ held.filter fun m => decide (n ≤ m) :=
    List.mem_filter.mpr ⟨hn, decide_eq_true (Nat.le_refl n)⟩
  induction fuel generalizing n with
  | zero =>
      refine ⟨Nat.le_refl n, fun m hm hlt => absurd hlt (Nat.not_lt.mpr hm), fun hn => ?_⟩
      exact absurd hfuel (Nat.not_le.mpr (List.length_pos_of_mem (hkept hn)))
  | succ fuel ih =>
      rw [firstFree]
      by_cases hn : n ∈ held
      · rw [if_pos hn]
        have hshorter : (held.filter fun m => decide (n + 1 ≤ m)).length <
            (held.filter fun m => decide (n ≤ m)).length := by
          have hsub : held.filter (fun m => decide (n + 1 ≤ m)) =
              (held.filter fun m => decide (n ≤ m)).filter fun m => decide (n + 1 ≤ m) := by
            rw [List.filter_filter]
            apply List.filter_congr
            intro m _
            simp only [← Bool.decide_and]
            exact decide_eq_decide.mpr ⟨fun h => ⟨h, by omega⟩, fun h => h.1⟩
          rw [hsub]
          exact List.length_filter_lt_length_iff_exists.mpr ⟨n, hkept hn, by simp⟩
        obtain ⟨hle, hbetween, hfree⟩ := ih (n + 1) (by omega)
        refine ⟨by omega, fun m hm hlt => ?_, hfree⟩
        rcases Nat.eq_or_lt_of_le hm with rfl | hm
        · exact hn
        · exact hbetween m hm hlt
      · rw [if_neg hn]
        exact ⟨Nat.le_refl n, fun m hm hlt => absurd hlt (Nat.not_lt.mpr hm), hn⟩

namespace Pool

variable {p q : Pool} {m n : ℕ}

/-- A transaction with this nonce is mined or held. -/
def Occupied (p : Pool) (n : ℕ) : Prop := n < p.mined ∨ n ∈ p.held

instance (p : Pool) (n : ℕ) : Decidable (p.Occupied n) := inferInstanceAs (Decidable (_ ∨ _))

/-- The answer to `eth_getTransactionCount(…, "pending")`: the transactions that are mined or can be. -/
def pending (p : Pool) : ℕ := firstFree p.held p.held.length p.mined

/-- A transaction is taken in. -/
def accept (p : Pool) (n : ℕ) : Pool := { p with held := n :: p.held }

/-- The next transaction is mined, if it is there. -/
def mine (p : Pool) : Pool := if p.mined ∈ p.held then { p with mined := p.mined + 1 } else p

@[simp] theorem occupied_accept : (p.accept n).Occupied m ↔ m = n ∨ p.Occupied m := by
  simp only [Occupied, accept, List.mem_cons]
  tauto

@[simp] theorem occupied_mine : p.mine.Occupied n ↔ p.Occupied n := by
  unfold mine
  by_cases h : p.mined ∈ p.held
  · rw [if_pos h]
    constructor
    · rintro (hlt | hheld)
      · rcases Nat.lt_succ_iff_lt_or_eq.mp hlt with hlt | rfl
        · exact Or.inl hlt
        · exact Or.inr h
      · exact Or.inr hheld
    · rintro (hlt | hheld)
      · exact Or.inl (Nat.lt_succ_of_lt hlt)
      · exact Or.inr hheld
  · rw [if_neg h]

/-- **The pending count is the first free nonce.** -/
theorem pending_eq_iff : p.pending = n ↔ (∀ m < n, p.Occupied m) ∧ ¬ p.Occupied n := by
  obtain ⟨hle, hbetween, hfree⟩ :=
    firstFree_spec p.held p.held.length p.mined (List.length_filter_le _ _)
  have hbelow : ∀ m < p.pending, p.Occupied m := by
    intro m hm
    rcases Nat.lt_or_ge m p.mined with hlt | hge
    · exact Or.inl hlt
    · exact Or.inr (hbetween m hge hm)
  have hat : ¬ p.Occupied p.pending := not_or.mpr ⟨Nat.not_lt.mpr hle, hfree⟩
  constructor
  · rintro rfl
    exact ⟨hbelow, hat⟩
  · rintro ⟨hbelow', hat'⟩
    rcases Nat.lt_trichotomy p.pending n with hlt | heq | hlt
    · exact absurd (hbelow' _ hlt) hat
    · exact heq
    · exact absurd (hbelow _ hlt) hat'

theorem occupied_of_lt_pending (h : n < p.pending) : p.Occupied n :=
  (pending_eq_iff.mp rfl).1 n h

theorem not_occupied_pending (p : Pool) : ¬ p.Occupied p.pending := (pending_eq_iff.mp rfl).2

/-- It depends only on the nonces that are occupied. -/
theorem pending_congr (h : ∀ n, p.Occupied n ↔ q.Occupied n) : p.pending = q.pending := by
  rw [pending_eq_iff]
  exact ⟨fun m hm => (h m).mpr (occupied_of_lt_pending hm), fun hat =>
    not_occupied_pending q ((h _).mp hat)⟩

@[simp] theorem pending_mine : p.mine.pending = p.pending := pending_congr fun _ => occupied_mine

theorem mined_le_pending (p : Pool) : p.mined ≤ p.pending := by
  by_contra h
  exact not_occupied_pending p (Or.inl (Nat.not_le.mp h))

theorem mined_mine (p : Pool) : p.mine.mined = min (p.mined + 1) p.pending := by
  have hle := mined_le_pending p
  unfold mine
  by_cases h : p.mined ∈ p.held
  · rw [if_pos h, Nat.min_eq_left]
    by_contra hlt
    have heq : p.pending = p.mined := by omega
    exact not_occupied_pending p (by rw [heq]; exact Or.inr h)
  · have hfree : p.pending = p.mined :=
      pending_eq_iff.mpr ⟨fun m hm => Or.inl hm, not_or.mpr ⟨Nat.lt_irrefl _, h⟩⟩
    rw [if_neg h, hfree, Nat.min_eq_right (Nat.le_succ _)]

theorem mined_le_mined_mine (p : Pool) : p.mined ≤ p.mine.mined := by
  have hle := mined_le_pending p
  rw [mined_mine]
  omega

/-- **Mining gets as far as the pending count**, one transaction after another. -/
theorem mined_iterate (p : Pool) (k : ℕ) : (mine^[k] p).mined = min (p.mined + k) p.pending := by
  induction k generalizing p with
  | zero => rw [Function.iterate_zero, id, Nat.add_zero, Nat.min_eq_left (mined_le_pending p)]
  | succ k ih =>
      rw [Function.iterate_succ_apply, ih, mined_mine, pending_mine]
      omega

end Pool

end PqcMigration.Lib
