/-
# PqcMigration.LightClient.Merkleize — what `merkleize` of `pubkeys_hash.py` computes.

SSZ defines the root of a list of chunks top-down: the perfect tree of the least depth that has room for
them, filled up with zero chunks, each node the hash of its two subtree roots. The script works bottom-up.
It widens to a power of two, then halves the layer until one node is left; a layer of a power of two is
always even, so `layer[i + 1]` is there. The two meet in `Tree.hashLeaves`: hashing a layer is passing from
a tree to the tree above its leaves.
-/
import Mathlib.Data.Nat.Log
import PqcMigration.LightClient.PubkeysHash
import PqcMigration.Lib.Merkle

namespace PqcMigration.LightClient

open Lib Lib.Merkle

variable {H : Bytes → Bytes32}

/-! ## The SSZ definition -/

theorem length_zeroChunk : zeroChunk.length = 32 := List.length_replicate

/-- The depth of the tree for `n` chunks. -/
def sszDepth (n : ℕ) : ℕ := Nat.clog 2 n

/-- The tree of a list of chunks. -/
def sszTree (chunks : List Bytes32) : Tree Bytes32 (sszDepth chunks.length) :=
  .ofList ⟨zeroChunk, length_zeroChunk⟩ _ chunks

theorem sszDepth_le_iff {n d : ℕ} : sszDepth n ≤ d ↔ n ≤ 2 ^ d :=
  Nat.clog_le_iff_le_pow Nat.one_lt_two

theorem le_two_pow_sszDepth (n : ℕ) : n ≤ 2 ^ sszDepth n := sszDepth_le_iff.mp (Nat.le_refl _)

/-! ## The width -/

theorem growWidth_two_pow {n e : ℕ} (he : e ≤ sszDepth n) (hpos : 0 < 2 ^ e) :
    growWidth n (2 ^ e) hpos = 2 ^ sszDepth n := by
  -- each turn of the loop brings the exponent nearer to the depth
  induction hk : sszDepth n - e generalizing e with
  | zero =>
      have heq : e = sszDepth n := by omega
      rw [growWidth, if_neg, heq]
      rw [Nat.not_lt, heq]
      exact le_two_pow_sszDepth n
  | succ k ih =>
      have hlt : 2 ^ e < n := by
        rw [← Nat.not_le, ← sszDepth_le_iff]
        omega
      rw [growWidth, if_pos hlt]
      exact ih (e := e + 1) (by omega) (Nat.two_pow_pos _) (by omega)

theorem growWidth_one (n : ℕ) (hpos : 0 < 1) : growWidth n 1 hpos = 2 ^ sszDepth n :=
  growWidth_two_pow (e := 0) (Nat.zero_le _) hpos

/-! ## The layers -/

/-- An even layer is hashed without an `IndexError`. -/
theorem run_hashLayer {layer : List Bytes} (h : layer.length % 2 = 0) :
    ∃ hlen, (hashLayer H layer).run =
      ⟨.ok ⟨(pairs layer).map fun m => (H m).1, hlen⟩, pairs layer⟩ := by
  induction layer using pairs.induct with
  | case1 a b rest ih =>
      have hrest : rest.length % 2 = 0 := by
        simp only [List.length_cons] at h
        omega
      obtain ⟨hlen, hrun⟩ := ih hrest
      have hfirst : (sha256 H (a ++ b)).run.val = .ok (H (a ++ b)).1 := rfl
      refine ⟨?_, ?_⟩
      · simp only [pairs, List.map_cons, List.length_cons] at hlen ⊢
        omega
      · unfold hashLayer
        rw [run_bind_of_ok hfirst, run_bind_of_ok (congrArg Hashed.val hrun), hrun]
        apply Hashed.ext
        · rfl
        · show [a ++ b] ++ (pairs rest ++ []) = pairs (a :: b :: rest)
          rw [List.append_nil]
          rfl
  | case2 layer hlayer =>
      cases layer with
      | nil => exact ⟨rfl, by unfold hashLayer; rfl⟩
      | cons a layer =>
          cases layer with
          | nil => simp at h
          | cons b rest => exact absurd rfl (hlayer a b rest)

/-- **The loop computes the root.** From the leaves of a tree it ends with the tree's root, and it hashes
the tree's messages, in another order. -/
theorem run_hashLayers {d : ℕ} (t : Tree Bytes32 d) :
    (hashLayers H (t.leaves.map Subtype.val)).run.val = .ok (t.root H).val ∧
      (hashLayers H (t.leaves.map Subtype.val)).run.inputs.Perm (t.root H).inputs := by
  induction d with
  | zero =>
      match t with
      | .leaf a =>
          have hone : hashLayers H [a.1] = pure a.1 := by unfold hashLayers; rfl
          show (hashLayers H [a.1]).run.val = _ ∧ (hashLayers H [a.1]).run.inputs.Perm _
          rw [hone]
          exact ⟨rfl, List.Perm.refl _⟩
  | succ d ih =>
      have hlength : (t.leaves.map Subtype.val).length = 2 ^ d * 2 := by
        rw [List.length_map, Tree.length_leaves, Nat.pow_succ]
      obtain ⟨hlen, hlayer⟩ := run_hashLayer (H := H) (by rw [hlength, Nat.mul_mod_left])
      obtain ⟨hval, hinputs⟩ := ih (t.hashLeaves H d)
      obtain ⟨hroot, hperm⟩ := t.root_hashLeaves (H := H)
      rw [Tree.leaves_hashLeaves] at hval hinputs
      -- two nodes or more, so the loop takes a turn
      have hturn : hashLayers H (t.leaves.map Subtype.val) =
          hashLayer H (t.leaves.map Subtype.val) >>= fun layer => hashLayers H layer.1 := by
        generalize t.leaves.map Subtype.val = layer at hlength
        match layer with
        | a :: b :: rest => rw [hashLayers]
        | [a] =>
            have := Nat.two_pow_pos d
            simp only [List.length_cons, List.length_nil] at hlength
            omega
        | [] =>
            have := Nat.two_pow_pos d
            simp only [List.length_nil] at hlength
            omega
      rw [hturn, run_bind_of_ok (congrArg Hashed.val hlayer), hlayer]
      refine ⟨hval.trans (congrArg Except.ok hroot), ?_⟩
      exact (List.Perm.append_left _ hinputs).trans hperm.symm

theorem leaves_sszTree (chunks : List Bytes32) :
    (sszTree chunks).leaves = chunks ++
      List.replicate (2 ^ sszDepth chunks.length - chunks.length) ⟨zeroChunk, length_zeroChunk⟩ :=
  Tree.leaves_ofList _ (le_two_pow_sszDepth _)

/-- The loop starts with the leaves of the tree. -/
theorem merkleize_eq_hashLayers (chunks : List Bytes32) :
    merkleize H (chunks.map Subtype.val) = hashLayers H ((sszTree chunks).leaves.map Subtype.val) := by
  rw [leaves_sszTree]
  cases chunks with
  | nil =>
      have hdepth : sszDepth 0 = 0 := Nat.clog_of_right_le_one (Nat.zero_le 1) 2
      show pure zeroChunk = hashLayers H (List.map _ (List.replicate (2 ^ sszDepth 0 - 0) _))
      rw [hdepth]
      show pure zeroChunk = hashLayers H [zeroChunk]
      rw [hashLayers]
  | cons c chunks =>
      rw [merkleize, if_neg (by simp)]
      simp only [growWidth_one, List.length_map, List.map_append, List.map_replicate]

/-- **Merkleization is the SSZ root**, for every hash function. The depth is the least with room for the
chunks, the leaves of the tree are the chunks followed by zero chunks, and `merkleize` returns the root of
that tree. It raises nothing, and it hashes the messages of the tree, each as often. -/
theorem merkleize_eq_root (chunks : List Bytes32) :
    (chunks.length ≤ 2 ^ sszDepth chunks.length ∧
      ∀ d, chunks.length ≤ 2 ^ d → sszDepth chunks.length ≤ d) ∧
    (sszTree chunks).leaves = chunks ++
      List.replicate (2 ^ sszDepth chunks.length - chunks.length) ⟨zeroChunk, length_zeroChunk⟩ ∧
    (merkleize H (chunks.map Subtype.val)).run.val = .ok ((sszTree chunks).root H).val ∧
    (merkleize H (chunks.map Subtype.val)).run.inputs.Perm ((sszTree chunks).root H).inputs := by
  refine ⟨⟨le_two_pow_sszDepth _, fun d => sszDepth_le_iff.mpr⟩, leaves_sszTree chunks, ?_⟩
  rw [merkleize_eq_hashLayers]
  exact run_hashLayers (sszTree chunks)

end PqcMigration.LightClient
