/-
# PqcMigration.Lib.Merkle — perfect Merkle trees and their branches.

A tree of depth `d` over 32-byte leaves, its root as a hash computation, the leaf at a position and
the branch of that position: the roots of the sibling subtrees, listed from the leaf up. A verifier
does not see the tree; it CLIMBS from a leaf along a branch, taking at each level the side that the
low bit of an index names. `climb_siblings` says the tree's own branch climbs to its root,
`climb_binds` that nothing else does, short of a collision between the messages hashed on the climb
and those hashed in the tree.

A tree is also computed bottom-up, one LAYER at a time: `hashLeaves` replaces each pair of leaves by its
hash, which leaves the root as it is and splits the messages into those of the layer and the rest
(`root_hashLeaves`). And the root binds the whole tree (`root_binds`).
-/
import Mathlib.Data.List.Perm.Basic
import PqcMigration.Lib.Hashed

namespace PqcMigration.Lib.Merkle

/-! ## Trees -/

/-- A perfect binary tree of depth `d`. -/
inductive Tree (α : Type) : ℕ → Type
  | leaf (a : α) : Tree α 0
  | node {d : ℕ} (l r : Tree α d) : Tree α (d + 1)

variable (H : Bytes → Bytes32)

namespace Tree

/-- The root, by hashing every pair of subtree roots. -/
def root : {d : ℕ} → Tree Bytes32 d → Hashed Bytes Bytes
  | _, .leaf a => pure a.1
  | _, .node l r => do
      let a ← l.root
      let b ← r.root
      digest H (a ++ b)

/-- The tree with the same leaf everywhere. -/
def replicate {α : Type} : (d : ℕ) → α → Tree α d
  | 0, a => .leaf a
  | d + 1, a => .node (replicate d a) (replicate d a)

/-- The leaf at a position, counted from the left. -/
def leafAt {α : Type} : {d : ℕ} → Tree α d → ℕ → α
  | _, .leaf a, _ => a
  | d + 1, .node l r, i => if i < 2 ^ d then l.leafAt i else r.leafAt (i - 2 ^ d)

/-- The sibling roots on the way from a position up. -/
def siblings : {d : ℕ} → Tree Bytes32 d → ℕ → List Bytes
  | _, .leaf _, _ => []
  | d + 1, .node l r, i =>
      if i < 2 ^ d then l.siblings i ++ [(r.root H).val]
      else r.siblings (i - 2 ^ d) ++ [(l.root H).val]

@[simp] theorem length_root {d : ℕ} (t : Tree Bytes32 d) : (t.root H).val.length = 32 := by
  cases t with
  | leaf a => exact a.2
  | node l r => exact length_digest H _

@[simp] theorem length_siblings {d : ℕ} (t : Tree Bytes32 d) (i : ℕ) :
    (t.siblings H i).length = d := by
  induction t generalizing i with
  | leaf a => rfl
  | node l r ihl ihr =>
      rw [siblings]
      split
      · rw [List.length_append, ihl]
        rfl
      · rw [List.length_append, ihr]
        rfl

/-- Every message hashed in a tree is a pair of 32-byte nodes. -/
theorem length_of_mem_inputs {d : ℕ} (t : Tree Bytes32 d) {x : Bytes}
    (hx : x ∈ (t.root H).inputs) : x.length = 64 := by
  induction t with
  | leaf a => cases hx
  | node l r ihl ihr =>
      have hcases : x ∈ (l.root H).inputs ∨ x ∈ (r.root H).inputs ∨
          x = (l.root H).val ++ (r.root H).val := by
        simpa [root, digest] using hx
      rcases hcases with hl | hr | rfl
      · exact ihl hl
      · exact ihr hr
      · rw [List.length_append, length_root, length_root]

end Tree

/-! ## Climbing a branch -/

/-- One level: the sibling goes to the left when the index is odd. -/
def climbStep (node : Bytes) (idx : ℕ) (sibling : Bytes) : Hashed Bytes Bytes :=
  if idx % 2 ≠ 0 then digest H (sibling ++ node) else digest H (node ++ sibling)

/-- Climb from `node`, halving the index at every level. -/
def climb (node : Bytes) (idx : ℕ) : List Bytes → Hashed Bytes Bytes
  | [] => pure node
  | sibling :: branch => do
      let node ← climbStep H node idx sibling
      climb node (idx / 2) branch

variable {H}

theorem climbStep_of_even {idx : ℕ} (h : idx % 2 = 0) (node sibling : Bytes) :
    climbStep H node idx sibling = digest H (node ++ sibling) := by
  rw [climbStep, if_neg (not_not.mpr h)]

theorem climbStep_of_odd {idx : ℕ} (h : idx % 2 = 1) (node sibling : Bytes) :
    climbStep H node idx sibling = digest H (sibling ++ node) := by
  rw [climbStep, if_pos (by omega)]

theorem length_climbStep (node : Bytes) (idx : ℕ) (sibling : Bytes) :
    (climbStep H node idx sibling).val.length = 32 := by
  rcases Nat.mod_two_eq_zero_or_one idx with h | h
  · rw [climbStep_of_even h, length_digest]
  · rw [climbStep_of_odd h, length_digest]

/-- The last sibling is used with the index shifted by the branch below it. -/
theorem climb_concat (node : Bytes) (idx : ℕ) (branch : List Bytes) (sibling : Bytes) :
    climb H node idx (branch ++ [sibling]) =
      climb H node idx branch >>= fun n => climbStep H n (idx / 2 ^ branch.length) sibling := by
  induction branch generalizing node idx with
  | nil =>
      show climbStep H node idx sibling >>= pure = climbStep H node (idx / 2 ^ 0) sibling
      rw [bind_pure, Nat.pow_zero, Nat.div_one]
  | cons s branch ih =>
      show (climbStep H node idx s >>= fun n => climb H n (idx / 2) (branch ++ [sibling])) = _
      have hdiv : idx / 2 / 2 ^ branch.length = idx / 2 ^ (branch.length + 1) := by
        rw [Nat.div_div_eq_div_mul, ← Nat.pow_succ']
      simp only [ih, hdiv]
      exact (bind_assoc _ _ _).symm

theorem length_climb {node : Bytes} (hnode : node.length = 32) (idx : ℕ) (branch : List Bytes) :
    (climb H node idx branch).val.length = 32 := by
  induction branch generalizing node idx with
  | nil => exact hnode
  | cons s branch ih => exact ih (length_climbStep node idx s) (idx / 2)

/-- With 32-byte siblings, every message hashed on a climb is a pair of 32-byte nodes. -/
theorem length_of_mem_climb_inputs {node : Bytes} (hnode : node.length = 32) {idx : ℕ}
    {branch : List Bytes} (hbranch : ∀ s ∈ branch, s.length = 32) {x : Bytes}
    (hx : x ∈ (climb H node idx branch).inputs) : x.length = 64 := by
  induction branch generalizing node idx with
  | nil => cases hx
  | cons s branch ih =>
      have hs := hbranch s List.mem_cons_self
      rcases List.mem_append.mp hx with hstep | hrest
      · rcases Nat.mod_two_eq_zero_or_one idx with h | h
        · rw [climbStep_of_even h] at hstep
          rw [List.mem_singleton.mp hstep, List.length_append, hnode, hs]
        · rw [climbStep_of_odd h] at hstep
          rw [List.mem_singleton.mp hstep, List.length_append, hnode, hs]
      · exact ih (length_climbStep node idx s) (fun u hu => hbranch u (List.mem_cons_of_mem s hu))
          hrest

/-- Every message that a climb from one of `nodes` along `branch` can hash, at whatever index. -/
def climbMessages (H : Bytes → Bytes32) : List Bytes → List Bytes → List Bytes
  | _, [] => []
  | nodes, s :: branch =>
      let messages := nodes.flatMap fun n => [n ++ s, s ++ n]
      messages ++ climbMessages H (messages.map fun m => (H m).1) branch

theorem climbMessages_mono {nodes nodes' : List Bytes} (h : nodes ⊆ nodes') (branch : List Bytes) :
    climbMessages H nodes branch ⊆ climbMessages H nodes' branch := by
  induction branch generalizing nodes nodes' with
  | nil => exact List.Subset.refl _
  | cons s branch ih =>
      have hmessages : (nodes.flatMap fun n => [n ++ s, s ++ n]) ⊆
          nodes'.flatMap fun n => [n ++ s, s ++ n] := by
        intro m hm
        obtain ⟨n, hn, hmn⟩ := List.mem_flatMap.mp hm
        exact List.mem_flatMap.mpr ⟨n, h hn, hmn⟩
      intro m hm
      rcases List.mem_append.mp hm with hfirst | hrest
      · exact List.mem_append_left _ (hmessages hfirst)
      · exact List.mem_append_right _ (ih (List.map_subset _ hmessages) hrest)

/-- The messages of climbs from several nodes are those of the climbs from each. -/
theorem exists_mem_climbMessages {nodes branch : List Bytes} {m : Bytes}
    (h : m ∈ climbMessages H nodes branch) : ∃ n ∈ nodes, m ∈ climbMessages H [n] branch := by
  induction branch generalizing nodes with
  | nil => cases h
  | cons s branch ih =>
      rcases List.mem_append.mp h with hfirst | hrest
      · obtain ⟨n, hn, hmn⟩ := List.mem_flatMap.mp hfirst
        exact ⟨n, hn, List.mem_append_left _ (List.mem_flatMap.mpr ⟨n, List.mem_singleton_self n, hmn⟩)⟩
      · obtain ⟨n', hn', hm⟩ := ih hrest
        obtain ⟨m', hm', rfl⟩ := List.mem_map.mp hn'
        obtain ⟨n, hn, hmn⟩ := List.mem_flatMap.mp hm'
        refine ⟨n, hn, List.mem_append_right _ (climbMessages_mono ?_ branch hm)⟩
        refine List.cons_subset.mpr ⟨List.mem_map.mpr ⟨m', ?_, rfl⟩, List.nil_subset _⟩
        exact List.mem_flatMap.mpr ⟨n, List.mem_singleton_self n, hmn⟩

theorem climb_inputs_subset {nodes branch : List Bytes} {node : Bytes} (hnode : node ∈ nodes)
    (idx : ℕ) : (climb H node idx branch).inputs ⊆ climbMessages H nodes branch := by
  induction branch generalizing nodes node idx with
  | nil => exact List.nil_subset _
  | cons s branch ih =>
      have hstep : ∃ m ∈ nodes.flatMap fun n => [n ++ s, s ++ n],
          climbStep H node idx s = digest H m := by
        rcases Nat.mod_two_eq_zero_or_one idx with h | h
        · exact ⟨node ++ s, List.mem_flatMap.mpr ⟨node, hnode, by simp⟩, climbStep_of_even h _ _⟩
        · exact ⟨s ++ node, List.mem_flatMap.mpr ⟨node, hnode, by simp⟩, climbStep_of_odd h _ _⟩
      rcases hstep with ⟨m, hm, hm'⟩
      show (climbStep H node idx s >>= fun n => climb H n (idx / 2) branch).inputs ⊆ _
      rw [hm', inputs_bind]
      refine List.append_subset.mpr ⟨?_, ?_⟩
      · exact List.cons_subset.mpr ⟨List.mem_append_left _ hm, List.nil_subset _⟩
      · have hnext : (digest H m).val ∈ (nodes.flatMap fun n => [n ++ s, s ++ n]).map
            fun m => (H m).1 := List.mem_map.mpr ⟨m, hm, rfl⟩
        exact List.Subset.trans (ih hnext (idx / 2)) (List.subset_append_right _ _)

/-! ## Completeness and binding

Both go by induction on the tree, its TOP level against the LAST sibling. The bit of the index that
decides there is `idx / 2 ^ d % 2`, and the position below it is `idx % 2 ^ d`. -/

/-- The position in a tree of depth `d + 1`: left half or right half by the top bit. -/
theorem mod_two_pow_succ (idx d : ℕ) :
    (idx / 2 ^ d % 2 = 0 ∧ idx % 2 ^ (d + 1) = idx % 2 ^ d) ∨
      (idx / 2 ^ d % 2 = 1 ∧ idx % 2 ^ (d + 1) = idx % 2 ^ d + 2 ^ d) := by
  rw [Nat.mod_pow_succ]
  rcases Nat.mod_two_eq_zero_or_one (idx / 2 ^ d) with h | h
  · exact Or.inl ⟨h, by rw [h, Nat.mul_zero, Nat.add_zero]⟩
  · exact Or.inr ⟨h, by rw [h, Nat.mul_one]⟩

theorem leafAt_node_left {α : Type} {d : ℕ} (l r : Tree α d) {i : ℕ} (h : i < 2 ^ d) :
    (Tree.node l r).leafAt i = l.leafAt i := by
  rw [Tree.leafAt, if_pos h]

theorem leafAt_node_right {α : Type} {d : ℕ} (l r : Tree α d) (i : ℕ) :
    (Tree.node l r).leafAt (i + 2 ^ d) = r.leafAt i := by
  rw [Tree.leafAt, if_neg (by omega), Nat.add_sub_cancel]

theorem siblings_node_left {d : ℕ} (l r : Tree Bytes32 d) {i : ℕ} (h : i < 2 ^ d) :
    (Tree.node l r).siblings H i = l.siblings H i ++ [(r.root H).val] := by
  rw [Tree.siblings, if_pos h]

theorem siblings_node_right {d : ℕ} (l r : Tree Bytes32 d) (i : ℕ) :
    (Tree.node l r).siblings H (i + 2 ^ d) = r.siblings H i ++ [(l.root H).val] := by
  rw [Tree.siblings, if_neg (by omega), Nat.add_sub_cancel]

/-- **Completeness.** The branch of a position climbs from its leaf to the root. -/
theorem climb_siblings {d : ℕ} (t : Tree Bytes32 d) (idx : ℕ) :
    (climb H (t.leafAt (idx % 2 ^ d)).1 idx (t.siblings H (idx % 2 ^ d))).val = (t.root H).val := by
  induction t with
  | leaf a => rfl
  | @node d l r ihl ihr =>
      have hlt : idx % 2 ^ d < 2 ^ d := Nat.mod_lt _ (Nat.two_pow_pos d)
      rcases mod_two_pow_succ idx d with ⟨hbit, hpos⟩ | ⟨hbit, hpos⟩
      · rw [hpos, leafAt_node_left l r hlt, siblings_node_left l r hlt, climb_concat,
          Tree.length_siblings]
        show (climbStep H _ (idx / 2 ^ d) _).val = _
        rw [climbStep_of_even hbit, ihl]
        rfl
      · rw [hpos, leafAt_node_right, siblings_node_right, climb_concat, Tree.length_siblings]
        show (climbStep H _ (idx / 2 ^ d) _).val = _
        rw [climbStep_of_odd hbit, ihr]
        rfl

/-- One level binds the node and its sibling, on the side the index names. -/
theorem climbStep_binds_even {idx : ℕ} (hbit : idx % 2 = 0) {n s a b : Bytes}
    (hn : n.length = 32) (ha : a.length = 32) :
    Binds H (climbStep H n idx s) (digest H (a ++ b)) (n = a ∧ s = b) := by
  rw [climbStep_of_even hbit]
  exact (Binds.digest _ _).imp fun h => List.append_inj h (hn.trans ha.symm)

theorem climbStep_binds_odd {idx : ℕ} (hbit : idx % 2 = 1) {n s a b : Bytes}
    (hn : n.length = 32) (hb : b.length = 32) :
    Binds H (climbStep H n idx s) (digest H (a ++ b)) (n = b ∧ s = a) := by
  rw [climbStep_of_odd hbit]
  exact (Binds.digest _ _).imp fun h => (List.append_inj' h (hn.trans hb.symm)).symm

/-- **Binding.** A branch of the right length that climbs to the root is the position's own, from
the position's own leaf, or a message of the climb collides with one of the tree. -/
theorem climb_binds {d : ℕ} (t : Tree Bytes32 d) {node : Bytes} (hnode : node.length = 32)
    {branch : List Bytes} (hbranch : branch.length = d) (idx : ℕ) :
    Binds H (climb H node idx branch) (t.root H)
      (node = (t.leafAt (idx % 2 ^ d)).1 ∧ branch = t.siblings H (idx % 2 ^ d)) := by
  induction t generalizing branch with
  | leaf a =>
      rcases List.length_eq_zero_iff.mp hbranch with rfl
      exact (Binds.pure node a.1).imp fun h => ⟨h, rfl⟩
  | @node d l r ihl ihr =>
      rcases List.eq_nil_or_concat branch with rfl | ⟨below, s, rfl⟩
      · cases hbranch
      have hbelow : below.length = d := by simpa using hbranch
      have hlt : idx % 2 ^ d < 2 ^ d := Nat.mod_lt _ (Nat.two_pow_pos d)
      have hlen : (climb H node idx below).val.length = 32 := length_climb hnode idx below
      rw [List.concat_eq_append, climb_concat, hbelow]
      rcases mod_two_pow_succ idx d with ⟨hbit, hpos⟩ | ⟨hbit, hpos⟩
      · -- left half: the climb meets `l`, and the last sibling is `r`'s root
        rw [hpos, leafAt_node_left l r hlt, siblings_node_left l r hlt]
        have htop := climbStep_binds_even (H := H) hbit hlen (Tree.length_root H l)
          (s := s) (b := (r.root H).val)
        refine Binds.imp (Binds.bind (ihl hbelow) (Binds.of_right htop) And.left) ?_
        rintro ⟨⟨hleaf, hsibs⟩, -, hs⟩
        rw [hsibs, hs]
        exact ⟨hleaf, rfl⟩
      · -- right half: the same with the sides exchanged
        rw [hpos, leafAt_node_right, siblings_node_right]
        have htop := climbStep_binds_odd (H := H) hbit hlen (Tree.length_root H r)
          (s := s) (a := (l.root H).val)
        apply Binds.of_right
        refine Binds.imp (Binds.bind (ihr hbelow) htop And.left) ?_
        rintro ⟨⟨hleaf, hsibs⟩, -, hs⟩
        rw [hsibs, hs]
        exact ⟨hleaf, rfl⟩

/-- **The root binds the tree.** Two trees of one depth with one root are equal, or a message of one
collides with a message of the other. -/
theorem root_binds {d : ℕ} (t t' : Tree Bytes32 d) : Binds H (t.root H) (t'.root H) (t = t') := by
  induction t with
  | leaf a =>
      cases t' with
      | leaf b => exact (Binds.pure a.1 b.1).imp fun h => congrArg Tree.leaf (Subtype.ext h)
  | @node d l r ihl ihr =>
      cases t' with
      | node l' r' =>
          have hlen : (l.root H).val.length = (l'.root H).val.length := by simp
          -- the top hash binds the two subtree roots, each of which binds its subtree
          refine (Binds.pair (ihl l') (ihr r') hlen).imp ?_
          rintro ⟨rfl, rfl⟩
          rfl

/-! ## Layer by layer -/

namespace Tree

variable {α : Type}

/-- The leaves, from the left. -/
def leaves : {d : ℕ} → Tree α d → List α
  | _, .leaf a => [a]
  | _, .node l r => l.leaves ++ r.leaves

@[simp] theorem leaves_leaf (a : α) : (Tree.leaf a).leaves = [a] := rfl

@[simp] theorem leaves_node {d : ℕ} (l r : Tree α d) : (Tree.node l r).leaves = l.leaves ++ r.leaves := rfl

@[simp] theorem length_leaves {d : ℕ} (t : Tree α d) : t.leaves.length = 2 ^ d := by
  induction t with
  | leaf a => rfl
  | node l r ihl ihr => rw [leaves_node, List.length_append, ihl, ihr, Nat.pow_succ, Nat.mul_two]

/-- The tree of depth `d` over a list, with `a` where the list has ended. -/
def ofList (a : α) : (d : ℕ) → List α → Tree α d
  | 0, xs => .leaf (xs.headD a)
  | d + 1, xs => .node (ofList a d (xs.take (2 ^ d))) (ofList a d (xs.drop (2 ^ d)))

/-- The list, filled up to the width of the tree. -/
theorem leaves_ofList (a : α) {d : ℕ} {xs : List α} (h : xs.length ≤ 2 ^ d) :
    (ofList a d xs).leaves = xs ++ List.replicate (2 ^ d - xs.length) a := by
  induction d generalizing xs with
  | zero =>
      -- one leaf: the list is empty or has one element
      cases xs with
      | nil => rfl
      | cons x xs =>
          obtain rfl : xs = [] := List.length_eq_zero_iff.mp (by simpa using h)
          rfl
  | succ d ih =>
      rw [Nat.pow_succ] at h
      rw [ofList, leaves_node, ih (List.length_take_le _ _), ih (by rw [List.length_drop]; omega),
        List.length_take, List.length_drop]
      rcases Nat.le_total xs.length (2 ^ d) with hle | hle
      · -- the whole list is on the left, and the right half is filling
        have hsum : 2 ^ (d + 1) - xs.length = (2 ^ d - xs.length) + 2 ^ d := by
          rw [Nat.pow_succ]
          omega
        rw [List.take_of_length_le hle, List.drop_of_length_le hle, Nat.min_eq_right hle,
          Nat.sub_eq_zero_of_le hle, Nat.sub_zero, hsum, List.replicate_add, List.nil_append,
          List.append_assoc]
      · have hfull : 2 ^ d - min (2 ^ d) xs.length = 0 := by omega
        have hrest : 2 ^ d - (xs.length - 2 ^ d) = 2 ^ (d + 1) - xs.length := by
          rw [Nat.pow_succ]
          omega
        rw [hfull, hrest, List.replicate_zero, List.append_nil, ← List.append_assoc,
          List.take_append_drop]

/-- Lists of one length that are filled up to one tree are equal. -/
theorem eq_of_ofList {a : α} {d : ℕ} {xs ys : List α} (hxs : xs.length ≤ 2 ^ d)
    (hlen : xs.length = ys.length) (h : ofList a d xs = ofList a d ys) : xs = ys := by
  have hleaves := congrArg leaves h
  rw [leaves_ofList a hxs, leaves_ofList a (hlen ▸ hxs)] at hleaves
  exact (List.append_inj hleaves hlen).1

variable (H) in
/-- The tree above the leaves: each pair of them is one leaf, its hash. -/
def hashLeaves : (d : ℕ) → Tree Bytes32 (d + 1) → Tree Bytes32 d
  | 0, .node (.leaf a) (.leaf b) => .leaf (H (a.1 ++ b.1))
  | d + 1, .node l r => .node (hashLeaves d l) (hashLeaves d r)

end Tree

/-- The messages of a layer: its first two nodes together, and so on. -/
def pairs : List Bytes → List Bytes
  | a :: b :: rest => (a ++ b) :: pairs rest
  | _ => []

theorem pairs_append {xs : List Bytes} (h : xs.length % 2 = 0) (ys : List Bytes) :
    pairs (xs ++ ys) = pairs xs ++ pairs ys := by
  induction xs using pairs.induct with
  | case1 a b rest ih =>
      have hrest : rest.length % 2 = 0 := by
        simp only [List.length_cons] at h
        omega
      simp only [List.cons_append, pairs, ih hrest]
  | case2 xs hxs =>
      -- an even list that does not start with two nodes is empty
      cases xs with
      | nil => rfl
      | cons a xs =>
          cases xs with
          | nil => simp at h
          | cons b rest => exact absurd rfl (hxs a b rest)

namespace Tree

theorem even_leaves {d : ℕ} (t : Tree Bytes32 (d + 1)) : (t.leaves.map Subtype.val).length % 2 = 0 := by
  rw [List.length_map, length_leaves, Nat.pow_succ, Nat.mul_mod_left]

/-- The leaves after hashing are the hashes of the layer's messages. -/
theorem leaves_hashLeaves {d : ℕ} (t : Tree Bytes32 (d + 1)) :
    (hashLeaves H d t).leaves.map Subtype.val =
      (pairs (t.leaves.map Subtype.val)).map fun m => (H m).1 := by
  induction d with
  | zero =>
      match t with
      | .node (.leaf a) (.leaf b) => rfl
  | succ d ih =>
      match t with
      | .node l r =>
          rw [hashLeaves, leaves_node, leaves_node, List.map_append, List.map_append, pairs_append (even_leaves l),
            List.map_append, ih, ih]

/-- **One layer.** The root stays, and the messages are those of the layer and those above it. -/
theorem root_hashLeaves {d : ℕ} (t : Tree Bytes32 (d + 1)) :
    ((hashLeaves H d t).root H).val = (t.root H).val ∧
      (t.root H).inputs.Perm (pairs (t.leaves.map Subtype.val) ++ ((hashLeaves H d t).root H).inputs) := by
  induction d with
  | zero =>
      match t with
      | .node (.leaf a) (.leaf b) => exact ⟨rfl, List.Perm.refl _⟩
  | succ d ih =>
      match t with
      | .node l r =>
          obtain ⟨hl, hpl⟩ := ih l
          obtain ⟨hr, hpr⟩ := ih r
          constructor
          · show (H (((hashLeaves H d l).root H).val ++ ((hashLeaves H d r).root H).val)).1 = _
            rw [hl, hr]
            rfl
          · rw [leaves_node, List.map_append, pairs_append (even_leaves l)]
            show ((l.root H).inputs ++ ((r.root H).inputs ++ [_])).Perm
              (_ ++ (((hashLeaves H d l).root H).inputs ++ (((hashLeaves H d r).root H).inputs ++ [_])))
            rw [hl, hr, List.append_assoc]
            -- the two layers come before what is above either of them
            refine (hpl.append (hpr.append_right _)).trans ?_
            simp only [List.append_assoc]
            refine List.Perm.append_left _ ?_
            rw [← List.append_assoc, ← List.append_assoc (pairs _)]
            exact List.perm_append_comm.append_right _

end Tree

end PqcMigration.Lib.Merkle
