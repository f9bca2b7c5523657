/-
# PqcMigration.LightClient.VerifyPubkeysHash — `devnet/light-client/verify_pubkeys_hash.py`.

The script recomputes the root of a sync committee from its keys, folds the bootstrap's branch over
it, and compares with the state root — for EVERY generalized index of the branch's depth, stopping at
the first that matches. The fold is the climb of `Lib.Merkle`, so both directions come from there.

What a match means is less than the script's last line suggests: the committee is at the reported
index (`verified_at_gindex`), which need not be the current sync committee's
(`verified_next_committee`).
-/
import PqcMigration.LightClient.PubkeysHash
import PqcMigration.Lib.Merkle
import PqcMigration.Lib.Sha256

namespace PqcMigration.LightClient

open Lib Lib.Merkle

/-! ## The script -/

/-- What the script reads of the bootstrap document. -/
structure Bootstrap where
  stateRoot : String
  pubkeys : List String
  aggregatePubkey : String
  branch : List String

/-- `bytes.fromhex(s[2:])`. -/
def hexField (s : String) : Except PyError Bytes := fromhex (s.toList.drop 2)

inductive Verdict where
  | matchAt (gindex : ℕ)
  | noMatch
  deriving DecidableEq

/-- What the script prints. -/
structure Report where
  pubkeysHash : Bytes
  committeeRoot : Bytes
  depth : ℕ
  stateRoot : Bytes
  verdict : Verdict
  deriving DecidableEq

variable (H : Bytes → Bytes32)

/-- The body of the inner loop, on its two variables. -/
def foldStep (s : Bytes × ℕ) (sibling : Bytes) : Hashed Bytes (Bytes × ℕ) := do
  let node ← if s.2 % 2 ≠ 0 then digest H (sibling ++ s.1) else digest H (s.1 ++ sibling)
  return (node, s.2 / 2)

/-- `node = leaf; idx = gindex; for sibling in branch: …`, and `node` after it. -/
def foldBranch (leaf : Bytes) (gindex : ℕ) (branch : List Bytes) : Hashed Bytes Bytes := do
  let s ← branch.foldlM (foldStep H) (leaf, gindex)
  return s.1

/-- `for gindex in …`: the first that folds to the state root. -/
def search (leaf : Bytes) (branch : List Bytes) (stateRoot : Bytes) : List ℕ → Hashed Bytes Verdict
  | [] => return .noMatch
  | gindex :: rest => do
      let node ← foldBranch H leaf gindex branch
      if node = stateRoot then return .matchAt gindex else search leaf branch stateRoot rest

/-- `range(2**depth, 2 ** (depth + 1))`. -/
def gindices (depth : ℕ) : List ℕ := List.range' (2 ^ depth) (2 ^ (depth + 1) - 2 ^ depth)

/-- The committee of the document: `pubkeys_root`, and `leaf`, the root of the container. -/
def syncCommitteeRoot (bs : Bootstrap) : PyM (Bytes × Bytes) := do
  let roots ← bs.pubkeys.mapM fun p => do pubkeyRoot H (← liftExcept (hexField p))
  let pubkeysRoot ← merkleize H roots
  let aggregatePubkey ← liftExcept (hexField bs.aggregatePubkey)
  let aggRoot ← pubkeyRoot H aggregatePubkey
  let leaf ← merkleize H [pubkeysRoot, aggRoot]
  return (pubkeysRoot, leaf)

def verify (bs : Bootstrap) : PyM Report := do
  let stateRoot ← liftExcept (hexField bs.stateRoot)
  let branch ← liftExcept (bs.branch.mapM hexField)
  let committee ← syncCommitteeRoot H bs
  let verdict ← liftHashed (search H committee.2 branch stateRoot (gindices branch.length))
  return ⟨committee.1, committee.2, branch.length, stateRoot, verdict⟩

variable {H}

/-! ## The loops -/

/-- The inner loop climbs. -/
theorem foldBranch_eq_climb (leaf : Bytes) (gindex : ℕ) (branch : List Bytes) :
    foldBranch H leaf gindex branch = climb H leaf gindex branch := by
  induction branch generalizing leaf gindex with
  | nil => rfl
  | cons s branch ih =>
      have hstep : foldStep H (leaf, gindex) s =
          climbStep H leaf gindex s >>= fun node => pure (node, gindex / 2) := by
        unfold foldStep climbStep
        split <;> rfl
      show (foldStep H (leaf, gindex) s >>= branch.foldlM (foldStep H)) >>= (fun u => pure u.1) = _
      rw [hstep, bind_assoc, bind_assoc]
      simp only [pure_bind]
      exact bind_congr fun node => ih node (gindex / 2)

theorem mem_gindices {depth g : ℕ} : g ∈ gindices depth ↔ 2 ^ depth ≤ g ∧ g < 2 ^ (depth + 1) := by
  have hpow : 2 ^ (depth + 1) = 2 ^ depth + 2 ^ depth := by rw [Nat.pow_succ]; omega
  rw [gindices, List.mem_range'_1]
  omega

/-- At this depth, a generalized index is `2 ^ depth` plus the position. -/
theorem gindex_mod {depth g : ℕ} (h : g ∈ gindices depth) : g % 2 ^ depth = g - 2 ^ depth := by
  rcases mem_gindices.mp h with ⟨hle, hlt⟩
  rw [Nat.pow_succ] at hlt
  rw [Nat.mod_eq_sub_mod hle, Nat.mod_eq_of_lt (by omega)]

/-- The outer loop reports a match as soon as some index folds to the state root. -/
theorem search_of_fold {leaf stateRoot : Bytes} {branch : List Bytes} {gs : List ℕ} {g : ℕ}
    (hg : g ∈ gs) (hfold : (foldBranch H leaf g branch).val = stateRoot) :
    ∃ g', (search H leaf branch stateRoot gs).val = .matchAt g' := by
  induction gs with
  | nil => cases hg
  | cons g' gs ih =>
      by_cases hnode : (foldBranch H leaf g' branch).val = stateRoot
      · refine ⟨g', ?_⟩
        rw [search, val_bind, if_pos hnode]
        rfl
      · rw [search, val_bind, if_neg hnode]
        rcases List.mem_cons.mp hg with rfl | hrest
        · exact absurd hfold hnode
        · exact ih hrest

/-- What a reported match says: the index is one of those tried, and its fold is the state root. -/
theorem fold_of_search {leaf stateRoot : Bytes} {branch : List Bytes} {gs : List ℕ} {g : ℕ}
    (h : (search H leaf branch stateRoot gs).val = .matchAt g) :
    g ∈ gs ∧ (foldBranch H leaf g branch).val = stateRoot ∧
      (foldBranch H leaf g branch).inputs ⊆ (search H leaf branch stateRoot gs).inputs := by
  induction gs with
  | nil => cases h
  | cons g' gs ih =>
      rw [search, val_bind] at h
      rw [search, inputs_bind]
      by_cases hnode : (foldBranch H leaf g' branch).val = stateRoot
      · rw [if_pos hnode] at h
        cases h
        exact ⟨List.mem_cons_self, hnode, List.subset_append_left _ _⟩
      · rw [if_neg hnode] at h ⊢
        rcases ih h with ⟨hmem, hfold, hsub⟩
        exact ⟨List.mem_cons_of_mem g' hmem, hfold, List.Subset.trans hsub (List.subset_append_right _ _)⟩

/-! ## Completeness and soundness of the branch check -/

/-- **The branch check is complete and sound**, for every hash function. The branch of any position
of a tree folds, at `2 ^ d` plus the position, to the root, so the script reports a match. And a
32-byte leaf and branch that fold to the root at some index are the tree's own leaf and siblings
there, or two different 64-byte strings, one hashed in the fold and one in the tree, have the same
hash. -/
theorem branch_check {d : ℕ} (t : Tree Bytes32 d) :
    (∀ i < 2 ^ d,
      (foldBranch H (t.leafAt i).1 (2 ^ d + i) (t.siblings H i)).val = (t.root H).val ∧
      ∃ g, (search H (t.leafAt i).1 (t.siblings H i) (t.root H).val
        (gindices (t.siblings H i).length)).val = .matchAt g) ∧
    (∀ (leaf : Bytes32) (branch : List Bytes32), branch.length = d → ∀ g ∈ gindices d,
      (foldBranch H leaf.1 g (branch.map Subtype.val)).val = (t.root H).val →
        (leaf = t.leafAt (g - 2 ^ d) ∧ branch.map Subtype.val = t.siblings H (g - 2 ^ d)) ∨
        ∃ x ∈ (foldBranch H leaf.1 g (branch.map Subtype.val)).inputs, ∃ y ∈ (t.root H).inputs,
          x.length = 64 ∧ y.length = 64 ∧ x ≠ y ∧ H x = H y) := by
  refine ⟨?_, ?_⟩
  · intro i hi
    have hmem : 2 ^ d + i ∈ gindices d := by
      rw [mem_gindices, Nat.pow_succ]
      omega
    have hfold : (foldBranch H (t.leafAt i).1 (2 ^ d + i) (t.siblings H i)).val = (t.root H).val := by
      have hclimb := climb_siblings (H := H) t (2 ^ d + i)
      rwa [gindex_mod hmem, Nat.add_sub_cancel_left, ← foldBranch_eq_climb] at hclimb
    refine ⟨hfold, search_of_fold ?_ hfold⟩
    rwa [Tree.length_siblings]
  · intro leaf branch hlen g hg hfold
    rw [foldBranch_eq_climb] at hfold ⊢
    have hbinds := climb_binds (H := H) t leaf.2 ((List.length_map _).trans hlen) g hfold
    rw [gindex_mod hg] at hbinds
    rcases hbinds with ⟨hleaf, hsibs⟩ | ⟨x, hx, y, hy, hne, heq⟩
    · exact Or.inl ⟨Subtype.ext hleaf, hsibs⟩
    · have hbranch : ∀ s ∈ branch.map Subtype.val, s.length = 32 := by
        intro s hs
        rcases List.mem_map.mp hs with ⟨c, -, rfl⟩
        exact c.2
      exact Or.inr ⟨x, hx, y, hy, length_of_mem_climb_inputs leaf.2 hbranch hx,
        Tree.length_of_mem_inputs H t hy, hne, heq⟩

/-! ## What a verified report says -/

/-- The root of a committee is a digest. -/
theorem length_syncCommitteeRoot {doc : Bootstrap} {c : Bytes × Bytes}
    (h : (syncCommitteeRoot H doc).run.val = .ok c) : c.2.length = 32 := by
  rcases bind_eq_ok h (List.Subset.refl _) with ⟨roots, -, -, h, hs⟩
  rcases bind_eq_ok h hs with ⟨pubkeysRoot, -, -, h, hs⟩
  rcases bind_eq_ok h hs with ⟨aggregatePubkey, -, -, h, hs⟩
  rcases bind_eq_ok h hs with ⟨aggRoot, -, -, h, hs⟩
  rcases bind_eq_ok h hs with ⟨leaf, hleaf, -, h, -⟩
  cases h
  rw [merkleize_pair] at hleaf
  cases hleaf
  exact (H _).2

/-- A run that did not raise: the parsed fields, the committee, and the search. -/
theorem verify_eq_ok {doc : Bootstrap} {r : Report} (h : (verify H doc).run.val = .ok r) :
    ∃ branch, doc.branch.mapM hexField = .ok branch ∧ r.depth = branch.length ∧
      (syncCommitteeRoot H doc).run.val = .ok (r.pubkeysHash, r.committeeRoot) ∧
      (search H r.committeeRoot branch r.stateRoot (gindices branch.length)).val = r.verdict ∧
      (search H r.committeeRoot branch r.stateRoot (gindices branch.length)).inputs ⊆
        (verify H doc).run.inputs := by
  rcases bind_eq_ok h (List.Subset.refl _) with ⟨stateRoot, -, -, h, hs⟩
  rcases bind_eq_ok h hs with ⟨branch, hbranch, -, h, hs⟩
  rcases bind_eq_ok h hs with ⟨committee, hcommittee, -, h, hs⟩
  rcases bind_eq_ok h hs with ⟨verdict, hverdict, hsearch, h, -⟩
  cases h
  exact ⟨branch, hbranch, rfl, hcommittee, Except.ok.inj hverdict, hsearch⟩

/-- The run on a document whose fields parse. -/
theorem verify_of_fields {doc : Bootstrap} {stateRoot : Bytes} {branch : List Bytes}
    {committee : Bytes × Bytes} (hstate : hexField doc.stateRoot = .ok stateRoot)
    (hbranch : doc.branch.mapM hexField = .ok branch)
    (hcommittee : (syncCommitteeRoot H doc).run.val = .ok committee) :
    (verify H doc).run =
      ⟨.ok ⟨committee.1, committee.2, branch.length, stateRoot,
          (search H committee.2 branch stateRoot (gindices branch.length)).val⟩,
        (syncCommitteeRoot H doc).run.inputs ++
          (search H committee.2 branch stateRoot (gindices branch.length)).inputs⟩ := by
  have hstate' : (liftExcept (hexField doc.stateRoot)).run.val = .ok stateRoot := hstate
  have hbranch' : (liftExcept (doc.branch.mapM hexField)).run.val = .ok branch := hbranch
  rw [verify, run_bind_of_ok hstate', run_bind_of_ok hbranch', run_bind_of_ok hcommittee,
    run_bind_of_ok rfl]
  apply Hashed.ext
  · rfl
  · show [] ++ ([] ++ (_ ++ (_ ++ []))) = _
    simp only [List.nil_append, List.append_nil]
    rfl

/-- The search hashes nothing but messages of climbs. -/
theorem search_inputs_subset (leaf : Bytes) (branch : List Bytes) (stateRoot : Bytes)
    (gs : List ℕ) :
    (search H leaf branch stateRoot gs).inputs ⊆ climbMessages H [leaf] branch := by
  induction gs with
  | nil => exact List.nil_subset _
  | cons g gs ih =>
      rw [search, inputs_bind, foldBranch_eq_climb]
      refine List.append_subset.mpr ⟨climb_inputs_subset (List.mem_singleton_self leaf) g, ?_⟩
      split
      · exact List.nil_subset _
      · exact ih

/-- **A verified committee is at the reported index.** When the script reports a match at `g`, the
committee root it printed, which is that of the document's committee, is the node at `g` in every
tree with that state root, and the branch is that node's own — or a message hashed by the script
collides with one hashed in the tree. -/
theorem verified_at_gindex (doc : Bootstrap) {r : Report} {g : ℕ}
    (hrun : (verify H doc).run.val = .ok r) (hmatch : r.verdict = .matchAt g)
    (t : Tree Bytes32 r.depth) (hroot : (t.root H).val = r.stateRoot) :
    (syncCommitteeRoot H doc).run.val = .ok (r.pubkeysHash, r.committeeRoot) ∧
      (2 ^ r.depth ≤ g ∧ g < 2 ^ (r.depth + 1)) ∧
      ((r.committeeRoot = (t.leafAt (g - 2 ^ r.depth)).1 ∧
          doc.branch.mapM hexField = .ok (t.siblings H (g - 2 ^ r.depth))) ∨
        CollisionIn H (verify H doc).run.inputs (t.root H).inputs) := by
  rcases verify_eq_ok hrun with ⟨branch, hbranch, hdepth, hcommittee, hverdict, hsub⟩
  rw [hmatch] at hverdict
  rcases fold_of_search hverdict with ⟨hg, hfold, hfoldsub⟩
  rw [← hdepth] at hg
  rw [foldBranch_eq_climb] at hfold hfoldsub
  refine ⟨hcommittee, mem_gindices.mp hg, ?_⟩
  have hlen := length_syncCommitteeRoot hcommittee
  rcases climb_binds t hlen hdepth.symm g (hfold.trans hroot.symm) with ⟨hnode, hsibs⟩ | hcoll
  · rw [gindex_mod hg] at hnode hsibs
    exact Or.inl ⟨hnode, by rw [hbranch, hsibs]⟩
  · exact Or.inr (hcoll.mono (List.Subset.trans hfoldsub hsub) (List.Subset.refl _))

/-! ## The index is not the current committee's

In the state tree of depth 5, the current sync committee has generalized index 54 and the next one
55. The document below presents the NEXT committee, with its branch, as the current one. -/

/-- The root of the committee of one key, `01…01`, with that key as the aggregate. -/
def currentRoot : Bytes32 :=
  ⟨beBytes 32 0x91f5610b74a170633d19c569a2d4c91c0e0774b984975a337e5b1851df341816,
    length_beBytes 32 _⟩

/-- The root of the committee of one key, `02…02`, with that key as the aggregate. -/
def nextRoot : Bytes32 :=
  ⟨beBytes 32 0xe840592c175e109eff8834750bc990ba077da935b221cd57233430a46578d561,
    length_beBytes 32 _⟩

/-- Subtrees of zero chunks, around the committees. -/
def zeros (d : ℕ) : Tree Bytes32 d := .replicate d ⟨beBytes 32 0, length_beBytes 32 0⟩

/-- A state tree with the two committees at their positions. -/
def stateTree : Tree Bytes32 5 :=
  .node (zeros 4) (.node (.node (zeros 2) (.node (zeros 1)
    (.node (.leaf currentRoot) (.leaf nextRoot)))) (zeros 3))

/-- The next committee, presented as the current one. -/
def nextDoc : Bootstrap where
  stateRoot := "0x8ec2a605375d72c6c850aae54487eded72da5155d415d12a8d4a52e1d8b3f3bf"
  pubkeys := ["0x020202020202020202020202020202020202020202020202" ++
    "020202020202020202020202020202020202020202020202"]
  aggregatePubkey := "0x020202020202020202020202020202020202020202020202" ++
    "020202020202020202020202020202020202020202020202"
  branch :=
    ["0x91f5610b74a170633d19c569a2d4c91c0e0774b984975a337e5b1851df341816",
      "0xf5a5fd42d16a20302798ef6ed309979b43003d2320d9f0e8ea9831a92759fb4b",
      "0xdb56114e00fdd4c1f85c892bf35ac9a89289aaecb1ebd0a96cde606a748b5d71",
      "0xc78009fdf07fc56a11f122370658a353aaa542ed63e44c4bc15ff4cd105ab33c",
      "0x536d98837f2dd165a55d5eeae91485954472d56f246df256bf3cae19352a123c"]

theorem nextDoc_stateRoot :
    hexField nextDoc.stateRoot = .ok (stateTree.root Sha256.sha256).val := by
  decide +kernel

theorem nextDoc_branch :
    nextDoc.branch.mapM hexField = .ok (stateTree.siblings Sha256.sha256 (55 - 2 ^ 5)) := by
  decide +kernel

theorem nextDoc_committee :
    (syncCommitteeRoot Sha256.sha256 nextDoc).run.val =
      .ok (beBytes 32 0x639c3f372aec876db37e0fe786bd7db9203960e0ba50cc11b9a0815ac9cea9e3, nextRoot.1) := by
  decide +kernel

/-- The next committee's branch above its sibling, which is the current committee. -/
def upperBranch : List Bytes := (stateTree.siblings Sha256.sha256 (55 - 2 ^ 5)).tail

theorem siblings_next :
    stateTree.siblings Sha256.sha256 (55 - 2 ^ 5) = currentRoot.1 :: upperBranch := rfl

-- The climbs are taken apart at their first step: the kernel keeps all that it has evaluated until
-- a declaration is checked.

theorem no_collision_below :
    ¬ CollisionIn Sha256.sha256
      ((syncCommitteeRoot Sha256.sha256 nextDoc).run.inputs ++
        [nextRoot.1 ++ currentRoot.1, currentRoot.1 ++ nextRoot.1])
      (stateTree.root Sha256.sha256).inputs := by
  decide +kernel

theorem no_collision_from_left :
    ¬ CollisionIn Sha256.sha256
      (climbMessages Sha256.sha256 [(Sha256.sha256 (nextRoot.1 ++ currentRoot.1)).1] upperBranch)
      (stateTree.root Sha256.sha256).inputs := by
  decide +kernel

theorem no_collision_from_right :
    ¬ CollisionIn Sha256.sha256
      (climbMessages Sha256.sha256 [(Sha256.sha256 (currentRoot.1 ++ nextRoot.1)).1] upperBranch)
      (stateTree.root Sha256.sha256).inputs := by
  decide +kernel

/-- No message of the run, and none it could hash at another index, collides with the tree's. -/
theorem nextDoc_no_collision :
    ¬ CollisionIn Sha256.sha256
      ((syncCommitteeRoot Sha256.sha256 nextDoc).run.inputs ++
        climbMessages Sha256.sha256 [nextRoot.1] (stateTree.siblings Sha256.sha256 (55 - 2 ^ 5)))
      (stateTree.root Sha256.sha256).inputs := by
  rw [siblings_next, climbMessages, ← List.append_assoc, collisionIn_append]
  rintro (hbelow | ⟨x, hx, hcoll⟩)
  · exact no_collision_below hbelow
  · obtain ⟨n, hn, hxn⟩ := exists_mem_climbMessages hx
    simp only [List.flatMap_cons, List.flatMap_nil, List.append_nil, List.map_cons, List.map_nil,
      List.mem_cons, List.not_mem_nil, or_false] at hn
    rcases hn with rfl | rfl
    · exact no_collision_from_left ⟨x, hxn, hcoll⟩
    · exact no_collision_from_right ⟨x, hxn, hcoll⟩

theorem nextRoot_position :
    ∀ i < 2 ^ 5, (stateTree.leafAt i).1 = nextRoot.1 → i = 55 - 2 ^ 5 := by
  decide

/-- The search matches, since the branch is the next committee's own; and it can only match there,
since another index would be a collision. -/
theorem nextDoc_search :
    (search Sha256.sha256 nextRoot.1 (stateTree.siblings Sha256.sha256 (55 - 2 ^ 5))
      (stateTree.root Sha256.sha256).val (gindices 5)).val = .matchAt 55 := by
  have hmem : 55 ∈ gindices 5 := by decide
  have hfold : (foldBranch Sha256.sha256 nextRoot.1 55
      (stateTree.siblings Sha256.sha256 (55 - 2 ^ 5))).val =
        (stateTree.root Sha256.sha256).val := by
    rw [foldBranch_eq_climb]
    exact climb_siblings stateTree 55
  rcases search_of_fold hmem hfold with ⟨g, hg⟩
  rcases fold_of_search hg with ⟨hgmem, hgfold, -⟩
  rw [foldBranch_eq_climb] at hgfold
  have hbind := climb_binds stateTree nextRoot.2 (Tree.length_siblings _ _ _) g hgfold
  rw [gindex_mod hgmem] at hbind
  rcases hbind with ⟨hleaf, -⟩ | hcoll
  · rcases mem_gindices.mp hgmem with ⟨hle, hlt⟩
    have hpos := nextRoot_position (g - 2 ^ 5) (by omega) hleaf.symm
    have hgeq : g = 55 := by omega
    rw [hg, hgeq]
  · refine absurd (hcoll.mono ?_ (List.Subset.refl _)) nextDoc_no_collision
    exact List.Subset.trans (climb_inputs_subset (List.mem_singleton_self nextRoot.1) g)
      (List.subset_append_right _ _)

/-- What the script prints for it. -/
def nextReport : Report :=
  ⟨beBytes 32 0x639c3f372aec876db37e0fe786bd7db9203960e0ba50cc11b9a0815ac9cea9e3, nextRoot.1, 5,
    (stateTree.root Sha256.sha256).val, .matchAt 55⟩

theorem nextDoc_run :
    (verify Sha256.sha256 nextDoc).run =
      ⟨.ok nextReport, (syncCommitteeRoot Sha256.sha256 nextDoc).run.inputs ++
        (search Sha256.sha256 nextRoot.1 (stateTree.siblings Sha256.sha256 (55 - 2 ^ 5))
          (stateTree.root Sha256.sha256).val (gindices 5)).inputs⟩ := by
  have hrun := verify_of_fields nextDoc_stateRoot nextDoc_branch nextDoc_committee
  simp only [Tree.length_siblings, nextDoc_search] at hrun
  exact hrun

/-- The report on the next committee, at its index. -/
theorem verified_at_gindex_next :
    (syncCommitteeRoot Sha256.sha256 nextDoc).run.val =
        .ok (nextReport.pubkeysHash, nextReport.committeeRoot) ∧
      (2 ^ 5 ≤ 55 ∧ 55 < 2 ^ (5 + 1)) ∧
      ((nextReport.committeeRoot = (stateTree.leafAt (55 - 2 ^ 5)).1 ∧
          nextDoc.branch.mapM hexField = .ok (stateTree.siblings Sha256.sha256 (55 - 2 ^ 5))) ∨
        CollisionIn Sha256.sha256 (verify Sha256.sha256 nextDoc).run.inputs
          (stateTree.root Sha256.sha256).inputs) :=
  verified_at_gindex nextDoc (congrArg Hashed.val nextDoc_run) rfl stateTree rfl

/-- **A match does not bind the position.** SHA-256, a document and a tree with the document's state
root: the script reports the committee as verified, at index 55; the node at 54, the current sync
committee's, is the root of another committee; and no message the script hashed collides with one
hashed in the tree. -/
theorem verified_next_committee :
    ∃ r, (verify Sha256.sha256 nextDoc).run.val = .ok r ∧ r.verdict = .matchAt 55 ∧
      r.depth = 5 ∧ (stateTree.root Sha256.sha256).val = r.stateRoot ∧
      r.committeeRoot ≠ (stateTree.leafAt (54 - 2 ^ 5)).1 ∧
      ¬ CollisionIn Sha256.sha256 (verify Sha256.sha256 nextDoc).run.inputs
        (stateTree.root Sha256.sha256).inputs := by
  have hother : nextRoot.1 ≠ (stateTree.leafAt (54 - 2 ^ 5)).1 := by decide
  rw [nextDoc_run]
  refine ⟨nextReport, rfl, rfl, rfl, rfl, hother, ?_⟩
  intro hcoll
  refine nextDoc_no_collision (hcoll.mono ?_ (List.Subset.refl _))
  exact List.append_subset.mpr ⟨List.subset_append_left _ _,
    List.Subset.trans (search_inputs_subset _ _ _ _) (List.subset_append_right _ _)⟩

end PqcMigration.LightClient
