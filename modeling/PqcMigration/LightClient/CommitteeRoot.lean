/-
# PqcMigration.LightClient.CommitteeRoot — what the leaf of `verify_pubkeys_hash.py` binds.

The leaf is reached through two nested merkleizations: each key is one message of 64 bytes, the key roots
are the leaves of one tree, and the root of that tree is hashed with the aggregate key's. Every step is a
computation of `Lib.Hashed`, so equal leaves are followed down: through the container to the two roots,
through the tree to the key roots, through those to the keys. Where a step does not go through, its two
messages collide, and both are among what the script hashed.
-/
import PqcMigration.LightClient.Merkleize
import PqcMigration.LightClient.VerifyPubkeysHash

namespace PqcMigration.LightClient

open Lib Lib.Merkle

/-- A public key: 48 bytes. -/
abbrev Pubkey := { pk : Bytes // pk.length = 48 }

structure SyncCommittee where
  pubkeys : List Pubkey
  aggregatePubkey : Pubkey

/-- The document has the committee's keys, as hexadecimal text. -/
structure Bootstrap.Carries (bs : Bootstrap) (c : SyncCommittee) : Prop where
  pubkeys : bs.pubkeys.mapM hexField = .ok (c.pubkeys.map Subtype.val)
  aggregatePubkey : hexField bs.aggregatePubkey = .ok c.aggregatePubkey.1

/-! ## The computation -/

/-- The message of a key: its two chunks. -/
def keyMessage (pk : Pubkey) : Bytes := pk.1 ++ List.replicate (64 - 48) 0

theorem length_keyMessage (pk : Pubkey) : (keyMessage pk).length = 64 := by
  rw [keyMessage, List.length_append, pk.2, List.length_replicate]

variable (H : Bytes → Bytes32)

/-- The roots of the keys. -/
def keyRoots (pks : List Pubkey) : Hashed Bytes (List Bytes32) := pks.mapM fun pk => ask H (keyMessage pk)

/-- The leaf, from the messages up. -/
def committeeLeaf (c : SyncCommittee) : Hashed Bytes Bytes := do
  let roots ← keyRoots H c.pubkeys
  let pubkeysRoot ← (sszTree roots).root H
  let aggRoot ← digest H (keyMessage c.aggregatePubkey)
  digest H (pubkeysRoot ++ aggRoot)

variable {H}

theorem keyRoots_cons (pk : Pubkey) (pks : List Pubkey) :
    keyRoots H (pk :: pks) =
      ⟨H (keyMessage pk) :: (keyRoots H pks).val, keyMessage pk :: (keyRoots H pks).inputs⟩ := by
  rw [keyRoots, List.mapM_cons]
  apply Hashed.ext
  · rfl
  · show [keyMessage pk] ++ ((keyRoots H pks).inputs ++ []) = _
    rw [List.append_nil]
    rfl

theorem pubkeyRoot_eq (pk : Pubkey) : pubkeyRoot H pk.1 = sha256 H (keyMessage pk) := by
  have hlen := length_keyMessage pk
  have hchunks : (keyMessage pk).take 32 ++ ((keyMessage pk).drop 32).take 32 = keyMessage pk := by
    rw [List.take_of_length_le (l := (keyMessage pk).drop 32) (by rw [List.length_drop, hlen]),
      List.take_append_drop]
  unfold pubkeyRoot
  rw [if_neg (not_not.mpr pk.2)]
  show merkleize H [(keyMessage pk).take 32, ((keyMessage pk).drop 32).take 32] = _
  rw [merkleize_pair, hchunks]

/-- A first field, and the others. -/
theorem mapM_cons_eq_ok {field : String} {fields : List String} {pks : List Bytes}
    (h : (field :: fields).mapM hexField = .ok pks) :
    ∃ pk rest, pks = pk :: rest ∧ hexField field = .ok pk ∧ fields.mapM hexField = .ok rest := by
  rw [List.mapM_cons] at h
  cases hfield : hexField field with
  | error err =>
      rw [hfield] at h
      cases h
  | ok pk =>
      cases hrest : fields.mapM hexField with
      | error err =>
          rw [hfield, hrest] at h
          cases h
      | ok rest =>
          rw [hfield, hrest] at h
          exact ⟨pk, rest, (Except.ok.inj h).symm, rfl, rfl⟩

/-- The key roots of a document. -/
theorem run_keyRoots {fields : List String} {pks : List Pubkey}
    (h : fields.mapM hexField = .ok (pks.map Subtype.val)) :
    (fields.mapM fun p => do pubkeyRoot H (← liftExcept (hexField p))).run =
      ⟨.ok ((keyRoots H pks).val.map Subtype.val), (keyRoots H pks).inputs⟩ := by
  induction fields generalizing pks with
  | nil =>
      obtain rfl : pks = [] := List.map_eq_nil_iff.mp (Except.ok.inj h).symm
      rfl
  | cons field fields ih =>
      obtain ⟨bytes, rest, hpks, hfield, hrest⟩ := mapM_cons_eq_ok h
      obtain ⟨pk, pks, rfl, rfl, rfl⟩ := List.map_eq_cons_iff.mp hpks
      have hkey : (do pubkeyRoot H (← liftExcept (hexField field))).run =
          ⟨.ok (H (keyMessage pk)).1, [keyMessage pk]⟩ := by
        have hlift : (liftExcept (hexField field)).run.val = .ok pk.1 := hfield
        rw [run_bind_of_ok hlift, pubkeyRoot_eq]
        rfl
      rw [List.mapM_cons, run_bind_of_ok (congrArg Hashed.val hkey),
        run_bind_of_ok (congrArg Hashed.val (ih hrest)), hkey, ih hrest, keyRoots_cons]
      apply Hashed.ext
      · rfl
      · show [keyMessage pk] ++ ((keyRoots H pks).inputs ++ []) = _
        rw [List.append_nil]
        rfl

/-- The script computes the leaf, and hashes all of its messages. -/
theorem run_syncCommitteeRoot {doc : Bootstrap} {c : SyncCommittee} (h : doc.Carries c) :
    ∃ pubkeysRoot, (syncCommitteeRoot H doc).run.val = .ok (pubkeysRoot, (committeeLeaf H c).val) ∧
      (committeeLeaf H c).inputs ⊆ (syncCommitteeRoot H doc).run.inputs := by
  have hroots := run_keyRoots (H := H) h.pubkeys
  have hagg : (liftExcept (hexField doc.aggregatePubkey)).run.val = .ok c.aggregatePubkey.1 :=
    h.aggregatePubkey
  obtain ⟨hval, hinputs⟩ := run_hashLayers (H := H) (sszTree (keyRoots H c.pubkeys).val)
  rw [← merkleize_eq_hashLayers] at hval hinputs
  have hrun : (syncCommitteeRoot H doc).run =
      ⟨.ok (((sszTree (keyRoots H c.pubkeys).val).root H).val, (committeeLeaf H c).val),
        (keyRoots H c.pubkeys).inputs ++
          ((merkleize H ((keyRoots H c.pubkeys).val.map Subtype.val)).run.inputs ++
            [keyMessage c.aggregatePubkey,
              ((sszTree (keyRoots H c.pubkeys).val).root H).val ++
                (H (keyMessage c.aggregatePubkey)).1])⟩ := by
    rw [syncCommitteeRoot, run_bind_of_ok (congrArg Hashed.val hroots), run_bind_of_ok hval,
      run_bind_of_ok hagg, pubkeyRoot_eq, run_bind_of_ok rfl, merkleize_pair, run_bind_of_ok rfl, hroots]
    rfl
  refine ⟨_, congrArg Hashed.val hrun, ?_⟩
  rw [hrun]
  show (keyRoots H c.pubkeys).inputs ++ (((sszTree _).root H).inputs ++ ([_] ++ [_])) ⊆ _
  refine List.append_subset.mpr ⟨List.subset_append_left _ _, List.append_subset.mpr ⟨?_, ?_⟩⟩
  · exact fun x hx => List.mem_append_right _ (List.mem_append_left _ (hinputs.mem_iff.mpr hx))
  · exact fun x hx => List.mem_append_right _ (List.mem_append_right _ hx)

/-! ## Binding -/

theorem sszTree_binds {xs ys : List Bytes32} (hlen : xs.length = ys.length) :
    Binds H ((sszTree xs).root H) ((sszTree ys).root H) (xs = ys) := by
  have hroom : xs.length ≤ 2 ^ sszDepth ys.length := hlen ▸ le_two_pow_sszDepth ys.length
  unfold sszTree
  rw [hlen]
  exact (root_binds _ _).imp (Tree.eq_of_ofList hroom hlen)

theorem keyMessage_injective {pk pk' : Pubkey} (h : keyMessage pk = keyMessage pk') : pk = pk' :=
  Subtype.ext (List.append_inj h (pk.2.trans pk'.2.symm)).1

theorem length_keyRoots (pks : List Pubkey) : (keyRoots H pks).val.length = pks.length := by
  induction pks with
  | nil => rfl
  | cons pk pks ih =>
      rw [keyRoots_cons]
      exact congrArg (· + 1) ih

/-- **The leaf binds the committee.** -/
theorem committeeLeaf_binds {c c' : SyncCommittee} (hlen : c.pubkeys.length = c'.pubkeys.length) :
    Binds H (committeeLeaf H c) (committeeLeaf H c')
      (c.pubkeys = c'.pubkeys ∧ c.aggregatePubkey = c'.aggregatePubkey) := by
  have hroots : (keyRoots H c.pubkeys).val.length = (keyRoots H c'.pubkeys).val.length := by
    rw [length_keyRoots, length_keyRoots, hlen]
  have hkeys : Binds H (keyRoots H c.pubkeys) (keyRoots H c'.pubkeys) (c.pubkeys = c'.pubkeys) :=
    Binds.mapM (fun pk pk' => (Binds.ask _ _).imp keyMessage_injective) hlen
  -- from the container down: its two roots, of which one binds the key roots and one the aggregate key
  have hagg : Binds H (digest H (keyMessage c.aggregatePubkey)) (digest H (keyMessage c'.aggregatePubkey))
      (c.aggregatePubkey = c'.aggregatePubkey) := (Binds.digest _ _).imp keyMessage_injective
  have hpair := Binds.pair (sszTree_binds hroots) hagg (by simp)
  exact (Binds.bind hkeys hpair And.left).imp fun h => ⟨h.1, h.2.2⟩

/-- Every message hashed is of 64 bytes. -/
theorem length_of_mem_committeeLeaf {c : SyncCommittee} {x : Bytes} (hx : x ∈ (committeeLeaf H c).inputs) :
    x.length = 64 := by
  have hkeys : ∀ pks : List Pubkey, ∀ y ∈ (keyRoots H pks).inputs, y.length = 64 := by
    intro pks
    induction pks with
    | nil => exact fun y hy => absurd hy List.not_mem_nil
    | cons pk pks ih =>
        rw [keyRoots_cons]
        exact List.forall_mem_cons.mpr ⟨length_keyMessage pk, ih⟩
  change x ∈ (keyRoots H c.pubkeys).inputs ++ (((sszTree _).root H).inputs ++ ([_] ++ [_])) at hx
  simp only [List.mem_append, List.mem_singleton] at hx
  rcases hx with hx | hx | rfl | rfl
  · exact hkeys c.pubkeys x hx
  · exact Tree.length_of_mem_inputs H _ hx
  · exact length_keyMessage _
  · simp

/-- **The committee root binds the committee**, for every hash function. Two documents with committees of
the same size are both read, and if the leaves that the verifier folds are equal, the keys and the aggregate
keys are, or two different strings of 64 bytes, one hashed for each document, have the same hash. -/
theorem committee_root_binds {doc doc' : Bootstrap} {c c' : SyncCommittee} (h : doc.Carries c)
    (h' : doc'.Carries c') (hlen : c.pubkeys.length = c'.pubkeys.length) :
    ∃ root leaf root' leaf', (syncCommitteeRoot H doc).run.val = .ok (root, leaf) ∧
      (syncCommitteeRoot H doc').run.val = .ok (root', leaf') ∧
      (leaf = leaf' →
        (c.pubkeys = c'.pubkeys ∧ c.aggregatePubkey = c'.aggregatePubkey) ∨
        ∃ x ∈ (syncCommitteeRoot H doc).run.inputs, ∃ y ∈ (syncCommitteeRoot H doc').run.inputs,
          x.length = 64 ∧ y.length = 64 ∧ x ≠ y ∧ H x = H y) := by
  obtain ⟨root, hval, hinputs⟩ := run_syncCommitteeRoot (H := H) h
  obtain ⟨root', hval', hinputs'⟩ := run_syncCommitteeRoot (H := H) h'
  refine ⟨root, _, root', _, hval, hval', fun hleaf => ?_⟩
  rcases committeeLeaf_binds hlen hleaf with heq | ⟨x, hx, y, hy, hne, hhash⟩
  · exact Or.inl heq
  · exact Or.inr ⟨x, hinputs hx, y, hinputs' hy, length_of_mem_committeeLeaf hx,
      length_of_mem_committeeLeaf hy, hne, hhash⟩

/-- A committee of one key, with that key as the aggregate. -/
def oneKey (b : UInt8) : SyncCommittee :=
  ⟨[⟨List.replicate 48 b, List.length_replicate⟩], ⟨List.replicate 48 b, List.length_replicate⟩⟩

theorem carries_oneKey {doc : Bootstrap} {b : UInt8} (hkeys : doc.pubkeys = [doc.aggregatePubkey])
    (h : hexField doc.aggregatePubkey = .ok (List.replicate 48 b)) : doc.Carries (oneKey b) := by
  refine ⟨?_, h⟩
  rw [hkeys, List.mapM_cons, h, List.mapM_nil]
  rfl

/-- `nextDoc` with the current committee in it. -/
def currentDoc : Bootstrap :=
  { nextDoc with
    pubkeys := ["0x010101010101010101010101010101010101010101010101" ++
      "010101010101010101010101010101010101010101010101"]
    aggregatePubkey := "0x010101010101010101010101010101010101010101010101" ++
      "010101010101010101010101010101010101010101010101" }

theorem committee_root_binds_two :
    currentDoc.Carries (oneKey 1) ∧ nextDoc.Carries (oneKey 2) ∧
      ∃ root leaf root' leaf', (syncCommitteeRoot Sha256.sha256 currentDoc).run.val = .ok (root, leaf) ∧
        (syncCommitteeRoot Sha256.sha256 nextDoc).run.val = .ok (root', leaf') ∧
        (leaf = leaf' →
          ((oneKey 1).pubkeys = (oneKey 2).pubkeys ∧
            (oneKey 1).aggregatePubkey = (oneKey 2).aggregatePubkey) ∨
          ∃ x ∈ (syncCommitteeRoot Sha256.sha256 currentDoc).run.inputs,
            ∃ y ∈ (syncCommitteeRoot Sha256.sha256 nextDoc).run.inputs,
            x.length = 64 ∧ y.length = 64 ∧ x ≠ y ∧ Sha256.sha256 x = Sha256.sha256 y) := by
  have hcurrent : currentDoc.Carries (oneKey 1) := carries_oneKey rfl (by decide)
  have hnext : nextDoc.Carries (oneKey 2) := carries_oneKey rfl (by decide)
  exact ⟨hcurrent, hnext, committee_root_binds hcurrent hnext rfl⟩

end PqcMigration.LightClient
