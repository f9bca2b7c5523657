/-
# PqcMigration.App.Ante — the malformed-key guard of `app/ante.go`, and the ante handler that
`app.go` (`setAnteHandler`) puts in front of the SDK's chain.

A signer's public key is a TREE: the SDK's multisig key holds further keys, to any depth. The guard
walks the list of signers and looks at each entry with one type test, so what it covers is the top
of each tree and nothing below it. Its docstring promises to reject "a transaction carrying an
ML-DSA-65 public key whose length is not exactly mldsa65.PubKeySize"; `guard_covers_iff` says for
which transactions it does.

`mldsa65.PubKeySize` (a constant of a third-party package; 1952 in this repository's own tools) and
the SDK's ante chain are parameters.
-/
import PqcMigration.Lib.Bytes

namespace PqcMigration.App.Ante

open Lib

universe u v

/-! ## Keys and transactions -/

/-- A `cryptotypes.PubKey` as it can arrive in a transaction; `absent` is a nil entry. -/
inductive PubKey where
  | absent
  | mldsa65 (key : Bytes)
  | other (key : Bytes)
  | multisig (keys : List PubKey)

mutual

/-- Every ML-DSA-65 key in the tree, left to right. -/
def PubKey.mldsaKeys : PubKey → List Bytes
  | .absent => []
  | .mldsa65 key => [key]
  | .other _ => []
  | .multisig keys => mldsaKeysIn keys

/-- Every ML-DSA-65 key in a list of trees. -/
def mldsaKeysIn : List PubKey → List Bytes
  | [] => []
  | pk :: pks => pk.mldsaKeys ++ mldsaKeysIn pks

end

/-- A transaction: one that is a `SigVerifiableTx`, with what its `GetPubKeys` answers, or not. -/
inductive Tx (ε : Type u) where
  | sigVerifiable (getPubKeys : Except ε (List PubKey))
  | other

variable {ε : Type u}

/-- The signer keys, none when there are none to be had. -/
def Tx.pubKeys : Tx ε → List PubKey
  | .sigVerifiable (.ok pks) => pks
  | .sigVerifiable (.error _) => []
  | .other => []

/-! ## `RejectMalformedPubKeys` -/

/-- The registered SDK error the guard wraps. -/
inductive SdkError where
  | errInvalidPubKey
  deriving DecidableEq

/-- An error of the handler: one passed on from `GetPubKeys`, or a wrapped SDK error. -/
inductive AnteError (ε : Type u) where
  | passedOn (err : ε)
  | wrapped (root : SdkError) (text : String)

/-- The guard's own error, for signer `i` with a key of `got` bytes. -/
def malformed (size i got : ℕ) : AnteError ε :=
  .wrapped .errInvalidPubKey
    s!"signer {i}: ml-dsa-65 public key must be {size} bytes, got {got}"

/-- The loop over the signers; `i` is the index of the first one. -/
def checkKeys (size : ℕ) (i : ℕ) : List PubKey → Option (AnteError ε)
  | [] => none
  -- a nil entry is legitimate: the signer's key may already be on-chain
  | .absent :: pks => checkKeys size (i + 1) pks
  | .mldsa65 key :: pks =>
      if key.length ≠ size then some (malformed size i key.length)
      else checkKeys size (i + 1) pks
  | .other _ :: pks => checkKeys size (i + 1) pks
  | .multisig _ :: pks => checkKeys size (i + 1) pks

/-- `RejectMalformedPubKeys`; `none` is a nil error. -/
def rejectMalformedPubKeys (size : ℕ) : Tx ε → Option (AnteError ε)
  -- not a signature-carrying transaction; the SDK will reject it later
  | .other => none
  | .sigVerifiable (.error err) => some (.passedOn err)
  | .sigVerifiable (.ok pks) => checkKeys size 0 pks

/-- What the handler returns, and the calls it made into the SDK's ante chain. -/
structure Outcome (Ctx : Type v) (ε : Type u) where
  ctx : Ctx
  err : Option (AnteError ε)
  sdkCalls : List (Ctx × Tx ε × Bool)

/-- The handler `setAnteHandler` installs. -/
def anteHandler {Ctx : Type v} (size : ℕ)
    (sdkAnte : Ctx → Tx ε → Bool → Ctx × Option (AnteError ε))
    (ctx : Ctx) (tx : Tx ε) (simulate : Bool) : Outcome Ctx ε :=
  match rejectMalformedPubKeys size tx with
  | some err => ⟨ctx, some err, []⟩
  | none =>
      let r := sdkAnte ctx tx simulate
      ⟨r.1, r.2, [(ctx, tx, simulate)]⟩

/-! ## What the loop decides -/

/-- The loop passes exactly when every entry that IS an ML-DSA-65 key has the right length. -/
theorem checkKeys_eq_none_iff {size i : ℕ} {pks : List PubKey} :
    checkKeys (ε := ε) size i pks = none ↔ ∀ b, .mldsa65 b ∈ pks → b.length = size := by
  induction pks generalizing i with
  | nil => simp [checkKeys]
  | cons pk pks ih =>
      cases pk with
      | absent => simp [checkKeys, ih]
      | other key => simp [checkKeys, ih]
      | multisig keys => simp [checkKeys, ih]
      | mldsa65 key =>
          by_cases hlen : key.length = size
          · simp [checkKeys, hlen, ih]
          · simp [checkKeys, hlen]

/-- An error names the first offending signer: its index, and the length of its key. -/
theorem checkKeys_eq_some {size i : ℕ} {pks : List PubKey} {err : AnteError ε}
    (herr : checkKeys size i pks = some err) :
    ∃ pre b post, pks = pre ++ .mldsa65 b :: post ∧ b.length ≠ size ∧
      (∀ b', .mldsa65 b' ∈ pre → b'.length = size) ∧
      err = malformed size (i + pre.length) b.length := by
  induction pks generalizing i with
  | nil => simp [checkKeys] at herr
  | cons pk pks ih =>
      -- an entry the loop steps over moves into the prefix
      have hskip : checkKeys size (i + 1) pks = some err →
          (∀ b', pk = .mldsa65 b' → b'.length = size) →
          ∃ pre b post, pk :: pks = pre ++ .mldsa65 b :: post ∧ b.length ≠ size ∧
            (∀ b', .mldsa65 b' ∈ pre → b'.length = size) ∧
            err = malformed size (i + pre.length) b.length := by
        intro hrest hok
        obtain ⟨pre, b, post, rfl, hb, hpre, rfl⟩ := ih hrest
        refine ⟨pk :: pre, b, post, rfl, hb, ?_, ?_⟩
        · intro b' hb'
          rcases List.mem_cons.mp hb' with h | h
          · exact hok b' h.symm
          · exact hpre b' h
        · rw [List.length_cons, Nat.add_right_comm, Nat.add_assoc]
      cases pk with
      | absent => exact hskip herr (by simp)
      | other key => exact hskip herr (by simp)
      | multisig keys => exact hskip herr (by simp)
      | mldsa65 key =>
          by_cases hlen : key.length = size
          · refine hskip (by simpa [checkKeys, hlen] using herr) ?_
            rintro b' ⟨⟩
            exact hlen
          · refine ⟨[], key, pks, rfl, hlen, by simp, ?_⟩
            have : malformed size i key.length = err := by simpa [checkKeys, hlen] using herr
            exact this.symm

/-- The SDK's chain is called, once and with the handler's own arguments, exactly when the guard
finds nothing. -/
theorem sdkCalls_eq {Ctx : Type v} {size : ℕ}
    {sdkAnte : Ctx → Tx ε → Bool → Ctx × Option (AnteError ε)} {ctx : Ctx} {tx : Tx ε}
    {simulate : Bool} :
    (anteHandler size sdkAnte ctx tx simulate).sdkCalls =
      if rejectMalformedPubKeys size tx = none then [(ctx, tx, simulate)] else [] := by
  unfold anteHandler
  cases rejectMalformedPubKeys size tx <;> simp

/-- **The first offending signer.** Either every signer that is an ML-DSA-65 key has the right length, and
the SDK's chain is called; or it is not, the context is left as it is, and the error names the first signer
that has not. -/
theorem names_first_signer {Ctx : Type v} (size : ℕ)
    (sdkAnte : Ctx → Tx ε → Bool → Ctx × Option (AnteError ε)) (ctx : Ctx) (pks : List PubKey)
    (simulate : Bool) :
    ((∀ b, .mldsa65 b ∈ pks → b.length = size) ∧
      (anteHandler size sdkAnte ctx (.sigVerifiable (.ok pks)) simulate).sdkCalls =
        [(ctx, .sigVerifiable (.ok pks), simulate)]) ∨
    ∃ pre b post, pks = pre ++ .mldsa65 b :: post ∧ b.length ≠ size ∧
      (∀ b', .mldsa65 b' ∈ pre → b'.length = size) ∧
      anteHandler size sdkAnte ctx (.sigVerifiable (.ok pks)) simulate =
        ⟨ctx, some (malformed size pre.length b.length), []⟩ := by
  cases hkeys : checkKeys (ε := ε) size 0 pks with
  | none =>
      refine .inl ⟨checkKeys_eq_none_iff.mp hkeys, ?_⟩
      rw [sdkCalls_eq, rejectMalformedPubKeys, if_pos hkeys]
  | some err =>
      obtain ⟨pre, b, post, hpks, hb, hpre, rfl⟩ := checkKeys_eq_some hkeys
      refine .inr ⟨pre, b, post, hpks, hb, hpre, ?_⟩
      rw [anteHandler, rejectMalformedPubKeys, hkeys, Nat.zero_add]

/-! ## What the guard covers -/

/-- Every ML-DSA-65 key of the transaction, at any depth, has exactly `size` bytes. -/
def WellFormed (size : ℕ) (tx : Tx ε) : Prop :=
  ∀ pk ∈ tx.pubKeys, ∀ b ∈ pk.mldsaKeys, b.length = size

/-- The guard does its job on `tx`: the SDK's chain sees it only if it is well formed, and (when
`GetPubKeys` succeeds) it is not rejected if it is. -/
def Covers {Ctx : Type v} (size : ℕ) (sdkAnte : Ctx → Tx ε → Bool → Ctx × Option (AnteError ε))
    (ctx : Ctx) (tx : Tx ε) (simulate : Bool) : Prop :=
  ((anteHandler size sdkAnte ctx tx simulate).sdkCalls ≠ [] → WellFormed size tx) ∧
    ((∀ err, tx ≠ .sigVerifiable (.error err)) → WellFormed size tx →
      (anteHandler size sdkAnte ctx tx simulate).sdkCalls = [(ctx, tx, simulate)])

/-- Well-formedness, split at the top of the trees: the signers that are ML-DSA-65 keys, and the
keys inside the multisig ones. -/
theorem wellFormed_iff {size : ℕ} {tx : Tx ε} :
    WellFormed size tx ↔
      (∀ b, .mldsa65 b ∈ tx.pubKeys → b.length = size) ∧
        ∀ ks, .multisig ks ∈ tx.pubKeys → ∀ b ∈ mldsaKeysIn ks, b.length = size := by
  constructor
  · intro hwf
    refine ⟨?_, ?_⟩
    · intro b hb
      exact hwf _ hb b (by simp [PubKey.mldsaKeys])
    · intro ks hks b hb
      exact hwf _ hks b (by simpa [PubKey.mldsaKeys] using hb)
  · rintro ⟨htop, hnested⟩ pk hpk b hb
    cases pk with
    | absent => simp [PubKey.mldsaKeys] at hb
    | other key => simp [PubKey.mldsaKeys] at hb
    | mldsa65 key =>
        obtain rfl : b = key := by simpa [PubKey.mldsaKeys] using hb
        exact htop b hpk
    | multisig ks => exact hnested ks hpk b (by simpa [PubKey.mldsaKeys] using hb)

theorem reject_eq_none_iff {size : ℕ} {tx : Tx ε} :
    rejectMalformedPubKeys size tx = none ↔
      (∀ err, tx ≠ .sigVerifiable (.error err)) ∧
        ∀ b, .mldsa65 b ∈ tx.pubKeys → b.length = size := by
  cases tx with
  | other => simp [rejectMalformedPubKeys, Tx.pubKeys]
  | sigVerifiable answer =>
      cases answer with
      | error err => simp [rejectMalformedPubKeys]
      | ok pks => simp [rejectMalformedPubKeys, Tx.pubKeys, checkKeys_eq_none_iff]

/-- **Exactly when the guard covers a transaction.** Whatever the SDK's chain is: either some signer
entry is itself an ML-DSA-65 key of the wrong length (and the transaction is rejected for it), or no
multisig signer hides one. -/
theorem guard_covers_iff {Ctx : Type v} {size : ℕ}
    {sdkAnte : Ctx → Tx ε → Bool → Ctx × Option (AnteError ε)} {ctx : Ctx} {tx : Tx ε}
    {simulate : Bool} :
    Covers size sdkAnte ctx tx simulate ↔
      (∃ b, .mldsa65 b ∈ tx.pubKeys ∧ b.length ≠ size) ∨
        ∀ ks, .multisig ks ∈ tx.pubKeys → ∀ b ∈ mldsaKeysIn ks, b.length = size := by
  unfold Covers
  rw [sdkCalls_eq]
  constructor
  · rintro ⟨hsound, -⟩
    by_cases htop : ∃ b, .mldsa65 b ∈ tx.pubKeys ∧ b.length ≠ size
    · exact Or.inl htop
    · push Not at htop
      refine Or.inr ?_
      by_cases herr : ∀ err, tx ≠ .sigVerifiable (.error err)
      · rw [if_pos (reject_eq_none_iff.mpr ⟨herr, htop⟩)] at hsound
        exact (wellFormed_iff.mp (hsound (by simp))).2
      · -- `GetPubKeys` failed: there are no keys to speak of
        push Not at herr
        obtain ⟨err, rfl⟩ := herr
        simp [Tx.pubKeys]
  · intro hcond
    refine ⟨?_, ?_⟩
    · intro hcalled
      have hnone : rejectMalformedPubKeys size tx = none := by
        by_contra hsome
        exact hcalled (if_neg hsome)
      have htop := (reject_eq_none_iff.mp hnone).2
      refine wellFormed_iff.mpr ⟨htop, ?_⟩
      rcases hcond with ⟨b, hb, hlen⟩ | hnested
      · exact absurd (htop b hb) hlen
      · exact hnested
    · intro herr hwf
      exact if_pos (reject_eq_none_iff.mpr ⟨herr, (wellFormed_iff.mp hwf).1⟩)

/-- A 1-of-1 multisig signer around an EMPTY ML-DSA-65 key. -/
def hiddenKeyTx : Tx String := .sigVerifiable (.ok [.multisig [.mldsa65 []]])

/-- **The guard is blind below the top.** The transaction carries a 0-byte ML-DSA-65 key and is
handed to the SDK's chain all the same. -/
theorem guard_misses_multisig :
    ¬ Covers 1952 (fun (ctx : Unit) (_ : Tx String) _ => (ctx, none)) () hiddenKeyTx false := by
  rintro ⟨hsound, -⟩
  have hwf := hsound (by decide)
  have hlen := hwf (.multisig [.mldsa65 []]) (by simp [hiddenKeyTx, Tx.pubKeys]) []
    (by simp [PubKey.mldsaKeys, mldsaKeysIn])
  simp at hlen

end PqcMigration.App.Ante
