/-
# PqcMigration.LoadGen.Sampler — the block sampler of `tools/loadgen/main.go`, and which transactions are
reported as committed.

Every half second the sampler asks for the latest height and fetches the blocks it has not come to yet,
one height after the other. It moves on to the latest height WHETHER OR NOT the fetches succeeded, so
every height is asked for once, in increasing order, and a fetch that fails is not made up for
(`heights_attempts`). The hashes of a fetched block's transactions are stored with its height, unless
the hash is there already.

So no block is missed exactly when no fetch failed; and a transaction is reported at each block it is in
exactly when it is in one block only (`sampler_complete_iff`). The sampler stops between two rounds.

Decoding base64 and hashing are the libraries'; a status request that fails counts as height 0, and a
block that cannot be decoded as one that could not be fetched. Heights are positive, so `start <= 0`
never holds.
-/
import PqcMigration.Lib.Hex
import PqcMigration.Lib.Sha256
import PqcMigration.LoadGen.Pool

namespace PqcMigration.LoadGen

open Lib

/-- A block, as far as it is read. -/
structure Block where
  timeMs : Int
  /-- `Data.Txs`: base64 texts -/
  txs : List Bytes

/-- The chain: its block at each height. -/
abbrev Chain := ℕ → Block

/-- `blockObs` -/
structure BlockObs where
  height : ℕ
  timeMs : Int
  numTxs : ℕ
  deriving DecidableEq

/-- `blockSampler`, with the `lastHeight` of its loop. -/
structure Sampler where
  lastHeight : ℕ
  blocks : List BlockObs
  hashes : Bytes → Option CommitInfo

/-- One tick: the height the status request returned, and for each height whether fetching its block
succeeds, and when it is then observed. -/
structure Round where
  status : Option ℕ
  fetch : ℕ → Option Int

def Sampler.start : Sampler := ⟨0, [], fun _ => none⟩

/-- The bytes of a hexadecimal text. -/
def textBytes (cs : List Char) : Bytes := cs.map fun c => UInt8.ofNat c.toNat

section Sample

variable (b64 : Bytes → Option Bytes) (sha256 : Bytes → Bytes32) (chain : Chain)

/-- `hex.EncodeToString` of a transaction's hash. -/
def hashHex (raw : Bytes) : Bytes := textBytes (Hex.toHex (sha256 raw).val)

/-- `hashes.LoadOrStore` -/
def loadOrStore (ci : CommitInfo) (hashes : Bytes → Option CommitInfo) (key : Bytes) :
    Bytes → Option CommitInfo :=
  if (hashes key).isSome then hashes else Function.update hashes key (some ci)

/-- The hashes of a block; a text that is not base64 is passed over. -/
def Block.hashes (b : Block) : List Bytes := b.txs.filterMap fun tx => (b64 tx).map (hashHex sha256)

/-- `fetchBlock` -/
def fetchBlock (s : Sampler) (attempt : ℕ × Option Int) : Sampler :=
  match attempt.2 with
  | none => s
  | some observedAt =>
      let block := chain attempt.1
      { s with
        blocks := s.blocks ++ [⟨attempt.1, block.timeMs, block.txs.length⟩]
        hashes := (block.hashes b64 sha256).foldl (loadOrStore ⟨attempt.1, block.timeMs, observedAt⟩)
          s.hashes }

/-- What a round fetches, with what comes of it. -/
def Round.attempts (r : Round) (lastHeight : ℕ) : List (ℕ × Option Int) :=
  let cur := r.status.getD 0
  (List.range' (lastHeight + 1) (cur - lastHeight)).map fun h => (h, r.fetch h)

/-- A turn of the loop of `run`. -/
def sample (s : Sampler) (r : Round) : Sampler :=
  let cur := r.status.getD 0
  if cur ≤ s.lastHeight then s
  else { (r.attempts s.lastHeight).foldl (fetchBlock b64 sha256 chain) s with lastHeight := cur }

/-- The sampler when it stops. -/
def sampled (rounds : List Round) : Sampler := rounds.foldl (sample b64 sha256 chain) .start

end Sample

/-! ## Each height is asked for once -/

/-- The greatest height seen, from `last` on. -/
def greatest : ℕ → List Round → ℕ
  | last, [] => last
  | last, r :: rounds => greatest (max last (r.status.getD 0)) rounds

/-- Everything that was fetched or failed, in order. -/
def attempts : ℕ → List Round → List (ℕ × Option Int)
  | _, [] => []
  | last, r :: rounds => r.attempts last ++ attempts (max last (r.status.getD 0)) rounds

theorem le_greatest (last : ℕ) (rounds : List Round) : last ≤ greatest last rounds := by
  induction rounds generalizing last with
  | nil => exact Nat.le_refl _
  | cons r rounds ih => exact Nat.le_trans (Nat.le_max_left _ _) (ih _)

theorem Round.heights_attempts (r : Round) (last : ℕ) :
    (r.attempts last).map Prod.fst = List.range' (last + 1) (r.status.getD 0 - last) := by
  rw [Round.attempts, List.map_map]
  exact List.map_id _

/-- **Each height up to the greatest is asked for once, in increasing order.** -/
theorem heights_attempts (last : ℕ) (rounds : List Round) :
    (attempts last rounds).map Prod.fst = List.range' (last + 1) (greatest last rounds - last) := by
  induction rounds generalizing last with
  | nil => simp [attempts, greatest]
  | cons r rounds ih =>
      have hle := le_greatest (max last (r.status.getD 0)) rounds
      rw [attempts, greatest, List.map_append, r.heights_attempts, ih]
      generalize r.status.getD 0 = cur at hle
      have hmax : max last cur + 1 = last + 1 + (cur - last) := by omega
      rw [hmax, List.range'_append_1]
      congr 1
      omega

/-! ## What is recorded -/

section Recorded

variable {b64 : Bytes → Option Bytes} {sha256 : Bytes → Bytes32} {chain : Chain}

/-- What a fetch adds to `blocks`. -/
def observed (chain : Chain) (attempt : ℕ × Option Int) : Option BlockObs :=
  attempt.2.map fun _ => ⟨attempt.1, (chain attempt.1).timeMs, (chain attempt.1).txs.length⟩

/-- What a fetch has to say about a hash. -/
def commitIn (b64 : Bytes → Option Bytes) (sha256 : Bytes → Bytes32) (chain : Chain) (x : Bytes)
    (attempt : ℕ × Option Int) : Option CommitInfo :=
  attempt.2.bind fun observedAt =>
    if x ∈ (chain attempt.1).hashes b64 sha256 then
      some ⟨attempt.1, (chain attempt.1).timeMs, observedAt⟩
    else none

/-- A hash keeps what was stored first. -/
theorem foldl_loadOrStore (ci : CommitInfo) (keys : List Bytes) (hashes : Bytes → Option CommitInfo)
    (x : Bytes) :
    keys.foldl (loadOrStore ci) hashes x =
      (hashes x).or (if x ∈ keys then some ci else none) := by
  induction keys generalizing hashes with
  | nil => simp
  | cons key keys ih =>
      rw [List.foldl_cons, ih, loadOrStore]
      by_cases hx : x = key
      · subst hx
        cases hstored : hashes x with
        | some ci' => simp [hstored]
        | none => simp
      · simp only [List.mem_cons, hx, false_or]
        split
        · rfl
        · rw [Function.update_of_ne hx]

variable (b64 sha256 chain)

theorem fetchBlock_spec (s : Sampler) (attempt : ℕ × Option Int) :
    (fetchBlock b64 sha256 chain s attempt).lastHeight = s.lastHeight ∧
      (fetchBlock b64 sha256 chain s attempt).blocks = s.blocks ++ (observed chain attempt).toList ∧
      ∀ x, (fetchBlock b64 sha256 chain s attempt).hashes x =
        (s.hashes x).or (commitIn b64 sha256 chain x attempt) := by
  obtain ⟨h, _ | observedAt⟩ := attempt
  · exact ⟨rfl, (List.append_nil _).symm, fun x => Option.or_none.symm⟩
  · exact ⟨rfl, rfl, fun x => foldl_loadOrStore _ _ _ x⟩

theorem foldl_fetchBlock (l : List (ℕ × Option Int)) (s : Sampler) :
    (l.foldl (fetchBlock b64 sha256 chain) s).blocks = s.blocks ++ l.filterMap (observed chain) ∧
      ∀ x, (l.foldl (fetchBlock b64 sha256 chain) s).hashes x =
        (s.hashes x).or (l.findSome? (commitIn b64 sha256 chain x)) := by
  induction l generalizing s with
  | nil => exact ⟨(List.append_nil _).symm, fun x => Option.or_none.symm⟩
  | cons attempt l ih =>
      obtain ⟨-, hblocks, hhashes⟩ := fetchBlock_spec b64 sha256 chain s attempt
      obtain ⟨hblocks', hhashes'⟩ := ih (fetchBlock b64 sha256 chain s attempt)
      rw [List.foldl_cons]
      constructor
      · rw [hblocks', hblocks, List.append_assoc, List.filterMap_cons]
        cases observed chain attempt <;> rfl
      · intro x
        rw [hhashes' x, hhashes x, Option.or_assoc, List.findSome?_cons]
        cases commitIn b64 sha256 chain x attempt <;> rfl

/-- **What the sampler has**, after any rounds: the blocks that were fetched, in order, and for each hash
the first of them that has it. -/
theorem sampled_spec (rounds : List Round) (s : Sampler) :
    (rounds.foldl (sample b64 sha256 chain) s).blocks =
        s.blocks ++ (attempts s.lastHeight rounds).filterMap (observed chain) ∧
      ∀ x, (rounds.foldl (sample b64 sha256 chain) s).hashes x =
        (s.hashes x).or ((attempts s.lastHeight rounds).findSome? (commitIn b64 sha256 chain x)) := by
  induction rounds generalizing s with
  | nil => exact ⟨(List.append_nil _).symm, fun x => Option.or_none.symm⟩
  | cons r rounds ih =>
      obtain ⟨hblocks, hhashes⟩ := foldl_fetchBlock b64 sha256 chain (r.attempts s.lastHeight) s
      rw [List.foldl_cons, attempts, List.filterMap_append]
      by_cases hold : r.status.getD 0 ≤ s.lastHeight
      · have hnone : r.attempts s.lastHeight = [] := by
          rw [Round.attempts, Nat.sub_eq_zero_of_le hold]
          rfl
        have hsame : sample b64 sha256 chain s r = s := if_pos hold
        rw [hsame, hnone, Nat.max_eq_left hold]
        exact ih s
      · obtain ⟨hblocks', hhashes'⟩ := ih (sample b64 sha256 chain s r)
        have hnew : sample b64 sha256 chain s r =
            { (r.attempts s.lastHeight).foldl (fetchBlock b64 sha256 chain) s with
              lastHeight := r.status.getD 0 } := if_neg hold
        rw [hnew] at hblocks' hhashes' ⊢
        rw [Nat.max_eq_right (by omega)]
        constructor
        · rw [hblocks', hblocks, List.append_assoc]
        · intro x
          rw [hhashes' x, hhashes x, Option.or_assoc, List.findSome?_append]

end Recorded

/-! ## Hashes as the node writes them -/

theorem lowerDigit_digit {c : Char} {x : ℕ} (h : Hex.digitVal c = some x) :
    lowerDigit (UInt8.ofNat c.toNat) = UInt8.ofNat (Hex.digit x).toNat := by
  have hall : ∀ n < 103, ∀ x ∈ Hex.digitVal (Char.ofNat n),
      lowerDigit (UInt8.ofNat (Char.ofNat n).toNat) = UInt8.ofNat (Hex.digit x).toNat := by decide
  have hlt : c.toNat < 103 := by
    unfold Hex.digitVal at h
    dsimp only at h
    split_ifs at h <;> omega
  have hc := hall c.toNat hlt x
  rw [Char.ofNat_toNat] at hc
  exact hc h

theorem digitVal_lt {c : Char} {x : ℕ} (h : Hex.digitVal c = some x) : x < 16 := by
  unfold Hex.digitVal at h
  dsimp only at h
  split_ifs at h <;> (obtain rfl := Option.some.inj h; omega)

/-- In lower case, a hash is as the sampler writes it. -/
theorem normaliseHash_hexOf {cs : List Char} {bs : Bytes} (h : Hex.HexOf cs bs) :
    normaliseHash (textBytes cs) = textBytes (Hex.toHex bs) := by
  induction h with
  | nil => rfl
  | @cons a b x y cs bs ha hb _ ih =>
      have hx := digitVal_lt ha
      have hy := digitVal_lt hb
      have hbyte : (UInt8.ofNat (16 * x + y)).toNat = 16 * x + y := by
        rw [UInt8.toNat_ofNat']
        omega
      have hhex : Hex.toHex (UInt8.ofNat (16 * x + y) :: bs) = Hex.digit x :: Hex.digit y :: Hex.toHex bs := by
        rw [Hex.toHex, List.flatMap_cons, Hex.byteToHex, hbyte]
        have hdiv : (16 * x + y) / 16 = x := by omega
        have hmod : (16 * x + y) % 16 = y := by omega
        rw [hdiv, hmod]
        rfl
      rw [hhex]
      show lowerDigit (UInt8.ofNat a.toNat) :: lowerDigit (UInt8.ofNat b.toNat) ::
          normaliseHash (textBytes cs) =
        UInt8.ofNat (Hex.digit x).toNat :: UInt8.ofNat (Hex.digit y).toNat :: textBytes (Hex.toHex bs)
      rw [ih, lowerDigit_digit ha, lowerDigit_digit hb]

/-! ## Commits -/

section Commits

variable (b64 : Bytes → Option Bytes) (sha256 : Bytes → Bytes32) (chain : Chain)

/-- The blocks up to the greatest height seen are recorded, each once and in increasing order. -/
def RecordedAll (rounds : List Round) : Prop :=
  (sampled b64 sha256 chain rounds).blocks.map BlockObs.height = List.range' 1 (greatest 0 rounds)

/-- The transaction is in the block at height `h`. -/
def InBlock (h : ℕ) (raw : Bytes) : Prop := ∃ tx ∈ (chain h).txs, b64 tx = some raw

/-- A transaction that was broadcast, with the hash that came back, is reported at every block it is in.
-/
def ReportedAt (rounds : List Round) : Prop :=
  ∀ (tx : SignedTx) (raw : Bytes) (submitMs code : Int) (hash : List Char) (log : Bytes),
    b64 tx.txB64 = some raw → Hex.HexOf hash (sha256 raw).val →
      ∀ h, 1 ≤ h → h ≤ greatest 0 rounds → InBlock b64 chain h raw →
        ((broadcastOne tx submitMs (.result code (textBytes hash) log)).resolve
          (sampled b64 sha256 chain rounds).hashes).blockHeight = some (h : Int)

/-- No fetch failed. -/
def AllFetched (rounds : List Round) : Prop := ∀ attempt ∈ attempts 0 rounds, attempt.2.isSome

/-- No hash is in two of the blocks. -/
def HashesApart (rounds : List Round) : Prop :=
  ∀ h h', 1 ≤ h → h ≤ greatest 0 rounds → 1 ≤ h' → h' ≤ greatest 0 rounds →
    ∀ x ∈ (chain h).hashes b64 sha256, x ∈ (chain h').hashes b64 sha256 → h = h'

variable {b64 sha256 chain} {rounds : List Round}

theorem recordedAll_iff : RecordedAll b64 sha256 chain rounds ↔ AllFetched rounds := by
  have hblocks : (sampled b64 sha256 chain rounds).blocks =
      (attempts 0 rounds).filterMap (observed chain) :=
    (sampled_spec b64 sha256 chain rounds .start).1
  have hheights : (attempts 0 rounds).map Prod.fst = List.range' 1 (greatest 0 rounds) :=
    heights_attempts 0 rounds
  rw [RecordedAll, hblocks, ← hheights]
  constructor
  · intro h attempt hattempt
    have hlen := congrArg List.length h
    rw [List.length_map, List.length_map, List.filterMap_length_eq_length] at hlen
    have := hlen attempt hattempt
    rwa [observed, Option.isSome_map] at this
  · intro hall
    rw [List.map_filterMap]
    have hsome : ∀ attempt ∈ attempts 0 rounds,
        (observed chain attempt).map BlockObs.height = some attempt.1 := by
      intro attempt hattempt
      obtain ⟨observedAt, hobserved⟩ := Option.isSome_iff_exists.mp (hall attempt hattempt)
      rw [observed, hobserved]
      rfl
    rw [List.filterMap_congr hsome]
    exact congrFun List.filterMap_eq_map _

theorem sampled_hashes (x : Bytes) : (sampled b64 sha256 chain rounds).hashes x =
    (attempts 0 rounds).findSome? (commitIn b64 sha256 chain x) :=
  (sampled_spec b64 sha256 chain rounds .start).2 x

/-- The hash of a record is the one the node returned, in lower case. -/
theorem blockHeight_resolve {hashes : Bytes → Option CommitInfo} {tx : SignedTx} {raw : Bytes}
    {submitMs code : Int} {hash : List Char} {log : Bytes} (hhash : Hex.HexOf hash (sha256 raw).val) :
    ((broadcastOne tx submitMs (.result code (textBytes hash) log)).resolve hashes).blockHeight =
      (hashes (hashHex sha256 raw)).map CommitInfo.blockHeight := by
  have hrecord : (broadcastOne tx submitMs (.result code (textBytes hash) log)).hash =
      hashHex sha256 raw := normaliseHash_hexOf hhash
  have hne : hashHex sha256 raw ≠ [] := by
    obtain ⟨b, bs, hb⟩ := List.exists_cons_of_length_eq_add_one (sha256 raw).property
    rw [hashHex, hb]
    exact List.cons_ne_nil _ _
  have hcommit : (broadcastOne tx submitMs (.result code (textBytes hash) log)).commit hashes =
      hashes (hashHex sha256 raw) := by
    rw [SubmitRecord.commit, hrecord]
    exact if_pos ⟨rfl, hne⟩
  rw [SubmitRecord.resolve, hcommit]
  cases hashes (hashHex sha256 raw) <;> rfl

theorem mem_block_hashes {h : ℕ} {x : Bytes} :
    x ∈ (chain h).hashes b64 sha256 ↔ ∃ raw, InBlock b64 chain h raw ∧ hashHex sha256 raw = x := by
  rw [Block.hashes, List.mem_filterMap]
  constructor
  · rintro ⟨tx, htx, hx⟩
    obtain ⟨raw, hraw, rfl⟩ := Option.map_eq_some_iff.mp hx
    exact ⟨raw, ⟨tx, htx, hraw⟩, rfl⟩
  · rintro ⟨raw, ⟨tx, htx, hraw⟩, rfl⟩
    exact ⟨tx, htx, by rw [hraw]; rfl⟩

theorem mem_attempts {attempt : ℕ × Option Int} (h : attempt ∈ attempts 0 rounds) :
    1 ≤ attempt.1 ∧ attempt.1 ≤ greatest 0 rounds := by
  have hmem : attempt.1 ∈ (attempts 0 rounds).map Prod.fst := List.mem_map_of_mem h
  rw [heights_attempts, List.mem_range'_1] at hmem
  omega

/-- A hash that was found is in the block it was found at. -/
theorem mem_of_commit {x : Bytes} {ci : CommitInfo}
    (h : (sampled b64 sha256 chain rounds).hashes x = some ci) :
    ∃ height, 1 ≤ height ∧ height ≤ greatest 0 rounds ∧ x ∈ (chain height).hashes b64 sha256 ∧
      ci.blockHeight = height := by
  rw [sampled_hashes] at h
  obtain ⟨⟨height, at?⟩, hmem, hci⟩ := List.exists_of_findSome?_eq_some h
  obtain ⟨hpos, hle⟩ := mem_attempts hmem
  obtain ⟨observedAt, -, hfound⟩ := Option.bind_eq_some_iff.mp hci
  split at hfound
  · rename_i hx
    obtain rfl := Option.some.inj hfound
    exact ⟨height, hpos, hle, hx, rfl⟩
  · cases hfound

/-- With every block fetched, the hashes of every block are found. -/
theorem exists_commit (hall : AllFetched rounds) {h : ℕ} (hpos : 1 ≤ h) (hle : h ≤ greatest 0 rounds)
    {x : Bytes} (hx : x ∈ (chain h).hashes b64 sha256) :
    ∃ ci, (sampled b64 sha256 chain rounds).hashes x = some ci := by
  have hmem : h ∈ (attempts 0 rounds).map Prod.fst := by
    rw [heights_attempts, List.mem_range'_1]
    omega
  obtain ⟨⟨height, at?⟩, hattempt, rfl⟩ := List.mem_map.mp hmem
  obtain ⟨observedAt, hat⟩ := Option.isSome_iff_exists.mp (hall _ hattempt)
  rw [sampled_hashes, ← Option.isSome_iff_exists, List.findSome?_isSome_iff]
  refine ⟨_, hattempt, ?_⟩
  have hsome : commitIn b64 sha256 chain x (height, at?) =
      some ⟨height, (chain height).timeMs, observedAt⟩ := by
    rw [commitIn, hat]
    exact if_pos hx
  rw [hsome]
  rfl

end Commits

/-- **When no block is missed**: exactly when no fetch failed and no transaction hash is in two of the
blocks, every block up to the greatest height seen is recorded, once and in increasing order, and every
broadcast transaction with a known hash is reported at the block it is in. -/
theorem sampler_complete_iff (b64 : Bytes → Option Bytes) (sha256 : Bytes → Bytes32) (chain : Chain)
    (rounds : List Round) :
    (RecordedAll b64 sha256 chain rounds ∧ ReportedAt b64 sha256 chain rounds) ↔
      (AllFetched rounds ∧ HashesApart b64 sha256 chain rounds) := by
  rw [recordedAll_iff]
  refine and_congr_right fun hall => ⟨fun hreported => ?_, fun hapart => ?_⟩
  · intro h h' hpos hle hpos' hle' x hx hx'
    have hat (k : ℕ) (hkpos : 1 ≤ k) (hkle : k ≤ greatest 0 rounds)
        (hk : x ∈ (chain k).hashes b64 sha256) :
        ((sampled b64 sha256 chain rounds).hashes x).map CommitInfo.blockHeight = some (k : Int) := by
      obtain ⟨raw, ⟨tx, htx, hraw⟩, rfl⟩ := mem_block_hashes.mp hk
      have hhash := Hex.hexOf_toHex (sha256 raw).val
      have hheight := hreported ⟨0, 0, tx⟩ raw 0 0 _ [] hraw hhash k hkpos hkle ⟨tx, htx, hraw⟩
      rwa [blockHeight_resolve hhash] at hheight
    have hsame := (hat h hpos hle hx).symm.trans (hat h' hpos' hle' hx')
    exact Int.ofNat_inj.mp (Option.some.inj hsame)
  · intro tx raw submitMs code hash log _ hhash h hpos hle hin
    have hx : hashHex sha256 raw ∈ (chain h).hashes b64 sha256 := mem_block_hashes.mpr ⟨raw, hin, rfl⟩
    obtain ⟨ci, hci⟩ := exists_commit hall hpos hle hx
    obtain ⟨height, hpos', hle', hx', hheight⟩ := mem_of_commit hci
    rw [blockHeight_resolve hhash, hci, Option.map_some, hheight,
      hapart height h hpos' hle' hpos hle _ hx' hx]

/-! ## A fetch that fails -/

/-- One transaction, in the first block. -/
def firstBlockChain : Chain
  | 1 => ⟨0, [[7]]⟩
  | _ => ⟨0, []⟩

/-- The fetch of the first block fails, and from then on every request succeeds. -/
def failedFetch : List Round :=
  [⟨some 2, fun h => if h = 1 then none else some 0⟩, ⟨some 2, fun _ => some 0⟩,
    ⟨some 3, fun _ => some 0⟩]

/-- The first block is never recorded, and its transaction not reported. -/
theorem failed_fetch_missed :
    greatest 0 failedFetch = 3 ∧
      (sampled some Sha256.sha256 firstBlockChain failedFetch).blocks.map BlockObs.height = [2, 3] ∧
      InBlock some firstBlockChain 1 [7] ∧
      ∀ hash, Hex.HexOf hash (Sha256.sha256 [7]).val →
        ((broadcastOne ⟨0, 0, [7]⟩ 0 (.result 0 (textBytes hash) [])).resolve
          (sampled some Sha256.sha256 firstBlockChain failedFetch).hashes).blockHeight = none := by
  refine ⟨rfl, rfl, ⟨[7], List.mem_singleton_self _, rfl⟩, fun hash hhash => ?_⟩
  rw [blockHeight_resolve hhash]
  rfl

end PqcMigration.LoadGen
