/-
# PqcMigration.LoadGen.Pool — `tools/loadgen/main.go`: the pool file, one broadcast, and the commit
resolution.

The pool is a file of signed transactions, one a line; it is binned by sender and every bin is sorted by
sequence. `sort.Slice` promises a sorted permutation and no more, so any such function stands for it
(`Sorter`). What comes back from the node, or does not, is a `Reply`; `broadcastOne` makes a record of
it, and after the run `resolveCommits` counts the records and looks their hashes up among those of the
sampled blocks.

Go strings are byte strings.
-/
import Mathlib.Data.List.Pairwise
import Mathlib.Data.List.Sort
import PqcMigration.Lib.Bytes
import PqcMigration.Lib.Channel

namespace PqcMigration.LoadGen

open Lib

/-- The bytes of an ASCII text. -/
def ascii (s : String) : Bytes := s.toList.map fun c => UInt8.ofNat c.toNat

/-! ## `loadPool` -/

/-- `signedTxRecord` -/
structure SignedTx where
  senderIdx : Int
  sequence : ℕ
  txB64 : Bytes
  deriving DecidableEq

/-- What the scanner makes of the file: its lines, each decoded or not, and whether it stopped at an
error. -/
structure PoolFile where
  lines : List (Option SignedTx)
  scanErr : Bool

inductive PoolError where
  | notOpened
  | decodeLine (line : ℕ)
  | senderIdx (idx : Int)
  | scan
  deriving DecidableEq

/-- `sort.Slice` by sequence. -/
structure Sorter where
  sort : List SignedTx → List SignedTx
  perm : ∀ txs, (sort txs).Perm txs
  sorted : ∀ txs, (sort txs).Pairwise fun a b => a.sequence ≤ b.sequence

/-- Order by sequence. -/
def SeqLe (a b : SignedTx) : Prop := a.sequence ≤ b.sequence

instance : DecidableRel SeqLe := fun a b => Nat.decLe a.sequence b.sequence

instance : Std.Total SeqLe := ⟨fun a b => Nat.le_total a.sequence b.sequence⟩

instance : IsTrans SignedTx SeqLe := ⟨fun _ _ _ => Nat.le_trans⟩

/-- One sort that does. -/
def insertionSorter : Sorter where
  sort := List.insertionSort SeqLe
  perm := List.perm_insertionSort SeqLe
  sorted := List.pairwise_insertionSort SeqLe

/-- The queue a record goes to, when its index is in range. -/
def senderOf (n : ℕ) (tx : SignedTx) : Option (Fin n) :=
  if h : 0 ≤ tx.senderIdx ∧ tx.senderIdx < n then some ⟨tx.senderIdx.toNat, by omega⟩ else none

/-- The loop over the lines. -/
def binLines {n : ℕ} (queues : Fin n → List SignedTx) (total : ℕ) :
    List (Option SignedTx) → Except PoolError ((Fin n → List SignedTx) × ℕ)
  | [] => .ok (queues, total)
  | none :: _ => .error (.decodeLine (total + 1))
  | some tx :: lines =>
      match senderOf n tx with
      | none => .error (.senderIdx tx.senderIdx)
      | some i => binLines (Function.update queues i (queues i ++ [tx])) (total + 1) lines

/-- `loadPool`; without a file there is an error. -/
def loadPool (sorter : Sorter) (file : Option PoolFile) (n : ℕ) :
    Except PoolError ((Fin n → List SignedTx) × ℕ) :=
  match file with
  | none => .error .notOpened
  | some file =>
      match binLines (fun _ => []) 0 file.lines with
      | .error err => .error err
      | .ok (queues, total) =>
          if file.scanErr then .error .scan else .ok (fun i => sorter.sort (queues i), total)

/-- The records of one sender. -/
abbrev ofSender (sender : Int) (txs : List SignedTx) : List SignedTx :=
  Channel.ofKey SignedTx.senderIdx sender txs

/-- What a pool is once it is loaded: every record is in the queue of its sender, and queues are
sorted. -/
structure Loaded {n : ℕ} (pool : List SignedTx) (queues : Fin n → List SignedTx) : Prop where
  perm : ∀ i, (queues i).Perm (ofSender i.val pool)
  sorted : ∀ i, (queues i).Pairwise fun a b => a.sequence ≤ b.sequence
  inRange : ∀ tx ∈ pool, ∃ i : Fin n, tx.senderIdx = i.val

theorem senderOf_eq_some {n : ℕ} {tx : SignedTx} {i : Fin n} (h : senderOf n tx = some i) :
    tx.senderIdx = i.val := by
  rw [senderOf] at h
  split at h
  · rename_i hrange
    obtain rfl := Option.some.inj h
    exact (Int.toNat_of_nonneg hrange.1).symm
  · cases h

/-- A record put into its sender's queue comes before what follows it in the file. -/
theorem update_append_ofSender {n : ℕ} {tx : SignedTx} {i : Fin n} (htx : tx.senderIdx = i.val)
    (queues : Fin n → List SignedTx) (pool : List SignedTx) (j : Fin n) :
    Function.update queues i (queues i ++ [tx]) j ++ ofSender j.val pool =
      queues j ++ ofSender j.val (tx :: pool) := by
  have hcons : ofSender j.val (tx :: pool) = ofSender j.val [tx] ++ ofSender j.val pool :=
    Channel.ofKey_append _ [tx] pool
  rw [hcons, ← List.append_assoc]
  congr 1
  by_cases hj : j = i
  · subst hj
    rw [Function.update_self, ← htx, ofSender, Channel.ofKey_singleton_self]
  · have hne : tx.senderIdx ≠ j.val := by
      rw [htx]
      exact fun heq => hj (Fin.ext (by omega))
    rw [Function.update_of_ne hj, ofSender, Channel.ofKey_singleton_of_ne hne, List.append_nil]

theorem binLines_spec {n : ℕ} {lines : List (Option SignedTx)} {queues queues' : Fin n → List SignedTx}
    {total total' : ℕ} (h : binLines queues total lines = .ok (queues', total')) :
    ∃ pool : List SignedTx, lines = pool.map some ∧ total' = total + pool.length ∧
      (∀ i, queues' i = queues i ++ ofSender i.val pool) ∧
      ∀ tx ∈ pool, ∃ i : Fin n, tx.senderIdx = i.val := by
  induction lines generalizing queues total with
  | nil =>
      obtain ⟨rfl, rfl⟩ := Prod.mk.inj (Except.ok.inj h)
      exact ⟨[], rfl, rfl, fun i => (List.append_nil _).symm, fun tx htx => absurd htx List.not_mem_nil⟩
  | cons line lines ih =>
      cases line with
      | none => cases h
      | some tx =>
          rw [binLines] at h
          cases hi : senderOf n tx with
          | none =>
              rw [hi] at h
              cases h
          | some i =>
              rw [hi] at h
              obtain ⟨pool, rfl, rfl, hqueues, hrange⟩ := ih h
              have htx := senderOf_eq_some hi
              refine ⟨tx :: pool, rfl, by rw [List.length_cons]; omega, fun j => ?_, ?_⟩
              · rw [hqueues j]
                exact update_append_ofSender htx queues pool j
              · exact List.forall_mem_cons.mpr ⟨⟨i, htx⟩, hrange⟩

/-- **A pool that loads** is every line of the file, each record in its sender's queue. -/
theorem loadPool_spec {sorter : Sorter} {file : Option PoolFile} {n : ℕ}
    {queues : Fin n → List SignedTx} {total : ℕ} (h : loadPool sorter file n = .ok (queues, total)) :
    ∃ (pool : List SignedTx) (scanErr : Bool), file = some ⟨pool.map some, scanErr⟩ ∧ total = pool.length ∧
      Loaded pool queues := by
  cases file with
  | none => cases h
  | some file =>
      rw [loadPool] at h
      cases hbin : binLines (fun _ : Fin n => []) 0 file.lines with
      | error err =>
          simp only [hbin] at h
          cases h
      | ok binned =>
          obtain ⟨binned, total'⟩ := binned
          simp only [hbin] at h
          cases herr : file.scanErr with
          | true =>
              rw [herr] at h
              cases h
          | false =>
              rw [herr] at h
              obtain ⟨rfl, rfl⟩ := Prod.mk.inj (Except.ok.inj h)
              obtain ⟨pool, hlines, htotal, hqueues, hrange⟩ := binLines_spec hbin
              refine ⟨pool, file.scanErr, by rw [← hlines], by rw [htotal, Nat.zero_add], ?_, ?_, hrange⟩
              · intro i
                rw [← List.nil_append (ofSender _ pool), ← hqueues i]
                exact sorter.perm _
              · intro i
                exact sorter.sorted _

theorem senderOf_of_eq {n : ℕ} {tx : SignedTx} {i : Fin n} (h : tx.senderIdx = i.val) :
    senderOf n tx = some i := by
  have hrange : 0 ≤ tx.senderIdx ∧ tx.senderIdx < n := by omega
  rw [senderOf, dif_pos hrange]
  exact congrArg some (Fin.ext (by simp [h]))

theorem binLines_of_inRange {n : ℕ} {pool : List SignedTx}
    (hrange : ∀ tx ∈ pool, ∃ i : Fin n, tx.senderIdx = i.val) (queues : Fin n → List SignedTx) (total : ℕ) :
    binLines queues total (pool.map some) =
      .ok (fun i => queues i ++ ofSender i.val pool, total + pool.length) := by
  induction pool generalizing queues total with
  | nil => simp [binLines, Channel.ofKey]
  | cons tx pool ih =>
      obtain ⟨⟨i, hi⟩, htail⟩ := List.forall_mem_cons.mp hrange
      rw [List.map_cons, binLines, senderOf_of_eq hi]
      dsimp only
      rw [ih htail, List.length_cons, Nat.add_right_comm, Nat.add_assoc]
      congr 2
      funext j
      exact update_append_ofSender hi queues pool j

/-- A file whose records all have a sender loads. -/
theorem loadPool_of_inRange (sorter : Sorter) {n : ℕ} {pool : List SignedTx}
    (hrange : ∀ tx ∈ pool, ∃ i : Fin n, tx.senderIdx = i.val) :
    loadPool sorter (some ⟨pool.map some, false⟩) n =
      .ok (fun i => sorter.sort (ofSender i.val pool), pool.length) := by
  rw [loadPool]
  dsimp only
  rw [binLines_of_inRange hrange]
  simp

theorem Loaded.senderIdx {n : ℕ} {pool : List SignedTx} {queues : Fin n → List SignedTx}
    (h : Loaded pool queues) {i : Fin n} {tx : SignedTx} (htx : tx ∈ queues i) :
    tx.senderIdx = i.val := by
  have hmem := (h.perm i).mem_iff.mp htx
  rw [ofSender, Channel.ofKey, List.mem_filter, decide_eq_true_eq] at hmem
  exact hmem.2

/-! ## `broadcastOne` -/

/-- How a POST ends. -/
inductive Reply where
  /-- no request, or no response -/
  | requestError (err : Bytes)
  | status (code : ℕ) (body : Bytes)
  | undecodable (err : Bytes)
  | rpcError (message data : Bytes)
  | result (code : Int) (hash log : Bytes)
  deriving DecidableEq

/-- `submitRecord` -/
structure SubmitRecord where
  senderIdx : Int
  sequence : ℕ
  hash : Bytes := []
  submitMs : Int
  checkCode : Int := 0
  checkLog : Bytes := []
  commitMs : Option Int := none
  blockHeaderTimeMs : Option Int := none
  blockHeight : Option Int := none
  httpError : Bytes := []
  deriving DecidableEq

def truncate (s : Bytes) (n : ℕ) : Bytes :=
  if s.length ≤ n then s else s.take n ++ [0xe2, 0x80, 0xa6]

/-- A hexadecimal digit in lower case. -/
def lowerDigit (c : UInt8) : UInt8 := if 65 ≤ c ∧ c ≤ 70 then c + 32 else c

def normaliseHash (h : Bytes) : Bytes := h.map lowerDigit

/-- `broadcastOne`, by what came of the POST. -/
def broadcastOne (tx : SignedTx) (submitMs : Int) (reply : Reply) : SubmitRecord :=
  let record : SubmitRecord :=
    { senderIdx := tx.senderIdx, sequence := tx.sequence, submitMs := submitMs }
  match reply with
  | .requestError err => { record with httpError := err }
  | .status code body =>
      { record with
        httpError := ascii "http " ++ (Nat.toDigits 10 code).map (fun c => UInt8.ofNat c.toNat) ++
          ascii ": " ++ truncate body 200 }
  | .undecodable err => { record with httpError := ascii "decode rpc: " ++ err }
  | .rpcError message data =>
      { record with httpError := ascii "rpc error: " ++ message ++ ascii " " ++ data }
  | .result code hash log =>
      { record with checkCode := code, checkLog := truncate log 200, hash := normaliseHash hash }

/-! ## The commit resolution -/

/-- `commitInfo` -/
structure CommitInfo where
  blockHeight : Int
  blockTimeMs : Int
  observedAtMs : Int
  deriving DecidableEq

/-- The counters of the loop over the records. -/
structure Counters where
  committed : ℕ
  checkOK : ℕ
  checkFail : ℕ
  httpErrors : ℕ
  deriving DecidableEq

/-- `bs.hashes.Load(r.Hash)`, of a record that has a hash and no HTTP error. -/
def SubmitRecord.commit (hashes : Bytes → Option CommitInfo) (r : SubmitRecord) : Option CommitInfo :=
  if r.httpError = [] ∧ r.hash ≠ [] then hashes r.hash else none

def SubmitRecord.resolve (hashes : Bytes → Option CommitInfo) (r : SubmitRecord) : SubmitRecord :=
  match r.commit hashes with
  | some ci =>
      { r with
        blockHeight := some ci.blockHeight
        commitMs := some ci.observedAtMs
        blockHeaderTimeMs := some ci.blockTimeMs }
  | none => r

/-- What one turn of the loop counts. -/
def Counters.count (hashes : Bytes → Option CommitInfo) (c : Counters) (r : SubmitRecord) : Counters :=
  if r.httpError ≠ [] then { c with httpErrors := c.httpErrors + 1 }
  else
    let c := if r.checkCode = 0 then { c with checkOK := c.checkOK + 1 }
      else { c with checkFail := c.checkFail + 1 }
    if (r.commit hashes).isSome then { c with committed := c.committed + 1 } else c

def resolveCommits (hashes : Bytes → Option CommitInfo) (records : List SubmitRecord) :
    Counters × List SubmitRecord :=
  (records.foldl (Counters.count hashes) ⟨0, 0, 0, 0⟩, records.map (SubmitRecord.resolve hashes))

/-- Every record is counted once, and only one without an HTTP error can be committed. -/
theorem resolveCommits_counts (hashes : Bytes → Option CommitInfo) (records : List SubmitRecord) :
    (resolveCommits hashes records).1.checkOK + (resolveCommits hashes records).1.checkFail +
        (resolveCommits hashes records).1.httpErrors = records.length ∧
      (resolveCommits hashes records).1.committed ≤
        (resolveCommits hashes records).1.checkOK + (resolveCommits hashes records).1.checkFail := by
  -- the same from any counters on, by how much they grow
  have hgrow : ∀ c : Counters,
      (records.foldl (Counters.count hashes) c).checkOK + (records.foldl (Counters.count hashes) c).checkFail +
          (records.foldl (Counters.count hashes) c).httpErrors =
        c.checkOK + c.checkFail + c.httpErrors + records.length ∧
      (records.foldl (Counters.count hashes) c).committed + (c.checkOK + c.checkFail) ≤
        c.committed + ((records.foldl (Counters.count hashes) c).checkOK +
          (records.foldl (Counters.count hashes) c).checkFail) := by
    induction records with
    | nil =>
        intro c
        exact ⟨rfl, Nat.le_refl _⟩
    | cons r records ih =>
        intro c
        obtain ⟨hsum, hle⟩ := ih (c.count hashes r)
        have hone : (c.count hashes r).checkOK + (c.count hashes r).checkFail +
              (c.count hashes r).httpErrors = c.checkOK + c.checkFail + c.httpErrors + 1 ∧
            (c.count hashes r).committed + (c.checkOK + c.checkFail) ≤
              c.committed + ((c.count hashes r).checkOK + (c.count hashes r).checkFail) := by
          unfold Counters.count
          split_ifs <;> dsimp only <;> omega
        rw [List.foldl_cons, List.length_cons]
        omega
  obtain ⟨hsum, hle⟩ := hgrow ⟨0, 0, 0, 0⟩
  refine ⟨by rw [resolveCommits, hsum]; simp, ?_⟩
  simpa [resolveCommits] using hle

end PqcMigration.LoadGen
