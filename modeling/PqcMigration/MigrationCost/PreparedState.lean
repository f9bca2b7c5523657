/-
# PqcMigration.MigrationCost.PreparedState — `measure_delivery.py` and `measure_throughput.py`: one
consensus state for many deliveries.

Both programs submit the packets of all their deliveries at once, wait for finality and update the
client once, and then deliver batch after batch against the slot that came out of it. The one wait is
`relay-recv-batch.js --phase=prepare` on the packet at offset `total - 1`, "the LAST packet". The
deliveries name the slot in `--use-slot`, and of a named slot only that the client holds it is checked.

A `Measurement` is what such a program asks of `relay-recv-batch.js`, with the fact that its deliveries
cover the first `total` packets one after another. The last packet in the file need not be the last
that was sent: the accounts that submit share no order. `prepared_covers_iff` says what follows.
-/
import PqcMigration.Lib.Script
import PqcMigration.MigrationCost.RelayRecvBatch

namespace PqcMigration.MigrationCost

/-! ## Deliveries one after another -/

/-- The deliveries take the packets from `start` to `stop`, each from where the one before it ended. -/
def Tiles : ℕ → List Args → ℕ → Prop
  | start, [], stop => start = stop
  | start, args :: rest, stop => args.offset = start ∧ Tiles (start + args.count) rest stop

section Tiles

variable {start mid stop : ℕ} {jobs jobs' : List Args}

theorem Tiles.append (h : Tiles start jobs mid) (h' : Tiles mid jobs' stop) :
    Tiles start (jobs ++ jobs') stop := by
  induction jobs generalizing start with
  | nil =>
      obtain rfl : start = mid := h
      exact h'
  | cons args rest ih => exact ⟨h.1, ih h.2⟩

theorem Tiles.le (h : Tiles start jobs stop) : start ≤ stop := by
  induction jobs generalizing start with
  | nil => exact Nat.le_of_eq h
  | cons args rest ih => exact (Nat.le_add_right _ _).trans (ih h.2)

theorem Tiles.bounds (h : Tiles start jobs stop) {args : Args} (hargs : args ∈ jobs) :
    (start : Int) ≤ args.offset ∧ args.offset + args.count ≤ stop := by
  induction jobs generalizing start with
  | nil => exact absurd hargs List.not_mem_nil
  | cons first rest ih =>
      obtain ⟨hoffset, hrest⟩ := h
      have hle := hrest.le
      rcases List.mem_cons.mp hargs with rfl | hargs
      · omega
      · have hbounds := ih hrest hargs
        omega

/-- Each packet from `start` to `stop` is in one of the deliveries, and no other is. -/
theorem Tiles.mem_iff (h : Tiles start jobs stop) (i : ℕ) :
    (start ≤ i ∧ i < stop) ↔ ∃ args ∈ jobs, args.offset ≤ i ∧ (i : Int) < args.offset + args.count := by
  induction jobs generalizing start with
  | nil =>
      obtain rfl : start = stop := h
      simp only [List.not_mem_nil, false_and, exists_false, iff_false]
      omega
  | cons args rest ih =>
      obtain ⟨hoffset, hrest⟩ := h
      have hle := hrest.le
      rw [List.exists_mem_cons_iff, ← ih hrest, hoffset]
      omega

end Tiles

/-- What a measurement runs `relay-recv-batch.js` for. -/
structure Measurement where
  /-- the name of the generation -/
  gen : Text
  /-- `--signer-key` of the prepare step -/
  signer : Text
  total : ℕ
  /-- the deliveries, given the slot of the prepare step -/
  deliveries : ℕ → List Args
  tiles : ∀ slot, Tiles 0 (deliveries slot) total

/-- Both programs stop when the generation has too few packets. -/
def Measurement.Starts (m : Measurement) (doc : SendDoc) : Prop := m.total ≤ doc.committed.length

def Measurement.prepare (m : Measurement) : Args :=
  { count := 1, offset := (m.total : Int) - 1, label := m.gen, phase := .prepare, signerKey := m.signer }

/-! ## `measure_delivery.py` -/

section Delivery

variable (labelPrefix signer : Text)

/-- `offset += size` after each delivery. -/
def layOut (offset : ℕ) : List Args → List Args
  | [] => []
  | args :: rest => { args with offset := offset } :: layOut (offset + args.count) rest

theorem tiles_layOut (offset : ℕ) (jobs : List Args) :
    Tiles offset (layOut offset jobs) (offset + (jobs.map Args.count).sum) := by
  induction jobs generalizing offset with
  | nil => rfl
  | cons args rest ih =>
      rw [List.map_cons, List.sum_cons, ← Nat.add_assoc]
      exact ⟨rfl, ih (offset + args.count)⟩

/-- The deliveries of one size. -/
def sizeJobs (repeats slot size : ℕ) : List Args :=
  (List.range repeats).map fun rep =>
    { count := size
      label := labelPrefix ++ "d".toList ++ digits size ++ "-r".toList ++ digits (rep + 1) ++
        "-".toList ++ signer
      phase := .deliver, pinned := some slot, signerKey := some signer }

theorem sum_sizeJobs (repeats slot : ℕ) (sizes : List ℕ) :
    ((sizes.flatMap (sizeJobs labelPrefix signer repeats slot)).map Args.count).sum =
      sizes.sum * repeats := by
  induction sizes with
  | nil => simp
  | cons size sizes ih =>
      rw [List.flatMap_cons, List.map_append, List.sum_append, ih, List.sum_cons, Nat.add_mul]
      congr 1
      simp [sizeJobs, Function.comp_def, Nat.mul_comm]

def measureDelivery (gen : Text) (sizes : List ℕ) (repeats : ℕ) : Measurement where
  gen := gen
  signer := signer
  total := sizes.sum * repeats
  deliveries slot := layOut 0 (sizes.flatMap (sizeJobs labelPrefix signer repeats slot))
  tiles slot := by
    have htiles := tiles_layOut 0 (sizes.flatMap (sizeJobs labelPrefix signer repeats slot))
    rwa [sum_sizeJobs, Nat.zero_add] at htiles

end Delivery

/-! ## `measure_throughput.py` -/

section Throughput

/-- One measurement: a repeat, a key type, and how many relayers work at once. -/
structure Round where
  rep : ℕ
  keyType : Text
  workers : ℕ

/-- The deliveries of one round, from `offset` on. -/
def roundJobs (batch slot offset : ℕ) (r : Round) : List Args :=
  (List.range r.workers).map fun i =>
    { count := batch
      offset := ((offset + i * batch : ℕ) : Int)
      label := "tp-".toList ++ r.keyType ++ "-w".toList ++ digits r.workers ++ "-r".toList ++
        digits r.rep ++ "-".toList ++ digits i
      phase := .deliver, pinned := some slot
      signerKey := some ("mv-".toList ++ r.keyType ++ "-".toList ++ digits i) }

/-- `offset += n_workers * args.batch` after each round. -/
def roundsFrom (batch slot : ℕ) : ℕ → List Round → List Args
  | _, [] => []
  | offset, r :: rounds =>
      roundJobs batch slot offset r ++ roundsFrom batch slot (offset + r.workers * batch) rounds

/-- Repeats are the outer loop, then keys, then relayer counts. -/
def rounds (workers : List ℕ) (repeats : ℕ) (keys : List Text) : List Round :=
  (List.range repeats).flatMap fun rep =>
    keys.flatMap fun keyType => workers.map fun n => ⟨rep + 1, keyType, n⟩

theorem tiles_range (batch offset : ℕ) {job : ℕ → Args} (hcount : ∀ i, (job i).count = batch)
    (hoffset : ∀ i, (job i).offset = ((offset + i * batch : ℕ) : Int)) (n : ℕ) :
    Tiles offset ((List.range n).map job) (offset + n * batch) := by
  induction n with
  | zero =>
      show offset = offset + 0 * batch
      rw [Nat.zero_mul, Nat.add_zero]
  | succ n ih =>
      rw [List.range_succ, List.map_append]
      apply ih.append
      refine ⟨hoffset n, ?_⟩
      show offset + n * batch + (job n).count = offset + (n + 1) * batch
      rw [hcount, Nat.succ_mul, Nat.add_assoc]

theorem tiles_roundsFrom (batch slot offset : ℕ) (rs : List Round) :
    Tiles offset (roundsFrom batch slot offset rs) (offset + (rs.map Round.workers).sum * batch) := by
  induction rs generalizing offset with
  | nil =>
      show offset = offset + 0 * batch
      rw [Nat.zero_mul, Nat.add_zero]
  | cons r rs ih =>
      rw [List.map_cons, List.sum_cons, Nat.add_mul, ← Nat.add_assoc]
      exact (tiles_range batch offset (fun _ => rfl) (fun _ => rfl) r.workers).append (ih _)

theorem sum_rounds (workers : List ℕ) (repeats : ℕ) (keys : List Text) :
    ((rounds workers repeats keys).map Round.workers).sum = workers.sum * repeats * keys.length := by
  have hkeys : ∀ rep, ((keys.flatMap fun keyType =>
      workers.map fun n => (⟨rep, keyType, n⟩ : Round)).map Round.workers).sum =
        keys.length * workers.sum := by
    intro rep
    induction keys with
    | nil => simp
    | cons keyType keys ih =>
        rw [List.flatMap_cons, List.map_append, List.sum_append, ih, List.length_cons, Nat.succ_mul,
          Nat.add_comm]
        simp [Function.comp_def]
  induction repeats with
  | zero => simp [rounds]
  | succ repeats ih =>
      rw [rounds, List.range_succ, List.flatMap_append, List.map_append, List.sum_append]
      rw [rounds] at ih
      rw [ih, List.flatMap_singleton, hkeys]
      ring

def measureThroughput (gen : Text) (workers : List ℕ) (batch repeats : ℕ) (keys : List Text) :
    Measurement where
  gen := gen
  signer := "validator".toList
  total := workers.sum * batch * repeats * keys.length
  deliveries slot := roundsFrom batch slot 0 (rounds workers repeats keys)
  tiles slot := by
    have htiles := tiles_roundsFrom batch slot 0 (rounds workers repeats keys)
    rw [sum_rounds, Nat.zero_add] at htiles
    have htotal : workers.sum * repeats * keys.length * batch =
        workers.sum * batch * repeats * keys.length := by ring
    rwa [htotal] at htiles

end Throughput

/-! ## The batches -/

section Batches

variable {doc : SendDoc} {args : Args} {batch : List SentPacket}

theorem slice_of_nonneg {α : Type} (l : List α) {start stop : Int} (hstart : 0 ≤ start)
    (hstop : 0 ≤ stop) : slice l start stop = (l.take stop.toNat).drop start.toNat := by
  simp only [slice, if_neg (not_lt.mpr hstart), if_neg (not_lt.mpr hstop)]

theorem mem_slice {α : Type} {l : List α} {start stop : Int} (hstart : 0 ≤ start) (hstop : 0 ≤ stop)
    {a : α} : a ∈ slice l start stop ↔ ∃ i : ℕ, start ≤ i ∧ (i : Int) < stop ∧ l[i]? = some a := by
  rw [slice_of_nonneg l hstart hstop, List.mem_iff_getElem?]
  constructor
  · rintro ⟨i, hi⟩
    rw [List.getElem?_drop, List.getElem?_take] at hi
    split_ifs at hi with hlt
    exact ⟨start.toNat + i, by omega, by omega, hi⟩
  · rintro ⟨i, hge, hlt, hi⟩
    refine ⟨i - start.toNat, ?_⟩
    rw [List.getElem?_drop, List.getElem?_take, if_pos (by omega)]
    rwa [show start.toNat + (i - start.toNat) = i by omega]

theorem batchOf_eq_ok (h : batchOf args doc = .ok batch) :
    batch = slice doc.committed args.offset (args.offset + args.count) ∧ batch.length = args.count := by
  simp only [batchOf] at h
  split_ifs at h with hlen
  injection h with h
  subst h
  exact ⟨rfl, not_not.mp hlen⟩

theorem batchOf_of_le (hoffset : 0 ≤ args.offset)
    (hlen : args.offset + args.count ≤ doc.committed.length) :
    batchOf args doc = .ok (slice doc.committed args.offset (args.offset + args.count)) := by
  have hlength : (slice doc.committed args.offset (args.offset + args.count)).length = args.count := by
    rw [slice_of_nonneg _ hoffset (by omega), List.length_drop, List.length_take]
    omega
  rw [batchOf, if_neg (not_not.mpr hlength)]

/-- The deliveries hold the first `total` packets, and no others. -/
theorem Measurement.forall_delivered_iff (m : Measurement) (hstarts : m.Starts doc) (slot : ℕ)
    (P : SentPacket → Prop) :
    (∀ args ∈ m.deliveries slot, ∀ batch, batchOf args doc = .ok batch → ∀ p ∈ batch, P p) ↔
      ∀ p ∈ doc.committed.take m.total, P p := by
  have htiles := m.tiles slot
  constructor
  · intro hall p hp
    obtain ⟨i, hi⟩ := List.mem_iff_getElem?.mp hp
    rw [List.getElem?_take] at hi
    split_ifs at hi with hlt
    obtain ⟨args, hargs, hge, hlt'⟩ := (htiles.mem_iff i).mp ⟨Nat.zero_le i, hlt⟩
    obtain ⟨hoffset, hstop⟩ := htiles.bounds hargs
    have hlen : args.offset + args.count ≤ doc.committed.length :=
      hstop.trans (by exact_mod_cast hstarts)
    apply hall args hargs _ (batchOf_of_le (by omega) hlen)
    exact (mem_slice (by omega) (by omega)).mpr ⟨i, hge, hlt', hi⟩
  · intro hall args hargs batch hbatch p hp
    obtain ⟨hoffset, hstop⟩ := htiles.bounds hargs
    obtain ⟨rfl, -⟩ := batchOf_eq_ok hbatch
    obtain ⟨i, hge, hlt, hi⟩ := (mem_slice (by omega) (by omega)).mp hp
    apply hall p
    apply List.mem_iff_getElem?.mpr
    refine ⟨i, ?_⟩
    rw [List.getElem?_take, if_pos (by omega), hi]

/-- The prepare step looks at one packet, the one at offset `total - 1`. -/
theorem Measurement.batchOf_prepare (m : Measurement) (h : batchOf m.prepare doc = .ok batch) :
    ∃ last, doc.committed[m.total - 1]? = some last ∧ batch = [last] := by
  obtain ⟨hslice, hlen⟩ := batchOf_eq_ok h
  obtain ⟨last, rfl⟩ := List.length_eq_one_iff.mp hlen
  refine ⟨last, ?_, rfl⟩
  cases htotal : m.total with
  | zero =>
      -- offset −1 counts from the end, and the slice stops at 0
      have hnil : slice doc.committed ((m.total : Int) - 1) ((m.total : Int) - 1 + (1 : ℕ)) = [] := by
        simp [slice, htotal]
      rw [show m.prepare.offset = (m.total : Int) - 1 from rfl,
        show m.prepare.count = 1 from rfl, hnil] at hslice
      cases hslice
  | succ total =>
      have hmem : last ∈ slice doc.committed m.prepare.offset (m.prepare.offset + m.prepare.count) :=
        hslice ▸ List.mem_singleton_self last
      have hoffset : m.prepare.offset = total := by
        simp [Measurement.prepare, htotal]
      rw [hoffset] at hmem
      obtain ⟨i, hge, hlt, hi⟩ := (mem_slice (by omega) (by omega)).mp hmem
      have hcount : m.prepare.count = 1 := rfl
      obtain rfl : i = total := by omega
      exact hi

theorem Measurement.batchOf_prepare_of_getElem (m : Measurement) (hstarts : m.Starts doc)
    {last : SentPacket} (hpos : 0 < m.total) (hlast : doc.committed[m.total - 1]? = some last) :
    batchOf m.prepare doc = .ok [last] := by
  have hoffset : m.prepare.offset = ((m.total - 1 : ℕ) : Int) := by
    simp only [Measurement.prepare]
    omega
  have hcount : m.prepare.count = 1 := rfl
  unfold Measurement.Starts at hstarts
  have hok : batchOf m.prepare doc = .ok _ := batchOf_of_le (by omega) (by omega)
  obtain ⟨last', hlast', hbatch⟩ := m.batchOf_prepare hok
  rw [hlast] at hlast'
  injection hlast' with hlast'
  rw [hok, hbatch, hlast']

end Batches

/-! ## The state that is prepared -/

/-- What is assumed of the chain: a later slot has no earlier execution block, and a finalized header
has the block of its slot. -/
structure Services.BeaconOrdered (sv : Services) : Prop where
  monotone : Monotone sv.execBlockOf
  polled : ∀ fin ∈ sv.polls, fin.execBlock = sv.execBlockOf fin.slot

theorem waitFinality_eq_ok {polls : List Finality} {block : ℕ} {hdr : Finality}
    (h : waitFinality polls block = .ok hdr) : hdr ∈ polls ∧ block ≤ hdr.execBlock := by
  unfold waitFinality at h
  split at h
  · rename_i hdr' hfind
    injection h with h
    subst h
    exact ⟨List.mem_of_find?_eq_some hfind, by simpa using List.find?_some hfind⟩
  · cases h

theorem useSlot_prepare_ge {maxSend proofSlot slot : ℕ} {execBlockOf : ℕ → ℕ} {have_ : List ℕ}
    (h : useSlot .prepare none maxSend proofSlot execBlockOf have_ = .ok slot) : proofSlot ≤ slot := by
  simp only [useSlot] at h
  split at h
  · rename_i newest hmax
    injection h with h
    subst h
    have hmem := List.max?_mem hmax
    simpa using (List.mem_filter.mp hmem).2
  · cases h

/-- The prepare step's state covers the packet it looked at. -/
theorem Measurement.prepared_covers_last (m : Measurement) {doc : SendDoc} {sv : Services}
    (hsv : sv.BeaconOrdered) {prepared : Prepared}
    (h : relayRecvBatch sv m.prepare doc = .ok (.prepared prepared)) :
    ∃ last, doc.committed[m.total - 1]? = some last ∧
      last.blockNumber ≤ sv.execBlockOf prepared.useSlot := by
  obtain ⟨batch, hbatch, h⟩ := Lib.except_bind_eq_ok h
  obtain ⟨last, hlast, rfl⟩ := m.batchOf_prepare hbatch
  obtain ⟨-, -, h⟩ := Lib.except_bind_eq_ok h
  obtain ⟨hdr, hhdr, h⟩ := Lib.except_bind_eq_ok h
  obtain ⟨slot, hslot, h⟩ := Lib.except_bind_eq_ok h
  injection h with h
  injection h with h
  obtain ⟨hpoll, hfinal⟩ := waitFinality_eq_ok hhdr
  have hge := useSlot_prepare_ge hslot
  refine ⟨last, hlast, ?_⟩
  subst h
  calc last.blockNumber = maxSendBlock [last] := (Nat.max_zero _).symm
    _ ≤ hdr.execBlock := hfinal
    _ = sv.execBlockOf hdr.slot := hsv.polled hdr hpoll
    _ ≤ sv.execBlockOf slot := hsv.monotone hge

/-- Every state the prepare step pins covers every packet that is then delivered against it. -/
def Measurement.Covers (m : Measurement) (doc : SendDoc) : Prop :=
  ∀ sv : Services, sv.BeaconOrdered → ∀ prepared : Prepared,
    relayRecvBatch sv m.prepare doc = .ok (.prepared prepared) →
    ∀ args ∈ m.deliveries prepared.useSlot, ∀ batch, batchOf args doc = .ok batch →
      ∀ p ∈ batch, p.blockNumber ≤ sv.execBlockOf prepared.useSlot

/-- No packet before the last of the first `total` was sent in a later block than the last. -/
def LastIsLatest (packets : List SentPacket) (total : ℕ) : Prop :=
  ∀ last, packets[total - 1]? = some last → ∀ p ∈ packets.take total, p.blockNumber ≤ last.blockNumber

/-- A chain that has stopped at a packet's block, finalized, with a client that is up to date. -/
def stoppedChain (last : SentPacket) : Services where
  getCommitment _ _ := last.commitment
  polls := [⟨0, last.blockNumber⟩]
  updateGas := none
  consensusStates := [0]
  execBlockOf _ := last.blockNumber
  getProof _ _ := .error []
  signerAddress _ := []
  relayerKey := []
  jsonSize _ := 0
  encodedSize _ := 0
  maxBodyBytes := 1000000
  maxTxBytes := 1048576
  sendtx _ _ := ⟨false, []⟩
  parseResult _ := none

theorem stoppedChain_beaconOrdered (last : SentPacket) : (stoppedChain last).BeaconOrdered where
  monotone := monotone_const
  polled := by
    intro fin hfin
    obtain rfl := List.mem_singleton.mp hfin
    rfl

theorem prepare_stoppedChain (m : Measurement) {doc : SendDoc} {last : SentPacket}
    (hbatch : batchOf m.prepare doc = .ok [last]) :
    ∃ prepared, relayRecvBatch (stoppedChain last) m.prepare doc = .ok (.prepared prepared) := by
  have hcommitments : checkCommitments (stoppedChain last) [last] = .ok () := by
    simp only [checkCommitments, stoppedChain, ne_eq, not_true_eq_false, if_false]
  have hfinal : waitFinality (stoppedChain last).polls (maxSendBlock [last]) =
      .ok ⟨0, last.blockNumber⟩ := by
    simp [waitFinality, stoppedChain, maxSendBlock]
  refine ⟨⟨m.gen, maxSendBlock [last], 0, 0, none, 1⟩, ?_⟩
  unfold relayRecvBatch
  rw [hbatch]
  show (checkCommitments (stoppedChain last) [last] >>= _) = _
  rw [hcommitments]
  show (waitFinality (stoppedChain last).polls (maxSendBlock [last]) >>= _) = _
  rw [hfinal]
  rfl

theorem Measurement.covers_iff (m : Measurement) {doc : SendDoc} (hstarts : m.Starts doc) :
    m.Covers doc ↔ LastIsLatest doc.committed m.total := by
  constructor
  · intro hcovers last hlast
    rcases Nat.eq_zero_or_pos m.total with hzero | hpos
    · rw [hzero, List.take_zero]
      exact fun p hp => absurd hp List.not_mem_nil
    · have hbatch := m.batchOf_prepare_of_getElem hstarts hpos hlast
      obtain ⟨prepared, hprepared⟩ := prepare_stoppedChain m hbatch
      exact (m.forall_delivered_iff hstarts prepared.useSlot _).mp
        (hcovers _ (stoppedChain_beaconOrdered last) prepared hprepared)
  · intro hlatest sv hsv prepared hprepared
    obtain ⟨last, hlast, hcovered⟩ := m.prepared_covers_last hsv hprepared
    apply (m.forall_delivered_iff hstarts prepared.useSlot
      fun p => p.blockNumber ≤ sv.execBlockOf prepared.useSlot).mpr
    exact fun p hp => (hlatest last hlast p hp).trans hcovered

/-- **The prepared state covers every delivery**, of `measure_delivery.py` and of
`measure_throughput.py`, exactly when the packet that is waited on is the latest of those that are
delivered. -/
theorem prepared_covers_iff (doc : SendDoc) :
    (∀ (labelPrefix signer gen : Text) (sizes : List ℕ) (repeats : ℕ),
      sizes.sum * repeats ≤ doc.committed.length →
      ((measureDelivery labelPrefix signer gen sizes repeats).Covers doc ↔
        LastIsLatest doc.committed (sizes.sum * repeats))) ∧
    ∀ (gen : Text) (workers : List ℕ) (batch repeats : ℕ) (keys : List Text),
      workers.sum * batch * repeats * keys.length ≤ doc.committed.length →
      ((measureThroughput gen workers batch repeats keys).Covers doc ↔
        LastIsLatest doc.committed (workers.sum * batch * repeats * keys.length)) := by
  constructor
  · intro labelPrefix signer gen sizes repeats hstarts
    exact (measureDelivery labelPrefix signer gen sizes repeats).covers_iff hstarts
  · intro gen workers batch repeats keys hstarts
    exact (measureThroughput gen workers batch repeats keys).covers_iff hstarts

theorem genClient_ne_empty : "client-0" ≠ "" := by decide

/-- Two transfers, with the blocks they were sent in. -/
def twoSent (first second : ℕ) : SendDoc :=
  ⟨"gen".toList, "client-0", [.committed (bareSent 1 first), .committed (bareSent 2 second)],
    genClient_ne_empty⟩

theorem prepared_covers_in_order :
    (measureDelivery [] "validator".toList "gen".toList [1] 2).Covers (twoSent 5 10) := by
  apply ((prepared_covers_iff (twoSent 5 10)).1 [] "validator".toList "gen".toList [1] 2
    (by decide)).mpr
  intro last hlast
  obtain rfl : bareSent 2 10 = last := Option.some.inj hlast
  decide

/-- Slot and block agree, finality has reached slot 5, and the router's storage is empty before a
packet's block. -/
def earlyChain : Services where
  getCommitment _ _ := "0xab".toList
  polls := [⟨5, 5⟩]
  updateGas := some 100
  consensusStates := [5]
  execBlockOf slot := slot
  getProof block batch := .ok ⟨[], [], batch.map fun p =>
    ⟨[], if p.blockNumber ≤ block then "0xab".toList else "0x0".toList, []⟩⟩
  signerAddress _ := []
  relayerKey := []
  jsonSize _ := 1000
  encodedSize _ := 1000
  maxBodyBytes := 1000000
  maxTxBytes := 1048576
  sendtx _ _ := ⟨false, []⟩
  parseResult _ := none

/-- The first transfer of the file was mined in block 10, the second in block 5. The wait on the second
ends at slot 5, and the one delivery of both then finds no commitment for the first. -/
theorem prepared_before_first :
    let m := measureDelivery [] "validator".toList "gen".toList [2] 1
    earlyChain.BeaconOrdered ∧ m.Starts (twoSent 10 5) ∧
      relayRecvBatch earlyChain m.prepare (twoSent 10 5) =
        .ok (.prepared ⟨"gen".toList, 5, 5, 5, some 100, 1⟩) ∧
      (∃ args ∈ m.deliveries 5, ∃ batch, batchOf args (twoSent 10 5) = .ok batch ∧
        (∃ p ∈ batch, earlyChain.execBlockOf 5 < p.blockNumber) ∧
        relayRecvBatch earlyChain args (twoSent 10 5) = .error (.notPresent 1 5)) ∧
      ¬ m.Covers (twoSent 10 5) := by
  intro m
  have hordered : earlyChain.BeaconOrdered :=
    ⟨monotone_id, fun fin hfin => by obtain rfl := List.mem_singleton.mp hfin; rfl⟩
  have hprepared : relayRecvBatch earlyChain m.prepare (twoSent 10 5) =
      .ok (.prepared ⟨"gen".toList, 5, 5, 5, some 100, 1⟩) := by rfl
  refine ⟨hordered, Nat.le_refl 2, hprepared, ?_, ?_⟩
  · refine ⟨_, List.mem_singleton_self _, [bareSent 1 10, bareSent 2 5], by rfl, ?_, by rfl⟩
    exact ⟨bareSent 1 10, by simp, by decide⟩
  · intro hcovers
    have hlate := hcovers earlyChain hordered _ hprepared _ (List.mem_singleton_self _)
      [bareSent 1 10, bareSent 2 5] (by rfl) (bareSent 1 10) (by simp)
    exact absurd hlate (by decide)

end PqcMigration.MigrationCost
