/-
# PqcMigration.MigrationCost.PacketSlices — which packets `measure_delivery.py` and `measure_throughput.py`
have delivered.

Both programs measure deliveries out of one generation of packets. A delivery consumes its packets, so each
is given packets of its own: a running offset is advanced past what was handed out, and the generation must
have as many committed packets as all the deliveries together take, which is computed beforehand.

A call of `relay-recv-batch.js` is its arguments (`Args`). What becomes of it is given by `ok`: the script
ended, and its record is complete and says that the delivery went through. Where it did not, the program
stops there. The call that prepares, for the last of the packets, delivers nothing.

Submitting the generation, the accounts that sign and the rows of the CSV are left out; a row divides by the
number of packets, so a delivery of none stops the program.
-/
import Mathlib.Algebra.BigOperators.Ring.List
import Mathlib.Tactic.Ring
import PqcMigration.Lib.Tiles
import PqcMigration.MigrationCost.RelayRecvBatch

namespace PqcMigration.MigrationCost

open Lib

/-- The calls that were made, and whether the program got through. -/
structure Calls where
  made : List Args
  finished : Bool

def Calls.after (rest : Calls) (calls : List Args) : Calls := ⟨calls ++ rest.made, rest.finished⟩

/-- The packets handed out for delivery. -/
def deliveries (calls : List Args) : List Slice :=
  (calls.filter fun call => call.phase = .deliver).map fun call => (call.offset, call.count)

/-! ## `measure_delivery.py` -/

structure DeliveryArgs where
  sizes : List ℕ
  repeats : ℕ
  signer : Text
  labelPrefix : Text
  generation : Text

namespace DeliveryArgs

variable (args : DeliveryArgs)

def totalPackets : ℕ := args.sizes.sum * args.repeats

def prepareCall : Args where
  count := 1
  offset := (args.totalPackets : Int) - 1
  label := args.generation
  phase := .prepare
  signerKey := some args.signer

def deliverCall (slot size rep offset : ℕ) : Args where
  count := size
  offset := offset
  label := args.labelPrefix ++ "d".toList ++ digits size ++ "-r".toList ++ digits rep ++ "-".toList ++
    args.signer
  phase := .deliver
  pinned := some slot
  signerKey := some args.signer

/-- `for size in sizes: for rep in range(1, args.repeats + 1)` -/
def rounds : List (ℕ × ℕ) :=
  args.sizes.flatMap fun size => (List.range' 1 args.repeats).map fun rep => (size, rep)

def deliver (ok : Args → Bool) (slot : ℕ) : List (ℕ × ℕ) → ℕ → Calls
  | [], _ => ⟨[], true⟩
  | round :: rest, offset =>
      let call := args.deliverCall slot round.1 round.2 offset
      if ok call ∧ round.1 ≠ 0 then (deliver ok slot rest (offset + round.1)).after [call]
      else ⟨[call], false⟩

/-- `main`, with the number of committed packets of the generation and the slot that the preparation
chooses. -/
def run (ok : Args → Bool) (slot committed : ℕ) : Calls :=
  if committed < args.totalPackets then ⟨[], false⟩
  else if ok args.prepareCall then (args.deliver ok slot args.rounds 0).after [args.prepareCall]
  else ⟨[args.prepareCall], false⟩

end DeliveryArgs

/-! ## `measure_throughput.py` -/

structure ThroughputArgs where
  workers : List ℕ
  batch : ℕ
  repeats : ℕ
  keys : List Text
  generation : Text

/-- One measurement: the repeat, the key type and how many relayers work at once. -/
structure RelayRound where
  rep : ℕ
  keyType : Text
  nWorkers : ℕ

namespace ThroughputArgs

variable (args : ThroughputArgs)

def perKey : ℕ := args.workers.sum * args.batch * args.repeats

def total : ℕ := args.perKey * args.keys.length

def prepareCall : Args where
  count := 1
  offset := (args.total : Int) - 1
  label := args.generation
  phase := .prepare
  signerKey := some "validator".toList

/-- `offsets` and `deliver` -/
def deliverCall (slot : ℕ) (round : RelayRound) (offset i : ℕ) : Args where
  count := args.batch
  offset := ((offset + i * args.batch : ℕ) : Int)
  label := "tp-".toList ++ round.keyType ++ "-w".toList ++ digits round.nWorkers ++ "-r".toList ++
    digits round.rep ++ "-".toList ++ digits i
  phase := .deliver
  pinned := some slot
  signerKey := some ("mv-".toList ++ round.keyType ++ "-".toList ++ digits i)

/-- The repeats are the outer loop. -/
def rounds : List RelayRound :=
  (List.range' 1 args.repeats).flatMap fun rep =>
    args.keys.flatMap fun keyType => args.workers.map fun nWorkers => ⟨rep, keyType, nWorkers⟩

/-- The relayers of a round all start, so each of the calls is made. An executor without workers is refused. -/
def deliver (ok : Args → Bool) (slot : ℕ) : List RelayRound → ℕ → Calls
  | [], _ => ⟨[], true⟩
  | round :: rest, offset =>
      let calls := (List.range round.nWorkers).map (args.deliverCall slot round offset)
      if round.nWorkers * args.batch ≠ 0 ∧ calls.all ok then
        (deliver ok slot rest (offset + round.nWorkers * args.batch)).after calls
      else ⟨calls, false⟩

/-- `main`. The pools of signers are as large as the largest number of workers, which an empty list does not
have. -/
def run (ok : Args → Bool) (slot committed : ℕ) : Calls :=
  if committed < args.total then ⟨[], false⟩
  else if args.keys ≠ [] ∧ args.workers = [] then ⟨[], false⟩
  else if ok args.prepareCall then (args.deliver ok slot args.rounds 0).after [args.prepareCall]
  else ⟨[args.prepareCall], false⟩

end ThroughputArgs

/-! ## The slices -/

theorem deliveries_append (calls rest : List Args) :
    deliveries (calls ++ rest) = deliveries calls ++ deliveries rest := by
  rw [deliveries, List.filter_append, List.map_append]
  rfl

/-- What a nested loop adds up. -/
theorem sum_map_flatMap {α β : Type} (xs : List α) (f : α → List β) (g : β → ℕ) :
    ((xs.flatMap f).map g).sum = (xs.map fun x => ((f x).map g).sum).sum := by
  rw [List.map_flatMap, List.flatMap_def, List.sum_flatten, List.map_map]
  rfl

namespace DeliveryArgs

variable {args : DeliveryArgs} {ok : Args → Bool} {slot : ℕ}

/-- Each round hands out the packets from the offset on, and the next one goes on behind them. -/
theorem tiles_deliver (rounds : List (ℕ × ℕ)) (offset : ℕ)
    (h : (args.deliver ok slot rounds offset).finished = true) :
    Tiles offset (deliveries (args.deliver ok slot rounds offset).made)
      ((offset + (rounds.map Prod.fst).sum : ℕ) : Int) := by
  induction rounds generalizing offset with
  | nil => exact .nil _
  | cons round rest ih =>
      unfold deliver at h ⊢
      dsimp only at h ⊢
      split at h
      · next hok =>
          rw [if_pos hok, List.map_cons, List.sum_cons, ← Nat.add_assoc]
          exact .cons round.1 (ih (offset + round.1) h)
      · cases h

theorem sum_rounds : (args.rounds.map Prod.fst).sum = args.totalPackets := by
  have hsize : ∀ size ∈ args.sizes,
      (((List.range' 1 args.repeats).map fun rep => (size, rep)).map Prod.fst).sum = size * args.repeats := by
    intro size _
    simp [Function.comp_def, Nat.mul_comm]
  rw [rounds, sum_map_flatMap, List.map_congr_left hsize, List.sum_map_mul_right, List.map_id']
  rfl

theorem tiles_run {committed : ℕ} (h : (args.run ok slot committed).finished = true) :
    args.totalPackets ≤ committed ∧
      Tiles 0 (deliveries (args.run ok slot committed).made) args.totalPackets := by
  unfold run at h ⊢
  split at h
  · cases h
  · next hcommitted =>
      split at h
      · next hok =>
          have htiles := tiles_deliver args.rounds 0 h
          rw [if_neg hcommitted, if_pos hok]
          rw [sum_rounds, Nat.zero_add] at htiles
          exact ⟨not_lt.mp hcommitted, htiles⟩
      · cases h

end DeliveryArgs

namespace ThroughputArgs

variable {args : ThroughputArgs} {ok : Args → Bool} {slot : ℕ}

/-- The relayers of a round share the packets from the offset on. -/
theorem deliveries_round (round : RelayRound) (offset : ℕ) :
    deliveries ((List.range round.nWorkers).map (args.deliverCall slot round offset)) =
      (List.range round.nWorkers).map fun i : ℕ => ((offset : Int) + (i * args.batch : ℕ), args.batch) := by
  unfold deliveries
  rw [List.filter_eq_self.mpr, List.map_map]
  · exact List.map_congr_left fun i _ => by simp [deliverCall]
  · intro call hcall
    obtain ⟨i, -, rfl⟩ := List.mem_map.mp hcall
    rfl

theorem tiles_deliver (rounds : List RelayRound) (offset : ℕ)
    (h : (args.deliver ok slot rounds offset).finished = true) :
    Tiles offset (deliveries (args.deliver ok slot rounds offset).made)
      ((offset + (rounds.map fun round => round.nWorkers * args.batch).sum : ℕ) : Int) := by
  induction rounds generalizing offset with
  | nil => exact .nil _
  | cons round rest ih =>
      unfold deliver at h ⊢
      dsimp only at h ⊢
      split at h
      · next hok =>
          have hrest := ih (offset + round.nWorkers * args.batch) h
          rw [Int.natCast_add] at hrest
          rw [if_pos hok, List.map_cons, List.sum_cons, ← Nat.add_assoc]
          show Tiles offset (deliveries (_ ++ _)) _
          rw [deliveries_append, deliveries_round]
          exact (Tiles.replicate _ _ _).append hrest
      · cases h

theorem sum_rounds : (args.rounds.map fun round => round.nWorkers * args.batch).sum = args.total := by
  have hkey : ∀ rep, ∀ keyType ∈ args.keys,
      ((args.workers.map fun n => RelayRound.mk rep keyType n).map fun round => round.nWorkers * args.batch).sum =
        args.workers.sum * args.batch := by
    intro rep keyType _
    rw [List.map_map]
    show (args.workers.map fun n => n * args.batch).sum = _
    rw [List.sum_map_mul_right, List.map_id']
  have hrep : ∀ rep ∈ List.range' 1 args.repeats,
      ((args.keys.flatMap fun keyType => args.workers.map fun n => RelayRound.mk rep keyType n).map fun round =>
        round.nWorkers * args.batch).sum = args.keys.length * (args.workers.sum * args.batch) := by
    intro rep _
    rw [sum_map_flatMap, List.map_congr_left (hkey rep), List.map_const', List.sum_replicate_nat]
  rw [rounds, sum_map_flatMap, List.map_congr_left hrep, List.map_const', List.sum_replicate_nat,
    List.length_range', total, perKey]
  ring

theorem tiles_run {committed : ℕ} (h : (args.run ok slot committed).finished = true) :
    args.total ≤ committed ∧ Tiles 0 (deliveries (args.run ok slot committed).made) args.total := by
  unfold run at h ⊢
  split at h
  · cases h
  · next hcommitted =>
      split at h
      · cases h
      · next hpools =>
          split at h
          · next hok =>
              have htiles := tiles_deliver args.rounds 0 h
              rw [if_neg hcommitted, if_neg hpools, if_pos hok]
              rw [sum_rounds, Nat.zero_add] at htiles
              exact ⟨not_lt.mp hcommitted, htiles⟩
          · cases h

end ThroughputArgs

/-- The slices do not overlap, lie within the packets required, and cover them all. -/
structure Partition (slices : List Slice) (total : ℕ) : Prop where
  disjoint : slices.Pairwise fun s t => ∀ i, ¬ (InSlice i s ∧ InSlice i t)
  within : ∀ s ∈ slices, 0 ≤ s.1 ∧ s.1 + s.2 ≤ total
  covers : ∀ i : Int, (∃ s ∈ slices, InSlice i s) ↔ 0 ≤ i ∧ i < total

theorem partition_of_tiles {slices : List Slice} {total : ℕ} (h : Tiles 0 slices total) :
    Partition slices total :=
  ⟨h.disjoint, h.bounds.2, h.covers⟩

/-- Where no delivery stops the program, the packets it had delivered are those from the first up to the
total it computed, each of them once, and that many are committed. -/
theorem deliveries_partition :
    (∀ (args : DeliveryArgs) (ok : Args → Bool) (slot committed : ℕ),
      (args.run ok slot committed).finished = true →
        Partition (deliveries (args.run ok slot committed).made) args.totalPackets ∧
          args.totalPackets ≤ committed) ∧
    (∀ (args : ThroughputArgs) (ok : Args → Bool) (slot committed : ℕ),
      (args.run ok slot committed).finished = true →
        Partition (deliveries (args.run ok slot committed).made) args.total ∧ args.total ≤ committed) := by
  constructor
  · intro args ok slot committed h
    obtain ⟨hle, htiles⟩ := DeliveryArgs.tiles_run h
    exact ⟨partition_of_tiles htiles, hle⟩
  · intro args ok slot committed h
    obtain ⟨hle, htiles⟩ := ThroughputArgs.tiles_run h
    exact ⟨partition_of_tiles htiles, hle⟩

/-- Two sizes, two repeats; and one or two relayers with two keys. -/
theorem deliveries_partition_small :
    Partition [(0, 2), (2, 2), (4, 3), (7, 3)] 10 ∧
      Partition [(0, 5), (5, 5), (10, 5), (15, 5), (20, 5), (25, 5)] 30 :=
  ⟨(deliveries_partition.1 ⟨[2, 3], 2, "validator".toList, [], "gen".toList⟩ (fun _ => true) 7 12 (by decide)).1,
    (deliveries_partition.2 ⟨[1, 2], 5, 1, ["secp256k1".toList, "mldsa65".toList], "gen".toList⟩
      (fun _ => true) 7 30 (by decide)).1⟩

end PqcMigration.MigrationCost
