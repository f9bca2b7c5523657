/-
# PqcMigration.BatchScaling.Packet — one transfer of a group, as `loadgen.py` keeps it.
-/
import Mathlib.Tactic.Common

namespace PqcMigration.BatchScaling

abbrev Text := List Char

/-- A reading of `time.time()`; `0` is the default of a field that has not been set. -/
abbrev Time := ℕ

/-- `str(n)` -/
def digits (n : ℕ) : Text := Nat.toDigits 10 n

/-- `str.upper` and `toUpperCase`, for the letters a hash has. -/
def upper (t : Text) : Text := t.map Char.toUpper

inductive Status where
  | pending
  | submitted
  | committed
  | credited
  | acked
  | failed
  deriving DecidableEq

structure Packet where
  seq : ℕ
  amount : ℕ
  chainSeq : Text := []
  submitTs : Time := 0
  commitTs : Time := 0
  creditedTs : Time := 0
  ackTs : Time := 0
  windowId : Int := -1
  txHash : Text := []
  status : Status := .pending
  error : Text := []
  ackGas : ℕ := 0
  updateClientGasReturnLeg : ℕ := 0
  deriving DecidableEq

/-- What `await_commits` and the counters of a load generator read and write of its packets. -/
class Tracked (P : Type) where
  status : P → Status
  setStatus : Status → P → P
  setCommitTs : Time → P → P
  setError : Text → P → P
  status_setStatus (s : Status) (p : P) : status (setStatus s p) = s
  status_setError (e : Text) (p : P) : status (setError e p) = status p

instance : Tracked Packet where
  status p := p.status
  setStatus s p := { p with status := s }
  setCommitTs now p := { p with commitTs := now }
  setError e p := { p with error := e }
  status_setStatus _ _ := rfl
  status_setError _ _ := rfl

variable {P : Type} [Tracked P]

def statuses (packets : List P) : List Status := packets.map Tracked.status

def countStatus (packets : List P) (which : List Status) : ℕ :=
  packets.countP fun p => Tracked.status p ∈ which

theorem getElem?_statuses {packets : List P} {i : ℕ} {s : Status} :
    (statuses packets)[i]? = some s ↔ ∃ p, packets[i]? = some p ∧ Tracked.status p = s := by
  rw [statuses, List.getElem?_map, Option.map_eq_some_iff]

theorem countStatus_eq (packets : List P) (which : List Status) :
    countStatus packets which = (statuses packets).countP fun s => s ∈ which := by
  rw [statuses, List.countP_map]
  rfl

end PqcMigration.BatchScaling
