/-
# PqcMigration.Throughput.Packet — one transfer, as `migration_throughput/loadgen.py` keeps it.

The statuses are those of the other load generator.
-/
import Mathlib.Data.Rat.Defs
import PqcMigration.BatchScaling.Packet

namespace PqcMigration.Throughput

open BatchScaling (Status Text Time Tracked)

structure Packet where
  seq : ℕ
  amount : ℕ
  submitTs : Time := 0
  commitTs : Time := 0
  creditTs : Time := 0
  ackTs : Time := 0
  windowId : Int := -1
  txHash : Text := []
  status : Status := .pending
  error : Text := []
  recvGas : ℕ := 0
  recvBytes : ℕ := 0
  proveSeconds : ℚ := 0
  ackGas : ℕ := 0
  updateClientGas : ℕ := 0
  deriving DecidableEq

instance : Tracked Packet where
  status p := p.status
  setStatus s p := { p with status := s }
  setCommitTs now p := { p with commitTs := now }
  setError e p := { p with error := e }
  status_setStatus _ _ := rfl
  status_setError _ _ := rfl

end PqcMigration.Throughput
