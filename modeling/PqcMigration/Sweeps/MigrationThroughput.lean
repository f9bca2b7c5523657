/-
# PqcMigration.Sweeps.MigrationThroughput — `run_sweep.py` of the `migration_throughput` experiment.

The values of `--ns` are taken in the order given, each with its repeats. A cell whose result file exists
is passed over, whatever is in the file; three failures in a row end the run. `aggregate.py` runs after each
value and leaves these files alone.
-/
import PqcMigration.Sweeps.Ledger

namespace PqcMigration.Sweeps.MigrationThroughput

open Lib Lib.Driver

structure Args where
  ns : List ℤ
  repeats : ℤ
  cellTimeout : ℤ

def cellKey (n : ℤ) (rep : ℕ) : Text :=
  "N".toList ++ Json.intText n ++ "_rep".toList ++ Nat.toDigits 10 rep

def cellPath (n : ℤ) (rep : ℕ) : Text := jsonFile (cellKey n rep)

/-! ## `main` and `run_cell` -/

/-- The variables of the loops. -/
structure Loop where
  args : Args
  st : Ledger
  todo : Groups
  consecutiveFailures : ℕ

def start (a : Args) (st : Option Ledger) : Loop := ⟨a, st.getD .empty, groups a.ns a.repeats, 0⟩

/-- The key of the cell the loops are at. -/
def Loop.key (m : Loop) : Text :=
  match m.todo with
  | (n, rep :: _) :: _ => cellKey n rep
  | _ => []

def Loop.job (m : Loop) : Text := jsonFile m.key

/-- What `main` does with what `run_cell` returns. -/
def Loop.settle (m : Loop) (rest : Groups) (ok : Bool) (why : Text) : Act Loop Text Ledger :=
  let st := m.st.note m.key ok why
  let failures := if ok then 0 else m.consecutiveFailures + 1
  .record m.job ok st
    (if 3 ≤ failures then none
    else some { m with st := st, todo := rest, consecutiveFailures := failures })

def next (m : Loop) (late : Bool) (files : Text → Option Text) : Act Loop Text Ledger :=
  match m.todo with
  | [] => .quit
  | (_, []) :: later => .go { m with todo := later }
  | (n, _ :: reps) :: later =>
      if m.st.isDone m.key || (files m.job).isSome then .skip m.job { m with todo := (n, reps) :: later }
      else if late then .save m.st
      else
        match files m.job with
        | some _ => m.settle ((n, reps) :: later) true "already present (resume)".toList
        | none => .launch m.job m

/-- The rest of `run_cell`, when `loadgen.py` has ended. -/
def afterChild (timeout : ℤ) (key : Text) (file : Option Text) : ChildEnd → Bool × Text
  | .timedOut =>
      (false, "timed out after ".toList ++ Json.intText timeout ++ "s (see ".toList ++ logFile key ++ ")".toList)
  | .exited code =>
      if code ≠ 0 then
        (false, "loadgen exited ".toList ++ Json.intText code ++ " (see ".toList ++ logFile key ++ ")".toList)
      else
        match file with
        | none => (false, "loadgen produced no result file".toList)
        | some _ => (true, "ok".toList)

def judge (m : Loop) (_name : Text) (fin : ChildEnd) (file : Option Text) : Act Loop Text Ledger :=
  match m.todo with
  | (n, _ :: reps) :: later =>
      let (ok, why) := afterChild m.args.cellTimeout m.key file fin
      m.settle ((n, reps) :: later) ok why
  | _ => .quit

theorem next_launch (m : Loop) (late : Bool) (files : Text → Option Text) (name : Text) (m' : Loop)
    (h : next m late files = .launch name m') : name = m'.job ∧ files name = none := by
  unfold next at h
  split at h
  · cases h
  · cases h
  · split at h
    · cases h
    · split at h
      · cases h
      · split at h
        · cases h
        · next hfile =>
            obtain ⟨rfl, rfl⟩ := Act.launch.inj h
            exact ⟨rfl, hfile⟩

theorem judge_launch (m : Loop) (name : Text) (fin : ChildEnd) (file : Option Text) (name' : Text)
    (m' : Loop) : judge m name fin file ≠ .launch name' m' := by
  unfold judge
  split <;> simp [Loop.settle]

theorem read_ledger (l : Ledger) : Ledger.read l.fields = some l := Ledger.read_fields rfl rfl

/-- The orchestrator. -/
def sweep : Driver Args Loop Text Ledger Fields where
  stateFormat := stateFile Ledger.fields Ledger.read read_ledger
  resultFormat := objects
  job := Loop.job
  start := start
  next := next
  judge := judge
  next_launch := next_launch
  judge_launch := judge_launch

end PqcMigration.Sweeps.MigrationThroughput
