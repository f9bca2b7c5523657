/-
# PqcMigration.Sweeps.BatchScaling — `run_sweep.py` of the `batch_scaling` experiment.

Group sizes are attempted in ascending order, and a size with a failing repeat is the last. Two loops, the
sizes and their repeats, are one list of groups in the memory of the driver; a decision point is where the
script is about to look at the next repeat, or has come to the end of a size. The `--pool-size`,
`--relay-pool-size` and `--chunk-size` options only go into the command of `loadgen.py`, and the budget is
an answer given at each cell. `check_setup` comes before the state is read and leaves the disk alone.
-/
import Mathlib.Data.List.Dedup
import Mathlib.Data.List.Sort
import PqcMigration.Sweeps.Ledger

namespace PqcMigration.Sweeps.BatchScaling

open Lib Lib.Driver

/-! ## The state file -/

structure State extends Ledger where
  stoppedAfter : Option ℤ

/-- `load_state` without a file. -/
def State.empty : State := ⟨.empty, none⟩

def State.fields (st : State) : Fields :=
  st.toLedger.fields ++ [("stopped_after".toList, st.stoppedAfter.elim Json.null Json.int)]

/-- `null` or a number. -/
def readStopped : Json → Option (Option ℤ)
  | .scalar t => if t.val = "null".toList then some none else (Json.toInt (.scalar t)).map some
  | _ => none

theorem readStopped_elim (g : Option ℤ) : readStopped (g.elim Json.null Json.int) = some g := by
  cases g with
  | none => rfl
  | some z =>
      have hnull : ¬ Json.intText z = "null".toList := by
        intro h
        have hz := Json.readInt_intText z
        rw [h] at hz
        subst hz
        revert h
        decide
      show (if Json.intText z = "null".toList then _ else _) = _
      rw [if_neg hnull]
      exact congrArg (Option.map some) (Json.toInt_int z)

def State.read (fields : Fields) : Option State :=
  (Ledger.read fields).bind fun l =>
    ((Json.get fields "stopped_after".toList).bind readStopped).map fun g => ⟨l, g⟩

theorem State.read_fields (st : State) : State.read st.fields = some st := by
  have hledger : Ledger.read st.fields = some st.toLedger := Ledger.read_fields rfl rfl
  have hstopped : Json.get st.fields "stopped_after".toList =
      some (st.stoppedAfter.elim Json.null Json.int) := rfl
  rw [State.read, hledger, hstopped, Option.bind_some, Option.bind_some, readStopped_elim, Option.map_some]

/-! ## Cells -/

/-- The options that are the same over a series of invocations. -/
structure Plan where
  groupSizes : List ℤ
  repeats : ℤ
  ackPoolSize : ℤ

structure Args where
  plan : Plan
  cellTimeout : ℤ

/-- `sorted(set(args.group_sizes))` -/
def Plan.sizes (p : Plan) : List ℤ := p.groupSizes.dedup.insertionSort fun a b => a ≤ b

/-- The name of the result file without its suffix. -/
def cellKey (g : ℤ) (rep : ℕ) (ackPoolSize : ℤ) : Text :=
  "G".toList ++ Json.intText g ++ "_rep".toList ++ Nat.toDigits 10 rep ++
    if ackPoolSize ≠ 1 then "_ack".toList ++ Json.intText ackPoolSize else []

def cellPath (g : ℤ) (rep : ℕ) (ackPoolSize : ℤ) : Text := jsonFile (cellKey g rep ackPoolSize)

/-- `Path.stem`: what is before the last dot, unless that is the first or the last character. -/
def stem (name : Text) : Text :=
  let ext := name.reverse.takeWhile (· ≠ '.')
  let base := (name.reverse.dropWhile (· ≠ '.')).tail
  if ext = [] ∨ base = [] then name else base.reverse

theorem stem_jsonFile {key : Text} (hkey : key ≠ []) : stem (jsonFile key) = key := by
  have hrev : (jsonFile key).reverse = 'n' :: 'o' :: 's' :: 'j' :: '.' :: key.reverse := by
    rw [jsonFile, List.reverse_append]
    rfl
  rw [stem, hrev]
  show (if ['n', 'o', 's', 'j'] = [] ∨ key.reverse = [] then _ else key.reverse.reverse) = key
  rw [if_neg (by simpa using hkey), List.reverse_reverse]

theorem stem_cellPath (g : ℤ) (rep : ℕ) (ackPoolSize : ℤ) :
    stem (cellPath g rep ackPoolSize) = cellKey g rep ackPoolSize :=
  stem_jsonFile (by simp [cellKey])

/-! ## `run_cell` -/

/-- `data.get("status") == "ok"` -/
def isOk (data : Fields) : Bool :=
  match Json.get data "status".toList with
  | some (.str s) => s = "ok".toList
  | _ => false

/-- `data.get(key, default)`, for a field that is a text, as the two are that `loadgen.py` writes. -/
def textField (data : Fields) (key default : Text) : Text :=
  ((Json.get data key).bind Json.toText).getD default

/-- What `run_cell` returns, `none` for an exception; here, where the file was there. -/
def present (t : Text) : Option (Bool × Text) :=
  (objects.loads t).map fun data => (isOk data, "already present (resume)".toList)

def timedOutText (timeout : ℤ) (key : Text) : Text :=
  "loadgen.py itself timed out after ".toList ++ Json.intText timeout ++ "s (see ".toList ++ logFile key ++
    ") — its own progress checkpoint is intact; re-running this run (or ".toList ++
    "loadgen.py directly with the same --out) resumes rather than restarting".toList

def noResultText (code : ℤ) (key : Text) : Text :=
  "loadgen.py exited ".toList ++ Json.intText code ++ " with no result file (see ".toList ++ logFile key ++
    ")".toList

def failureText (data : Fields) : Text :=
  textField data "failure_kind".toList "unknown".toList ++ ": ".toList ++
    (textField data "failure_message".toList []).take 200

/-- The rest of `run_cell`, when `loadgen.py` has ended. -/
def afterChild (timeout : ℤ) (name : Text) (file : Option Text) : ChildEnd → Option (Bool × Text)
  | .timedOut => some (false, timedOutText timeout (stem name))
  | .exited code =>
      match file with
      | none => some (false, noResultText code (stem name))
      | some t =>
          (objects.loads t).map fun data => if isOk data then (true, "ok".toList) else (false, failureText data)

/-! ## `main` -/

/-- The variables of the loops. -/
structure Loop where
  args : Args
  st : State
  todo : Groups
  /-- `cell_failed_at_this_size` -/
  failedHere : Bool

def start (a : Args) (st : Option State) : Loop :=
  ⟨a, st.getD .empty, groups a.plan.sizes a.plan.repeats, false⟩

/-- The cell the loops are at. -/
def Loop.job (m : Loop) : Text :=
  match m.todo with
  | (g, rep :: _) :: _ => cellPath g rep m.args.plan.ackPoolSize
  | _ => []

/-- What follows `run_cell`. -/
def Loop.settle (m : Loop) (rest : Groups) (name : Text) : Option (Bool × Text) → Act Loop Text State
  | none => .raised name
  | some (ok, why) =>
      let st : State := { m.st with toLedger := m.st.toLedger.note (stem name) ok why }
      .record name ok st (some { m with st := st, todo := rest, failedHere := m.failedHere || !ok })

def next (m : Loop) (late : Bool) (files : Text → Option Text) : Act Loop Text State :=
  match m.todo with
  | [] => .quit
  | (g, []) :: later =>
      if m.failedHere then .save { m.st with stoppedAfter := some g }
      else .go { m with todo := later }
  | (g, _ :: reps) :: later =>
      if m.st.isDone (stem m.job) then .skip m.job { m with todo := (g, reps) :: later }
      else if late then .save m.st
      else
        match files m.job with
        | none => .launch m.job m
        | some t => m.settle ((g, reps) :: later) m.job (present t)

def judge (m : Loop) (name : Text) (fin : ChildEnd) (file : Option Text) : Act Loop Text State :=
  match m.todo with
  | (g, _ :: reps) :: later =>
      m.settle ((g, reps) :: later) name (afterChild m.args.cellTimeout name file fin)
  | _ => .quit

theorem settle_ne_launch {m : Loop} {rest : Groups} {name name' : Text} {r : Option (Bool × Text)}
    {m' : Loop} : m.settle rest name r ≠ .launch name' m' := by
  cases r <;> simp [Loop.settle]

theorem next_launch (m : Loop) (late : Bool) (files : Text → Option Text) (name : Text) (m' : Loop)
    (h : next m late files = .launch name m') : name = m'.job ∧ files name = none := by
  unfold next at h
  split at h
  · cases h
  · split at h <;> cases h
  · split at h
    · cases h
    · split at h
      · cases h
      · split at h
        · next hfile =>
            obtain ⟨rfl, rfl⟩ := Act.launch.inj h
            exact ⟨rfl, hfile⟩
        · exact absurd h settle_ne_launch

theorem judge_launch (m : Loop) (name : Text) (fin : ChildEnd) (file : Option Text) (name' : Text)
    (m' : Loop) : judge m name fin file ≠ .launch name' m' := by
  unfold judge
  split
  · exact settle_ne_launch
  · simp

/-- The orchestrator. -/
def sweep : Driver Args Loop Text State Fields where
  stateFormat := stateFile State.fields State.read State.read_fields
  resultFormat := objects
  job := Loop.job
  start := start
  next := next
  judge := judge
  next_launch := next_launch
  judge_launch := judge_launch

end PqcMigration.Sweeps.BatchScaling
