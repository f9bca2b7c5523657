/-
# PqcMigration.Sweeps.Ledger — what the two `run_sweep.py` have in common.

`experiments/batch_scaling/run_sweep.py` and `experiments/migration_throughput/run_sweep.py` go over
groups of repeats, run `loadgen.py` for each cell, and keep in `sweep_state.json` which cells are done and
which have failed. A result file is a dictionary that `loadgen.py` writes; its fields are arbitrary here.
Every file is written by `write_text(json.dumps(…, indent=2))`.
-/
import PqcMigration.Lib.Driver
import PqcMigration.Lib.Json

namespace PqcMigration.Sweeps

open Lib

abbrev Text := List Char

/-! ## Documents -/

/-- A dictionary. -/
abbrev Fields := List (Text × Json)

def asObject : Json → Option Fields
  | .obj fields => some fields
  | _ => none

theorem loads_dumps_obj (fields : Fields) :
    (Json.loads (Json.dumps (.obj fields))).bind asObject = some fields := by
  rw [Json.loads_dumps]
  rfl

theorem loads_take_obj (fields : Fields) (n : ℕ) (hn : n < (Json.dumps (.obj fields)).length) :
    (Json.loads ((Json.dumps (.obj fields)).take n)).bind asObject = none := by
  rw [Json.loads_take hn]
  rfl

/-- A result file. -/
def objects : Format Fields where
  dumps fields := Json.dumps (.obj fields)
  loads t := (Json.loads t).bind asObject
  loads_dumps := loads_dumps_obj
  loads_take := loads_take_obj

section States

variable {S : Type} (fields : S → Fields) (read : Fields → Option S)

theorem read_loads_dumps (h : ∀ s, read (fields s) = some s) (s : S) :
    (objects.loads (objects.dumps (fields s))).bind read = some s := by
  rw [objects.loads_dumps]
  exact h s

theorem read_loads_take (s : S) (n : ℕ) (hn : n < (objects.dumps (fields s)).length) :
    (objects.loads ((objects.dumps (fields s)).take n)).bind read = none := by
  rw [objects.loads_take _ n hn]
  rfl

/-- A state that is kept as a dictionary. -/
def stateFile (h : ∀ s, read (fields s) = some s) : Format S where
  dumps s := objects.dumps (fields s)
  loads t := (objects.loads t).bind read
  loads_dumps := read_loads_dumps fields read h
  loads_take := read_loads_take fields read

end States

/-! ## The state -/

/-- An entry of `st["failed"]`. -/
structure Failure where
  cell : Text
  why : Text

/-- `st["done"]` and `st["failed"]`. -/
structure Ledger where
  done : List Text
  failed : List Failure

def Ledger.empty : Ledger := ⟨[], []⟩

/-- `key in st["done"]` -/
def Ledger.isDone (l : Ledger) (key : Text) : Bool := l.done.any fun k => k = key

theorem Ledger.isDone_iff {l : Ledger} {key : Text} : l.isDone key = true ↔ key ∈ l.done := by
  simp [Ledger.isDone]

/-- The entry for a cell. -/
def Ledger.note (l : Ledger) (key : Text) (ok : Bool) (why : Text) : Ledger :=
  if ok then { l with done := l.done ++ [key] }
  else { l with failed := l.failed ++ [⟨key, why⟩] }

theorem mem_done_note {l : Ledger} {key key' why : Text} {ok : Bool} :
    key' ∈ (l.note key ok why).done ↔ key' ∈ l.done ∨ (ok = true ∧ key' = key) := by
  cases ok <;> simp [Ledger.note]

def Failure.toJson (f : Failure) : Json :=
  .obj [("cell".toList, .str f.cell), ("why".toList, .str f.why)]

def Failure.ofJson (v : Json) : Option Failure :=
  (asObject v).bind fun fields =>
    ((Json.get fields "cell".toList).bind Json.toText).bind fun cell =>
      ((Json.get fields "why".toList).bind Json.toText).map fun why => ⟨cell, why⟩

theorem Failure.ofJson_toJson (f : Failure) : Failure.ofJson f.toJson = some f := rfl

def readItems {α : Type} (read : Json → Option α) : Json → Option (List α)
  | .arr items => items.mapM read
  | _ => none

theorem readItems_map {α : Type} {read : Json → Option α} (write : α → Json)
    (h : ∀ a, read (write a) = some a) (l : List α) :
    readItems read (.arr (l.map write)) = some l := by
  show (l.map write).mapM read = some l
  induction l with
  | nil => rfl
  | cons a l ih => simp [List.mapM_cons, h, ih]

def Ledger.fields (l : Ledger) : Fields :=
  [("done".toList, .arr (l.done.map .str)), ("failed".toList, .arr (l.failed.map Failure.toJson))]

def Ledger.read (fields : Fields) : Option Ledger :=
  ((Json.get fields "done".toList).bind (readItems Json.toText)).bind fun done =>
    ((Json.get fields "failed".toList).bind (readItems Failure.ofJson)).map fun failed => ⟨done, failed⟩

/-- The two lists are read back, whatever stands after them. -/
theorem Ledger.read_fields {l : Ledger} {fields : Fields}
    (hdone : Json.get fields "done".toList = some (.arr (l.done.map .str)))
    (hfailed : Json.get fields "failed".toList = some (.arr (l.failed.map Failure.toJson))) :
    Ledger.read fields = some l := by
  have htexts : readItems Json.toText (.arr (l.done.map .str)) = some l.done :=
    readItems_map .str (fun _ => rfl) l.done
  have hfailures : readItems Failure.ofJson (.arr (l.failed.map Failure.toJson)) = some l.failed :=
    readItems_map _ Failure.ofJson_toJson l.failed
  rw [Ledger.read, hdone, hfailed, Option.bind_some, htexts, Option.bind_some, Option.bind_some, hfailures,
    Option.map_some]

/-! ## Cells -/

/-- Each value with the repeats that are still to come. -/
abbrev Groups := List (ℤ × List ℕ)

/-- `for v in values: for rep in range(repeats)` -/
def groups (values : List ℤ) (repeats : ℤ) : Groups :=
  values.map fun v => (v, List.range repeats.toNat)

def jsonFile (key : Text) : Text := key ++ ".json".toList

def logFile (key : Text) : Text := key ++ ".log".toList

/-! ## The cells that are listed as done -/

section Done

open Driver

variable {A M S : Type} (dr : Driver A M Text S Fields) (done : S → List Text) (st : M → S)
  (good : Fields → Prop)

/-- The cell has a document, and a good one. -/
def HasGood (w : World M Text S Fields) (key : Text) : Prop :=
  ∃ data, dr.HasResult (jsonFile key) data w ∧ good data

/-- So has every cell that is listed, on disk or in memory. -/
def AllGood : World M Text S Fields → Prop :=
  dr.Kept (fun w x => ∀ key ∈ x.elim [] done, HasGood dr good w key)
    fun w m => ∀ key ∈ done (st m), HasGood dr good w key

/-- What a decision leaves in memory, and what it saves, lists no other cells than before and good ones. -/
structure Lists (w : World M Text S Fields) (m : M) (a : Act M Text S) : Prop where
  memory : ∀ m', a.memory? = some m' → ∀ key ∈ done (st m'), key ∈ done (st m) ∨ HasGood dr good w key
  saved : ∀ s, a.saved? = some s → ∀ key ∈ done s, key ∈ done (st m) ∨ HasGood dr good w key

variable {dr done st good}

/-- It leaves and saves the list `keys`, if anything. -/
theorem Lists.of_eq {w : World M Text S Fields} {m : M} {a : Act M Text S} (keys : List Text)
    (hkeys : ∀ key ∈ keys, key ∈ done (st m) ∨ HasGood dr good w key)
    (hmemory : a.memory?.elim keys (done ∘ st) = keys) (hsaved : a.saved?.elim keys done = keys) :
    Lists dr done st good w m a where
  memory m' hm' key hkey := by
    rw [hm'] at hmemory
    exact hkeys key (hmemory ▸ hkey)
  saved s hs key hkey := by
    rw [hs] at hsaved
    exact hkeys key (hsaved ▸ hkey)

theorem AllGood.step {w w' : World M Text S Fields} {e : Event A Fields} (hw : dr.Inv w)
    (h : AllGood dr done st good w) (hstep : dr.step w e = some w')
    (hstart : ∀ a x, done (st (dr.start a x)) = x.elim [] done)
    (hact : ∀ a m, w.phase.memory? = some m → dr.act w e = some a → Lists dr done st good w m a) :
    AllGood dr done st good w' := by
  have hgood : ∀ keys : List Text, (∀ key ∈ keys, HasGood dr good w key) →
      ∀ key ∈ keys, HasGood dr good w' key := by
    intro keys hkeys key hkey
    obtain ⟨data, hdata, hok⟩ := hkeys key hkey
    exact ⟨data, hdata.step hw hstep, hok⟩
  refine Kept.step h hstep (fun x => hgood _) (fun m => hgood _) ?_ ?_
  · intro a x _ hx
    rw [hstart]
    exact hx
  · intro a m hdecided hm hkeys
    have hlists := hact a m hm hdecided
    exact ⟨fun m' hm' key hkey => (hlists.memory m' hm' key hkey).elim (hkeys key) id,
      fun s hs key hkey => (hlists.saved s hs key hkey).elim (hkeys key) id⟩

/-- If every decision lists so, all listed cells have good documents after any run. -/
theorem allGood_of_run {w : World M Text S Fields} {es : List (Event A Fields)}
    (hrun : run dr.step .fresh es = some w) (hstart : ∀ a x, done (st (dr.start a x)) = x.elim [] done)
    (hact : ∀ u e a m, dr.Inv u → u.phase.memory? = some m → dr.act u e = some a →
      Lists dr done st good u m a) : AllGood dr done st good w := by
  have hfresh : AllGood dr done st good (.fresh : World M Text S Fields) := by
    refine ⟨fun x hx key hkey => ?_, fun m hm => (nomatch hm), fun _ _ _ h => (nomatch h)⟩
    obtain rfl := Option.some.inj hx
    cases hkey
  exact Inv.run (fun u e _ hu hk h => hk.step hu h hstart fun a m => hact u e a m hu) inv_fresh hfresh hrun

end Done

end PqcMigration.Sweeps
