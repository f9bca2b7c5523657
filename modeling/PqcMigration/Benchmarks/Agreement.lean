/-
# PqcMigration.Benchmarks.Agreement — where the two parsers of the micro-benchmarks agree.

Both group the samples of an output by the name of the benchmark and make one result of each group: the
median of the nanoseconds, the memory figures, and what the name says. Python sorts with `sorted`, Go
exchanges places; the medians are the same. But Python takes the memory figures of the first sample of a
benchmark and Go those of the last, and names are read alike only as far as `Name.ReadAlike` goes. Besides,
Go's scanner stops at a line of 64 KiB.

`parsers_agree_iff` says of every output whether the results are the same. They are compared benchmark by
benchmark: as records without a name two differing results could still stand for each other.

Nanoseconds are exact rationals, their conversion to an integer included. An output is given by its lines.
-/
import Mathlib.Data.Rat.Lemmas
import PqcMigration.Benchmarks.Lines
import PqcMigration.Lib.ExchangeSort
import PqcMigration.Lib.Group

namespace PqcMigration.Benchmarks

open Lib

/-! ## Results -/

/-- An entry of `results.json`. -/
structure Result extends Parsed where
  nsPerOp : ℤ
  allocsPerOp : ℕ
  bytesPerOp : ℕ
  deriving DecidableEq

/-- `int(x)` and `int64(x)` -/
def truncate (x : ℚ) : ℤ := x.num.tdiv x.den

/-- The middle of a sorted list, or of its middle two. -/
def middle (data : List ℚ) : ℚ :=
  if data.length % 2 = 0 then (data.getD (data.length / 2 - 1) 0 + data.getD (data.length / 2) 0) / 2
  else data.getD (data.length / 2) 0

namespace Python

/-- The loop over the lines. -/
def parseLines (py : PyClasses) :
    List (Text × List Sample) → List Text → Except Error (List (Text × List Sample))
  | results, [] => .ok results
  | results, line :: lines =>
      match readLine py line with
      | .error e => .error e
      | .ok none => parseLines py results lines
      | .ok (some x) => parseLines py (addTo x.1 x.2 results) lines

def parseBenchmarkOutput (py : PyClasses) (lines : List Text) : Except Error (List (Text × List Sample)) :=
  parseLines py [] lines

/-- `statistics.median` -/
def median (data : List ℚ) : ℚ := middle data.mergeSort

/-- The entry of one benchmark. -/
def entry (name : Text) : List Sample → Option Result
  | [] => none
  | first :: samples =>
      some
        { parseResultName name with
          nsPerOp := truncate (median ((first :: samples).map Sample.nsPerOp))
          allocsPerOp := first.allocsPerOp
          bytesPerOp := first.bytesPerOp }

/-- `aggregate_results`; each entry with the benchmark it is of. -/
def aggregateResults (results : List (Text × List Sample)) : List (Text × Result) :=
  results.filterMap fun g => (entry g.1 g.2).map fun r => (g.1, r)

end Python

namespace Go

/-- `aggregatedResult` -/
structure Aggregated where
  samples : List ℚ
  bytesPerOp : ℕ
  allocsPerOp : ℕ

/-- The bytes of a line. -/
def lineBytes (line : Text) : ℕ := (line.map Char.utf8Size).sum

/-- Whether the line fits into the buffer of a `bufio.Scanner`. -/
def fits (line : Text) : Bool := lineBytes line < 64 * 1024

/-- One turn of the loop over the lines. -/
def record (aggregated : Text → Option Aggregated) (line : Text) : Text → Option Aggregated :=
  match readLine line with
  | none => aggregated
  | some x =>
      Function.update aggregated x.1 (some
        { samples := (aggregated x.1).elim [] Aggregated.samples ++ [x.2.nsPerOp]
          bytesPerOp := x.2.bytesPerOp
          allocsPerOp := x.2.allocsPerOp })

/-- The map when the loop has ended. -/
def aggregate (lines : List Text) : Text → Option Aggregated :=
  (lines.takeWhile fits).foldl record fun _ => none

def median (samples : List ℚ) : ℚ := if samples.length = 0 then 0 else middle (exchangeSort samples)

def result (name : Text) (agg : Aggregated) : Result :=
  { parseResultName name with
    nsPerOp := truncate (median agg.samples)
    bytesPerOp := agg.bytesPerOp
    allocsPerOp := agg.allocsPerOp }

/-- `parseBenchmarkOutput`: the results, in no order, each with the benchmark it is of. -/
def results (lines : List Text) : Set (Text × Result) :=
  { x | ∃ agg, aggregate lines x.1 = some agg ∧ x.2 = result x.1 agg }

end Go

/-- Python comes to an end, and its results are Go's. -/
def SameResults (py : PyClasses) (lines : List Text) : Prop :=
  ∃ results, Python.parseBenchmarkOutput py lines = .ok results ∧
    ∀ x, x ∈ Python.aggregateResults results ↔ x ∈ Go.results lines

/-- The same without the benchmarks the results are of, as they stand in the files. -/
def SameRecords (py : PyClasses) (lines : List Text) : Prop :=
  ∃ results, Python.parseBenchmarkOutput py lines = .ok results ∧
    ∀ r, (∃ name, (name, r) ∈ Python.aggregateResults results) ↔ ∃ name, (name, r) ∈ Go.results lines

theorem SameResults.records {py : PyClasses} {lines : List Text} (h : SameResults py lines) :
    SameRecords py lines := by
  obtain ⟨results, hparsed, hsame⟩ := h
  exact ⟨results, hparsed, fun r => exists_congr fun name => hsame (name, r)⟩

/-! ## Outputs -/

section Output

variable {py : PyClasses}

/-- What an output says of a benchmark, in order. -/
def samplesOf (name : Text) (output : List (OutputLine py)) : List Sample :=
  collect name (output.filterMap OutputLine.sample)

/-- As far as Go reads. -/
def readByGo (output : List (OutputLine py)) : List (OutputLine py) :=
  output.takeWhile fun line => Go.fits line.text

end Output

/-- The two results of a benchmark are the same: its name is read alike, the memory figures of the first
sample are those of the last, and the samples Go comes to have the median of all. -/
structure Agreeing (n : Name) (all read : List Sample) : Prop where
  name : n.ReadAlike
  bytes : all.head?.map Sample.bytesPerOp = read.getLast?.map fun x => min x.bytesPerOp (2 ^ 63 - 1)
  allocs : all.head?.map Sample.allocsPerOp = read.getLast?.map fun x => min x.allocsPerOp (2 ^ 63 - 1)
  ns : truncate (Python.median (all.map Sample.nsPerOp)) = truncate (Python.median (read.map Sample.nsPerOp))

/-! ## What Python makes of an output -/

section Python

variable {py : PyClasses} {output : List (OutputLine py)} {name : Text} {r : Result}

theorem Python.parseLines_text (results : List (Text × List Sample)) (output : List (OutputLine py)) :
    parseLines py results (output.map OutputLine.text) =
      .ok ((output.filterMap OutputLine.sample).foldl (fun gs x => addTo x.1 x.2 gs) results) := by
  induction output generalizing results with
  | nil => rfl
  | cons line output ih =>
      rw [List.map_cons, parseLines, readLine_text]
      cases hline : line.sample with
      | none =>
          rw [List.filterMap_cons_none hline]
          exact ih results
      | some x =>
          rw [List.filterMap_cons_some hline, List.foldl_cons]
          exact ih (addTo x.1 x.2 results)

theorem Python.parseBenchmarkOutput_text (output : List (OutputLine py)) :
    parseBenchmarkOutput py (output.map OutputLine.text) =
      .ok (groups (output.filterMap OutputLine.sample)) := parseLines_text [] output

/-- Each benchmark of the output has one entry. -/
theorem Python.mem_aggregateResults :
    (name, r) ∈ aggregateResults (groups (output.filterMap OutputLine.sample)) ↔
      entry name (samplesOf name output) = some r := by
  unfold aggregateResults
  rw [List.mem_filterMap]
  constructor
  · rintro ⟨⟨key, samples⟩, hmem, hentry⟩
    obtain ⟨r', hr', heq⟩ := Option.map_eq_some_iff.mp hentry
    obtain ⟨rfl, rfl⟩ := Prod.mk.inj heq
    rw [samplesOf, ← (mem_groups.mp hmem).2, hr']
  · intro hentry
    have hne : samplesOf name output ≠ [] := by
      intro hnil
      rw [hnil] at hentry
      exact absurd hentry (by simp [entry])
    exact ⟨(name, samplesOf name output), mem_groups.mpr ⟨hne, rfl⟩, by rw [hentry, Option.map_some]⟩

end Python

/-! ## What Go makes of it -/

section Go

variable {py : PyClasses} {output : List (OutputLine py)} {name : Text} {r : Result}

/-- The loops sort as the library does. -/
theorem Go.median_eq (samples : List ℚ) : median samples = Python.median samples := by
  unfold median Python.median
  rw [exchangeSort_eq_mergeSort]
  cases samples with
  | nil => simp [middle]
  | cons x samples => rfl

/-- What the map holds for a benchmark after its samples. -/
def Go.aggregated (samples : List Sample) : Option Aggregated :=
  samples.getLast?.map fun last => ⟨samples.map Sample.nsPerOp, last.bytesPerOp, last.allocsPerOp⟩

theorem Go.samples_aggregated (samples : List Sample) :
    (aggregated samples).elim [] Aggregated.samples = samples.map Sample.nsPerOp := by
  unfold aggregated
  cases hlast : samples.getLast? with
  | none => rw [List.getLast?_eq_none_iff.mp hlast]; rfl
  | some last => rfl

theorem Go.foldl_record (lines : List Text) (name : Text) :
    lines.foldl record (fun _ => none) name = aggregated (collect name (lines.filterMap readLine)) := by
  induction lines using List.reverseRecOn with
  | nil => rfl
  | append_singleton lines line ih =>
      rw [List.foldl_append, List.foldl_cons, List.foldl_nil, List.filterMap_append, record]
      cases hline : readLine line with
      | none =>
          rw [List.filterMap_cons_none hline, List.filterMap_nil, List.append_nil]
          exact ih
      | some x =>
          rw [List.filterMap_cons_some hline, List.filterMap_nil, collect_concat]
          by_cases hname : x.1 = name
          · subst hname
            rw [if_pos rfl]
            dsimp only
            rw [Function.update_self, ih, samples_aggregated]
            simp [aggregated]
          · rw [if_neg hname, List.append_nil, ← ih]
            exact Function.update_of_ne (Ne.symm hname) _ _

/-- The map holds what the lines say that are read, with Go's figures. -/
theorem Go.aggregate_text (output : List (OutputLine py)) (name : Text) :
    aggregate (output.map OutputLine.text) name =
      aggregated ((samplesOf name (readByGo output)).map Sample.clamp) := by
  have hread : (output.map OutputLine.text).takeWhile fits = (readByGo output).map OutputLine.text :=
    List.takeWhile_map
  unfold aggregate
  rw [hread, foldl_record]
  congr 1
  unfold samplesOf collect
  rw [List.filterMap_map, List.filterMap_filterMap, List.filterMap_filterMap, List.map_filterMap]
  refine List.filterMap_congr fun line _ => ?_
  rw [Function.comp_apply, readLine_text]
  cases line.sample with
  | none => rfl
  | some x => by_cases hname : x.1 = name <;> simp [hname]

theorem Go.mem_results :
    (name, r) ∈ results (output.map OutputLine.text) ↔
      (aggregated ((samplesOf name (readByGo output)).map Sample.clamp)).map (result name) = some r := by
  rw [← aggregate_text, Option.map_eq_some_iff]
  exact exists_congr fun agg => and_congr_right fun _ => eq_comm

end Go

/-! ## The comparison -/

section Compare

variable {py : PyClasses} {output : List (OutputLine py)}

/-- The two results of one benchmark. -/
theorem entry_eq_iff (n : Name) {all read : List Sample} (hall : all ≠ []) :
    Python.entry n.text all = (Go.aggregated (read.map Sample.clamp)).map (Go.result n.text) ↔
      Agreeing n all read := by
  have hns : (read.map Sample.clamp).map Sample.nsPerOp = read.map Sample.nsPerOp := by
    rw [List.map_map]
    rfl
  obtain ⟨first, rest, rfl⟩ := List.exists_cons_of_ne_nil hall
  cases hlast : read.getLast? with
  | none =>
      -- Go has not come to the benchmark
      refine iff_of_false ?_ fun h => ?_
      · simp [Go.aggregated, hlast, Python.entry]
      · have hbytes := h.bytes
        rw [hlast] at hbytes
        exact absurd hbytes (by simp)
  | some last =>
      have hagg : Go.aggregated (read.map Sample.clamp) =
          some ⟨read.map Sample.nsPerOp, min last.bytesPerOp (2 ^ 63 - 1), min last.allocsPerOp (2 ^ 63 - 1)⟩ := by
        unfold Go.aggregated
        rw [List.getLast?_map, hlast, hns]
        rfl
      rw [hagg, Option.map_some, Python.entry, Option.some.injEq, Go.result, Go.median_eq,
        Result.mk.injEq]
      constructor
      · rintro ⟨hparsed, hns, hallocs, hbytes⟩
        exact ⟨(parseResultName_eq_iff n).mp hparsed, by simp [hlast, hbytes], by simp [hlast, hallocs], hns⟩
      · rintro ⟨hname, hbytes, hallocs, hns⟩
        rw [hlast, List.head?_cons, Option.map_some, Option.map_some, Option.some.injEq] at hbytes hallocs
        exact ⟨(parseResultName_eq_iff n).mpr hname, hns, hallocs, hbytes⟩

/-- A benchmark that is not in the output is not in what Go reads of it. -/
theorem samplesOf_readByGo_eq_nil {name : Text} (h : samplesOf name output = []) :
    samplesOf name (readByGo output) = [] := by
  have hsub : (readByGo output).Sublist output := List.takeWhile_sublist _
  have hsamples : (samplesOf name (readByGo output)).Sublist (samplesOf name output) :=
    (hsub.filterMap _).filterMap _
  rw [h] at hsamples
  exact List.sublist_nil.mp hsamples

/-- Every benchmark of the output has a name. -/
theorem exists_name {name : Text} (h : samplesOf name output ≠ []) : ∃ n : Name, n.text = name := by
  obtain ⟨x, hx⟩ := List.exists_mem_of_ne_nil _ h
  unfold samplesOf collect at hx
  obtain ⟨y, hy, hname⟩ := List.mem_filterMap.mp hx
  obtain ⟨line, -, hline⟩ := List.mem_filterMap.mp hy
  cases line with
  | other text hother => exact absurd hline (by simp [OutputLine.sample])
  | result b =>
      obtain ⟨d, -, rfl⟩ := Option.map_eq_some_iff.mp hline
      obtain ⟨hkey, -⟩ := Option.ite_none_right_eq_some.mp hname
      exact ⟨b.name, hkey⟩

theorem sameResults_iff (output : List (OutputLine py)) :
    SameResults py (output.map OutputLine.text) ↔ ∀ name, Python.entry name (samplesOf name output) =
      (Go.aggregated ((samplesOf name (readByGo output)).map Sample.clamp)).map (Go.result name) := by
  unfold SameResults
  rw [Python.parseBenchmarkOutput_text]
  constructor
  · rintro ⟨_, ⟨⟩, hsame⟩ name
    refine Option.ext fun r => ?_
    rw [← Python.mem_aggregateResults, ← Go.mem_results]
    exact hsame (name, r)
  · intro hsame
    refine ⟨_, rfl, ?_⟩
    rintro ⟨name, r⟩
    rw [Python.mem_aggregateResults, Go.mem_results, hsame name]

/-- **The two parsers agree** just if they do on every benchmark of the output. -/
theorem parsers_agree_iff (py : PyClasses) (output : List (OutputLine py)) :
    SameResults py (output.map OutputLine.text) ↔ ∀ n : Name, samplesOf n.text output ≠ [] →
      Agreeing n (samplesOf n.text output) (samplesOf n.text (readByGo output)) := by
  rw [sameResults_iff]
  constructor
  · intro hsame n hn
    exact (entry_eq_iff n hn).mp (hsame n.text)
  · intro hagree name
    by_cases hname : samplesOf name output = []
    · rw [hname, samplesOf_readByGo_eq_nil hname]
      rfl
    · obtain ⟨n, rfl⟩ := exists_name hname
      exact (entry_eq_iff n hname).mpr (hagree n hname)

theorem samplesOf_pair {a b : OutputLine py} {key : Text} {x y : Sample} (ha : a.sample = some (key, x))
    (hb : b.sample = some (key, y)) (name : Text) :
    samplesOf name [a, b] = if key = name then [x, y] else [] := by
  have hlines : [a, b].filterMap OutputLine.sample = [(key, x), (key, y)] := by simp [ha, hb]
  unfold samplesOf
  rw [hlines]
  by_cases hkey : key = name <;> simp [collect, hkey]

/-- Two samples of one benchmark: Go's result has the bytes of the second, and no result of Python's has. -/
theorem not_sameRecords_pair {a b : OutputLine py} {key : Text} {x y : Sample} (ha : a.sample = some (key, x))
    (hb : b.sample = some (key, y)) (hread : readByGo [a, b] = [a, b])
    (hbytes : x.bytesPerOp ≠ y.clamp.bytesPerOp) : ¬ SameRecords py ([a, b].map OutputLine.text) := by
  rintro ⟨_, hparsed, hsame⟩
  rw [Python.parseBenchmarkOutput_text] at hparsed
  obtain rfl := Except.ok.inj hparsed
  obtain ⟨name, hpython⟩ := (hsame _).mpr ⟨key, Go.mem_results.mpr (by
    rw [hread, samplesOf_pair ha hb, if_pos rfl]
    rfl)⟩
  rw [Python.mem_aggregateResults, samplesOf_pair ha hb] at hpython
  split at hpython
  · exact hbytes (congrArg Result.bytesPerOp (Option.some.inj hpython))
  · exact absurd hpython (Option.some_ne_none _).symm

end Compare

/-! ## An output with differing figures -/

theorem isDigit_eight : ∀ c ∈ ['8'], c.isDigit = true := forall_mem_of_all (by decide)

def eight : Digits := ⟨['8'], List.cons_ne_nil _ _, isDigit_eight⟩

theorem blank_space : ∀ c ∈ [' '], c = ' ' ∨ c = '\t' := forall_mem_of_all (by decide)

def oneSpace : Gap := ⟨[' '], List.cons_ne_nil _ _, blank_space⟩

def keyGenName : Name := ⟨.keyGen, .secp256k1, none⟩

/-- A result of `BenchmarkKeyGen_Secp256k1`. -/
def keyGenLine (tail : Text) (plain : ∀ c ∈ tail, Plain c) : BenchLine where
  name := keyGenName
  procs := some eight
  gap₁ := oneSpace
  iterations := eight
  gap₂ := oneSpace
  whole := eight
  frac := none
  gap₃ := oneSpace
  tail := tail
  plain := plain

theorem sample_keyGenLine {py : PyClasses} (tail : Text) (plain : ∀ c ∈ tail, Plain c) :
    (OutputLine.result (keyGenLine tail plain) : OutputLine py).sample =
      some (keyGenName.text, (keyGenLine tail plain).sample) := rfl

/-- Python with the classes of ASCII only. -/
def asciiPython : PyClasses := ⟨goClasses, goClasses_ascii⟩

/-- Two samples of a benchmark, of 96 and of 97 bytes. -/
def differingLines : List Text :=
  ["BenchmarkKeyGen_Secp256k1-8 8 8 ns/op 96 B/op 2 allocs/op".toList,
    "BenchmarkKeyGen_Secp256k1-8 8 8 ns/op 97 B/op 2 allocs/op".toList]

theorem plain_96 : ∀ c ∈ " 96 B/op 2 allocs/op".toList, Plain c := forall_mem_of_all (by decide)

theorem plain_97 : ∀ c ∈ " 97 B/op 2 allocs/op".toList, Plain c := forall_mem_of_all (by decide)

def differingOutput : List (OutputLine asciiPython) :=
  [.result (keyGenLine _ plain_96), .result (keyGenLine _ plain_97)]

theorem text_differingOutput : differingOutput.map OutputLine.text = differingLines := by decide

theorem bytes_differingOutput : (keyGenLine _ plain_96).sample.bytesPerOp = 96 ∧
    (keyGenLine _ plain_97).sample.clamp.bytesPerOp = 97 := by decide

theorem readByGo_differingOutput : readByGo differingOutput = differingOutput := by
  have hfits : ∀ t ∈ differingLines, Go.fits t = true := by decide
  refine List.takeWhile_eq_self_iff.mpr fun line hline => hfits _ ?_
  rw [← text_differingOutput]
  exact List.mem_map_of_mem hline

theorem memory_figures_differ : ¬ SameRecords asciiPython differingLines := by
  rw [← text_differingOutput]
  refine not_sameRecords_pair (sample_keyGenLine _ plain_96) (sample_keyGenLine _ plain_97)
    readByGo_differingOutput ?_
  rw [bytes_differingOutput.1, bytes_differingOutput.2]
  decide

end PqcMigration.Benchmarks
