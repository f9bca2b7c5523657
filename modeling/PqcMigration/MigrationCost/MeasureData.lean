/-
# PqcMigration.MigrationCost.MeasureData — the results file of `measure_data.py` over resumed runs.

The program measures waves: for each batch size, each signer and each wave number, the trials of that
wave together. A row of the CSV has a `Run_Label`. With `--resume` rows are appended, and a wave is left
out when ALL of its labels are in the file as it was read at the start; otherwise it is run, and gives a
row for each of its trials.

Which trials are in a wave depends on `--trials` and `--concurrency`, and so do its labels. A wave that
some of whose labels are recorded is run again whole. `recorded_once` says that this is the only way a
label gets into the file twice.

Of a row only the label is kept.
-/
import Mathlib.Data.List.Nodup
import Mathlib.Data.Nat.Digits.Defs
import PqcMigration.Lib.Run
import PqcMigration.MigrationCost.RelayRecvBatch

namespace PqcMigration.MigrationCost

open Lib

/-! ## Waves -/

/-- The label of one flow. -/
def runLabel (n trial : ℕ) (signer : Text) (wave flow concurrency : ℕ) : Text :=
  "n".toList ++ (digits n ++ '-' :: ("t".toList ++ (digits trial ++ '-' :: (signer ++
    if 1 < concurrency then "-w".toList ++ digits wave ++ "f".toList ++ digits flow else []))))

structure Wave where
  n : ℕ
  signer : Text
  wave : ℕ
  trials : List ℕ
  deriving DecidableEq

/-- The labels `run_wave` makes; how many trials there are is the concurrency it is given. -/
def Wave.labels (w : Wave) : List Text :=
  w.trials.zipIdx.map fun e => runLabel w.n e.1 w.signer w.wave e.2 w.trials.length

/-- Labels compare lawfully. -/
local instance lawfulBEqLabel : LawfulBEq Text := inferInstance

/-- `run_wave`: the rows it returns. -/
def runWave (done : List Text) (w : Wave) : List Text :=
  if ∀ label ∈ w.labels, label ∈ done then [] else w.labels

/-- `range(1 + wave * per_wave, 1 + min((wave + 1) * per_wave, args.trials))` -/
def waveTrials (trials perWave wave : ℕ) : List ℕ :=
  (List.range (min ((wave + 1) * perWave) trials - wave * perWave)).map fun i => 1 + wave * perWave + i

/-- What an invocation is given. -/
structure Invocation where
  sizes : List ℕ
  trials : ℕ
  signers : List Text
  concurrency : ℕ

def Invocation.waves (inv : Invocation) : ℕ := (inv.trials + inv.concurrency - 1) / inv.concurrency

/-- The waves of one size and one signer. -/
def Invocation.wavesOf (inv : Invocation) (n : ℕ) (signer : Text) : List Wave :=
  (List.range inv.waves).filterMap fun wave =>
    let trials := waveTrials inv.trials inv.concurrency wave
    if trials = [] then none else some ⟨n, signer, wave, trials⟩

/-- The waves in the order of the loops. -/
def Invocation.plan (inv : Invocation) : List Wave :=
  inv.sizes.flatMap fun n => inv.signers.flatMap fun signer => inv.wavesOf n signer

/-- An invocation with `--resume` that is stopped after `stop` waves, or finishes. -/
def invoke (csv : List Text) (inv : Invocation) (stop : ℕ) : List Text :=
  csv ++ (inv.plan.take stop).flatMap (runWave csv)

def invokeStep (csv : List Text) (e : Invocation × ℕ) : Option (List Text) :=
  some (invoke csv e.1 e.2)

/-! ## What a label says -/

section Labels

variable {inv : Invocation} {w w' : Wave} {label : Text}

theorem digits_injective {m n : ℕ} (h : digits m = digits n) : m = n := by
  have hm : Nat.ofDigitChars 10 (digits m) 0 = m := Nat.ofDigitChars_ten_toDigits
  rw [h] at hm
  exact hm.symm.trans Nat.ofDigitChars_ten_toDigits

theorem takeWhile_digits_dash (n : ℕ) (x : Text) :
    (digits n ++ '-' :: x).takeWhile Char.isDigit = digits n := by
  have hdigit : ∀ c ∈ digits n, c.isDigit = true :=
    fun c hc => Nat.isDigit_of_mem_toDigits (by decide) (by decide) hc
  rw [List.takeWhile_append_of_pos hdigit, List.takeWhile_cons_of_neg (by decide), List.append_nil]

/-- A number and a dash can be read off again. -/
theorem digits_dash_inj {m n : ℕ} {x y : Text} (h : digits m ++ '-' :: x = digits n ++ '-' :: y) :
    m = n ∧ x = y := by
  have hdigits : digits m = digits n := by
    rw [← takeWhile_digits_dash m x, h, takeWhile_digits_dash]
  rw [hdigits] at h
  exact ⟨digits_injective hdigits, List.tail_eq_of_cons_eq (List.append_cancel_left h)⟩

theorem runLabel_inj {n n' t t' wave wave' flow flow' c c' : ℕ} {signer signer' : Text}
    (h : runLabel n t signer wave flow c = runLabel n' t' signer' wave' flow' c') :
    n = n' ∧ t = t' ∧ signer ++ (if 1 < c then "-w".toList ++ digits wave ++ "f".toList ++ digits flow
      else []) = signer' ++ (if 1 < c' then "-w".toList ++ digits wave' ++ "f".toList ++ digits flow'
      else []) := by
  obtain ⟨hn, hrest⟩ := digits_dash_inj (List.append_cancel_left h)
  obtain ⟨ht, hsigner⟩ := digits_dash_inj (List.append_cancel_left hrest)
  exact ⟨hn, ht, hsigner⟩

theorem length_waveTrials_le (trials perWave wave : ℕ) :
    (waveTrials trials perWave wave).length ≤ perWave := by
  rw [waveTrials, List.length_map, List.length_range, Nat.succ_mul]
  omega

theorem mem_labels : label ∈ w.labels ↔ ∃ t i, w.trials[i]? = some t ∧
    runLabel w.n t w.signer w.wave i w.trials.length = label := by
  simp only [Wave.labels, List.mem_map, Prod.exists, List.mk_mem_zipIdx_iff_getElem?]

theorem mem_wavesOf {n : ℕ} {signer : Text} : w ∈ inv.wavesOf n signer ↔
    w.n = n ∧ w.signer = signer ∧ w.wave < inv.waves ∧
      w.trials = waveTrials inv.trials inv.concurrency w.wave ∧ w.trials ≠ [] := by
  simp only [Invocation.wavesOf, List.mem_filterMap, List.mem_range]
  constructor
  · rintro ⟨wave, hlt, hsome⟩
    split_ifs at hsome with hnil
    obtain rfl := Option.some.inj hsome
    exact ⟨rfl, rfl, hlt, rfl, hnil⟩
  · rintro ⟨rfl, rfl, hlt, htrials, hne⟩
    refine ⟨w.wave, hlt, ?_⟩
    rw [← htrials, if_neg hne]

theorem mem_plan : w ∈ inv.plan ↔ w.n ∈ inv.sizes ∧ w.signer ∈ inv.signers ∧
    w ∈ inv.wavesOf w.n w.signer := by
  simp only [Invocation.plan, List.mem_flatMap]
  constructor
  · rintro ⟨n, hn, signer, hsigner, hw⟩
    obtain ⟨rfl, rfl, -⟩ := mem_wavesOf.mp hw
    exact ⟨hn, hsigner, hw⟩
  · rintro ⟨hn, hsigner, hw⟩
    exact ⟨w.n, hn, w.signer, hsigner, hw⟩

/-- The `i`-th trial of a wave. -/
theorem trial_eq (hw : w ∈ inv.plan) {t i : ℕ} (ht : w.trials[i]? = some t) :
    t = 1 + w.wave * inv.concurrency + i ∧ i < inv.concurrency := by
  obtain ⟨-, -, -, htrials, -⟩ := mem_wavesOf.mp (mem_plan.mp hw).2.2
  have hlen := length_waveTrials_le inv.trials inv.concurrency w.wave
  rw [← htrials] at hlen
  obtain ⟨hlt, -⟩ := List.getElem?_eq_some_iff.mp ht
  rw [htrials, waveTrials, List.getElem?_map, Option.map_eq_some_iff] at ht
  obtain ⟨k, hk, rfl⟩ := ht
  obtain rfl : i = k := by
    obtain ⟨hlt', hk⟩ := List.getElem?_eq_some_iff.mp hk
    rwa [List.getElem_range] at hk
  exact ⟨rfl, hlt.trans_le hlen⟩

/-- In one invocation a label says which wave it is of, and which trial. -/
theorem wave_of_label (hw : w ∈ inv.plan) (hw' : w' ∈ inv.plan) {t t' i i' : ℕ}
    (ht : w.trials[i]? = some t) (ht' : w'.trials[i']? = some t')
    (heq : runLabel w.n t w.signer w.wave i w.trials.length =
      runLabel w'.n t' w'.signer w'.wave i' w'.trials.length) : w = w' ∧ i = i' := by
  obtain ⟨hn, htt, hsigner⟩ := runLabel_inj heq
  obtain ⟨rfl, hi⟩ := trial_eq hw ht
  obtain ⟨rfl, hi'⟩ := trial_eq hw' ht'
  have hsum : w.wave * inv.concurrency + i = w'.wave * inv.concurrency + i' := by omega
  have hdiv : ∀ {v j}, j < inv.concurrency → (v * inv.concurrency + j) / inv.concurrency = v := by
    intro v j hj
    rw [Nat.add_comm, Nat.add_mul_div_right _ _ (Nat.zero_lt_of_lt hj), Nat.div_eq_of_lt hj,
      Nat.zero_add]
  have hwave : w.wave = w'.wave := by
    calc w.wave = (w.wave * inv.concurrency + i) / inv.concurrency := (hdiv hi).symm
      _ = (w'.wave * inv.concurrency + i') / inv.concurrency := by rw [hsum]
      _ = w'.wave := hdiv hi'
  have hflow : i = i' := by
    rw [hwave] at hsum
    omega
  obtain ⟨-, -, -, htrials, -⟩ := mem_wavesOf.mp (mem_plan.mp hw).2.2
  obtain ⟨-, -, -, htrials', -⟩ := mem_wavesOf.mp (mem_plan.mp hw').2.2
  have htr : w.trials = w'.trials := by rw [htrials, htrials', hwave]
  rw [htr, hwave, hflow] at hsigner
  have hsg : w.signer = w'.signer := List.append_cancel_right hsigner
  refine ⟨?_, hflow⟩
  show Wave.mk w.n w.signer w.wave w.trials = Wave.mk w'.n w'.signer w'.wave w'.trials
  rw [hn, hsg, hwave, htr]

theorem nodup_labels (hw : w ∈ inv.plan) : w.labels.Nodup := by
  apply List.Nodup.map_on
  · rintro ⟨t, i⟩ ht ⟨t', i'⟩ ht' heq
    have hget := List.mk_mem_zipIdx_iff_getElem?.mp ht
    have hget' := List.mk_mem_zipIdx_iff_getElem?.mp ht'
    obtain ⟨-, rfl⟩ := wave_of_label hw hw hget hget' heq
    rw [hget] at hget'
    rw [Option.some.inj hget']
  · exact List.Nodup.of_map _ (by rw [List.zipIdx_map_snd]; exact List.nodup_range')

theorem nodup_wavesOf (inv : Invocation) (n : ℕ) (signer : Text) : (inv.wavesOf n signer).Nodup := by
  apply List.Nodup.filterMap _ List.nodup_range
  intro a b w ha hb
  simp only [Option.mem_def, Option.ite_none_left_eq_some, Option.some.injEq] at ha hb
  exact congrArg Wave.wave (ha.2.trans hb.2.symm)

theorem nodup_plan (hsizes : inv.sizes.Nodup) (hsigners : inv.signers.Nodup) : inv.plan.Nodup := by
  rw [Invocation.plan, List.nodup_flatMap]
  constructor
  · intro n _
    rw [List.nodup_flatMap]
    refine ⟨fun signer _ => nodup_wavesOf inv n signer, hsigners.imp ?_⟩
    intro signer signer' hne w hw hw'
    exact hne ((mem_wavesOf.mp hw).2.1.symm.trans (mem_wavesOf.mp hw').2.1)
  · refine hsizes.imp ?_
    intro n n' hne w hw hw'
    obtain ⟨signer, -, hw⟩ := List.mem_flatMap.mp hw
    obtain ⟨signer', -, hw'⟩ := List.mem_flatMap.mp hw'
    exact hne ((mem_wavesOf.mp hw).1.symm.trans (mem_wavesOf.mp hw').1)

/-- An invocation that names no size and no signer twice has a label of its own for every flow. -/
theorem nodup_plan_labels (hsizes : inv.sizes.Nodup) (hsigners : inv.signers.Nodup) :
    (inv.plan.flatMap Wave.labels).Nodup := by
  rw [List.nodup_flatMap]
  refine ⟨fun w hw => nodup_labels hw, ?_⟩
  apply (nodup_plan hsizes hsigners).pairwise_of_forall_ne
  intro w hw w' hw' hne label hlabel hlabel'
  obtain ⟨t, i, ht, rfl⟩ := mem_labels.mp hlabel
  obtain ⟨t', i', ht', heq⟩ := mem_labels.mp hlabel'
  exact hne (wave_of_label hw hw' ht ht' heq.symm).1

end Labels

/-! ## The file -/

section File

variable {inv : Invocation} {csv : List Text} {stop : ℕ}

/-- Each wave the invocation comes to has all of its labels in the file, or none. -/
def WavesWhole (csv : List Text) (inv : Invocation) (stop : ℕ) : Prop :=
  ∀ w ∈ inv.plan.take stop, (∀ label ∈ w.labels, label ∈ csv) ∨ ∀ label ∈ w.labels, label ∉ csv

theorem runWave_sublist (done : List Text) (w : Wave) : (runWave done w).Sublist w.labels := by
  unfold runWave
  split_ifs
  · exact List.nil_sublist _
  · exact List.Sublist.refl _

theorem mem_runWave {done : List Text} {w : Wave} {label : Text} : label ∈ runWave done w ↔
    (¬ ∀ l ∈ w.labels, l ∈ done) ∧ label ∈ w.labels := by
  unfold runWave
  split_ifs with hall
  · exact iff_of_false List.not_mem_nil fun h => h.1 hall
  · exact ⟨fun h => ⟨hall, h⟩, And.right⟩

theorem nodup_invoke_iff (hsizes : inv.sizes.Nodup) (hsigners : inv.signers.Nodup)
    (hcsv : csv.Nodup) : (invoke csv inv stop).Nodup ↔ WavesWhole csv inv stop := by
  have hrows : ((inv.plan.take stop).flatMap (runWave csv)).Nodup := by
    refine List.Sublist.nodup ?_ (nodup_plan_labels hsizes hsigners)
    apply (List.Sublist.flatMap_right _ fun w _ => runWave_sublist csv w).trans
    exact (List.take_sublist stop inv.plan).flatMap Wave.labels
  rw [invoke, List.nodup_append]
  constructor
  · rintro ⟨-, -, hdisjoint⟩ w hw
    by_cases hall : ∀ label ∈ w.labels, label ∈ csv
    · exact Or.inl hall
    · right
      intro label hlabel hmem
      have hrow : label ∈ (inv.plan.take stop).flatMap (runWave csv) :=
        List.mem_flatMap.mpr ⟨w, hw, mem_runWave.mpr ⟨hall, hlabel⟩⟩
      exact hdisjoint label hmem label hrow rfl
  · intro hwhole
    refine ⟨hcsv, hrows, ?_⟩
    rintro label hmem _ hrow rfl
    obtain ⟨w, hw, hrow⟩ := List.mem_flatMap.mp hrow
    obtain ⟨hnot, hlabel⟩ := mem_runWave.mp hrow
    rcases hwhole w hw with hall | hnone
    · exact hnot hall
    · exact hnone label hlabel hmem

/-- Flows that do not run together are waves of their own. -/
theorem wavesWhole_of_concurrency_one (hone : inv.concurrency = 1) (csv : List Text) (stop : ℕ) :
    WavesWhole csv inv stop := by
  intro w hw
  obtain ⟨-, -, -, htrials, hne⟩ := mem_wavesOf.mp (mem_plan.mp (List.mem_of_mem_take hw)).2.2
  have hlen := length_waveTrials_le inv.trials inv.concurrency w.wave
  rw [← htrials, hone] at hlen
  have hpos := List.length_pos_of_ne_nil hne
  obtain ⟨label, hlabel⟩ : ∃ label, w.labels = [label] := by
    rw [← List.length_eq_one_iff, Wave.labels, List.length_map, List.length_zipIdx]
    omega
  simp only [hlabel, List.mem_singleton, forall_eq]
  exact Classical.em _

end File

/-- **Every label is recorded once**, after every sequence of invocations that name no size and no signer
twice and that find each wave they come to recorded whole or not at all. And an invocation that finds a
wave recorded in part repeats a label. -/
theorem recorded_once (evs : List (Invocation × ℕ)) (csv : List Text)
    (hrun : run invokeStep [] evs = some csv) :
    ((∀ e u, Takes invokeStep [] evs e u →
      e.1.sizes.Nodup ∧ e.1.signers.Nodup ∧ WavesWhole u e.1 e.2) → csv.Nodup) ∧
    ∀ inv stop, csv.Nodup → inv.sizes.Nodup → inv.signers.Nodup →
      ((invoke csv inv stop).Nodup ↔ WavesWhole csv inv stop) := by
  constructor
  · intro hwhole
    apply run_invariant_of_takes (I := List.Nodup) _ List.nodup_nil hrun hwhole
    rintro csv ⟨inv, stop⟩ csv' hcsv ⟨hsizes, hsigners, hwhole⟩ hstep
    obtain rfl := Option.some.inj hstep
    exact (nodup_invoke_iff hsizes hsigners hcsv).mpr hwhole
  · intro inv stop hcsv hsizes hsigners
    exact nodup_invoke_iff hsizes hsigners hcsv

/-- One size and one signer. -/
def oneCell (trials concurrency : ℕ) : Invocation := ⟨[1], trials, ["validator".toList], concurrency⟩

theorem recorded_once_one_by_one :
    ∃ csv, run invokeStep [] [(oneCell 1 1, 1), (oneCell 2 1, 2)] = some csv ∧ csv.length = 2 ∧
      csv.Nodup := by
  refine ⟨_, rfl, by decide,
    (recorded_once [(oneCell 1 1, 1), (oneCell 2 1, 2)] _ rfl).1 ?_⟩
  intro e u htakes
  have hmem : e ∈ [(oneCell 1 1, 1), (oneCell 2 1, 2)] := by
    obtain ⟨bs, cs, hsplit, -⟩ := htakes
    rw [hsplit]
    simp
  have hone : ∃ trials, e.1 = oneCell trials 1 := by
    rcases List.mem_cons.mp hmem with rfl | hmem
    · exact ⟨1, rfl⟩
    · obtain rfl := List.mem_singleton.mp hmem
      exact ⟨2, rfl⟩
  obtain ⟨trials, hinv⟩ := hone
  rw [hinv]
  exact ⟨List.nodup_singleton 1, List.nodup_singleton _, wavesWhole_of_concurrency_one rfl u e.2⟩

/-- Five trials three at a time, and then a sixth: its wave holds trials 4 and 5 as well, and they are
measured and recorded again. -/
theorem wave_recorded_twice :
    (run invokeStep [] [(oneCell 5 3, 2), (oneCell 6 3, 2)]).map
        (fun csv => (csv.length, csv.count "n1-t4-validator-w1f0".toList)) = some (8, 2) := by
  decide

end PqcMigration.MigrationCost
