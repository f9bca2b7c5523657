/-
# PqcMigration.Sweeps.Resume — what an invocation finds after a crash, for both sweeps.

Neither the state file nor a result file is written atomically. A kill inside the write of the state file
leaves a text that `load_state` cannot parse, and since every invocation begins with it, none starts from
then on. A kill inside the write of a result file leaves a file that exists: `batch_scaling` reads it and
raises, `migration_throughput` asks only whether it is there and counts the cell as finished. Apart from
these kills, both start, and both count a cell as finished only with its whole document on disk.
-/
import PqcMigration.Sweeps.Escalation
import PqcMigration.Sweeps.MigrationThroughput

namespace PqcMigration.Sweeps

open Lib Lib.Driver

/-! ## `batch_scaling` -/

namespace BatchScaling

variable {es : List Event} {w : World} {e : Event} {a : Act Loop Text State} {name : Text}

/-- A cell that is counted as finished has its document. -/
theorem hasResult_of_finished (hrun : run sweep.step .fresh es = some w) (hact : sweep.act w e = some a)
    (hfinished : a.finished? = some name) : ∃ data, sweep.HasResult name data w := by
  obtain ⟨m, hm⟩ := memory?_of_act hact
  have hsound := (allOk_of_run hrun).memory m hm
  cases decides_of_act (inv_of_run hrun) hm hact with
  | skip htodo hdone =>
      obtain rfl := Option.some.inj hfinished
      obtain ⟨data, hdata, -⟩ := hsound _ hdone
      rw [job_eq htodo]
      exact ⟨data, hdata⟩
  | @verdict g rep reps later r htodo hgood =>
      cases r with
      | none => cases hfinished
      | some r =>
          obtain ⟨ok, why⟩ := r
          cases ok with
          | false => cases hfinished
          | true =>
              obtain rfl := Option.some.inj hfinished
              obtain ⟨t, data, hfile, hdata, -⟩ := hgood why rfl
              exact ⟨data, t, hfile, hdata⟩
  | quit => cases hfinished
  | stop htodo hfailed => cases hfinished
  | nextSize htodo hok => cases hfinished
  | late => cases hfinished
  | launch => cases hfinished

/-- `run_cell` raises on the result files that were cut. -/
theorem raised_iff (hrun : run sweep.step .fresh es = some w) {late : Bool}
    (hact : sweep.act w (.advance late) = some a) (hattempt : a.attempt? = some name) :
    a = .raised name ↔ sweep.ResultCut name es := by
  rw [← result_torn_iff hrun]
  obtain ⟨m, hphase, rfl⟩ := BatchScaling.act_advance hact
  obtain ⟨g, rep, reps, later, -, rfl, -, hnext⟩ := next_of_attempt hattempt
  rw [hnext]
  cases hfile : w.results m.job with
  | none =>
      refine iff_of_false (by simp) ?_
      rintro ⟨⟨t, ht, -⟩, -⟩
      exact absurd (hfile.symm.trans ht) (by simp)
  | some t =>
      cases hloads : objects.loads t with
      | none =>
          refine iff_of_true ?_ ⟨⟨t, hfile, hloads⟩, ?_⟩
          · simp [present, hloads, Loop.settle]
          · simp [hphase, Phase.child?]
      | some data =>
          refine iff_of_false (by simp [present, hloads, Loop.settle]) ?_
          rintro ⟨⟨t', ht', hnone⟩, -⟩
          obtain rfl := Option.some.inj (hfile.symm.trans ht')
          exact absurd (hloads.symm.trans hnone) (by simp)

end BatchScaling

/-! ## `migration_throughput` -/

namespace MigrationThroughput

abbrev World := Driver.World Loop Text Ledger Fields

abbrev Event := Driver.Event Args Fields

/-- What the script can do at a decision point. A good verdict rests on a whole document. -/
inductive Decides (w : World) (m : Loop) : Act Loop Text Ledger → Prop
  | quit : Decides w m .quit
  | nextValue {later : Groups} : Decides w m (.go { m with todo := later })
  | skip {rest : Groups} :
      m.key ∈ m.st.done ∨ (w.phase.child? = none ∧ ∃ t, w.results m.job = some t) →
      Decides w m (.skip m.job { m with todo := rest })
  | late : Decides w m (.save m.st)
  | launch : Decides w m (.launch m.job m)
  | verdict {rest : Groups} {ok : Bool} {why : Text} :
      (ok = true → ∃ data, sweep.HasResult m.job data w) → Decides w m (m.settle rest ok why)

section Steps

variable {w w' : World} {e : Event} {a : Act Loop Text Ledger} {m : Loop}

theorem decides_next (hphase : w.phase = .top m) (late : Bool) : Decides w m (next m late w.results) := by
  unfold next
  split
  · exact .quit
  · exact .nextValue
  · split
    · next hfinished =>
        rw [Bool.or_eq_true, Ledger.isDone_iff] at hfinished
        refine .skip (hfinished.imp_right fun hfile => ⟨?_, Option.isSome_iff_exists.mp hfile⟩)
        rw [hphase]
        rfl
    · next hopen =>
        split
        · exact .late
        · split
          · next t hfile =>
              refine absurd ?_ hopen
              rw [hfile]
              exact Bool.or_true _
          · exact .launch

/-- A child that exits with code zero has written all of its document, or nothing. -/
theorem decides_judge {c : Child Fields} {fin : ChildEnd} (hw : sweep.Inv w)
    (hphase : w.phase = .child m m.job c)
    (hfin : ∀ code, fin = .exited code → ¬ (sweep.partly c = true ∧ code = 0)) :
    Decides w m (judge m m.job fin (w.results m.job)) := by
  unfold judge
  split
  · refine .verdict fun hok => ?_
    have hchild : w.phase.child? = some (m.job, c) := by
      rw [hphase]
      rfl
    cases fin with
    | timedOut => cases hok
    | exited code =>
        by_cases hcode : code ≠ 0
        · simp [hcode] at hok
        · cases c with
          | working =>
              simp [hcode, hw.working _ hchild] at hok
          | writing d n =>
              have hlen : ¬ n < (sweep.resultFormat.dumps d).length := fun hlt =>
                hfin code rfl ⟨decide_eq_true hlt, not_not.mp hcode⟩
              exact ⟨d, _, hw.writing _ d n hchild, sweep.resultFormat.loads_take_of_not_lt hlen⟩
  · exact .quit

theorem decides_of_act (hw : sweep.Inv w) (hm : w.phase.memory? = some m) (h : sweep.act w e = some a) :
    Decides w m a := by
  rcases act_eq hw hm h with ⟨late, hphase, -, rfl⟩ | ⟨c, fin, hphase, rfl, hend⟩
  · exact decides_next hphase late
  · refine decides_judge hw hphase ?_
    rintro code rfl
    rcases hend with ⟨code', -, hcode, hnot⟩ | ⟨-, hcode⟩
    · obtain rfl := ChildEnd.exited.inj hcode
      exact hnot
    · cases hcode

theorem lists_of_decides (h : Decides w m a) : Lists sweep Ledger.done Loop.st (fun _ => True) w m a := by
  have hsame : ∀ key ∈ m.st.done, key ∈ m.st.done ∨ HasGood sweep (fun _ => True) w key := fun _ => .inl
  cases h with
  | @verdict rest ok why hgood =>
      refine .of_eq (m.st.note m.key ok why).done (fun key hkey => ?_) ?_ rfl
      · rcases mem_done_note.mp hkey with hold | ⟨hok, rfl⟩
        · exact .inl hold
        · obtain ⟨data, hdata⟩ := hgood hok
          exact .inr ⟨data, hdata, trivial⟩
      · simp only [Loop.settle, Act.memory?]
        split_ifs <;> rfl
  | _ => exact .of_eq _ hsame rfl rfl

end Steps

section Runs

variable {es : List Event} {w : World} (hrun : run sweep.step .fresh es = some w)

include hrun

theorem documents_of_run : AllGood sweep Ledger.done Loop.st (fun _ => True) w :=
  allGood_of_run hrun (fun _ st => by cases st <;> rfl) fun _ _ _ _ hu hm hact =>
    lists_of_decides (decides_of_act hu hm hact)

/-- A cell that is counted as finished has its document, or a file at which nobody is. -/
theorem file_of_finished {e : Event} {a : Act Loop Text Ledger} {name : Text}
    (hact : sweep.act w e = some a) (hfinished : a.finished? = some name) :
    (∃ data, sweep.HasResult name data w) ∨ (w.phase.child? = none ∧ ∃ t, w.results name = some t) := by
  obtain ⟨m, hm⟩ := memory?_of_act hact
  cases decides_of_act (inv_of_run hrun) hm hact with
  | skip hskip =>
      obtain rfl := Option.some.inj hfinished
      refine hskip.imp_left fun hdone => ?_
      obtain ⟨data, hdata, -⟩ := (documents_of_run hrun).memory m hm _ hdone
      exact ⟨data, hdata⟩
  | @verdict rest ok why hgood =>
      cases ok with
      | false => cases hfinished
      | true =>
          obtain rfl := Option.some.inj hfinished
          exact Or.inl (hgood rfl)
  | quit => cases hfinished
  | nextValue => cases hfinished
  | late => cases hfinished
  | launch => cases hfinished

/-- It has its document exactly if no kill fell inside the write. -/
theorem hasResult_iff_of_finished {e : Event} {a : Act Loop Text Ledger} {name : Text}
    (hact : sweep.act w e = some a) (hfinished : a.finished? = some name) :
    (∃ data, sweep.HasResult name data w) ↔ ¬ sweep.ResultCut name es := by
  rw [← result_torn_iff hrun]
  constructor
  · rintro ⟨data, t, htext, hloads⟩ ⟨⟨t', htext', hnone⟩, -⟩
    obtain rfl := Option.some.inj (htext.symm.trans htext')
    exact absurd (hloads.symm.trans hnone) (by simp)
  · intro hwhole
    rcases file_of_finished hrun hact hfinished with hresult | ⟨hchild, t, htext⟩
    · exact hresult
    · cases hloads : sweep.resultFormat.loads t with
      | some data => exact ⟨data, t, htext, hloads⟩
      | none =>
          exact absurd ⟨⟨t, htext, hloads⟩, fun d n h => by rw [hchild] at h; cases h⟩ hwhole

end Runs

end MigrationThroughput

/-! ## Both -/

/-- **Resuming.** After any run of either sweep, crashes and timeouts included: an invocation starts unless
a kill fell inside a write of the state file. `batch_scaling` counts a cell as finished only with its
document, and raises at the cells whose result was cut; `migration_throughput` counts a cell with its
document unless a kill fell inside the write of its result. -/
theorem sweeps_resume_iff {es : List BatchScaling.Event} {w : BatchScaling.World}
    {es' : List MigrationThroughput.Event} {w' : MigrationThroughput.World}
    (hrun : run BatchScaling.sweep.step .fresh es = some w)
    (hrun' : run MigrationThroughput.sweep.step .fresh es' = some w') :
    (w.phase = .idle → ∀ a, BatchScaling.sweep.Starts a w ↔ ¬ BatchScaling.sweep.StateCut es) ∧
    (w'.phase = .idle →
      ∀ a, MigrationThroughput.sweep.Starts a w' ↔ ¬ MigrationThroughput.sweep.StateCut es') ∧
    (∀ e a name, BatchScaling.sweep.act w e = some a → a.finished? = some name →
      ∃ data, BatchScaling.sweep.HasResult name data w) ∧
    (∀ late a name, BatchScaling.sweep.act w (.advance late) = some a → a.attempt? = some name →
      (a = .raised name ↔ BatchScaling.sweep.ResultCut name es)) ∧
    (∀ e a name, MigrationThroughput.sweep.act w' e = some a → a.finished? = some name →
      ((∃ data, MigrationThroughput.sweep.HasResult name data w') ↔
        ¬ MigrationThroughput.sweep.ResultCut name es')) := by
  refine ⟨?_, ?_, ?_, ?_, ?_⟩
  · intro hidle a
    rw [starts_iff hidle, state_torn_iff hrun]
  · intro hidle a
    rw [starts_iff hidle, state_torn_iff hrun']
  · intro e a name hact hfinished
    exact BatchScaling.hasResult_of_finished hrun hact hfinished
  · intro late a name hact hattempt
    exact BatchScaling.raised_iff hrun hact hattempt
  · intro e a name hact hfinished
    exact MigrationThroughput.hasResult_iff_of_finished hrun' hact hfinished

/-- One size, one repeat. -/
def smallBatch : BatchScaling.Args := ⟨⟨[1], 1, 1⟩, 3600⟩

/-- One value, one repeat. -/
def smallMigration : MigrationThroughput.Args := ⟨[1], 1, 3600⟩

/-- A crash after one character of the state, when `loadgen.py` has failed without a result. -/
def cutState {A : Type} (args : A) : List (Driver.Event A Fields) :=
  [.invoke args, .advance false, .exits 1, .saves 1, .crash]

theorem sweeps_resume_iff_cut :
    ∃ w w', run BatchScaling.sweep.step .fresh (cutState smallBatch) = some w ∧
      run MigrationThroughput.sweep.step .fresh (cutState smallMigration) = some w' ∧
      (∀ a, BatchScaling.sweep.Starts a w ↔ ¬ BatchScaling.sweep.StateCut (cutState smallBatch)) ∧
      ∀ a, MigrationThroughput.sweep.Starts a w' ↔
        ¬ MigrationThroughput.sweep.StateCut (cutState smallMigration) := by
  have hrun : ∃ w, run BatchScaling.sweep.step .fresh (cutState smallBatch) = some w ∧ w.phase = .idle :=
    ⟨_, rfl, rfl⟩
  have hrun' : ∃ w, run MigrationThroughput.sweep.step .fresh (cutState smallMigration) = some w ∧
      w.phase = .idle := ⟨_, rfl, rfl⟩
  obtain ⟨w, hw, hidle⟩ := hrun
  obtain ⟨w', hw', hidle'⟩ := hrun'
  obtain ⟨hbatch, hmigration, -⟩ := sweeps_resume_iff hw hw'
  exact ⟨w, w', hw, hw', hbatch hidle, hmigration hidle'⟩

/-- A crash after one character of the result, and a new invocation. -/
def cutResult : List MigrationThroughput.Event :=
  [.invoke smallMigration, .advance false, .opens [], .writes 1, .crash, .invoke smallMigration]

theorem cut_files_stop_sweeps :
    (∃ w, run BatchScaling.sweep.step .fresh (cutState smallBatch) = some w ∧ w.phase = .idle ∧
      ∀ a, ¬ BatchScaling.sweep.Starts a w) ∧
    (∃ w, run MigrationThroughput.sweep.step .fresh (cutState smallMigration) = some w ∧
      w.phase = .idle ∧ ∀ a, ¬ MigrationThroughput.sweep.Starts a w) ∧
    ∃ w a name, run MigrationThroughput.sweep.step .fresh cutResult = some w ∧
      MigrationThroughput.sweep.act w (.advance false) = some a ∧ a.finished? = some name ∧
      ¬ ∃ data, MigrationThroughput.sweep.HasResult name data w := by
  refine ⟨⟨_, rfl, rfl, ?_⟩, ⟨_, rfl, rfl, ?_⟩, ⟨_, _, _, rfl, rfl, rfl, ?_⟩⟩
  · intro a
    rw [starts_iff rfl, not_not]
    exact ⟨rfl, fun _ _ _ h => nomatch h⟩
  · intro a
    rw [starts_iff rfl, not_not]
    exact ⟨rfl, fun _ _ _ h => nomatch h⟩
  · rintro ⟨data, t, htext, hloads⟩
    obtain rfl := Option.some.inj htext
    cases hloads

end PqcMigration.Sweeps
