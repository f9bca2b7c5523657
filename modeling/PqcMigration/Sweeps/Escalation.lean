/-
# PqcMigration.Sweeps.Escalation — what a series of `batch_scaling` sweeps does and never does.

The runs are those of `Lib.Driver`: any number of invocations, every end of every cell (a result that is
ok, one that records a failure, none, a timeout), and crashes anywhere besides. Two facts are carried from
one invocation to the next through the state file and the result files: a key under `done` has a result
that is ok, and when the loops are at a size every cell of a smaller one is done. A failing result stays
where it is, so its cell is never done, and the loops never come to a larger size.
-/
import PqcMigration.Sweeps.BatchScaling

namespace PqcMigration.Sweeps.BatchScaling

open Lib Lib.Driver

abbrev World := Driver.World Loop Text State Fields

abbrev Event := Driver.Event Args Fields

/-! ## Sizes and names -/

theorem mem_sizes {p : Plan} {g : ℤ} : g ∈ p.sizes ↔ g ∈ p.groupSizes := by
  rw [Plan.sizes, List.mem_insertionSort, List.mem_dedup]

theorem sizes_pairwise (p : Plan) : p.sizes.Pairwise (· < ·) := by
  have hsorted : p.sizes.Pairwise (· ≤ ·) := List.pairwise_insertionSort _ _
  have hnodup : p.sizes.Nodup :=
    (List.perm_insertionSort _ _).nodup_iff.mpr (List.nodup_dedup p.groupSizes)
  exact (hsorted.and hnodup).imp fun h => lt_of_le_of_ne h.1 h.2

theorem takeWhile_intText (g : ℤ) (x : Text) :
    (Json.intText g ++ '_' :: x).takeWhile (· ≠ '_') = Json.intText g := by
  have hchars : ∀ c ∈ Json.intText g, decide (c ≠ '_') = true := by
    intro c hc
    have htoken := Json.isTokenChar_of_isScalar (Json.isScalar_intText g) c hc
    rw [decide_eq_true_iff]
    rintro rfl
    revert htoken
    decide
  rw [List.takeWhile_append_of_pos hchars, List.takeWhile_cons_of_neg (by decide), List.append_nil]

/-- The size can be read off the name of a result file. -/
theorem size_eq_of_cellPath_eq {g g' ack ack' : ℤ} {rep rep' : ℕ}
    (h : cellPath g rep ack = cellPath g' rep' ack') : g = g' := by
  have hkey : cellKey g rep ack = cellKey g' rep' ack' := List.append_cancel_right h
  simp only [cellKey, List.append_assoc] at hkey
  have htail := List.append_cancel_left hkey
  refine Json.intText_injective ?_
  rw [← takeWhile_intText g, ← takeWhile_intText g']
  exact congrArg (List.takeWhile (· ≠ '_')) htail

theorem job_eq {m : Loop} {g : ℤ} {rep : ℕ} {reps : List ℕ} {later : Groups}
    (h : m.todo = (g, rep :: reps) :: later) : m.job = cellPath g rep m.args.plan.ackPoolSize := by
  rw [Loop.job, h]

/-! ## What is kept -/

/-- How far the loops have come: the sizes before the present one are done, and so are the repeats of this
one that have been looked at, unless one has failed. -/
structure Progress (m : Loop) : Prop where
  before : ∃ before, m.args.plan.sizes = before ++ m.todo.map Prod.fst ∧
    ∀ g ∈ before, ∀ rep < m.args.plan.repeats.toNat, cellKey g rep m.args.plan.ackPoolSize ∈ m.st.done
  here : ∀ g reps later, m.todo = (g, reps) :: later → m.failedHere = false →
    ∀ rep < m.args.plan.repeats.toNat, rep ∉ reps → cellKey g rep m.args.plan.ackPoolSize ∈ m.st.done
  later : ∀ p ∈ m.todo.tail, p.2 = List.range m.args.plan.repeats.toNat

theorem progress_start (a : Args) (st : Option State) : Progress (start a st) where
  before := by
    refine ⟨[], ?_, fun g hg => nomatch hg⟩
    rw [start, groups, List.map_map, List.nil_append]
    exact (List.map_id _).symm
  here g reps later htodo _ rep hrep hnot := by
    have hmem : (g, reps) ∈ (start a st).todo := htodo ▸ List.mem_cons_self
    obtain ⟨g', -, heq⟩ := List.mem_map.mp hmem
    obtain ⟨-, rfl⟩ := Prod.mk.inj heq
    exact absurd (List.mem_range.mpr hrep) hnot
  later p hp := by
    obtain ⟨g, -, rfl⟩ := List.mem_map.mp (List.mem_of_mem_tail hp)
    rfl

/-- The end of a size without a failure. -/
theorem Progress.nextSize {m : Loop} {g : ℤ} {later : Groups} (hm : Progress m)
    (htodo : m.todo = (g, []) :: later) (hok : m.failedHere = false) :
    Progress { m with todo := later } where
  before := by
    obtain ⟨before, hsizes, hbefore⟩ := hm.before
    refine ⟨before ++ [g], ?_, ?_⟩
    · rw [hsizes, htodo, List.append_assoc]
      rfl
    · intro g' hg' rep hrep
      rcases List.mem_append.mp hg' with hg' | hg'
      · exact hbefore g' hg' rep hrep
      · obtain rfl := List.mem_singleton.mp hg'
        exact hm.here g' [] later htodo hok rep hrep List.not_mem_nil
  here g' reps later' heq _ rep hrep hnot := by
    have hmem : (g', reps) ∈ m.todo.tail := by
      rw [htodo]
      exact (show later = _ from heq) ▸ List.mem_cons_self
    have hreps : reps = List.range m.args.plan.repeats.toNat := hm.later _ hmem
    exact absurd (hreps ▸ List.mem_range.mpr hrep) hnot
  later p hp := by
    refine hm.later p ?_
    rw [htodo]
    exact List.mem_of_mem_tail hp

/-- The loops go on to the next repeat: the cell is done, or this size has a failure. -/
theorem Progress.nextRepeat {m m' : Loop} {g : ℤ} {rep : ℕ} {reps : List ℕ} {later : Groups}
    (hm : Progress m) (htodo : m.todo = (g, rep :: reps) :: later) (hargs : m'.args = m.args)
    (htodo' : m'.todo = (g, reps) :: later) (hdone : ∀ key ∈ m.st.done, key ∈ m'.st.done)
    (hcell : m'.failedHere = false → m.failedHere = false ∧
      cellKey g rep m.args.plan.ackPoolSize ∈ m'.st.done) : Progress m' where
  before := by
    obtain ⟨before, hsizes, hbefore⟩ := hm.before
    refine ⟨before, ?_, ?_⟩
    · rw [hargs, hsizes, htodo, htodo']
      rfl
    · intro g' hg' rep' hrep'
      rw [hargs] at hrep' ⊢
      exact hdone _ (hbefore g' hg' rep' hrep')
  here g' reps' later' heq hok rep' hrep' hnot := by
    obtain ⟨hsame, -⟩ := List.cons.inj (htodo'.symm.trans heq)
    obtain ⟨rfl, rfl⟩ := Prod.mk.inj hsame
    obtain ⟨hokBefore, hcellDone⟩ := hcell hok
    rw [hargs] at hrep' ⊢
    by_cases hrep : rep' = rep
    · exact hrep ▸ hcellDone
    · refine hdone _ (hm.here g _ later htodo hokBefore rep' hrep' ?_)
      rw [List.mem_cons, not_or]
      exact ⟨hrep, hnot⟩
  later p hp := by
    rw [hargs]
    refine hm.later p ?_
    rw [htodo]
    exact (congrArg List.tail htodo') ▸ hp

/-! ## Decisions -/

/-- What the script can do at a decision point. A good verdict rests on a result that is ok. -/
inductive Decides (m : Loop) (files : Text → Option Text) : Act Loop Text State → Prop
  | quit : Decides m files .quit
  | stop {g : ℤ} {later : Groups} : m.todo = (g, []) :: later → m.failedHere = true →
      Decides m files (.save { m.st with stoppedAfter := some g })
  | nextSize {g : ℤ} {later : Groups} : m.todo = (g, []) :: later → m.failedHere = false →
      Decides m files (.go { m with todo := later })
  | skip {g : ℤ} {rep : ℕ} {reps : List ℕ} {later : Groups} : m.todo = (g, rep :: reps) :: later →
      cellKey g rep m.args.plan.ackPoolSize ∈ m.st.done →
      Decides m files (.skip m.job { m with todo := (g, reps) :: later })
  | late : Decides m files (.save m.st)
  | launch : Decides m files (.launch m.job m)
  | verdict {g : ℤ} {rep : ℕ} {reps : List ℕ} {later : Groups} {r : Option (Bool × Text)} :
      m.todo = (g, rep :: reps) :: later →
      (∀ why, r = some (true, why) →
        ∃ t data, files m.job = some t ∧ objects.loads t = some data ∧ isOk data = true) →
      Decides m files (m.settle ((g, reps) :: later) m.job r)

theorem decides_next (m : Loop) (late : Bool) (files : Text → Option Text) :
    Decides m files (next m late files) := by
  unfold next
  split
  · exact .quit
  · next g later htodo =>
      split
      · next hfailed => exact .stop htodo hfailed
      · next hok => exact .nextSize htodo (by simpa using hok)
  · next g rep reps later htodo =>
      split
      · next hdone =>
          rw [job_eq htodo, stem_cellPath, Ledger.isDone_iff] at hdone
          exact .skip htodo hdone
      · split
        · exact .late
        · split
          · exact .launch
          · next t hfile =>
              refine .verdict htodo fun why hwhy => ?_
              obtain ⟨data, hdata, hpair⟩ := Option.map_eq_some_iff.mp hwhy
              exact ⟨t, data, hfile, hdata, (Prod.mk.inj hpair).1⟩

theorem decides_judge (m : Loop) (fin : ChildEnd) (files : Text → Option Text) :
    Decides m files (judge m m.job fin (files m.job)) := by
  unfold judge
  split
  · next g rep reps later htodo =>
      refine .verdict htodo fun why hwhy => ?_
      cases fin with
      | timedOut => simp [afterChild] at hwhy
      | exited code =>
          cases hfile : files m.job with
          | none => simp [afterChild, hfile] at hwhy
          | some t =>
              rw [hfile] at hwhy
              obtain ⟨data, hdata, hpair⟩ := Option.map_eq_some_iff.mp hwhy
              refine ⟨t, data, rfl, hdata, ?_⟩
              by_contra hbad
              rw [if_neg hbad] at hpair
              cases hpair
  · exact .quit

section Steps

variable {w w' : World} {e : Event} {a : Act Loop Text State} {m : Loop}

theorem decides_of_act (hw : sweep.Inv w) (hm : w.phase.memory? = some m) (h : sweep.act w e = some a) :
    Decides m w.results a := by
  rcases act_eq hw hm h with ⟨late, -, -, rfl⟩ | ⟨c, fin, -, rfl, -⟩
  · exact decides_next m late w.results
  · exact decides_judge m fin w.results

/-! ## A done cell has a result that is ok -/

/-- The result is ok. -/
def Ok (data : Fields) : Prop := isOk data = true

theorem lists_of_decides (h : Decides m w.results a) :
    Lists sweep (·.toLedger.done) Loop.st Ok w m a := by
  have hsame : ∀ key ∈ m.st.done, key ∈ m.st.done ∨ HasGood sweep Ok w key := fun _ => .inl
  cases h with
  | @verdict g rep reps later r htodo hgood =>
      cases r with
      | none => exact .of_eq _ hsame rfl rfl
      | some r =>
          obtain ⟨ok, why⟩ := r
          refine .of_eq (m.st.toLedger.note (stem m.job) ok why).done ?_ rfl rfl
          intro key hkey
          rcases mem_done_note.mp hkey with hold | ⟨rfl, rfl⟩
          · exact .inl hold
          · obtain ⟨t, data, hfile, hdata, hok⟩ := hgood why rfl
            rw [job_eq htodo] at hfile ⊢
            rw [stem_cellPath]
            exact .inr ⟨data, ⟨t, hfile, hdata⟩, hok⟩
  | _ => exact .of_eq _ hsame rfl rfl

theorem progress_of_decides {files : Text → Option Text} {m' : Loop} (h : Decides m files a)
    (hm : Progress m) (hm' : a.memory? = some m') : Progress m' := by
  cases h with
  | quit => cases hm'
  | stop htodo hfailed => cases hm'
  | nextSize htodo hok =>
      obtain rfl := Option.some.inj hm'
      exact hm.nextSize htodo hok
  | skip htodo hdone =>
      obtain rfl := Option.some.inj hm'
      exact hm.nextRepeat htodo rfl rfl (fun _ h => h) fun h => ⟨h, hdone⟩
  | late => cases hm'
  | launch =>
      obtain rfl := Option.some.inj hm'
      exact hm
  | @verdict g rep reps later r htodo hgood =>
      cases r with
      | none => cases hm'
      | some r =>
          obtain rfl := Option.some.inj hm'
          refine hm.nextRepeat htodo rfl rfl (fun key h => mem_done_note.mpr (Or.inl h)) fun hfailed => ?_
          obtain ⟨hbefore, hgood'⟩ := Bool.or_eq_false_iff.mp hfailed
          refine ⟨hbefore, mem_done_note.mpr (Or.inr ⟨by simpa using hgood', ?_⟩)⟩
          rw [job_eq htodo, stem_cellPath]

/-! ## A done cell stays done -/

/-- Nothing is taken off the list of done cells, and what is saved is what is kept in memory. -/
structure Carries (m : Loop) (a : Act Loop Text State) : Prop where
  memory : ∀ m', a.memory? = some m' → m'.args = m.args ∧ ∀ key ∈ m.st.done, key ∈ m'.st.done
  saved : ∀ st, a.saved? = some st → ∀ key ∈ m.st.done, key ∈ st.done
  both : ∀ st m', a.saved? = some st → a.memory? = some m' → m'.st = st

theorem carries_of_memory {m' : Loop} (hmemory : a.memory? = some m') (hsaved : a.saved? = none)
    (hargs : m'.args = m.args) (hst : m'.st = m.st) : Carries m a where
  memory m'' hm'' := by
    obtain rfl := Option.some.inj (hmemory.symm.trans hm'')
    exact ⟨hargs, fun key hkey => by rwa [hst]⟩
  saved st h := by
    rw [hsaved] at h
    cases h
  both st m'' h := by
    rw [hsaved] at h
    cases h

theorem carries_save {st : State} (hst : st.done = m.st.done) : Carries m (.save st) where
  memory m' hm' := nomatch hm'
  saved st' h key hkey := by
    obtain rfl := Option.some.inj h
    rwa [hst]
  both st' m' _ hm' := nomatch hm'

theorem carries_of_decides {files : Text → Option Text} (h : Decides m files a) : Carries m a := by
  cases h with
  | quit => exact ⟨fun _ h => (nomatch h), fun _ h => (nomatch h), fun _ _ h => (nomatch h)⟩
  | stop htodo hfailed => exact carries_save rfl
  | nextSize htodo hok => exact carries_of_memory rfl rfl rfl rfl
  | skip htodo hdone => exact carries_of_memory rfl rfl rfl rfl
  | late => exact carries_save rfl
  | launch => exact carries_of_memory rfl rfl rfl rfl
  | @verdict g rep reps later r htodo hgood =>
      cases r with
      | none => exact ⟨fun _ h => (nomatch h), fun _ h => (nomatch h), fun _ _ h => (nomatch h)⟩
      | some r =>
          refine ⟨fun m' hm' => ?_, fun st hst key hkey => ?_, fun st m' hst hm' => ?_⟩
          · obtain rfl := Option.some.inj hm'
            exact ⟨rfl, fun key hkey => mem_done_note.mpr (Or.inl hkey)⟩
          · obtain rfl := Option.some.inj hst
            exact mem_done_note.mpr (Or.inl hkey)
          · obtain rfl := Option.some.inj hm'
            exact Option.some.inj hst

theorem carries_of_act (hw : sweep.Inv w) (hm : w.phase.memory? = some m) (h : sweep.act w e = some a) :
    Carries m a := carries_of_decides (decides_of_act hw hm h)

/-- What the state file lists as done, the loops know of. -/
def Remembers (st : Option State) (m : Loop) : Prop := ∀ key ∈ (st.getD .empty).done, key ∈ m.st.done

theorem mirrors_step (hw : sweep.Inv w) (hmirrors : sweep.Mirrors Remembers w)
    (hstep : sweep.step w e = some w') : sweep.Mirrors Remembers w' := by
  refine hmirrors.step hstep (fun args st key hkey => hkey) ?_ ?_
  · intro a st m m' hact hm hremembers _ hm' key hkey
    exact ((carries_of_act hw hm hact).memory m' hm').2 key (hremembers key hkey)
  · intro a st m' hact hst hm' key hkey
    obtain ⟨m, hm⟩ := memory?_of_act hact
    rw [(carries_of_act hw hm hact).both st m' hst hm']
    exact hkey

/-- The cell is listed as done, on disk and in memory. -/
def Recorded (key : Text) (w : World) : Prop :=
  sweep.Kept (fun _ st => ∃ st', st = some st' ∧ key ∈ st'.done) (fun _ m => key ∈ m.st.done) w

theorem Recorded.step {key : Text} (hw : sweep.Inv w) (h : Recorded key w)
    (hstep : sweep.step w e = some w') : Recorded key w' := by
  refine Kept.step h hstep (fun _ hst => hst) (fun _ hm => hm) ?_ ?_
  · rintro args st - ⟨st', rfl, hkey⟩
    exact hkey
  · intro a m hact hm hkey
    have hcarries := carries_of_act hw hm hact
    exact ⟨fun m' hm' => (hcarries.memory m' hm').2 key hkey,
      fun st hst => ⟨st, rfl, hcarries.saved st hst key hkey⟩⟩

/-! ## A size with a failure is the last -/

/-- The loops are at the size `g`, which has a failing repeat. -/
def Stopping (g : ℤ) (m : Loop) : Prop :=
  (∃ reps later, m.todo = (g, reps) :: later) ∧ m.failedHere = true

theorem stopping_of_decides {g : ℤ} {files : Text → Option Text} (h : Decides m files a)
    (hm : Stopping g m) {m' : Loop} (hm' : a.memory? = some m') : Stopping g m' := by
  obtain ⟨⟨reps₀, later₀, htodo₀⟩, hfailed⟩ := hm
  cases h with
  | quit => cases hm'
  | stop htodo _ => cases hm'
  | nextSize htodo hok =>
      rw [hfailed] at hok
      cases hok
  | skip htodo hdone =>
      obtain rfl := Option.some.inj hm'
      obtain ⟨hhead, -⟩ := List.cons.inj (htodo₀.symm.trans htodo)
      obtain ⟨rfl, -⟩ := Prod.mk.inj hhead
      exact ⟨⟨_, _, rfl⟩, hfailed⟩
  | late => cases hm'
  | launch =>
      obtain rfl := Option.some.inj hm'
      exact ⟨⟨reps₀, later₀, htodo₀⟩, hfailed⟩
  | @verdict g' rep reps later r htodo hgood =>
      cases r with
      | none => cases hm'
      | some r =>
          obtain rfl := Option.some.inj hm'
          obtain ⟨hhead, -⟩ := List.cons.inj (htodo₀.symm.trans htodo)
          obtain ⟨rfl, -⟩ := Prod.mk.inj hhead
          exact ⟨⟨_, _, rfl⟩, by rw [hfailed]; rfl⟩

/-- `run_cell` returns `False` for the cell of the file. -/
def Fails (w : World) (e : Event) (name : Text) : Prop :=
  ∃ st next, sweep.act w e = some (.record name false st next)

theorem stopping_of_fails {g ack : ℤ} {rep : ℕ} (hw : sweep.Inv w) (h : Fails w e (cellPath g rep ack))
    (hstep : sweep.step w e = some w') : ∀ m, w'.phase.memory? = some m → Stopping g m := by
  obtain ⟨st, next, hact⟩ := h
  obtain rfl := Option.some.inj ((step_of_act hact).symm.trans hstep)
  obtain ⟨m, hm⟩ := memory?_of_act hact
  intro m' hm'
  rw [sweep.memory?_perform] at hm'
  have hdecides := decides_of_act hw hm hact
  generalize hrecord : Act.record (cellPath g rep ack) false st next = a at hdecides hm'
  cases hdecides with
  | @verdict g' rep' reps later r htodo hgood =>
      cases r with
      | none => cases hrecord
      | some r =>
          obtain ⟨hname, hok, -, -⟩ := Act.record.inj hrecord
          obtain rfl := Option.some.inj hm'
          rw [job_eq htodo] at hname
          obtain rfl := size_eq_of_cellPath_eq hname
          refine ⟨⟨_, _, rfl⟩, ?_⟩
          rw [← hok]
          exact Bool.or_true _
  | quit => cases hrecord
  | stop htodo hfailed => cases hrecord
  | nextSize htodo hok => cases hrecord
  | skip htodo hdone => cases hrecord
  | late => cases hrecord
  | launch => cases hrecord

/-! ## Calls of `run_cell` -/

/-- `run_cell` is called for the cell of the file. -/
def Calls (w : World) (e : Event) (name : Text) : Prop :=
  ∃ late a, e = .advance late ∧ sweep.act w e = some a ∧ a.attempt? = some name

theorem attempt?_settle (m : Loop) (rest : Groups) (name : Text) (r : Option (Bool × Text)) :
    (m.settle rest name r).attempt? = some name := by
  cases r <;> rfl

/-- The only way to a call of `run_cell`, and what it does with a result that is there. -/
theorem next_of_attempt {late : Bool} {files : Text → Option Text} {name : Text}
    (h : (next m late files).attempt? = some name) :
    ∃ g rep reps later, m.todo = (g, rep :: reps) :: later ∧ name = m.job ∧
      cellKey g rep m.args.plan.ackPoolSize ∉ m.st.done ∧
      next m late files =
        (files m.job).elim (.launch m.job m) fun t => m.settle ((g, reps) :: later) m.job (present t) := by
  unfold next at h ⊢
  split at h
  · cases h
  · split at h <;> cases h
  · next g rep reps later htodo =>
      split at h
      · cases h
      · next hdone =>
          rw [if_neg hdone]
          rw [job_eq htodo, stem_cellPath, Ledger.isDone_iff] at hdone
          split at h
          · cases h
          · next hlate =>
              rw [if_neg hlate]
              cases hfile : files m.job with
              | none =>
                  rw [hfile] at h
                  exact ⟨g, rep, reps, later, htodo, (Option.some.inj h).symm, hdone, rfl⟩
              | some t =>
                  rw [hfile, attempt?_settle] at h
                  exact ⟨g, rep, reps, later, htodo, (Option.some.inj h).symm, hdone, rfl⟩

/-- An action at the top of the loops. -/
theorem act_advance {late : Bool} (h : sweep.act w (.advance late) = some a) :
    ∃ m, w.phase = .top m ∧ a = next m late w.results := by
  rcases act_cases h with ⟨m, late', hphase, he, rfl⟩ | ⟨m, name, c, fin, -, -, ⟨code, he, -⟩ | ⟨he, -⟩⟩
  · obtain rfl := Event.advance.inj he
    exact ⟨m, hphase, rfl⟩
  · cases he
  · cases he

/-- It is called for the cell the loops are at, if that is not done. -/
theorem calls_cases {name : Text} (h : Calls w e name) :
    ∃ m g rep reps later, w.phase = .top m ∧ m.todo = (g, rep :: reps) :: later ∧
      name = cellPath g rep m.args.plan.ackPoolSize ∧
      cellKey g rep m.args.plan.ackPoolSize ∉ m.st.done := by
  obtain ⟨late, a, rfl, hact, hattempt⟩ := h
  obtain ⟨m, hphase, rfl⟩ := act_advance hact
  obtain ⟨g, rep, reps, later, htodo, hname, hdone, -⟩ := next_of_attempt hattempt
  exact ⟨m, g, rep, reps, later, hphase, htodo, hname.trans (job_eq htodo), hdone⟩

end Steps

section Runs

variable {es : List Event} {w : World}

theorem allOk_of_run (hrun : run sweep.step .fresh es = some w) :
    AllGood sweep (·.toLedger.done) Loop.st Ok w :=
  allGood_of_run hrun (fun _ st => by cases st <;> rfl) fun _ _ _ _ hu hm hact =>
    lists_of_decides (decides_of_act hu hm hact)

theorem progress_of_run (hrun : run sweep.step .fresh es = some w) :
    ∀ m, w.phase.memory? = some m → Progress m :=
  memory_of_run inv_fresh hrun (fun _ hm => nomatch hm) (fun a st _ => progress_start a st)
    fun _ _ _ _ _ hu hact hm hprogress hm' => progress_of_decides (decides_of_act hu hm hact) hprogress hm'

theorem mirrors_of_run (hrun : run sweep.step .fresh es = some w) : sweep.Mirrors Remembers w :=
  Inv.run (fun _ _ _ hu hm h => mirrors_step hu hm h) inv_fresh
    ⟨fun _ _ _ h => (nomatch h), fun _ _ _ h => (nomatch h)⟩ hrun

/-- What the state file lists, the cell is recorded by. -/
theorem recorded_of_run (hrun : run sweep.step .fresh es = some w) {st : State} {key : Text}
    (hload : sweep.load w.state = some (some st)) (hkey : key ∈ st.done) : Recorded key w := by
  refine ⟨?_, ?_, ?_⟩
  · intro st' hst'
    obtain rfl := Option.some.inj (hload.symm.trans hst')
    exact ⟨st, rfl, hkey⟩
  · intro m hm
    exact (mirrors_of_run hrun).memory _ m hload hm key hkey
  · intro st' n next hphase
    rw [(inv_of_run hrun).saving _ _ _ hphase] at hload
    obtain rfl := Option.some.inj (eq_of_load_take hload)
    exact ⟨st, rfl, hkey⟩

/-- The invocation that runs is one of the series. -/
theorem plan_of_run {p : Plan} (hplan : ∀ a, .invoke a ∈ es → a.plan = p)
    (hrun : run sweep.step .fresh es = some w) : ∀ m, w.phase.memory? = some m → m.args.plan = p := by
  refine memory_of_run inv_fresh hrun (fun _ hm => nomatch hm) (fun a _ ha => hplan a ha) ?_
  intro u e a m m' hu hact hm hp hm'
  rw [((carries_of_act hu hm hact).memory m' hm').1]
  exact hp

end Runs

/-! ## The sweep over any number of invocations -/

/-- What holds from `w` on, of a series of invocations with the plan `p`. -/
structure Escalates (p : Plan) (w : World) : Prop where
  /-- a result file that is there is never written again -/
  unwritten : ∀ name t, w.results name = some t → (∀ d n, w.phase.child? ≠ some (name, .writing d n)) →
    ∀ es w', run sweep.step w es = some w' →
      w'.results name = some t ∧ ∀ c, w'.phase.child? ≠ some (name, c)
  /-- a cell that is recorded as done is never run again -/
  doneOnce : ∀ st key, sweep.load w.state = some (some st) → key ∈ st.done →
    ∀ es e u, Takes sweep.step w es e u → ¬ Calls u e (jsonFile key)
  /-- within the invocation, no larger size is run after a failure -/
  lastSize : ∀ e w' g rep ack, Fails w e (cellPath g rep ack) → sweep.step w e = some w' →
    ∀ es, (∀ a, .invoke a ∉ es) → ∀ e' u, Takes sweep.step w' es e' u →
      ∀ g' rep' ack', Calls u e' (cellPath g' rep' ack') → g' ≤ g
  /-- a failing result is the ceiling of every invocation from then on -/
  ceiling : ∀ g ∈ p.groupSizes, ∀ rep < p.repeats.toNat, ∀ data,
    sweep.HasResult (cellPath g rep p.ackPoolSize) data w → isOk data = false →
    ∀ es, (∀ a, .invoke a ∈ es → a.plan = p) → ∀ e u, Takes sweep.step w es e u →
      ∀ g' rep' ack', Calls u e (cellPath g' rep' ack') → g' ≤ g

section Series

variable {p : Plan} {es : List Event} {w : World}

theorem not_calls_of_recorded {key : Text} (hw : sweep.Inv w) (h : Recorded key w) {es' : List Event}
    {e : Event} {u : World} (htakes : Takes sweep.step w es' e u) : ¬ Calls u e (jsonFile key) := by
  obtain ⟨bs, cs, -, hrun⟩ := htakes
  have hrecorded : Recorded key u := Inv.run (fun _ _ _ hu hr hstep => hr.step hu hstep) hw h hrun
  intro hcalls
  obtain ⟨m, g, rep, reps, later, hphase, -, hname, hdone⟩ := calls_cases hcalls
  have hkey : key = cellKey g rep m.args.plan.ackPoolSize := List.append_cancel_right hname
  exact hdone (hkey ▸ hrecorded.memory m (by rw [hphase]; rfl))

theorem le_of_fails {g ack : ℤ} {rep : ℕ} {e : Event} {w' : World} (hw : sweep.Inv w)
    (hfails : Fails w e (cellPath g rep ack)) (hstep : sweep.step w e = some w') {es' : List Event}
    (hsame : ∀ a, .invoke a ∉ es') {e' : Event} {u : World} (htakes : Takes sweep.step w' es' e' u)
    {g' ack' : ℤ} {rep' : ℕ} (hcalls : Calls u e' (cellPath g' rep' ack')) : g' ≤ g := by
  obtain ⟨bs, cs, rfl, hrun⟩ := htakes
  -- the invocation of the failure is the one that runs: no other is in the events
  have hstopping : ∀ m, u.phase.memory? = some m → Stopping g m := by
    refine memory_of_run (hw.step hstep) hrun (stopping_of_fails hw hfails hstep) ?_ ?_
    · intro a x ha
      exact absurd (List.mem_append_left _ ha) (hsame a)
    · intro v e a m m' hv hact hm h hm'
      exact stopping_of_decides (decides_of_act hv hm hact) h hm'
  obtain ⟨m, g₁, rep₁, reps, later, hphase, htodo, hname, -⟩ := calls_cases hcalls
  obtain ⟨⟨reps₀, later₀, htodo₀⟩, -⟩ := hstopping m (by rw [hphase]; rfl)
  obtain ⟨hhead, -⟩ := List.cons.inj (htodo₀.symm.trans htodo)
  obtain rfl := size_eq_of_cellPath_eq hname
  exact le_of_eq (Prod.mk.inj hhead).1.symm

/-- The sizes below the one the loops are at are before it in the plan. -/
theorem mem_before {before : List ℤ} {g g' : ℤ} {rest : List ℤ} (h : p.sizes = before ++ g' :: rest)
    (hg : g ∈ p.groupSizes) (hlt : g < g') : g ∈ before := by
  have hpairwise := sizes_pairwise p
  have hmem := mem_sizes.mpr hg
  rw [h] at hpairwise hmem
  rcases List.mem_append.mp hmem with hbefore | hmem
  · exact hbefore
  · obtain ⟨-, htail, -⟩ := List.pairwise_append.mp hpairwise
    rcases List.mem_cons.mp hmem with rfl | hrest
    · exact absurd hlt (lt_irrefl _)
    · exact absurd hlt (lt_asymm ((List.pairwise_cons.mp htail).1 g hrest))

theorem le_of_failing (hplan : ∀ a, .invoke a ∈ es → a.plan = p)
    (hrun : run sweep.step .fresh es = some w) {g : ℤ} {rep : ℕ} (hg : g ∈ p.groupSizes)
    (hrep : rep < p.repeats.toNat) {data : Fields}
    (hresult : sweep.HasResult (cellPath g rep p.ackPoolSize) data w) (hbad : isOk data = false)
    {es' : List Event} (hplan' : ∀ a, .invoke a ∈ es' → a.plan = p) {e : Event} {u : World}
    (htakes : Takes sweep.step w es' e u) {g' ack' : ℤ} {rep' : ℕ}
    (hcalls : Calls u e (cellPath g' rep' ack')) : g' ≤ g := by
  obtain ⟨bs, cs, rfl, hrest⟩ := htakes
  have hall : run sweep.step .fresh (es ++ bs) = some u := run_append_eq_some.mpr ⟨w, hrun, hrest⟩
  obtain ⟨m, g₁, rep₁, reps, later, hphase, htodo, hname, -⟩ := calls_cases hcalls
  obtain rfl := size_eq_of_cellPath_eq hname
  have hm : u.phase.memory? = some m := by rw [hphase]; rfl
  have hp : m.args.plan = p := by
    refine plan_of_run ?_ hall m hm
    intro a ha
    rcases List.mem_append.mp ha with ha | ha
    · exact hplan a ha
    · exact hplan' a (List.mem_append_left _ ha)
  by_contra hlt
  obtain ⟨before, hsizes, hbefore⟩ := (progress_of_run hall m hm).before
  rw [htodo, hp] at hsizes
  -- the smaller size has been passed, so its cell is done; but its result is not ok
  have hdone := hbefore g (mem_before hsizes hg (not_le.mp hlt)) rep (by rw [hp]; exact hrep)
  rw [hp] at hdone
  obtain ⟨data', ⟨t', htext', hloads'⟩, hok⟩ := (allOk_of_run hall).memory m hm _ hdone
  obtain ⟨t, htext, hloads⟩ := hresult.run (inv_of_run hrun) hrest
  obtain rfl := Option.some.inj (htext.symm.trans htext')
  obtain rfl := Option.some.inj (hloads.symm.trans hloads')
  exact nomatch hbad.symm.trans hok

end Series

/-- **Escalation.** From wherever a series of invocations has come to. -/
theorem sweep_escalates {p : Plan} {es : List Event} {w : World}
    (hplan : ∀ a, .invoke a ∈ es → a.plan = p) (hrun : run sweep.step .fresh es = some w) :
    Escalates p w := by
  have hinv := inv_of_run hrun
  refine ⟨?_, ?_, ?_, ?_⟩
  · intro name t htext hnot es' w' hrun'
    have hrest : AtRest name t w := by
      refine ⟨htext, fun c hchild => ?_⟩
      cases c with
      | working => exact absurd ((hinv.working name hchild).symm.trans htext) (by simp)
      | writing d n => exact hnot d n hchild
    exact hrest.run hrun'
  · intro st key hload hkey es' e u htakes
    exact not_calls_of_recorded hinv (recorded_of_run hrun hload hkey) htakes
  · intro e w' g rep ack hfails hstep es' hsame e' u htakes g' rep' ack' hcalls
    exact le_of_fails hinv hfails hstep hsame htakes hcalls
  · intro g hg rep hrep data hresult hbad es' hplan' e u htakes g' rep' ack' hcalls
    exact le_of_failing hplan hrun hg hrep hresult hbad hplan' htakes hcalls

/-- Two sizes, given in the wrong order. -/
def twoSizes : Plan := ⟨[2, 1], 1, 1⟩

/-- The smaller size leaves a result without a status. -/
def failingRun : List Event :=
  [.invoke ⟨twoSizes, 3600⟩, .advance false, .opens [], .writes 2, .exits 1]

theorem sweep_escalates_failing :
    ∃ w, run sweep.step .fresh failingRun = some w ∧ Escalates twoSizes w := by
  have hsome : (run sweep.step .fresh failingRun).isSome = true := by decide
  obtain ⟨w, hw⟩ := Option.isSome_iff_exists.mp hsome
  refine ⟨w, hw, sweep_escalates ?_ hw⟩
  intro a ha
  obtain rfl : a = ⟨twoSizes, 3600⟩ := by simpa [failingRun] using ha
  rfl

end PqcMigration.Sweeps.BatchScaling
