/-
# PqcMigration.Lib.WorkQueue — workers that pull numbered jobs off one shared counter.

Jobs `0, 1, …, jobs - 1` wait in order. A worker takes the next one under a lock, runs it, records
what came of it in a memory the workers share, and comes back for more; when the counter has reached
`jobs` it leaves. Workers move in any order, and a label says who moves, which job it is about and,
for a job that ends, what came of it.

The labels of a run are its history, so "each job is run exactly once" is a statement about them:
`started` and `finished` list the jobs taken and ended so far. `Inv` says how they hang together with
the state, `run_inv` that every run keeps it, and `length_add_work` that a run gets one step closer to
its end with every label. So a run that cannot go on has ended, and none goes on for ever.
-/
import Mathlib.Data.Fintype.Card
import Mathlib.Data.List.Range
import PqcMigration.Lib.Run
import PqcMigration.Lib.Threads

namespace PqcMigration.Lib.WorkQueue

universe u v w

variable {ι : Type u} {M : Type v} {R : Type w}

/-- Where a worker stands. -/
inductive Pc where
  | ready
  | running (job : ℕ)
  | left
  deriving DecidableEq

/-- The job a worker is running. -/
def Pc.job : Pc → Option ℕ
  | .running j => some j
  | _ => none

structure State (ι : Type u) (M : Type v) where
  next : ℕ
  pc : ι → Pc
  mem : M

inductive Event (ι : Type u) (R : Type w) where
  | take (i : ι) (job : ℕ)
  | finish (i : ι) (job : ℕ) (result : R)
  | leave (i : ι)

section Step

variable [DecidableEq ι]

def step (jobs : ℕ) (record : M → ℕ → R → M) (s : State ι M) : Event ι R → Option (State ι M)
  | .take i job =>
      if s.pc i = .ready ∧ s.next < jobs ∧ job = s.next then
        some { s with next := s.next + 1, pc := Function.update s.pc i (.running job) }
      else none
  | .finish i job result =>
      if s.pc i = .running job then
        some { s with pc := Function.update s.pc i .ready, mem := record s.mem job result }
      else none
  | .leave i =>
      if s.pc i = .ready ∧ jobs ≤ s.next then
        some { s with pc := Function.update s.pc i .left }
      else none

variable {jobs : ℕ} {record : M → ℕ → R → M} {s t : State ι M} {e : Event ι R}

/-- Everything a step can do. -/
theorem step_cases (h : step jobs record s e = some t) :
    (∃ i, e = .take i s.next ∧ s.pc i = .ready ∧ s.next < jobs ∧
      t = { s with next := s.next + 1, pc := Function.update s.pc i (.running s.next) }) ∨
    (∃ i job result, e = .finish i job result ∧ s.pc i = .running job ∧
      t = { s with pc := Function.update s.pc i .ready, mem := record s.mem job result }) ∨
    (∃ i, e = .leave i ∧ s.pc i = .ready ∧ jobs ≤ s.next ∧
      t = { s with pc := Function.update s.pc i .left }) := by
  cases e with
  | take i job =>
      simp only [step] at h
      split at h
      · next hguard =>
          obtain ⟨hready, hlt, rfl⟩ := hguard
          exact Or.inl ⟨i, rfl, hready, hlt, (Option.some.inj h).symm⟩
      · cases h
  | finish i job result =>
      simp only [step] at h
      split at h
      · next hrunning =>
          exact Or.inr (Or.inl ⟨i, job, result, rfl, hrunning, (Option.some.inj h).symm⟩)
      · cases h
  | leave i =>
      simp only [step] at h
      split at h
      · next hguard =>
          exact Or.inr (Or.inr ⟨i, rfl, hguard.1, hguard.2, (Option.some.inj h).symm⟩)
      · cases h

end Step

/-! ## What the labels say -/

/-- The job a label takes. -/
def Event.started : Event ι R → Option ℕ
  | .take _ job => some job
  | _ => none

/-- The job a label ends, and what came of it. -/
def Event.finished : Event ι R → Option (ℕ × R)
  | .finish _ job result => some (job, result)
  | _ => none

def started (evs : List (Event ι R)) : List ℕ := evs.filterMap Event.started

def finished (evs : List (Event ι R)) : List (ℕ × R) := evs.filterMap Event.finished

@[simp] theorem started_append (evs evs' : List (Event ι R)) :
    started (evs ++ evs') = started evs ++ started evs' := List.filterMap_append

@[simp] theorem finished_append (evs evs' : List (Event ι R)) :
    finished (evs ++ evs') = finished evs ++ finished evs' := List.filterMap_append

/-- The memory after results came in, in this order. -/
def recordAll (record : M → ℕ → R → M) (m : M) (rs : List (ℕ × R)) : M :=
  rs.foldl (fun m r => record m r.1 r.2) m

section Cells

variable {X : Type*} {record : M → ℕ → R → M} (get : M → ℕ → X) {rs : List (ℕ × R)} {j : ℕ}

/-- A cell no result is for stays as it is. -/
theorem recordAll_of_notMem (hother : ∀ m j r k, k ≠ j → get (record m j r) k = get m k)
    (h : j ∉ rs.map Prod.fst) (m : M) : get (recordAll record m rs) j = get m j := by
  induction rs generalizing m with
  | nil => rfl
  | cons r rs ih =>
      obtain ⟨hne, hrest⟩ := not_or.mp (mt List.mem_cons.mpr h)
      show get (recordAll record (record m r.1 r.2) rs) j = get m j
      rw [ih hrest]
      exact hother m r.1 r.2 j hne

/-- A cell that one result is for holds what that result leaves. -/
theorem recordAll_of_mem (f : R → X → X) (hown : ∀ m j r, get (record m j r) j = f r (get m j))
    (hother : ∀ m j r k, k ≠ j → get (record m j r) k = get m k) (hnodup : (rs.map Prod.fst).Nodup)
    {r : R} (h : (j, r) ∈ rs) (m : M) : get (recordAll record m rs) j = f r (get m j) := by
  induction rs generalizing m with
  | nil => cases h
  | cons r' rs ih =>
      obtain ⟨hnot, hrest⟩ := List.nodup_cons.mp hnodup
      show get (recordAll record (record m r'.1 r'.2) rs) j = f r (get m j)
      rcases List.mem_cons.mp h with rfl | hmem
      · rw [recordAll_of_notMem get hother hnot]
        exact hown m j r
      · have hne : j ≠ r'.1 := by
          rintro rfl
          exact hnot (List.mem_map.mpr ⟨_, hmem, rfl⟩)
        rw [ih hrest hmem, hother m r'.1 r'.2 j hne]

end Cells

/-- Nobody has started. -/
def start (m : M) : State ι M := ⟨0, fun _ => .ready, m⟩

/-- Every worker has left. -/
def Done (s : State ι M) : Prop := ∀ i, s.pc i = .left

instance [Fintype ι] (s : State ι M) : Decidable (Done s) :=
  inferInstanceAs (Decidable (∀ i, s.pc i = .left))

/-- History and state: the jobs below the counter are those that ended and those that are running, one
worker each, and the memory holds what came of the ended ones. -/
structure Inv (jobs : ℕ) (record : M → ℕ → R → M) (m : M) (evs : List (Event ι R))
    (s : State ι M) : Prop where
  order : started evs = List.range s.next
  bound : s.next ≤ jobs
  mem : s.mem = recordAll record m (finished evs)
  nodup : ((finished evs).map Prod.fst).Nodup
  covered : ∀ j, j < s.next ↔ j ∈ (finished evs).map Prod.fst ∨ ∃ i, s.pc i = .running j
  fresh : ∀ i j, s.pc i = .running j → j ∉ (finished evs).map Prod.fst
  alone : ∀ i i' j, s.pc i = .running j → s.pc i' = .running j → i = i'
  left : ∀ i, s.pc i = .left → jobs ≤ s.next

theorem inv_start (jobs : ℕ) (record : M → ℕ → R → M) (m : M) :
    Inv jobs record m ([] : List (Event ι R)) (start m) where
  order := rfl
  bound := Nat.zero_le _
  mem := rfl
  nodup := List.nodup_nil
  covered j := by simp [start, WorkQueue.finished]
  fresh := by simp [start]
  alone := by simp [start]
  left := by simp [start]

section

variable {jobs : ℕ} {record : M → ℕ → R → M} {m : M} {s : State ι M} {evs : List (Event ι R)}

/-- **Exactly once.** When every worker has left, each job was started once, in order, and ended once.
-/
theorem Inv.done [Nonempty ι] (h : Inv jobs record m evs s) (hdone : Done s) :
    WorkQueue.started evs = List.range jobs ∧
      ((finished evs).map Prod.fst).Perm (List.range jobs) := by
  have hnext : s.next = jobs := by
    refine Nat.le_antisymm h.bound ?_
    exact h.left (Classical.arbitrary ι) (hdone _)
  refine ⟨by rw [h.order, hnext], (List.perm_ext_iff_of_nodup h.nodup List.nodup_range).mpr ?_⟩
  intro j
  rw [List.mem_range, ← hnext, h.covered j]
  constructor
  · exact Or.inl
  · rintro (hj | ⟨i, hi⟩)
    · exact hj
    · rw [hdone i] at hi
      cases hi

end

section Laws

variable [DecidableEq ι] {jobs : ℕ} {record : M → ℕ → R → M} {m : M} {s t : State ι M}
  {evs : List (Event ι R)}

theorem Inv.take (h : Inv jobs record m evs s) {i : ι} (hready : s.pc i = .ready)
    (hlt : s.next < jobs) : Inv jobs record m (evs ++ [.take i s.next])
      { s with next := s.next + 1, pc := Function.update s.pc i (.running s.next) } := by
  have hfinished : finished (evs ++ [Event.take i s.next]) = finished evs := by
    rw [finished_append]
    exact List.append_nil _
  -- the job at the counter is neither finished nor running
  have hnew : ∀ j, j ∈ (finished evs).map Prod.fst ∨ (∃ k, s.pc k = .running j) → j ≠ s.next :=
    fun j hj => (Nat.ne_of_lt ((h.covered j).mpr hj))
  refine
    { order := ?_, bound := hlt, mem := ?_, nodup := ?_, covered := ?_, fresh := ?_, alone := ?_,
      left := ?_ }
  · rw [started_append, h.order, List.range_succ]
    rfl
  · rw [hfinished]
    exact h.mem
  · rw [hfinished]
    exact h.nodup
  · intro j
    rw [hfinished]
    show j < s.next + 1 ↔ _
    rw [Nat.lt_succ_iff_lt_or_eq, h.covered j]
    constructor
    · rintro ((hj | ⟨k, hk⟩) | rfl)
      · exact Or.inl hj
      · refine Or.inr ⟨k, ?_⟩
        have hki : k ≠ i := by
          rintro rfl
          rw [hready] at hk
          cases hk
        exact (Function.update_of_ne hki _ _).trans hk
      · exact Or.inr ⟨i, Function.update_self _ _ _⟩
    · rintro (hj | ⟨k, hk⟩)
      · exact Or.inl (Or.inl hj)
      · rcases of_update (Q := fun p => p = Pc.running j) hk with ⟨-, hj⟩ | ⟨-, hk⟩
        · exact Or.inr (Pc.running.inj hj).symm
        · exact Or.inl (Or.inr ⟨k, hk⟩)
  · intro k j hk
    rw [hfinished]
    rcases of_update (Q := fun p => p = Pc.running j) hk with ⟨-, hj⟩ | ⟨-, hk⟩
    · obtain rfl := Pc.running.inj hj
      intro hmem
      exact hnew _ (Or.inl hmem) rfl
    · exact h.fresh k j hk
  · intro k k' j hk hk'
    rcases of_update (Q := fun p => p = Pc.running j) hk with ⟨rfl, hj⟩ | ⟨-, hold⟩
    · rcases of_update (Q := fun p => p = Pc.running j) hk' with ⟨rfl, -⟩ | ⟨-, hold'⟩
      · rfl
      · exact absurd (Pc.running.inj hj).symm (hnew j (Or.inr ⟨k', hold'⟩))
    · rcases of_update (Q := fun p => p = Pc.running j) hk' with ⟨rfl, hj⟩ | ⟨-, hold'⟩
      · exact absurd (Pc.running.inj hj).symm (hnew j (Or.inr ⟨k, hold⟩))
      · exact h.alone k k' j hold hold'
  · intro k hk
    obtain ⟨-, hk⟩ := of_update_of_not (Q := fun p => p = Pc.left) (by simp) hk
    exact absurd (h.left k hk) (by omega)

theorem Inv.finish (h : Inv jobs record m evs s) {i : ι} {job : ℕ} (result : R)
    (hrunning : s.pc i = .running job) : Inv jobs record m (evs ++ [.finish i job result])
      { s with pc := Function.update s.pc i .ready, mem := record s.mem job result } := by
  have hfinished : finished (evs ++ [Event.finish i job result]) = finished evs ++ [(job, result)] :=
    finished_append _ _
  have hjobs : (finished (evs ++ [Event.finish i job result])).map Prod.fst =
      (finished evs).map Prod.fst ++ [job] := by
    rw [hfinished, List.map_append]
    rfl
  have hkeep : ∀ {k j}, Function.update s.pc i Pc.ready k = .running j →
      k ≠ i ∧ s.pc k = .running j := by
    intro k j hk
    exact of_update_of_not (Q := fun p => p = Pc.running j) (by simp) hk
  -- the job goes from the running to the finished; the two together stay what has been handed out
  refine
    { order := ?_, bound := h.bound, mem := ?_, nodup := ?_, covered := ?_, fresh := ?_,
      alone := ?_, left := ?_ }
  · rw [started_append, h.order]
    exact List.append_nil _
  · rw [hfinished, recordAll, List.foldl_append]
    show record s.mem job result = record (recordAll record m (finished evs)) job result
    rw [← h.mem]
  · rw [hjobs]
    refine List.nodup_append.mpr ⟨h.nodup, List.nodup_singleton _, ?_⟩
    intro a ha b hb hab
    obtain rfl := List.mem_singleton.mp hb
    exact h.fresh i b hrunning (hab ▸ ha)
  · intro j
    rw [hjobs, List.mem_append, List.mem_singleton]
    show j < s.next ↔ _
    rw [h.covered j]
    constructor
    · rintro (hj | ⟨k, hk⟩)
      · exact Or.inl (Or.inl hj)
      · by_cases hki : k = i
        · subst hki
          exact Or.inl (Or.inr (Pc.running.inj (hk.symm.trans hrunning)))
        · exact Or.inr ⟨k, (Function.update_of_ne hki _ _).trans hk⟩
    · rintro ((hj | rfl) | ⟨k, hk⟩)
      · exact Or.inl hj
      · exact Or.inr ⟨i, hrunning⟩
      · exact Or.inr ⟨k, (hkeep hk).2⟩
  · intro k j hk
    obtain ⟨hki, hold⟩ := hkeep hk
    rw [hjobs, List.mem_append, List.mem_singleton]
    rintro (hj | rfl)
    · exact h.fresh k j hold hj
    · exact hki (h.alone k i j hold hrunning)
  · intro k k' j hk hk'
    exact h.alone k k' j (hkeep hk).2 (hkeep hk').2
  · intro k hk
    exact h.left k (of_update_of_not (Q := fun p => p = Pc.left) (by simp) hk).2

theorem Inv.leave (h : Inv jobs record m evs s) {i : ι} (hready : s.pc i = .ready)
    (hend : jobs ≤ s.next) : Inv jobs record m (evs ++ [.leave i])
      { s with pc := Function.update s.pc i .left } := by
  have hfinished : finished (evs ++ [(Event.leave i : Event ι R)]) = finished evs := by
    rw [finished_append]
    exact List.append_nil _
  have hkeep : ∀ {k j}, Function.update s.pc i Pc.left k = .running j ↔ s.pc k = .running j := by
    intro k j
    by_cases hki : k = i
    · subst hki
      simp [hready]
    · rw [Function.update_of_ne hki]
  refine
    { order := ?_, bound := h.bound, mem := ?_, nodup := ?_, covered := ?_, fresh := ?_,
      alone := ?_, left := fun _ _ => hend }
  · rw [started_append, h.order]
    exact List.append_nil _
  · rw [hfinished]
    exact h.mem
  · rw [hfinished]
    exact h.nodup
  · intro j
    simp only [hfinished, hkeep]
    exact h.covered j
  · intro k j hk
    rw [hfinished]
    exact h.fresh k j (hkeep.mp hk)
  · intro k k' j hk hk'
    exact h.alone k k' j (hkeep.mp hk) (hkeep.mp hk')

/-- **Every run keeps the invariant.** -/
theorem run_inv (hrun : run (step jobs record) (start m) evs = some s) :
    Inv jobs record m evs s := by
  refine run_history (I := Inv jobs record m) ?_ (inv_start jobs record m) hrun
  intro bs s e t hinv hstep
  obtain ⟨i, rfl, hready, hlt, rfl⟩ | ⟨i, job, result, rfl, hrunning, rfl⟩ |
    ⟨i, rfl, hready, hend, rfl⟩ := step_cases hstep
  · exact hinv.take hready hlt
  · exact hinv.finish result hrunning
  · exact hinv.leave hready hend

/-! ## Runs end -/

/-- How many labels a worker has before it, apart from the jobs still to be taken. -/
def Pc.weight : Pc → ℕ
  | .ready => 1
  | .running _ => 2
  | .left => 0

@[simp] theorem Pc.weight_ready : Pc.ready.weight = 1 := rfl

@[simp] theorem Pc.weight_running (j : ℕ) : (Pc.running j).weight = 2 := rfl

@[simp] theorem Pc.weight_left : Pc.left.weight = 0 := rfl

/-- How many labels a run has before it. -/
def work [Fintype ι] (jobs : ℕ) (s : State ι M) : ℕ :=
  2 * (jobs - s.next) + ∑ i, (s.pc i).weight

theorem work_step [Fintype ι] {e : Event ι R} (h : step jobs record s e = some t) :
    work jobs t + 1 = work jobs s := by
  obtain ⟨i, rfl, hready, hlt, rfl⟩ | ⟨i, job, result, rfl, hrunning, rfl⟩ |
    ⟨i, rfl, hready, hend, rfl⟩ := step_cases h
  · have hsum := sum_update (fun _ => Pc.weight) s.pc i (.running s.next)
    rw [hready, Pc.weight_ready, Pc.weight_running] at hsum
    simp only [work]
    omega
  · have hsum := sum_update (fun _ => Pc.weight) s.pc i .ready
    rw [hrunning, Pc.weight_ready, Pc.weight_running] at hsum
    simp only [work]
    omega
  · have hsum := sum_update (fun _ => Pc.weight) s.pc i .left
    rw [hready, Pc.weight_ready, Pc.weight_left] at hsum
    simp only [work]
    omega

/-- **A run gets one step closer to its end with every label.** -/
theorem length_add_work [Fintype ι] (hrun : run (step jobs record) (start m) evs = some s) :
    evs.length + work jobs s = 2 * jobs + Fintype.card ι := by
  refine run_history (I := fun bs s => bs.length + work jobs s = 2 * jobs + Fintype.card ι)
    ?_ ?_ hrun
  · intro bs s e t hlen hstep
    have hwork := work_step hstep
    rw [List.length_append, List.length_singleton]
    omega
  · simp [work, start]

/-- **A run that cannot go on has ended.** -/
theorem exists_step_of_not_done [Nonempty R] (hnot : ¬ Done s) :
    ∃ (e : Event ι R) (t : State ι M), step jobs record s e = some t := by
  obtain ⟨i, hi⟩ := not_forall.mp hnot
  cases hpc : s.pc i with
  | left => exact absurd hpc hi
  | running j => exact ⟨.finish i j (Classical.arbitrary R), _, if_pos hpc⟩
  | ready =>
      by_cases hlt : s.next < jobs
      · exact ⟨.take i s.next, _, if_pos ⟨hpc, hlt, rfl⟩⟩
      · exact ⟨.leave i, _, if_pos ⟨hpc, Nat.le_of_not_lt hlt⟩⟩

end Laws

/-! ## Jobs in flight -/

/-- The jobs being run, worker by worker. -/
def inFlight {n : ℕ} (s : State (Fin n) M) : List ℕ :=
  (List.finRange n).filterMap fun i => (s.pc i).job

theorem length_inFlight_le {n : ℕ} (s : State (Fin n) M) : (inFlight s).length ≤ n := by
  have h := List.length_filterMap_le (fun i => (s.pc i).job) (List.finRange n)
  rwa [List.length_finRange] at h

end PqcMigration.Lib.WorkQueue
