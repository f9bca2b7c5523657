/-
# PqcMigration.App.EmptyValueRace — the wrapper's `Get` while other threads write.

`emptyValueDB.Get` reads the store TWICE: the inner `Get`, and, when that gave `nil`, the iterator
probe. The wrapper takes no lock, so `Set` and `Delete` of other threads can fall before, between
and after the two reads. Here one call runs against any such schedule: the state is the contents and
where the call stands, a label is another thread's write or one of the call's own two steps.

The law one would want — the answer is a value, or an absence, the key really had at some instant
of the call — FAILS: a key created with a non-empty value between the two reads is reported as
present with an empty value (`torn_read`). `reads_some_instant_iff` says that this is the only way.
-/
import PqcMigration.App.EmptyValueDB
import PqcMigration.Lib.Run

namespace PqcMigration.App.EmptyValueDB

open Lib

universe u

variable {ε : Type u}

/-! ## One call among other threads -/

/-- Where the call stands. -/
inductive Pc (ε : Type u) where
  /-- before the inner `Get` -/
  | calling
  /-- the inner `Get` gave `nil` without an error -/
  | probing
  /-- the call has returned -/
  | returned (r : Slice × Option ε)

/-- The contents, and where the call stands. -/
structure World (ε : Type u) where
  store : Content
  pc : Pc ε

/-- A write by another thread. -/
inductive Write where
  | set (k v : Bytes)
  | delete (k : Bytes)

def Write.apply (m : Content) : Write → Content
  | .set k v => m.insert k v
  | .delete k => m.erase k

/-- A write by another thread, or one of the call's two steps. -/
inductive Event where
  | write (o : Write)
  | innerGet
  | probe

/-- One step. `db m` is the inner store when its contents are `m`. -/
def step (db : Content → DB ε) (key : Bytes) (w : World ε) : Event → Option (World ε)
  | .write o => some { w with store := o.apply w.store }
  | .innerGet =>
      match w.pc with
      | .calling =>
          let r := (db w.store).get key
          some { w with pc := if isFinal r then .returned r else .probing }
      | _ => none
  | .probe =>
      match w.pc with
      | .probing => some { w with pc := .returned (EmptyValueDB.probe (db w.store) key) }
      | _ => none

/-- The world at the moment of the call. -/
def start (m : Content) : World ε := ⟨m, .calling⟩

/-- The call has not returned yet: this instant lies during the call. -/
def World.During (w : World ε) : Prop := ∀ r, w.pc ≠ .returned r

theorem World.during_of_pc {w : World ε} {p : Pc ε} (hpc : w.pc = p)
    (hp : ∀ r, p ≠ .returned r) : w.During := by
  intro r
  rw [hpc]
  exact hp r

/-- The call's two steps, with nothing in between, are `Get`. -/
theorem get_of_uninterrupted (db : Content → DB ε) (key : Bytes) (m : Content) :
    run (step db key) (start m)
        (if isFinal ((db m).get key) then [.innerGet] else [.innerGet, .probe]) =
      some ⟨m, .returned (get (db m) key)⟩ := by
  by_cases hfin : isFinal ((db m).get key) = true
  · simp [run, step, start, get, hfin]
  · simp [run, step, start, get, hfin]

/-! ## What a completed call has done -/

/-- A returned call stays returned. -/
theorem returned_final {db : Content → DB ε} {key : Bytes} {w t : World ε} {evs : List Event}
    {r : Slice × Option ε} (hw : w.pc = .returned r)
    (hrun : run (step db key) w evs = some t) : t.pc = .returned r := by
  refine run_invariant (I := fun w : World ε => w.pc = .returned r) ?_ hw hrun
  intro s e s' hs hstep
  cases e with
  | write o =>
      obtain rfl := Option.some.inj hstep
      exact hs
  | innerGet => simp [step, hs] at hstep
  | probe => simp [step, hs] at hstep

/-- What a call has done by where it stands. One that returns has taken the inner `Get`, and then either
handed its answer on or probed. -/
def Did (db : Content → DB ε) (key : Bytes) (m : Content) (evs : List Event) : Pc ε → Prop
  | .calling => True
  | .probing => ∃ u, Takes (step db key) (start m) evs .innerGet u ∧ u.pc = .calling ∧
      isFinal ((db u.store).get key) = false
  | .returned r => ∃ u, Takes (step db key) (start m) evs .innerGet u ∧ u.pc = .calling ∧
      ((isFinal ((db u.store).get key) = true ∧ r = (db u.store).get key) ∨
        (isFinal ((db u.store).get key) = false ∧
          ∃ u', Takes (step db key) (start m) evs .probe u' ∧ u'.pc = .probing ∧
            r = EmptyValueDB.probe (db u'.store) key))

theorem Did.append {db : Content → DB ε} {key : Bytes} {m : Content} {evs : List Event} {p : Pc ε}
    (h : Did db key m evs p) (more : List Event) : Did db key m (evs ++ more) p := by
  cases p with
  | calling => trivial
  | probing =>
      obtain ⟨u, htakes, hu⟩ := h
      exact ⟨u, htakes.append more, hu⟩
  | returned r =>
      obtain ⟨u, htakes, hu, hcase⟩ := h
      refine ⟨u, htakes.append more, hu, hcase.imp_right ?_⟩
      rintro ⟨hnil, u', htakes', hu'⟩
      exact ⟨hnil, u', htakes'.append more, hu'⟩

theorem did_of_run {db : Content → DB ε} {key : Bytes} {m : Content} {evs : List Event} {w : World ε}
    (hrun : run (step db key) (start m) evs = some w) : Did db key m evs w.pc := by
  refine (run_history (I := fun evs w => run (step db key) (start m) evs = some w ∧
    Did db key m evs w.pc) ?_ ⟨rfl, trivial⟩ hrun).2
  rintro evs w e w' ⟨hbefore, hdid⟩ hstep
  refine ⟨run_append_eq_some.mpr ⟨w, hbefore, run_cons_eq_some.mpr ⟨w', hstep, rfl⟩⟩, ?_⟩
  have htakes : Takes (step db key) (start m) (evs ++ [e]) e w := ⟨evs, [], rfl, hbefore⟩
  cases e with
  | write o =>
      obtain rfl := Option.some.inj hstep
      exact hdid.append _
  | innerGet =>
      cases hpc : w.pc <;> simp only [step, hpc, reduceCtorEq, Option.some.injEq] at hstep
      subst hstep
      cases hfin : isFinal ((db w.store).get key) with
      | true => exact ⟨w, htakes, hpc, Or.inl ⟨hfin, rfl⟩⟩
      | false => exact ⟨w, htakes, hpc, hfin⟩
  | probe =>
      cases hpc : w.pc <;> simp only [step, hpc, reduceCtorEq, Option.some.injEq] at hstep
      subst hstep
      rw [hpc] at hdid
      obtain ⟨u, hget, hu, hnil⟩ := hdid
      exact ⟨u, hget.append _, hu, Or.inr ⟨hnil, w, htakes, hpc, rfl⟩⟩

/-! ## The law, and exactly when it holds -/

/-- The law for one schedule: whatever the call returns, the key had at an instant of the call. -/
def ReadsSomeInstant (db : Content → DB ε) (key : Bytes) (m : Content) (evs : List Event) : Prop :=
  ∀ w r, run (step db key) (start m) evs = some w → w.pc = .returned r →
    ∃ u ∈ trail (step db key) (start m) evs, u.During ∧ r = (u.store.get? key, none)

/-- The race: the key is absent at the inner `Get`, holds a non-empty value at the probe, and has
no zero-length value at any instant of the call. -/
def CreatedBetweenReads (db : Content → DB ε) (key : Bytes) (m : Content) (evs : List Event) :
    Prop :=
  (∃ u, Takes (step db key) (start m) evs .innerGet u ∧ u.store.get? key = none) ∧
    (∃ u v, Takes (step db key) (start m) evs .probe u ∧ u.store.get? key = some v ∧ v ≠ []) ∧
    ∀ u ∈ trail (step db key) (start m) evs, u.During → u.store.get? key ≠ some []

/-- In the race the call returns the non-nil empty slice, whatever was written. -/
theorem returned_of_race {db : Content → DB ε} {key : Bytes}
    (hdb : ∀ m, Serves (db m) m key) {m : Content} {evs : List Event} {w : World ε}
    {r : Slice × Option ε} (hrun : run (step db key) (start m) evs = some w)
    (hret : w.pc = .returned r) (hrace : CreatedBetweenReads db key m evs) :
    r = (some [], none) := by
  obtain ⟨-, ⟨u, v, htakes, hv, -⟩, -⟩ := hrace
  obtain ⟨-, u', cs, hstep, hrest⟩ := htakes.split hrun
  cases hpc : u.pc with
  | calling => simp [step, hpc] at hstep
  | returned r' => simp [step, hpc] at hstep
  | probing =>
      obtain rfl : ({ u with pc := .returned (EmptyValueDB.probe (db u.store) key) } : World ε)
          = u' := by simpa [step, hpc] using hstep
      have hfinal := returned_final rfl hrest
      rw [hret, probe_eq (hdb u.store), hv] at hfinal
      simpa using hfinal

/-- **The law holds exactly off the race.** For every schedule on which the call returns, the answer
is a value or absence the key had at some instant of the call if and only if the key was not
created, with a non-empty value and without ever being zero-length, between the two reads. -/
theorem reads_some_instant_iff {db : Content → DB ε} {key : Bytes}
    (hdb : ∀ m, Serves (db m) m key) {m : Content} {evs : List Event} {w : World ε}
    {r : Slice × Option ε} (hrun : run (step db key) (start m) evs = some w)
    (hret : w.pc = .returned r) :
    ReadsSomeInstant db key m evs ↔ ¬ CreatedBetweenReads db key m evs := by
  constructor
  · intro hlaw hrace
    obtain ⟨u, hu, hduring, hr⟩ := hlaw w r hrun hret
    rw [returned_of_race hdb hrun hret hrace] at hr
    exact hrace.2.2 u hu hduring (Prod.mk.inj hr).1.symm
  · intro hno w' r' hrun' hret'
    have hdid := did_of_run hrun'
    rw [hret'] at hdid
    obtain ⟨u, htakes, hpc, hcase⟩ := hdid
    have hu := (htakes.split hrun').1
    have hduring : u.During := World.during_of_pc hpc (fun _ => by simp)
    rw [(hdb u.store).get_eq] at hcase
    rcases hcase with ⟨hfin, hr⟩ | ⟨hnil, u', htakes', hpc', hr⟩
    · -- handed on: the inner `Get` saw a non-empty value
      obtain ⟨bs, hbs, hne⟩ := isFinal_mangle.mp hfin
      refine ⟨u, hu, hduring, ?_⟩
      rw [hr, hbs, mangle_of_ne_nil hne]
    · have hu' := (htakes'.split hrun').1
      have hduring' : u'.During := World.during_of_pc hpc' (fun _ => by simp)
      rw [probe_eq (hdb u'.store)] at hr
      by_cases hsame : u'.store.get? key = none ∨ u'.store.get? key = some []
      · -- the probe itself saw what is returned
        refine ⟨u', hu', hduring', ?_⟩
        rcases hsame with h | h <;> rw [hr, h] <;> rfl
      · -- the probe saw a non-empty value, so `[]` has to come from somewhere else in the call
        push Not at hsame
        obtain ⟨v, hv⟩ := Option.ne_none_iff_exists'.mp hsame.1
        have hvne : v ≠ [] := by
          rintro rfl
          exact hsame.2 hv
        have hempty : ∃ x ∈ trail (step db key) (start m) evs, x.During ∧
            x.store.get? key = some [] := by
          rcases not_isFinal_mangle.mp hnil with habsent | hempty
          · by_contra hnever
            push Not at hnever
            exact hno ⟨⟨u, htakes, habsent⟩, ⟨u', v, htakes', hv, hvne⟩, hnever⟩
          · exact ⟨u, hu, hduring, hempty⟩
        obtain ⟨x, hx, hxd, hxe⟩ := hempty
        refine ⟨x, hx, hxd, ?_⟩
        rw [hr, hv, hxe]
        rfl

/-- Missing at the inner `Get`, stored as `v` (byte 118) at the probe. -/
def racing : List Event := [.innerGet, .write (.set [107] [118]), .probe]

/-- **The torn read.** With goleveldb below, the racing schedule returns an empty value for a key
that was absent and then held one byte, and was never empty. -/
theorem torn_read : ¬ ReadsSomeInstant goLevelDB [107] OrdMap.empty racing := by
  intro hlaw
  obtain ⟨u, hu, -, hr⟩ := hlaw ⟨OrdMap.empty.insert [107] [118], .returned (some [], none)⟩
    (some [], none) rfl rfl
  have hnever : ∀ x ∈ (trail (step goLevelDB [107]) (start OrdMap.empty) racing).map
      fun w => w.store.get? [107], x ≠ some [] := by decide
  exact hnever _ (List.mem_map_of_mem hu) (Prod.mk.inj hr).1.symm

/-- A schedule off the race: the key is overwritten between the two reads, but it was empty. -/
theorem reads_some_instant_overwrite :
    ReadsSomeInstant goLevelDB [107] (OrdMap.empty.insert [107] []) racing := by
  refine (reads_some_instant_iff (fun m => goLevelDB_serves m (by decide)) rfl rfl).mpr ?_
  rintro ⟨-, -, hnever⟩
  exact hnever (start (OrdMap.empty.insert [107] [])) (mem_trail_self _ _)
    (fun r h => by cases h) (by decide)

end PqcMigration.App.EmptyValueDB
