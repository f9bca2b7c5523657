/-
# PqcMigration.Lib.Driver — a driver that runs one child process at a time, and what both leave on disk.

The driver goes over a list of jobs. It keeps what it has decided in a state file, which it writes anew
after every decision and reads when it is invoked again; a job's child leaves a result file. Neither
write is atomic: opening a file empties it, and its text comes in pieces. A run is any sequence of events
of the two processes, among them a crash at any point (of both, or of the driver alone, whose child then
goes on as an orphan) and the end of a child by a timeout or a failure of its own. An invocation starts
when no process of an earlier one is left.

What a particular driver does at its decision points is a parameter. The results are about the files: one
is left torn exactly by a kill inside its write (`state_torn_iff`, `result_torn_iff`), a result that is
there stays (`AtRest.run`, `HasResult.run`), and an invariant of the driver's memory goes through the
state file from one invocation to the next (`Kept.step`).
-/
import Mathlib.Data.Int.Notation
import Mathlib.Logic.Function.Basic
import PqcMigration.Lib.Run

namespace PqcMigration.Lib

/-- How a document is written to a file: all of it is read back, a part of it is refused. -/
structure Format (D : Type) where
  dumps : D → List Char
  loads : List Char → Option D
  loads_dumps : ∀ d, loads (dumps d) = some d
  loads_take : ∀ d n, n < (dumps d).length → loads ((dumps d).take n) = none

namespace Format

variable {D : Type} (f : Format D)

theorem take_of_length_le {d : D} {n : ℕ} (h : ¬ n < (f.dumps d).length) :
    (f.dumps d).take n = f.dumps d := List.take_of_length_le (Nat.le_of_not_lt h)

theorem loads_take_of_not_lt {d : D} {n : ℕ} (h : ¬ n < (f.dumps d).length) :
    f.loads ((f.dumps d).take n) = some d := by
  rw [f.take_of_length_le h, f.loads_dumps]

theorem loads_take_eq_none_iff (d : D) (n : ℕ) :
    f.loads ((f.dumps d).take n) = none ↔ n < (f.dumps d).length := by
  constructor
  · intro hnone
    by_contra hlen
    rw [f.loads_take_of_not_lt hlen] at hnone
    cases hnone
  · exact f.loads_take d n

end Format

namespace Driver

/-! ## Processes, files and events -/

inductive ChildEnd where
  | exited (code : ℤ)
  | timedOut

/-- What the driver does at a decision point. -/
inductive Act (M N S : Type) where
  | go (m : M)
  /-- the job is taken as finished -/
  | skip (name : N) (m : M)
  | launch (name : N) (m : M)
  /-- the verdict on a job, which is saved; then on, or out -/
  | record (name : N) (ok : Bool) (s : S) (next : Option M)
  /-- save and return -/
  | save (s : S)
  /-- the attempt at a job ends in an exception -/
  | raised (name : N)
  | quit

/-- The child has not opened its result file, or has written `n` characters of a document. -/
inductive Child (D : Type) where
  | working
  | writing (d : D) (n : ℕ)

inductive Phase (M N S D : Type) where
  | idle
  | top (m : M)
  | child (m : M) (name : N) (c : Child D)
  /-- `n` characters of the state are in the file -/
  | saving (s : S) (n : ℕ) (next : Option M)
  | orphan (name : N) (c : Child D)

structure World (M N S D : Type) where
  state : Option (List Char)
  results : N → Option (List Char)
  phase : Phase M N S D

inductive Event (A D : Type) where
  | invoke (a : A)
  /-- the driver's next decision; `late` says that its time is up -/
  | advance (late : Bool)
  | opens (d : D)
  | writes (k : ℕ)
  | exits (code : ℤ)
  | timeout
  | saves (k : ℕ)
  | saved
  | crash
  | crashDriver

variable {A M N S D : Type}

/-- Nothing on disk, and nothing running. -/
def World.fresh : World M N S D := ⟨none, fun _ => none, .idle⟩

/-- The child at work, with its job. -/
def Phase.child? : Phase M N S D → Option (N × Child D)
  | .child _ name c => some (name, c)
  | .orphan name c => some (name, c)
  | _ => none

def Phase.withChild (c : Child D) : Phase M N S D → Phase M N S D
  | .child m name _ => .child m name c
  | .orphan name _ => .orphan name c
  | p => p

/-- The driver's variables, when it runs. -/
def Phase.memory? : Phase M N S D → Option M
  | .top m => some m
  | .child m _ _ => some m
  | .saving _ _ next => next
  | _ => none

def Act.memory? : Act M N S → Option M
  | .go m | .skip _ m | .launch _ m => some m
  | .record _ _ _ next => next
  | _ => none

/-- The job an action is an attempt at. -/
def Act.attempt? : Act M N S → Option N
  | .launch name _ | .record name _ _ _ | .raised name => some name
  | _ => none

/-- The job an action takes as finished. -/
def Act.finished? : Act M N S → Option N
  | .skip name _ | .record name true _ _ => some name
  | _ => none

/-- The state an action writes. -/
def Act.saved? : Act M N S → Option S
  | .record _ _ s _ => some s
  | .save s => some s
  | _ => none

end Driver

open Driver

/-- A driver. A child is started only for the job it is at, and if that has no result file. -/
structure Driver (A M N S D : Type) where
  stateFormat : Format S
  resultFormat : Format D
  job : M → N
  start : A → Option S → M
  next : M → Bool → (N → Option (List Char)) → Act M N S
  judge : M → N → ChildEnd → Option (List Char) → Act M N S
  next_launch : ∀ m late files name m', next m late files = .launch name m' →
    name = job m' ∧ files name = none
  judge_launch : ∀ m name fin file name' m', judge m name fin file ≠ .launch name' m'

namespace Driver

variable {A M N S D : Type} (dr : Driver A M N S D)

/-- The state file as an invocation reads it: absent, a state, or an error. -/
def load : Option (List Char) → Option (Option S)
  | none => some none
  | some t => (dr.stateFormat.loads t).map some

/-- The child is in the middle of its write. -/
def partly : Child D → Bool
  | .working => false
  | .writing d n => n < (dr.resultFormat.dumps d).length

/-- The decision of the driver at an event. A child that exits with code zero has finished its write. -/
def act (w : World M N S D) (e : Event A D) : Option (Act M N S) :=
  match w.phase, e with
  | .top m, .advance late => some (dr.next m late w.results)
  | .child m name c, .exits code =>
      if dr.partly c = true ∧ code = 0 then none
      else some (dr.judge m name (.exited code) (w.results name))
  | .child m name _, .timeout => some (dr.judge m name .timedOut (w.results name))
  | _, _ => none

/-- The state file from the moment it is opened. -/
def openState (w : World M N S D) (s : S) (next : Option M) : World M N S D :=
  { w with state := some ((dr.stateFormat.dumps s).take 0), phase := .saving s 0 next }

def perform (w : World M N S D) : Act M N S → World M N S D
  | .go m => { w with phase := .top m }
  | .skip _ m => { w with phase := .top m }
  | .launch name m => { w with phase := .child m name .working }
  | .record _ _ s next => dr.openState w s next
  | .save s => dr.openState w s none
  | .raised _ => { w with phase := .idle }
  | .quit => { w with phase := .idle }

/-! ## Decisions and phases -/

variable {dr}

theorem load_take (s : S) (n : ℕ) :
    dr.load (some ((dr.stateFormat.dumps s).take n)) =
      if n < (dr.stateFormat.dumps s).length then none else some (some s) := by
  rw [load]
  split
  · next hlen =>
      rw [dr.stateFormat.loads_take s n hlen]
      rfl
  · next hlen =>
      rw [dr.stateFormat.loads_take_of_not_lt hlen]
      rfl

/-- Of a state that is being written, only the whole can be read. -/
theorem eq_of_load_take {s : S} {n : ℕ} {x : Option S}
    (h : dr.load (some ((dr.stateFormat.dumps s).take n)) = some x) : x = some s := by
  rw [load_take] at h
  split at h
  · cases h
  · exact (Option.some.inj h).symm

/-- The decisions: at the top of the loop, or when the child has ended. -/
theorem act_cases {w : World M N S D} {e : Event A D} {a : Act M N S} (h : dr.act w e = some a) :
    (∃ m late, w.phase = .top m ∧ e = .advance late ∧ a = dr.next m late w.results) ∨
      ∃ m name c fin, w.phase = .child m name c ∧ a = dr.judge m name fin (w.results name) ∧
        ((∃ code, e = .exits code ∧ fin = .exited code ∧ ¬ (dr.partly c = true ∧ code = 0)) ∨
          e = .timeout ∧ fin = .timedOut) := by
  unfold act at h
  split at h
  · next m late hphase => exact Or.inl ⟨m, late, hphase, rfl, (Option.some.inj h).symm⟩
  · next m name c code hphase =>
      split at h
      · cases h
      · next hcode =>
          exact Or.inr ⟨m, name, c, _, hphase, (Option.some.inj h).symm, Or.inl ⟨code, rfl, rfl, hcode⟩⟩
  · next m name c hphase =>
      exact Or.inr ⟨m, name, c, _, hphase, (Option.some.inj h).symm, Or.inr ⟨rfl, rfl⟩⟩
  · cases h

/-- The driver is at a decision point, or waits for its child. -/
def Phase.deciding : Phase M N S D → Bool
  | .top _ | .child _ _ _ => true
  | _ => false

theorem child?_withChild {p : Phase M N S D} {name : N} {c : Child D} (h : p.child? = some (name, c))
    (c' : Child D) : (p.withChild c').child? = some (name, c') := by
  cases p <;> simp_all [Phase.child?, Phase.withChild]

theorem deciding_withChild (p : Phase M N S D) (c : Child D) :
    (p.withChild c).deciding = p.deciding := by
  cases p <;> rfl

theorem memory?_withChild (p : Phase M N S D) (c : Child D) : (p.withChild c).memory? = p.memory? := by
  cases p <;> rfl

theorem eq_child_of_withChild {p : Phase M N S D} {m : M} {name : N} {c c' : Child D}
    (h : p.withChild c' = .child m name c) : ∃ c'', p = .child m name c'' := by
  cases p <;> simp_all [Phase.withChild]

theorem ne_saving_of_child? {p : Phase M N S D} {x : N × Child D} (h : p.child? = some x) (s : S)
    (n : ℕ) (next : Option M) : p ≠ .saving s n next := by
  rintro rfl
  cases h

theorem withChild_ne_saving {p : Phase M N S D} {name : N} {c : Child D}
    (h : p.child? = some (name, c)) (c' : Child D) : ∀ s n next, p.withChild c' ≠ .saving s n next :=
  ne_saving_of_child? (child?_withChild h c')

theorem deciding_of_act {w : World M N S D} {e : Event A D} {a : Act M N S}
    (h : dr.act w e = some a) : w.phase.deciding = true := by
  rcases act_cases h with ⟨m, late, hphase, -⟩ | ⟨m, name, c, fin, hphase, -⟩
  · rw [hphase]
    rfl
  · rw [hphase]
    rfl

/-- A new child is at the start of its work, has the job of the moment, and its result is not there. -/
theorem child?_perform {w : World M N S D} {e : Event A D} {a : Act M N S} (h : dr.act w e = some a)
    {name : N} {c : Child D} (hchild : (dr.perform w a).phase.child? = some (name, c)) :
    c = .working ∧ w.results name = none ∧
      ∀ m c', (dr.perform w a).phase = .child m name c' → name = dr.job m := by
  cases a with
  | launch name' m' =>
      obtain ⟨rfl, rfl⟩ := Prod.mk.inj (Option.some.inj hchild)
      rcases act_cases h with ⟨m, late, -, -, ha⟩ | ⟨m, name, c, fin, -, ha, -⟩
      · obtain ⟨hjob, hresult⟩ := dr.next_launch m late _ _ m' ha.symm
        refine ⟨rfl, hresult, fun m c' hphase => ?_⟩
        rwa [← (Phase.child.inj hphase).1]
      · exact absurd ha.symm (dr.judge_launch m name fin _ _ m')
  | go m => cases hchild
  | skip name' m => cases hchild
  | record name' ok s next => cases hchild
  | save s => cases hchild
  | raised name' => cases hchild
  | quit => cases hchild

theorem results_perform (w : World M N S D) (a : Act M N S) : (dr.perform w a).results = w.results := by
  cases a <;> rfl

theorem memory?_of_act {w : World M N S D} {e : Event A D} {a : Act M N S}
    (h : dr.act w e = some a) : ∃ m, w.phase.memory? = some m := by
  rcases act_cases h with ⟨m, late, hphase, -⟩ | ⟨m, name, c, fin, hphase, -⟩
  · exact ⟨m, by rw [hphase]; rfl⟩
  · exact ⟨m, by rw [hphase]; rfl⟩

theorem memory?_perform (dr : Driver A M N S D) (w : World M N S D) (a : Act M N S) :
    (dr.perform w a).phase.memory? = a.memory? := by
  cases a <;> rfl

/-- An action leaves the state file, or opens it to save a state. -/
theorem state_perform (dr : Driver A M N S D) (w : World M N S D) (a : Act M N S) :
    (a.saved? = none ∧ (dr.perform w a).state = w.state) ∨
      ∃ s, a.saved? = some s ∧ (dr.perform w a).state = some ((dr.stateFormat.dumps s).take 0) := by
  cases a with
  | record name ok s next => exact Or.inr ⟨s, rfl, rfl⟩
  | save s => exact Or.inr ⟨s, rfl, rfl⟩
  | go m => exact Or.inl ⟨rfl, rfl⟩
  | skip name m => exact Or.inl ⟨rfl, rfl⟩
  | launch name m => exact Or.inl ⟨rfl, rfl⟩
  | raised name => exact Or.inl ⟨rfl, rfl⟩
  | quit => exact Or.inl ⟨rfl, rfl⟩

theorem saved?_of_perform {w : World M N S D} {a : Act M N S} {s : S} {n : ℕ} {next : Option M}
    (h : (dr.perform w a).phase = .saving s n next) : a.saved? = some s := by
  cases a <;> simp_all [perform, openState, Act.saved?]

/-! ## What the files have to do with the phase -/

/-- What holds in every world a run leads to. -/
structure Inv (dr : Driver A M N S D) (w : World M N S D) : Prop where
  working : ∀ name, w.phase.child? = some (name, .working) → w.results name = none
  writing : ∀ name d n, w.phase.child? = some (name, .writing d n) →
    w.results name = some ((dr.resultFormat.dumps d).take n)
  saving : ∀ s n next, w.phase = .saving s n next → w.state = some ((dr.stateFormat.dumps s).take n)
  deciding : w.phase.deciding = true → ∃ s, dr.load w.state = some s
  job : ∀ m name c, w.phase = .child m name c → name = dr.job m

/-- A world without a child. -/
theorem Inv.of_child?_eq_none {w : World M N S D} (hchild : w.phase.child? = none)
    (hsaving : ∀ s n next, w.phase = .saving s n next → w.state = some ((dr.stateFormat.dumps s).take n))
    (hdeciding : w.phase.deciding = true → ∃ s, dr.load w.state = some s) : dr.Inv w where
  working name h := by
    rw [hchild] at h
    cases h
  writing name d n h := by
    rw [hchild] at h
    cases h
  saving := hsaving
  deciding := hdeciding
  job m name c h := by
    rw [h] at hchild
    cases hchild

theorem inv_fresh : dr.Inv (.fresh : World M N S D) :=
  .of_child?_eq_none rfl (fun _ _ _ h => nomatch h) fun h => nomatch h

/-- The decisions of a driver that runs, on the job it is at. -/
theorem act_eq {w : World M N S D} {e : Event A D} {a : Act M N S} {m : M} (hw : dr.Inv w)
    (hm : w.phase.memory? = some m) (h : dr.act w e = some a) :
    (∃ late, w.phase = .top m ∧ e = .advance late ∧ a = dr.next m late w.results) ∨
      ∃ c fin, w.phase = .child m (dr.job m) c ∧ a = dr.judge m (dr.job m) fin (w.results (dr.job m)) ∧
        ((∃ code, e = .exits code ∧ fin = .exited code ∧ ¬ (dr.partly c = true ∧ code = 0)) ∨
          e = .timeout ∧ fin = .timedOut) := by
  rcases act_cases h with ⟨m', late, hphase, he, ha⟩ | ⟨m', name, c, fin, hphase, ha, he⟩
  · rw [hphase] at hm
    obtain rfl := Option.some.inj hm
    exact Or.inl ⟨late, hphase, he, ha⟩
  · obtain rfl := hw.job m' name c hphase
    have hm' := hm
    rw [hphase] at hm'
    obtain rfl := Option.some.inj hm'
    exact Or.inr ⟨c, fin, hphase, ha, he⟩

/-! ## Steps -/

variable (dr) [DecidableEq N]

/-- The child's result file, with `n` characters of `d` in it. -/
def write (w : World M N S D) (name : N) (d : D) (n : ℕ) : World M N S D :=
  { w with
    results := Function.update w.results name (some ((dr.resultFormat.dumps d).take n))
    phase := w.phase.withChild (.writing d n) }

def step (w : World M N S D) (e : Event A D) : Option (World M N S D) :=
  match e with
  | .invoke a =>
      match w.phase with
      | .idle =>
          some
            (match dr.load w.state with
            | some s => { w with phase := .top (dr.start a s) }
            | none => w)
      | _ => none
  | .opens d =>
      match w.phase.child? with
      | some (name, .working) => some (dr.write w name d 0)
      | _ => none
  | .writes k =>
      match w.phase.child? with
      | some (name, .writing d n) => some (dr.write w name d (n + k))
      | _ => none
  | .saves k =>
      match w.phase with
      | .saving s n next =>
          some
            { w with
              state := some ((dr.stateFormat.dumps s).take (n + k))
              phase := .saving s (n + k) next }
      | _ => none
  | .saved =>
      match w.phase with
      | .saving s n next =>
          if n < (dr.stateFormat.dumps s).length then none
          else some { w with phase := next.elim .idle .top }
      | _ => none
  | .crash => some { w with phase := .idle }
  | .crashDriver =>
      match w.phase with
      | .child _ name c => some { w with phase := .orphan name c }
      | _ => none
  | e => (dr.act w e).map (dr.perform w)

/-! ## What a step can do -/

/-- The steps, each with what enables it. -/
inductive Moves (w : World M N S D) : Event A D → World M N S D → Prop
  | start {a : A} {s : Option S} : w.phase = .idle → dr.load w.state = some s →
      Moves w (.invoke a) { w with phase := .top (dr.start a s) }
  | refuse {a : A} : w.phase = .idle → dr.load w.state = none → Moves w (.invoke a) w
  | opens {name : N} {d : D} : w.phase.child? = some (name, .working) →
      Moves w (.opens d) (dr.write w name d 0)
  | writes {name : N} {d : D} {n k : ℕ} : w.phase.child? = some (name, .writing d n) →
      Moves w (.writes k) (dr.write w name d (n + k))
  | saves {s : S} {n k : ℕ} {next : Option M} : w.phase = .saving s n next →
      Moves w (.saves k)
        { w with
          state := some ((dr.stateFormat.dumps s).take (n + k))
          phase := .saving s (n + k) next }
  | saved {s : S} {n : ℕ} {next : Option M} : w.phase = .saving s n next →
      ¬ n < (dr.stateFormat.dumps s).length →
      Moves w .saved { w with phase := next.elim .idle .top }
  | crash : Moves w .crash { w with phase := .idle }
  | crashDriver {m : M} {name : N} {c : Child D} : w.phase = .child m name c →
      Moves w .crashDriver { w with phase := .orphan name c }
  | decide {e : Event A D} {a : Act M N S} : dr.act w e = some a → Moves w e (dr.perform w a)

variable {dr}

theorem moves_of_step {w w' : World M N S D} {e : Event A D} (h : dr.step w e = some w') :
    dr.Moves w e w' := by
  have hact : ∀ {e : Event A D}, (dr.act w e).map (dr.perform w) = some w' → dr.Moves w e w' := by
    intro e hmap
    obtain ⟨a, ha, rfl⟩ := Option.map_eq_some_iff.mp hmap
    exact .decide ha
  cases e with
  | invoke a =>
      cases hphase : w.phase <;> simp only [step, hphase] at h
      case idle =>
        cases hload : dr.load w.state with
        | none =>
            rw [hload] at h
            obtain rfl := Option.some.inj h
            exact .refuse hphase hload
        | some s =>
            rw [hload] at h
            obtain rfl := Option.some.inj h
            exact .start hphase hload
      all_goals cases h
  | advance late => exact hact h
  | exits code => exact hact h
  | timeout => exact hact h
  | opens d =>
      rw [step] at h
      split at h
      · next hchild =>
          obtain rfl := Option.some.inj h
          exact .opens hchild
      · cases h
  | writes k =>
      rw [step] at h
      split at h
      · next hchild =>
          obtain rfl := Option.some.inj h
          exact .writes hchild
      · cases h
  | saves k =>
      cases hphase : w.phase <;> simp only [step, hphase] at h
      case saving =>
        obtain rfl := Option.some.inj h
        exact .saves hphase
      all_goals cases h
  | saved =>
      cases hphase : w.phase <;> simp only [step, hphase] at h
      case saving =>
        split at h
        · cases h
        · next hlen =>
            obtain rfl := Option.some.inj h
            exact .saved hphase hlen
      all_goals cases h
  | crash =>
      obtain rfl := Option.some.inj h
      exact .crash
  | crashDriver =>
      cases hphase : w.phase <;> simp only [step, hphase] at h
      case child =>
        obtain rfl := Option.some.inj h
        exact .crashDriver hphase
      all_goals cases h

/-- A decision is carried out. -/
theorem step_of_act {w : World M N S D} {e : Event A D} {a : Act M N S} (h : dr.act w e = some a) :
    dr.step w e = some (dr.perform w a) := by
  have hmap : (dr.act w e).map (dr.perform w) = some (dr.perform w a) := by
    rw [h]
    rfl
  rcases act_cases h with ⟨m, late, -, rfl, -⟩ | ⟨m, name, c, fin, -, -, hend⟩
  · exact hmap
  · rcases hend with ⟨code, rfl, -⟩ | ⟨rfl, -⟩
    · exact hmap
    · exact hmap

/-! ## The invariant over runs -/

/-- The child's write keeps the invariant. -/
theorem Inv.write {w : World M N S D} (hw : dr.Inv w) {name : N} {c : Child D}
    (hchild : w.phase.child? = some (name, c)) (d : D) (n : ℕ) : dr.Inv (dr.write w name d n) where
  working name' h := by
    have := (child?_withChild hchild (.writing d n)).symm.trans h
    simp at this
  writing name' d' n' h := by
    have := (child?_withChild hchild (.writing d n)).symm.trans h
    obtain ⟨rfl, hc⟩ := Prod.mk.inj (Option.some.inj this)
    obtain ⟨rfl, rfl⟩ := Child.writing.inj hc
    exact Function.update_self _ _ _
  saving s n' next h := absurd h (withChild_ne_saving hchild _ s n' next)
  deciding h := hw.deciding ((deciding_withChild w.phase _).symm.trans h)
  job m name' c' h := by
    obtain ⟨c'', hphase⟩ := eq_child_of_withChild h
    exact hw.job m name' c'' hphase

theorem Inv.step {w w' : World M N S D} {e : Event A D} (hw : dr.Inv w)
    (h : dr.step w e = some w') : dr.Inv w' := by
  cases moves_of_step h with
  | start hphase hload =>
      exact .of_child?_eq_none rfl (fun _ _ _ h => nomatch h) fun _ => ⟨_, hload⟩
  | refuse hphase hload => exact hw
  | opens hchild => exact hw.write hchild _ 0
  | writes hchild => exact hw.write hchild _ _
  | saves hphase =>
      refine .of_child?_eq_none rfl ?_ fun h => nomatch h
      intro s n next heq
      obtain ⟨rfl, rfl, -⟩ := Phase.saving.inj heq
      rfl
  | @saved s n next hphase hlen =>
      have hload : dr.load w.state = some (some s) := by
        rw [hw.saving _ _ _ hphase, load_take, if_neg hlen]
      cases next with
      | none => exact .of_child?_eq_none rfl (fun _ _ _ h => nomatch h) fun _ => ⟨_, hload⟩
      | some m => exact .of_child?_eq_none rfl (fun _ _ _ h => nomatch h) fun _ => ⟨_, hload⟩
  | crash =>
      exact .of_child?_eq_none rfl (fun _ _ _ h => nomatch h) fun h => nomatch h
  | @crashDriver m name c hphase =>
      have hchild : ∀ p, (Phase.orphan name c : Phase M N S D).child? = some p →
          w.phase.child? = some p := by
        intro p hp
        rw [hphase]
        exact hp
      exact ⟨fun _ h => hw.working _ (hchild _ h), fun _ _ _ h => hw.writing _ _ _ (hchild _ h),
        fun _ _ _ h => (nomatch h), fun h => (nomatch h), fun _ _ _ h => (nomatch h)⟩
  | @decide _ a hact =>
      refine ⟨?_, ?_, ?_, ?_, ?_⟩
      · intro name hchild
        rw [results_perform]
        exact (child?_perform hact hchild).2.1
      · intro name d n hchild
        cases (child?_perform hact hchild).1
      · intro s n next hphase
        cases a <;> simp only [perform, openState, reduceCtorEq, Phase.saving.injEq] at hphase ⊢
        · obtain ⟨rfl, rfl, -⟩ := hphase
          rfl
        · obtain ⟨rfl, rfl, -⟩ := hphase
          rfl
      · intro hdeciding
        obtain ⟨s, hs⟩ := hw.deciding (deciding_of_act hact)
        cases a <;> first | exact ⟨s, hs⟩ | cases hdeciding
      · intro m name c hphase
        exact (child?_perform hact (congrArg Phase.child? hphase)).2.2 m c hphase

/-- What a step keeps where the invariant holds, a run keeps. -/
theorem Inv.run {P : World M N S D → Prop}
    (hstep : ∀ u e u', dr.Inv u → P u → dr.step u e = some u' → P u') {w w' : World M N S D}
    {es : List (Event A D)} (hw : dr.Inv w) (h : P w) (hrun : Lib.run dr.step w es = some w') : P w' :=
  (run_invariant (I := fun u => dr.Inv u ∧ P u)
    (fun u e u' hu hmove => ⟨hu.1.step hmove, hstep u e u' hu.1 hu.2 hmove⟩) ⟨hw, h⟩ hrun).2

/-! ## Torn files -/

/-- The state file does not parse, and nobody is writing it. -/
def StateTorn (dr : Driver A M N S D) (w : World M N S D) : Prop :=
  dr.load w.state = none ∧ ∀ s n next, w.phase ≠ .saving s n next

/-- A kill inside the write of the state file. -/
def CutsState (dr : Driver A M N S D) (w : World M N S D) (e : Event A D) : Prop :=
  ∃ s n next, w.phase = .saving s n next ∧ n < (dr.stateFormat.dumps s).length ∧ e = .crash

/-- The result file is there and does not parse, and nobody is writing it. -/
def ResultTorn (dr : Driver A M N S D) (name : N) (w : World M N S D) : Prop :=
  (∃ t, w.results name = some t ∧ dr.resultFormat.loads t = none) ∧
    ∀ d n, w.phase.child? ≠ some (name, .writing d n)

/-- A child that is killed, or fails, inside the write of its result file. -/
def CutsResult (dr : Driver A M N S D) (name : N) (w : World M N S D) (e : Event A D) : Prop :=
  ∃ d n, w.phase.child? = some (name, .writing d n) ∧ n < (dr.resultFormat.dumps d).length ∧
    (e = .crash ∨ e = .timeout ∨ ∃ code, e = .exits code)

/-- The child's write has nothing to do with the state file. -/
theorem stateTorn_write {w : World M N S D} {name : N} {c : Child D} {d : D} {n : ℕ}
    (hchild : w.phase.child? = some (name, c)) : dr.StateTorn (dr.write w name d n) ↔ dr.StateTorn w :=
  and_congr_right fun _ => iff_of_true (withChild_ne_saving hchild _) (ne_saving_of_child? hchild)

omit [DecidableEq N] in
/-- A kill leaves the state file torn if it falls inside the write. -/
theorem stateTorn_crash {w : World M N S D} (hw : dr.Inv w) :
    dr.StateTorn { w with phase := .idle } ↔ dr.StateTorn w ∨ dr.CutsState w .crash := by
  by_cases hsaving : ∃ s n next, w.phase = .saving s n next
  · obtain ⟨s, n, next, hphase⟩ := hsaving
    constructor
    · rintro ⟨hload, -⟩
      refine Or.inr ⟨s, n, next, hphase, ?_, rfl⟩
      by_contra hlen
      rw [hw.saving _ _ _ hphase, load_take, if_neg hlen] at hload
      cases hload
    · rintro (htorn | ⟨s', n', next', hphase', hlen, -⟩)
      · exact absurd hphase (htorn.2 _ _ _)
      · refine ⟨?_, fun _ _ _ => by simp⟩
        rw [hw.saving _ _ _ hphase', load_take, if_pos hlen]
  · have hnot : ∀ s n next, w.phase ≠ .saving s n next := fun s n next heq => hsaving ⟨s, n, next, heq⟩
    rw [or_iff_left fun ⟨s, n, next, heq, _⟩ => hnot s n next heq]
    exact and_congr_right fun _ => iff_of_true (fun _ _ _ => by simp) hnot

theorem stateTorn_step {w w' : World M N S D} {e : Event A D} (hw : dr.Inv w)
    (h : dr.step w e = some w') : dr.StateTorn w' ↔ dr.StateTorn w ∨ dr.CutsState w e := by
  -- where the phase is not `saving`, no kill falls inside the write
  have hno : (∀ s n next, w.phase ≠ .saving s n next) → ¬ dr.CutsState w e := by
    rintro hphase ⟨s, n, next, heq, -⟩
    exact hphase s n next heq
  cases moves_of_step h with
  | @start a s hphase hload =>
      have hcut : ¬ dr.CutsState w (.invoke a) := hno fun _ _ _ => by simp [hphase]
      simp [StateTorn, hload, hcut]
  | refuse hphase hload => exact (or_iff_left (hno fun _ _ _ => by simp [hphase])).symm
  | opens hchild | writes hchild => rw [or_iff_left (hno (ne_saving_of_child? hchild)), stateTorn_write hchild]
  | @saves s n k next hphase =>
      refine iff_of_false (fun htorn => htorn.2 _ _ _ rfl) ?_
      rintro (htorn | ⟨_, _, _, -, -, he⟩)
      · exact htorn.2 _ _ _ hphase
      · cases he
  | @saved s n next hphase hlen =>
      refine iff_of_false ?_ ?_
      · rintro ⟨hload, -⟩
        rw [hw.saving _ _ _ hphase, load_take, if_neg hlen] at hload
        cases hload
      · rintro (htorn | ⟨_, _, _, -, -, he⟩)
        · exact htorn.2 _ _ _ hphase
        · cases he
  | crash => exact stateTorn_crash hw
  | crashDriver hphase =>
      have hsaving : ∀ s n next, w.phase ≠ .saving s n next := fun _ _ _ => by simp [hphase]
      rw [or_iff_left (hno hsaving)]
      exact and_congr_right fun _ => iff_of_true (fun _ _ _ => by simp) hsaving
  | @decide _ a hact =>
      obtain ⟨s, hload⟩ := hw.deciding (deciding_of_act hact)
      have hphase : ∀ s n next, w.phase ≠ .saving s n next := by
        intro s n next heq
        have := deciding_of_act hact
        rw [heq] at this
        cases this
      refine iff_of_false ?_ ?_
      · rintro ⟨hnone, hsaving⟩
        cases a
        case record => exact hsaving _ _ _ rfl
        case save => exact hsaving _ _ _ rfl
        all_goals exact absurd (hload.symm.trans hnone) (by simp)
      · rintro (⟨hnone, -⟩ | hcut)
        · exact absurd (hload.symm.trans hnone) (by simp)
        · exact hno hphase hcut

omit [DecidableEq N] in
/-- Where the child has stopped, its file is torn if it was in the middle of it. -/
theorem resultTorn_of_stop {w w' : World M N S D} {name : N} (hw : dr.Inv w)
    (hresults : w'.results name = w.results name)
    (hstop : ∀ d n, w'.phase.child? ≠ some (name, .writing d n)) :
    dr.ResultTorn name w' ↔ dr.ResultTorn name w ∨
      ∃ d n, w.phase.child? = some (name, .writing d n) ∧ n < (dr.resultFormat.dumps d).length := by
  by_cases hwriting : ∃ d n, w.phase.child? = some (name, .writing d n)
  · obtain ⟨d, n, hchild⟩ := hwriting
    have htext := hw.writing name d n hchild
    constructor
    · rintro ⟨⟨t, ht, hnone⟩, -⟩
      obtain rfl := Option.some.inj (htext.symm.trans (hresults.symm.trans ht))
      exact Or.inr ⟨d, n, hchild, (dr.resultFormat.loads_take_eq_none_iff d n).mp hnone⟩
    · rintro (⟨-, hnot⟩ | ⟨d', n', hchild', hlen⟩)
      · exact absurd hchild (hnot d n)
      · have htext' := hresults.trans (hw.writing name d' n' hchild')
        exact ⟨⟨_, htext', dr.resultFormat.loads_take d' n' hlen⟩, hstop⟩
  · have hnot : ∀ d n, w.phase.child? ≠ some (name, .writing d n) := fun d n hchild =>
      hwriting ⟨d, n, hchild⟩
    rw [or_iff_left fun ⟨d, n, hchild, _⟩ => hnot d n hchild, ResultTorn, ResultTorn, hresults]
    exact and_congr_right fun _ => iff_of_true hstop hnot

/-- While the child writes, no file becomes torn or is mended. -/
theorem resultTorn_write {w : World M N S D} {name name' : N} {c : Child D} {d : D} {n : ℕ}
    (hw : dr.Inv w) (hchild : w.phase.child? = some (name', c)) :
    dr.ResultTorn name (dr.write w name' d n) ↔ dr.ResultTorn name w := by
  have hafter := child?_withChild hchild (.writing d n)
  by_cases hname : name = name'
  · subst hname
    refine iff_of_false (fun htorn => htorn.2 d n hafter) ?_
    rintro ⟨⟨t, ht, -⟩, hnot⟩
    cases c with
    | working => exact absurd ((hw.working name hchild).symm.trans ht) (by simp)
    | writing d' n' => exact hnot d' n' hchild
  · have hresults : (dr.write w name' d n).results name = w.results name := Function.update_of_ne hname _ _
    have hother : ∀ {p : Phase M N S D} {c' : Child D}, p.child? = some (name', c') →
        ∀ d n, p.child? ≠ some (name, .writing d n) := by
      intro p c' hp d n heq
      exact hname (Prod.mk.inj (Option.some.inj (heq.symm.trans hp))).1
    rw [ResultTorn, ResultTorn, hresults]
    exact and_congr_right fun _ => iff_of_true (hother hafter) (hother hchild)

theorem resultTorn_step {w w' : World M N S D} {e : Event A D} {name : N} (hw : dr.Inv w)
    (h : dr.step w e = some w') :
    dr.ResultTorn name w' ↔ dr.ResultTorn name w ∨ dr.CutsResult name w e := by
  -- a step that is not the end of a child cuts nothing
  have hno : ¬ (e = .crash ∨ e = .timeout ∨ ∃ code, e = .exits code) → ¬ dr.CutsResult name w e := by
    rintro hgoes ⟨d, n, -, -, he⟩
    exact hgoes he
  have hend : (e = .crash ∨ e = .timeout ∨ ∃ code, e = .exits code) →
      ((∃ d n, w.phase.child? = some (name, .writing d n) ∧ n < (dr.resultFormat.dumps d).length) ↔
        dr.CutsResult name w e) := by
    intro he
    constructor
    · rintro ⟨d, n, hchild, hlen⟩
      exact ⟨d, n, hchild, hlen, he⟩
    · rintro ⟨d, n, hchild, hlen, -⟩
      exact ⟨d, n, hchild, hlen⟩
  -- without a child before and after, nothing changes
  have hquiet : w.phase.child? = none → w'.phase.child? = none → w'.results = w.results →
      (dr.ResultTorn name w' ↔ dr.ResultTorn name w ∨ dr.CutsResult name w e) := by
    intro hbefore hafter hresults
    have hcut : ¬ dr.CutsResult name w e := by
      rintro ⟨d, n, hchild, -⟩
      rw [hbefore] at hchild
      cases hchild
    rw [or_iff_left hcut, ResultTorn, ResultTorn, hresults, hbefore, hafter]
  cases moves_of_step h with
  | start hphase hload => exact hquiet (by rw [hphase]; rfl) rfl rfl
  | refuse hphase hload => exact hquiet (by rw [hphase]; rfl) (by rw [hphase]; rfl) rfl
  | opens hchild | writes hchild => rw [or_iff_left (hno (by simp)), resultTorn_write hw hchild]
  | saves hphase => exact hquiet (by rw [hphase]; rfl) rfl rfl
  | @saved s n next hphase hlen =>
      refine hquiet (by rw [hphase]; rfl) ?_ rfl
      cases next <;> rfl
  | crash =>
      rw [← hend (Or.inl rfl)]
      exact resultTorn_of_stop hw rfl fun _ _ => by simp [Phase.child?]
  | crashDriver hphase =>
      rw [or_iff_left (hno (by simp)), ResultTorn, ResultTorn, hphase]
      rfl
  | @decide _ a hact =>
      have hstop : ∀ d n, (dr.perform w a).phase.child? ≠ some (name, .writing d n) := by
        intro d n hchild
        cases (child?_perform hact hchild).1
      rw [resultTorn_of_stop hw (congrFun (results_perform w a) name) hstop]
      rcases act_cases hact with ⟨m, late, hphase, rfl, -⟩ | ⟨m, name', c, fin, -, -, hfin⟩
      · refine or_congr_right (iff_of_false ?_ (hno (by simp)))
        rintro ⟨d, n, hchild, -⟩
        rw [hphase] at hchild
        cases hchild
      · refine or_congr_right (hend ?_)
        rcases hfin with ⟨code, rfl, -⟩ | ⟨rfl, -⟩
        · exact Or.inr (Or.inr ⟨code, rfl⟩)
        · exact Or.inr (Or.inl rfl)

/-- A kill of the run falls inside the write of the state file. -/
def StateCut (dr : Driver A M N S D) (es : List (Event A D)) : Prop :=
  ∃ e u, Takes dr.step .fresh es e u ∧ dr.CutsState u e

/-- One falls inside the write of the result file. -/
def ResultCut (dr : Driver A M N S D) (name : N) (es : List (Event A D)) : Prop :=
  ∃ e u, Takes dr.step .fresh es e u ∧ dr.CutsResult name u e

section Runs

variable {es : List (Event A D)} {w : World M N S D} (hrun : run dr.step .fresh es = some w)

include hrun

theorem inv_of_run : dr.Inv w := run_invariant (fun _ _ _ hw h => hw.step h) inv_fresh hrun

/-- **The state file.** It is torn exactly after a kill inside its write. -/
theorem state_torn_iff : dr.StateTorn w ↔ dr.StateCut es := by
  have hfresh : ¬ dr.StateTorn (.fresh : World M N S D) := fun htorn => nomatch htorn.1
  rw [run_iff_takes (fun _ _ _ hw h => Inv.step hw h) (fun _ _ _ hw h => stateTorn_step hw h) inv_fresh hrun,
    or_iff_right hfresh]
  rfl

/-- **A result file.** It is torn exactly after a kill inside its write. -/
theorem result_torn_iff (name : N) : dr.ResultTorn name w ↔ dr.ResultCut name es := by
  have hfresh : ¬ dr.ResultTorn name (.fresh : World M N S D) := by
    rintro ⟨⟨t, ht, -⟩, -⟩
    cases ht
  rw [run_iff_takes (fun _ _ _ hw h => Inv.step hw h) (fun _ _ _ hw h => resultTorn_step hw h) inv_fresh hrun,
    or_iff_right hfresh]
  rfl

end Runs

/-- An invocation gets past the reading of the state file. -/
def Starts (dr : Driver A M N S D) (a : A) (w : World M N S D) : Prop :=
  ∃ m, dr.step w (.invoke a) = some { w with phase := .top m }

theorem starts_iff {w : World M N S D} (hw : w.phase = .idle) (a : A) :
    dr.Starts a w ↔ ¬ dr.StateTorn w := by
  have hidle : ∀ s n next, w.phase ≠ .saving s n next := fun _ _ _ => by simp [hw]
  cases hload : dr.load w.state with
  | none =>
      refine iff_of_false ?_ fun hnot => hnot ⟨hload, hidle⟩
      rintro ⟨m, hm⟩
      simp only [step, hw, hload] at hm
      have := congrArg World.phase (Option.some.inj hm)
      rw [hw] at this
      cases this
  | some x =>
      refine iff_of_true ⟨dr.start a x, ?_⟩ ?_
      · simp only [step, hw, hload]
      · rintro ⟨hnone, -⟩
        rw [hload] at hnone
        cases hnone

/-! ## What stays -/

/-- A step leaves a result file, or it is the write of the child that is at it. -/
theorem results_step {w w' : World M N S D} {e : Event A D} (name : N) (h : dr.step w e = some w') :
    w'.results name = w.results name ∨
      ∃ d n, w' = dr.write w name d n ∧ (w.phase.child? = some (name, .working) ∨
        ∃ n₀, w.phase.child? = some (name, .writing d n₀) ∧ n₀ ≤ n) := by
  cases moves_of_step h with
  | @opens name' d hchild =>
      by_cases hname : name = name'
      · subst hname
        exact Or.inr ⟨d, 0, rfl, Or.inl hchild⟩
      · exact Or.inl (Function.update_of_ne hname _ _)
  | @writes name' d n k hchild =>
      by_cases hname : name = name'
      · subst hname
        exact Or.inr ⟨d, n + k, rfl, Or.inr ⟨n, hchild, Nat.le_add_right n k⟩⟩
      · exact Or.inl (Function.update_of_ne hname _ _)
  | decide hact => exact Or.inl (congrFun (results_perform w _) name)
  | start | refuse | saves | saved | crash | crashDriver => exact Or.inl rfl

/-- A child is at a job because it was before, or because there is no result yet. -/
theorem child?_step {w w' : World M N S D} {e : Event A D} {name : N} {c : Child D}
    (h : dr.step w e = some w') (hchild : w'.phase.child? = some (name, c)) :
    (∃ c', w.phase.child? = some (name, c')) ∨ w.results name = none := by
  cases moves_of_step h with
  | opens hbefore | writes hbefore =>
      have hname := (child?_withChild hbefore _).symm.trans hchild
      obtain ⟨rfl, -⟩ := Prod.mk.inj (Option.some.inj hname)
      exact Or.inl ⟨_, hbefore⟩
  | refuse hphase hload => exact Or.inl ⟨c, hchild⟩
  | crashDriver hphase =>
      rw [hphase]
      exact Or.inl ⟨c, hchild⟩
  | decide hact => exact Or.inr (child?_perform hact hchild).2.1
  | @saved s n next hphase hlen => cases next <;> cases hchild
  | start hphase hload => cases hchild
  | saves hphase => cases hchild
  | crash => cases hchild

/-- The file is there, and no child is at its job. -/
def AtRest (name : N) (t : List Char) (w : World M N S D) : Prop :=
  w.results name = some t ∧ ∀ c, w.phase.child? ≠ some (name, c)

/-- **A result that is there is never written again.** -/
theorem AtRest.run {w w' : World M N S D} {es : List (Event A D)} {name : N} {t : List Char}
    (h : AtRest name t w) (hrun : run dr.step w es = some w') : AtRest name t w' := by
  refine run_invariant ?_ h hrun
  rintro u e u' ⟨htext, hchild⟩ hstep
  refine ⟨?_, ?_⟩
  · rcases results_step name hstep with hsame | ⟨d, n, -, hat | ⟨n₀, hat, -⟩⟩
    · exact hsame.trans htext
    · exact absurd hat (hchild _)
    · exact absurd hat (hchild _)
  · intro c hafter
    rcases child?_step hstep hafter with ⟨c', hbefore⟩ | hnone
    · exact hchild c' hbefore
    · rw [htext] at hnone
      cases hnone

/-- The file has a whole document. -/
def HasResult (dr : Driver A M N S D) (name : N) (d : D) (w : World M N S D) : Prop :=
  ∃ t, w.results name = some t ∧ dr.resultFormat.loads t = some d

/-- A whole document stays, also while its writer has not let go of it. -/
theorem HasResult.step {w w' : World M N S D} {e : Event A D} {name : N} {d : D} (hw : dr.Inv w)
    (h : dr.HasResult name d w) (hstep : dr.step w e = some w') : dr.HasResult name d w' := by
  obtain ⟨t, htext, hloads⟩ := h
  rcases results_step name hstep with hsame | ⟨d', n, rfl, hat | ⟨n₀, hat, hle⟩⟩
  · exact ⟨t, hsame.trans htext, hloads⟩
  · exact absurd ((hw.working name hat).symm.trans htext) (by simp)
  · obtain rfl := Option.some.inj ((hw.writing name d' n₀ hat).symm.trans htext)
    have hlen : ¬ n₀ < (dr.resultFormat.dumps d').length := by
      intro hlt
      rw [dr.resultFormat.loads_take d' n₀ hlt] at hloads
      cases hloads
    obtain rfl := Option.some.inj ((dr.resultFormat.loads_take_of_not_lt hlen).symm.trans hloads)
    exact ⟨_, Function.update_self _ _ _, dr.resultFormat.loads_take_of_not_lt (by omega)⟩

theorem HasResult.run {w w' : World M N S D} {es : List (Event A D)} {name : N} {d : D} (hw : dr.Inv w)
    (h : dr.HasResult name d w) (hrun : run dr.step w es = some w') : dr.HasResult name d w' :=
  Inv.run (fun _ _ _ hu hd hstep => hd.step hu hstep) hw h hrun

/-! ## From one invocation to the next -/

/-- What a step does to the state file and to memory: nothing to either but that memory may be lost, or a
start, or a piece of a save, or a decision. -/
theorem state_step {w w' : World M N S D} {e : Event A D} (h : dr.step w e = some w') :
    (w'.state = w.state ∧ (∀ m, w'.phase.memory? = some m → w.phase.memory? = some m) ∧
        ∀ s n next, w'.phase ≠ .saving s n next) ∨
      (∃ a x, e = .invoke a ∧ dr.load w.state = some x ∧ w' = { w with phase := .top (dr.start a x) }) ∨
      (∃ s n n' next, w.phase = .saving s n next ∧ w'.state = some ((dr.stateFormat.dumps s).take n') ∧
        w'.phase = .saving s n' next) ∨
      ∃ a, dr.act w e = some a ∧ w' = dr.perform w a := by
  cases moves_of_step h with
  | @start a s hphase hload => exact Or.inr (Or.inl ⟨a, s, rfl, hload, rfl⟩)
  | @saves s n k next hphase =>
      exact Or.inr (Or.inr (Or.inl ⟨s, n, n + k, next, hphase, rfl, rfl⟩))
  | @decide _ a hact => exact Or.inr (Or.inr (Or.inr ⟨a, hact, rfl⟩))
  | refuse hphase hload =>
      refine Or.inl ⟨rfl, fun _ hm => hm, ?_⟩
      rw [hphase]
      exact fun _ _ _ heq => nomatch heq
  | opens hchild =>
      exact Or.inl ⟨rfl, fun m hm => (memory?_withChild w.phase _).symm.trans hm,
        withChild_ne_saving hchild _⟩
  | writes hchild =>
      exact Or.inl ⟨rfl, fun m hm => (memory?_withChild w.phase _).symm.trans hm,
        withChild_ne_saving hchild _⟩
  | @saved s n next hphase hlen =>
      refine Or.inl ⟨rfl, ?_, ?_⟩
      · intro m hm
        rw [hphase]
        cases next <;> exact hm
      · intro s' n' next' heq
        cases next <;> cases heq
  | crash => exact Or.inl ⟨rfl, fun _ hm => (nomatch hm), fun _ _ _ heq => nomatch heq⟩
  | crashDriver hphase => exact Or.inl ⟨rfl, fun _ hm => (nomatch hm), fun _ _ _ heq => nomatch heq⟩

/-- `G` holds of the state on disk and of the one being saved, `H` of the driver's memory. -/
structure Kept (dr : Driver A M N S D) (G : World M N S D → Option S → Prop)
    (H : World M N S D → M → Prop) (w : World M N S D) : Prop where
  disk : ∀ x, dr.load w.state = some x → G w x
  memory : ∀ m, w.phase.memory? = some m → H w m
  saving : ∀ s n next, w.phase = .saving s n next → G w (some s)

/-- **Invariants through the state file.** A step keeps what every decision and every start keeps. -/
theorem Kept.step {G : World M N S D → Option S → Prop} {H : World M N S D → M → Prop}
    {w w' : World M N S D} {e : Event A D} (hw : dr.Kept G H w) (h : dr.step w e = some w')
    (hG : ∀ x, G w x → G w' x) (hH : ∀ m, H w m → H w' m)
    (hstart : ∀ a x, e = .invoke a → G w x → H w (dr.start a x))
    (hact : ∀ a m, dr.act w e = some a → w.phase.memory? = some m → H w m →
      (∀ m', a.memory? = some m' → H w m') ∧ ∀ s, a.saved? = some s → G w (some s)) :
    dr.Kept G H w' := by
  rcases state_step h with ⟨hstate, hmemory, hsaving⟩ | ⟨a, x, he, hread, rfl⟩ |
    ⟨s, n, n', next, hphase, hstate, hphase'⟩ | ⟨a, hdecided, rfl⟩
  · refine ⟨?_, fun m hm => hH m (hw.memory m (hmemory m hm)), ?_⟩
    · intro x hx
      exact hG x (hw.disk x (hstate ▸ hx))
    · intro s n next heq
      exact absurd heq (hsaving s n next)
  · refine ⟨fun y hy => hG y (hw.disk y hy), ?_, fun _ _ _ heq => nomatch heq⟩
    intro m hm
    obtain rfl := Option.some.inj hm
    exact hH _ (hstart a x he (hw.disk x hread))
  · have hs := hG _ (hw.saving s n next hphase)
    refine ⟨?_, ?_, ?_⟩
    · intro x hx
      rw [hstate] at hx
      exact eq_of_load_take hx ▸ hs
    · intro m hm
      rw [hphase'] at hm
      refine hH m (hw.memory m ?_)
      rw [hphase]
      exact hm
    · intro s' k next' heq
      obtain ⟨rfl, -, -⟩ := Phase.saving.inj (hphase'.symm.trans heq)
      exact hs
  · obtain ⟨m, hm⟩ := memory?_of_act hdecided
    obtain ⟨hmemory, hsaved⟩ := hact a m hdecided hm (hw.memory m hm)
    refine ⟨?_, ?_, ?_⟩
    · intro x hx
      rcases dr.state_perform w a with ⟨-, hstate⟩ | ⟨s, hs, hstate⟩
      · exact hG x (hw.disk x (hstate ▸ hx))
      · rw [hstate] at hx
        exact eq_of_load_take hx ▸ hG _ (hsaved s hs)
    · intro m' hm'
      exact hH m' (hmemory m' ((dr.memory?_perform w a).symm.trans hm'))
    · intro s n next heq
      exact hG _ (hsaved s (saved?_of_perform heq))

/-- What holds of the driver's variables at every start of the run and what its decisions keep. -/
theorem memory_of_run {H : M → Prop} {w w' : World M N S D} {es : List (Event A D)} (hw : dr.Inv w)
    (hrun : run dr.step w es = some w') (h : ∀ m, w.phase.memory? = some m → H m)
    (hstart : ∀ a x, .invoke a ∈ es → H (dr.start a x))
    (hact : ∀ u e a m m', dr.Inv u → dr.act u e = some a → u.phase.memory? = some m → H m →
      a.memory? = some m' → H m') : ∀ m, w'.phase.memory? = some m → H m := by
  have hfirst : dr.Kept (fun _ _ => True) (fun _ m => H m) w :=
    ⟨fun _ _ => trivial, h, fun _ _ _ _ => trivial⟩
  refine (run_invariant_of_takes
    (I := fun u => dr.Inv u ∧ dr.Kept (fun _ _ => True) (fun _ m => H m) u)
    (C := fun _ e => ∀ a, e = .invoke a → ∀ x, H (dr.start a x)) ?_ ⟨hw, hfirst⟩ hrun ?_).2.memory
  · rintro u e u' ⟨hinv, hkept⟩ hinvoke hstep
    refine ⟨hinv.step hstep, hkept.step hstep (fun _ _ => trivial) (fun _ hm => hm) ?_ ?_⟩
    · intro a x he _
      exact hinvoke a he x
    · intro a m hdecided hm hH
      exact ⟨fun m' hm' => hact u e a m m' hinv hdecided hm hH hm', fun _ _ => trivial⟩
  · rintro e u ⟨bs, cs, rfl, -⟩ a rfl x
    exact hstart a x (List.mem_append_right bs List.mem_cons_self)

/-- `R` holds between what the state file says and the driver's memory. -/
structure Mirrors (dr : Driver A M N S D) (R : Option S → M → Prop) (w : World M N S D) : Prop where
  memory : ∀ x m, dr.load w.state = some x → w.phase.memory? = some m → R x m
  saving : ∀ s n m, w.phase = .saving s n (some m) → R (some s) m

/-- **Memory and disk.** A step keeps a relation between the two that holds at a start, that a decision
without a save keeps, and that holds of what is saved. -/
theorem Mirrors.step {R : Option S → M → Prop} {w w' : World M N S D} {e : Event A D}
    (hw : dr.Mirrors R w) (h : dr.step w e = some w') (hstart : ∀ a x, R x (dr.start a x))
    (hact : ∀ a x m m', dr.act w e = some a → w.phase.memory? = some m → R x m → a.saved? = none →
      a.memory? = some m' → R x m')
    (hsave : ∀ a s m', dr.act w e = some a → a.saved? = some s → a.memory? = some m' → R (some s) m') :
    dr.Mirrors R w' := by
  rcases state_step h with ⟨hstate, hmemory, hsaving⟩ | ⟨a, x, -, hread, rfl⟩ |
    ⟨s, n, n', next, hphase, hstate, hphase'⟩ | ⟨a, hdecided, rfl⟩
  · refine ⟨?_, fun s n m heq => absurd heq (hsaving s n _)⟩
    intro x m hx hm
    exact hw.memory x m (hstate ▸ hx) (hmemory m hm)
  · refine ⟨?_, fun _ _ _ heq => nomatch heq⟩
    intro y m hy hm
    obtain rfl := Option.some.inj (hread.symm.trans hy)
    obtain rfl := Option.some.inj hm
    exact hstart a x
  · refine ⟨?_, ?_⟩
    · intro x m hx hm
      rw [hstate] at hx
      rw [hphase'] at hm
      obtain rfl : next = some m := hm
      exact eq_of_load_take hx ▸ hw.saving s n m hphase
    · intro s' k m heq
      obtain ⟨rfl, -, rfl⟩ := Phase.saving.inj (hphase'.symm.trans heq)
      exact hw.saving s n m hphase
  · obtain ⟨m, hm⟩ := memory?_of_act hdecided
    refine ⟨?_, ?_⟩
    · intro x m' hx hm'
      rw [memory?_perform] at hm'
      rcases dr.state_perform w a with ⟨hnone, hstate⟩ | ⟨s, hs, hstate⟩
      · exact hact a x m m' hdecided hm (hw.memory x m (hstate ▸ hx) hm) hnone hm'
      · rw [hstate] at hx
        exact eq_of_load_take hx ▸ hsave a s m' hdecided hs hm'
    · intro s n m' heq
      refine hsave a s m' hdecided (saved?_of_perform heq) ?_
      rw [← dr.memory?_perform w, heq]
      rfl

end Driver

end PqcMigration.Lib
