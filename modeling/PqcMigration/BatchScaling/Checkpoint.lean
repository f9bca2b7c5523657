/-
# PqcMigration.BatchScaling.Checkpoint — `_save_checkpoint` of `loadgen.py`, called by several workers.

A call serializes its state, opens `<checkpoint>.tmp` for writing, writes the text in any number of
pieces, closes the file, and renames it onto the checkpoint. The callback runs outside the workers'
lock, and the temporary name is one and the same for all of them: a second open cuts off what the
first has written, and the first rename takes the file away from under the second.

The texts are arbitrary (`json.dumps` gives ASCII, so a character is a byte). A state of a run is what
a crash there leaves on disk. `checkpoint_usable` is the exact condition: an open while another call is
between its open and its rename breaks the promise, always.
-/
import PqcMigration.BatchScaling.Packet
import PqcMigration.Lib.Files
import PqcMigration.Lib.Run
import PqcMigration.Lib.Threads

namespace PqcMigration.BatchScaling

open Lib

universe u

inductive FileName where
  /-- `path.with_suffix(".tmp")` -/
  | tmp
  | checkpoint
  deriving DecidableEq

/-- Where a worker stands in `_save_checkpoint`. -/
inductive SavePc where
  | idle
  | writing (ino done : ℕ) (doc : Text)
  | written (doc : Text)
  /-- the rename found no temporary file: `FileNotFoundError` -/
  | raised
  deriving DecidableEq

/-- Between the open and the rename. -/
def SavePc.busy : SavePc → Bool
  | .idle => false
  | .writing _ _ _ => true
  | .written _ => true
  | .raised => false

structure SaveState (ι : Type u) where
  files : Files FileName Char
  pc : ι → SavePc

inductive SaveEvent (ι : Type u) where
  /-- worker `i` has serialized `doc` and opens the temporary file -/
  | openTmp (i : ι) (doc : Text)
  /-- the next `n` characters reach the file -/
  | write (i : ι) (n : ℕ)
  | close (i : ι)
  | replace (i : ι)
  deriving DecidableEq

variable {ι : Type u}

def saveStep [DecidableEq ι] (s : SaveState ι) : SaveEvent ι → Option (SaveState ι)
  | .openTmp i doc =>
      match s.pc i with
      | .idle =>
          some ⟨(s.files.openTrunc .tmp).1,
            Function.update s.pc i (.writing (s.files.openTrunc .tmp).2 0 doc)⟩
      | _ => none
  | .write i n =>
      match s.pc i with
      | .writing ino done doc =>
          some ⟨s.files.writeAt (Char.ofNat 0) ino done ((doc.drop done).take n),
            Function.update s.pc i (.writing ino (min (done + n) doc.length) doc)⟩
      | _ => none
  | .close i =>
      match s.pc i with
      | .writing _ done doc =>
          if done = doc.length then some ⟨s.files, Function.update s.pc i (.written doc)⟩ else none
      | _ => none
  | .replace i =>
      match s.pc i with
      | .written _ =>
          match s.files.rename .tmp .checkpoint with
          | some files => some ⟨files, Function.update s.pc i .idle⟩
          -- another call has renamed the file away: `FileNotFoundError`
          | none => some ⟨s.files, Function.update s.pc i .raised⟩
      | _ => none

def saveStart (ι : Type u) (files : Files FileName Char) : SaveState ι := ⟨files, fun _ => .idle⟩

section

variable [DecidableEq ι] {s t : SaveState ι} {e : SaveEvent ι}

/-- Everything a step can do. -/
theorem saveStep_cases (h : saveStep s e = some t) :
    (∃ i doc, e = .openTmp i doc ∧ s.pc i = .idle ∧
      t = ⟨(s.files.openTrunc .tmp).1,
        Function.update s.pc i (.writing (s.files.openTrunc .tmp).2 0 doc)⟩) ∨
    (∃ i n ino done doc, e = .write i n ∧ s.pc i = .writing ino done doc ∧
      t = ⟨s.files.writeAt (Char.ofNat 0) ino done ((doc.drop done).take n),
        Function.update s.pc i (.writing ino (min (done + n) doc.length) doc)⟩) ∨
    (∃ i ino doc, e = .close i ∧ s.pc i = .writing ino doc.length doc ∧
      t = ⟨s.files, Function.update s.pc i (.written doc)⟩) ∨
    (∃ i doc ino, e = .replace i ∧ s.pc i = .written doc ∧ s.files.entry .tmp = some ino ∧
      s.files.rename .tmp .checkpoint = some t.files ∧ t.pc = Function.update s.pc i .idle) ∨
    (∃ i doc, e = .replace i ∧ s.pc i = .written doc ∧ s.files.entry .tmp = none ∧
      t = ⟨s.files, Function.update s.pc i .raised⟩) := by
  cases e with
  | openTmp i doc =>
      simp only [saveStep] at h
      split at h
      · next hpc => exact Or.inl ⟨i, doc, rfl, hpc, (Option.some.inj h).symm⟩
      · cases h
  | write i n =>
      simp only [saveStep] at h
      split at h
      · next ino done doc hpc =>
          exact Or.inr (Or.inl ⟨i, n, ino, done, doc, rfl, hpc, (Option.some.inj h).symm⟩)
      · cases h
  | close i =>
      simp only [saveStep] at h
      split at h
      · next ino done doc hpc =>
          split at h
          · next hdone =>
              subst hdone
              exact Or.inr (Or.inr (Or.inl ⟨i, ino, doc, rfl, hpc, (Option.some.inj h).symm⟩))
          · cases h
      · cases h
  | replace i =>
      simp only [saveStep] at h
      split at h
      · next doc hpc =>
          cases hentry : s.files.entry .tmp with
          | some ino =>
              obtain ⟨files, hfiles, -⟩ := Files.rename_eq_some (f := s.files) hentry
              rw [hfiles] at h
              obtain rfl := Option.some.inj h
              exact Or.inr (Or.inr (Or.inr (Or.inl ⟨i, doc, ino, rfl, hpc, rfl, hfiles, rfl⟩)))
          | none =>
              rw [Files.rename_eq_none hentry] at h
              exact Or.inr (Or.inr (Or.inr (Or.inr ⟨i, doc, rfl, hpc, rfl,
                (Option.some.inj h).symm⟩)))
      · cases h

end

/-! ## Calls that are made alone -/

/-- While calls do not overlap: the file being written is the one under the temporary name, as far as
it has been written. -/
structure SaveInv (docs : Text → Prop) (s : SaveState ι) : Prop where
  path : ∀ text, s.files.read .checkpoint = some text → docs text
  calm : ∀ i, s.pc i ≠ .raised
  alone : ∀ i j, (s.pc i).busy = true → (s.pc j).busy = true → i = j
  writing : ∀ i ino done doc, s.pc i = .writing ino done doc → docs doc ∧ done ≤ doc.length ∧
    s.files.entry .tmp = some ino ∧ s.files.content ino = doc.take done
  written : ∀ i doc, s.pc i = .written doc → docs doc ∧ s.files.read .tmp = some doc

section

variable {docs : Text → Prop} {s t : SaveState ι} {i : ι} {ino done : ℕ} {doc : Text}

theorem busy_of_writing (h : s.pc i = .writing ino done doc) : (s.pc i).busy = true := by
  rw [h]
  rfl

theorem busy_of_written (h : s.pc i = .written doc) : (s.pc i).busy = true := by
  rw [h]
  rfl

/-- The worker in flight is the only one. -/
theorem SaveInv.free (h : SaveInv docs s) (hi : (s.pc i).busy = true) :
    ∀ j, j ≠ i → (s.pc j).busy = false := by
  intro j hji
  cases hj : (s.pc j).busy with
  | false => rfl
  | true => exact absurd (h.alone j i hj hi) hji

variable [DecidableEq ι]

/-- Once a worker that was in flight moves, what is known about the file is known about it alone. -/
theorem SaveInv.move {p : SavePc} {files : Files FileName Char} (h : SaveInv docs s)
    (hfree : ∀ j, j ≠ i → (s.pc j).busy = false)
    (hpath : ∀ text, files.read .checkpoint = some text → docs text) (hp : p ≠ .raised)
    (hwriting : ∀ ino done doc, p = .writing ino done doc → docs doc ∧ done ≤ doc.length ∧
      files.entry .tmp = some ino ∧ files.content ino = doc.take done)
    (hwritten : ∀ doc, p = .written doc → docs doc ∧ files.read .tmp = some doc) :
    SaveInv docs ⟨files, Function.update s.pc i p⟩ where
  path := hpath
  calm j hj := by
    rcases of_update (Q := fun q : SavePc => q = .raised) hj with ⟨-, hmoved⟩ | ⟨-, hbefore⟩
    · exact hp hmoved
    · exact h.calm j hbefore
  alone := by
    -- no worker but `i` can be in flight
    have honly : ∀ j, (Function.update s.pc i p j).busy = true → j = i := by
      intro j hj
      rcases of_update (Q := fun q : SavePc => q.busy = true) hj with ⟨hji, -⟩ | ⟨hji, hbefore⟩
      · exact hji
      · rw [hfree j hji] at hbefore
        cases hbefore
    intro j k hj hk
    rw [honly j hj, honly k hk]
  writing j ino done doc hj := by
    rcases of_update (Q := fun q : SavePc => q = .writing ino done doc) hj with ⟨-, hmoved⟩ | ⟨hji, hbefore⟩
    · exact hwriting ino done doc hmoved
    · have hbusy := busy_of_writing hbefore
      rw [hfree j hji] at hbusy
      cases hbusy
  written j doc hj := by
    rcases of_update (Q := fun q : SavePc => q = .written doc) hj with ⟨-, hmoved⟩ | ⟨hji, hbefore⟩
    · exact hwritten doc hmoved
    · have hbusy := busy_of_written hbefore
      rw [hfree j hji] at hbusy
      cases hbusy

theorem SaveInv.step {e : SaveEvent ι} (h : SaveInv docs s)
    (halone : ∀ i doc, e = .openTmp i doc → docs doc ∧ ∀ j, (s.pc j).busy = false)
    (hstep : saveStep s e = some t) : SaveInv docs t := by
  rcases saveStep_cases hstep with ⟨i, doc, he, -, rfl⟩ | ⟨i, n, ino, done, doc, -, hpc, rfl⟩ |
    ⟨i, ino, doc, -, hpc, rfl⟩ | ⟨i, doc, ino, -, hpc, hentry, hrename, ht⟩ |
    ⟨i, doc, -, hpc, hentry, -⟩
  · -- openTmp
    obtain ⟨hdoc, hfree⟩ := halone i doc he
    apply h.move fun j _ => hfree j
    · intro text htext
      rw [Files.read_openTrunc_of_ne (by decide)] at htext
      exact h.path text htext
    · exact SavePc.noConfusion
    · rintro _ _ _ ⟨⟩
      exact ⟨hdoc, Nat.zero_le _, Files.entry_openTrunc _ _, Files.content_openTrunc _ _⟩
    · rintro _ ⟨⟩
  · -- write
    obtain ⟨hdoc, hdone, hentry, hcontent⟩ := h.writing i ino done doc hpc
    apply h.move (h.free (busy_of_writing hpc))
    · intro text htext
      rw [Files.read_writeAt_of_ne hentry (by decide)] at htext
      exact h.path text htext
    · exact SavePc.noConfusion
    · rintro _ _ _ ⟨⟩
      refine ⟨hdoc, Nat.min_le_right _ _, hentry, ?_⟩
      show Function.update s.files.content ino _ ino = _
      rw [Function.update_self, hcontent]
      exact overwrite_take _ doc hdone n
    · rintro _ ⟨⟩
  · -- close
    obtain ⟨hdoc, -, hentry, hcontent⟩ := h.writing i ino _ doc hpc
    apply h.move (h.free (busy_of_writing hpc)) h.path
    · exact SavePc.noConfusion
    · rintro _ _ _ ⟨⟩
    · rintro _ ⟨⟩
      refine ⟨hdoc, ?_⟩
      rw [Files.read, hentry, Option.map_some, hcontent, List.take_length]
  · -- replace
    obtain ⟨hdoc, hread⟩ := h.written i doc hpc
    obtain ⟨files, hfiles, hnew, -⟩ := Files.rename_eq_some (f := s.files) hentry
    obtain rfl : files = t.files := Option.some.inj (hfiles.symm.trans hrename)
    obtain ⟨files', pc'⟩ := t
    obtain rfl : pc' = _ := ht
    apply h.move (h.free (busy_of_written hpc))
    · intro text htext
      rw [hnew, hread] at htext
      exact Option.some.inj htext ▸ hdoc
    · exact SavePc.noConfusion
    · rintro _ _ _ ⟨⟩
    · rintro _ ⟨⟩
  · -- replace without a file: the call that is in flight has its file
    obtain ⟨-, hread⟩ := h.written i doc hpc
    rw [Files.read, hentry] at hread
    cases hread

end

/-! ## Calls that overlap -/

section

variable [Fintype ι] {s t : SaveState ι}

def inFlightSaves (pc : ι → SavePc) : ℕ := ∑ k, (pc k).busy.toNat

/-- There are more calls to finish than temporary files for them, or one has already raised. -/
def Crowded (s : SaveState ι) : Prop :=
  1 + (s.files.entry .tmp).isSome.toNat ≤ inFlightSaves s.pc ∨ ∃ i, s.pc i = .raised

variable [DecidableEq ι]

/-- What one worker's move does to the number in flight. -/
theorem inFlightSaves_update (pc : ι → SavePc) (i : ι) (p : SavePc) :
    inFlightSaves (Function.update pc i p) + (pc i).busy.toNat =
      inFlightSaves pc + p.busy.toNat :=
  sum_update (fun _ q => (SavePc.busy q).toNat) pc i p

/-- The balance of calls and files that a move has to keep. -/
theorem Crowded.move {files : Files FileName Char} {i : ι} {p : SavePc} (h : Crowded s)
    (hi : s.pc i ≠ .raised)
    (hbalance : (files.entry .tmp).isSome.toNat + (s.pc i).busy.toNat ≤
      (s.files.entry .tmp).isSome.toNat + p.busy.toNat) :
    Crowded ⟨files, Function.update s.pc i p⟩ := by
  rcases h with hcount | ⟨j, hj⟩
  · left
    have hsum := inFlightSaves_update s.pc i p
    show 1 + (files.entry .tmp).isSome.toNat ≤ inFlightSaves (Function.update s.pc i p)
    omega
  · right
    have hji : j ≠ i := by
      rintro rfl
      exact hi hj
    refine ⟨j, ?_⟩
    show Function.update s.pc i p j = .raised
    rw [Function.update_of_ne hji]
    exact hj

/-- A crowd does not resolve without an exception: every rename that succeeds takes the file along. -/
theorem Crowded.step {e : SaveEvent ι} (h : Crowded s) (hstep : saveStep s e = some t) :
    Crowded t := by
  rcases saveStep_cases hstep with ⟨i, doc, -, hpc, rfl⟩ | ⟨i, n, ino, done, doc, -, hpc, rfl⟩ |
    ⟨i, ino, doc, -, hpc, rfl⟩ | ⟨i, doc, ino, -, hpc, hentry, hrename, ht⟩ |
    ⟨i, doc, -, -, -, rfl⟩
  · apply h.move (by simp [hpc])
    rw [hpc, Files.entry_openTrunc, Option.isSome_some]
    exact Nat.le_add_left _ _
  · apply h.move (by simp [hpc])
    rw [hpc]
    exact Nat.le_refl _
  · apply h.move (by simp [hpc])
    rw [hpc]
    exact Nat.le_refl _
  · -- one call fewer in flight, and one file fewer for those that stay
    obtain ⟨files, pc⟩ := t
    obtain rfl : pc = _ := ht
    obtain ⟨files', hfiles, -, hgone⟩ := Files.rename_eq_some (f := s.files) hentry
    obtain rfl : files' = files := Option.some.inj (hfiles.symm.trans hrename)
    have hnone : files'.entry .tmp = none := by
      rw [hgone, Function.update_of_ne (by decide), Function.update_self]
    apply h.move (by simp [hpc])
    rw [hpc, hnone, hentry]
    exact Nat.le_refl _
  · right
    exact ⟨i, Function.update_self _ _ _⟩

/-- Opening the file under another call makes a crowd. -/
theorem crowded_of_open {i j : ι} {doc : Text} (hj : (s.pc j).busy = true)
    (hstep : saveStep s (.openTmp i doc) = some t) : Crowded t := by
  obtain ⟨i', doc', -, hpc, rfl⟩ | ⟨_, _, _, _, _, ⟨⟩, -⟩ | ⟨_, _, _, ⟨⟩, -⟩ | ⟨_, _, _, ⟨⟩, -⟩ |
    ⟨_, _, ⟨⟩, -⟩ := saveStep_cases hstep
  -- `j` is one of those in flight: without it there would be one less
  have hother := inFlightSaves_update s.pc j .idle
  have hsum := inFlightSaves_update s.pc i' (.writing (s.files.openTrunc .tmp).2 0 doc')
  rw [hj] at hother
  rw [hpc] at hsum
  simp only [SavePc.busy, Bool.toNat_false, Bool.toNat_true] at hother hsum
  left
  rw [Files.entry_openTrunc, Option.isSome_some, Bool.toNat_true]
  show 2 ≤ inFlightSaves (Function.update s.pc i' _)
  omega

end

/-! ## When the checkpoint is usable -/

/-- A text that was in the checkpoint at the start, or that a worker has serialized since. -/
def Serialized (files : Files FileName Char) (evs : List (SaveEvent ι)) (text : Text) : Prop :=
  files.read .checkpoint = some text ∨ ∃ i, SaveEvent.openTmp i text ∈ evs

/-- The checkpoint, if it exists, holds one complete document, and no call has ended in an
exception. -/
def Usable (files : Files FileName Char) (evs : List (SaveEvent ι)) (s : SaveState ι) : Prop :=
  (∀ text, s.files.read .checkpoint = some text → Serialized files evs text) ∧
    ∀ i, s.pc i ≠ .raised

/-- Whenever a call opens the temporary file, no other call is between its open and its rename. -/
def OpensAlone [DecidableEq ι] (files : Files FileName Char) (evs : List (SaveEvent ι)) : Prop :=
  ∀ i doc u, Takes saveStep (saveStart ι files) evs (.openTmp i doc) u →
    ∀ j, (u.pc j).busy = false

section

variable [DecidableEq ι] {files : Files FileName Char} {evs : List (SaveEvent ι)} {s : SaveState ι}

theorem usable_of_opensAlone (hrun : run saveStep (saveStart ι files) evs = some s)
    (halone : OpensAlone files evs) : Usable files evs s := by
  have hstart : SaveInv (Serialized files evs) (saveStart ι files) :=
    { path := fun text htext => Or.inl htext
      calm := fun _ => SavePc.noConfusion
      alone := fun _ _ h => by cases h
      writing := fun _ _ _ _ h => by cases h
      written := fun _ _ h => by cases h }
  have hinv : SaveInv (Serialized files evs) s := by
    apply run_invariant_of_takes (I := SaveInv (Serialized files evs))
      (C := fun u e => ∀ i doc, e = .openTmp i doc →
        Serialized files evs doc ∧ ∀ j, (u.pc j).busy = false)
      (fun _ _ _ h hC hstep => h.step hC hstep) hstart hrun
    rintro e u htakes i doc rfl
    obtain ⟨bs, cs, hsplit, -⟩ := id htakes
    have hmem : SaveEvent.openTmp i doc ∈ evs := by
      rw [hsplit]
      exact List.mem_append_right _ List.mem_cons_self
    exact ⟨Or.inr ⟨i, hmem⟩, halone i doc u htakes⟩
  exact ⟨hinv.path, hinv.calm⟩

theorem opensAlone_of_usable [Fintype ι] (hrun : run saveStep (saveStart ι files) evs = some s)
    (hquiet : ∀ i, (s.pc i).busy = false) (husable : Usable files evs s) :
    OpensAlone files evs := by
  intro i doc u htakes j
  cases hj : (u.pc j).busy with
  | false => rfl
  | true =>
      obtain ⟨-, u', cs, hopen, hrest⟩ := htakes.split hrun
      have hcrowded : Crowded s :=
        run_invariant (fun _ _ _ h hstep => Crowded.step h hstep) (crowded_of_open hj hopen) hrest
      rcases hcrowded with hcount | ⟨k, hk⟩
      · have hzero : inFlightSaves s.pc = 0 := by
          apply Finset.sum_eq_zero
          intro k _
          rw [hquiet k, Bool.toNat_false]
        omega
      · exact absurd hk (husable.2 k)

/-- The checkpoint is usable at every instant of every run whose calls are made alone; and a run after
which no call is in flight has been usable throughout only if they were. -/
theorem checkpoint_usable [Fintype ι] (hrun : run saveStep (saveStart ι files) evs = some s) :
    (OpensAlone files evs → ∀ bs cs u, evs = bs ++ cs →
      run saveStep (saveStart ι files) bs = some u → Usable files bs u) ∧
    ((∀ i, (s.pc i).busy = false) →
      ((∀ bs cs u, evs = bs ++ cs → run saveStep (saveStart ι files) bs = some u →
        Usable files bs u) ↔ OpensAlone files evs)) := by
  have hforward : OpensAlone files evs → ∀ bs cs u, evs = bs ++ cs →
      run saveStep (saveStart ι files) bs = some u → Usable files bs u := by
    rintro halone bs cs u rfl hu
    exact usable_of_opensAlone hu fun i doc v htakes => halone i doc v (htakes.append cs)
  refine ⟨hforward, fun hquiet => ⟨fun hall => ?_, hforward⟩⟩
  exact opensAlone_of_usable hrun hquiet (hall evs [] s (List.append_nil evs).symm hrun)

end

/-! ### Two workers -/

/-- One call after the other. -/
def inTurn : List (SaveEvent Bool) :=
  [.openTmp false ['1', '2'], .write false 1, .write false 1, .close false, .replace false,
    .openTmp true ['3'], .write true 1, .close true, .replace true]

/-- The second worker opens the temporary file before the first has renamed it. -/
def overlapping : List (SaveEvent Bool) :=
  [.openTmp false ['1', '2'], .write false 2, .close false, .openTmp true ['3'], .replace false]

theorem opensAlone_inTurn : OpensAlone (ι := Bool) Files.empty inTurn := by
  refine opensAlone_of_usable (s := _) rfl (by decide) ⟨?_, by decide⟩
  rintro text ⟨⟩
  exact Or.inr ⟨true, by decide⟩

theorem checkpoint_usable_in_turn :
    OpensAlone (ι := Bool) Files.empty inTurn ∧
    ∀ bs cs u, inTurn = bs ++ cs → run saveStep (saveStart Bool Files.empty) bs = some u →
      Usable Files.empty bs u :=
  ⟨opensAlone_inTurn, (checkpoint_usable rfl).1 opensAlone_inTurn⟩

/-- The first rename puts an empty file in the checkpoint's place, and the second finds nothing to
rename. -/
theorem checkpoint_torn :
    ∃ u s, run saveStep (saveStart Bool Files.empty) overlapping = some u ∧
      u.files.read .checkpoint = some [] ∧
      ¬ Usable Files.empty overlapping u ∧
      run saveStep u [.write true 1, .close true, .replace true] = some s ∧
      s.pc true = .raised := by
  refine ⟨_, _, rfl, rfl, ?_, rfl, rfl⟩
  rintro ⟨hpath, -⟩
  rcases hpath [] rfl with hstart | ⟨i, hi⟩
  · cases hstart
  · revert hi
    cases i <;> decide

end PqcMigration.BatchScaling
