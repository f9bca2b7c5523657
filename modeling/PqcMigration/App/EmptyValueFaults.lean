/-
# PqcMigration.App.EmptyValueFaults — the wrapper over a store whose reads can fail.

Three things can go wrong below `emptyValueDB.Get`: the inner `Get` fails, the iterator cannot be
created, or the iterator is created and then stops at a read error. The first two come back as errors
of the call. The third does not: an iterator that stopped is merely not `Valid()`, what stopped it is
told by its `Error` method only, and `Get` does not ask.

`absence_reported_iff` says exactly when the answer is "absent", and `failed_read_reported_iff` that a
failed read passes for absence in one situation: the value is the zero-length one, for which alone the
probe is made, and the probe stops before its only entry.
-/
import PqcMigration.App.EmptyValueDB

namespace PqcMigration.App.EmptyValueDB

open Lib

universe u

variable {ε : Type u}

/-! ## A store with failures -/

/-- Which reads fail, and how. -/
structure Faults (ε : Type u) where
  /-- what a failing `Get` returns -/
  get : Bytes → Option (Slice × ε)
  /-- the error of an iterator that cannot be created -/
  create : Bytes → Bytes → Option ε
  /-- after how many entries an iterator stops, and what its `Error` then reports -/
  read : Bytes → Bytes → Option (ℕ × ε)

/-- The store with contents `m` and these failures. -/
def faulty (m : Content) (f : Faults ε) : DB ε where
  get key :=
    match f.get key with
    | some (v, err) => (v, some err)
    | none => (mangle (m.get? key), none)
  iterator start stop :=
    match f.create start stop with
    | some err => .error err
    | none =>
        match f.read start stop with
        | some (n, err) => .ok ⟨(m.range start stop).take n, some err⟩
        | none => .ok ⟨m.range start stop, none⟩

/-- The probe of `key` stops at a read error before it has seen an entry. -/
def Faults.StopsProbe (f : Faults ε) (key : Bytes) : Prop :=
  ∃ err, f.read key (rangeEnd key) = some (0, err)

variable {m : Content} {f : Faults ε} {key : Bytes}

/-! ## What the call reports -/

/-- The probe sees nothing just if there is nothing, or it is stopped before it sees it. -/
theorem probe_eq_absent_iff :
    probe (faulty m f) key = (none, none) ↔
      f.create key (rangeEnd key) = none ∧ (m.get? key = none ∨ f.StopsProbe key) := by
  unfold probe
  cases hcreate : f.create key (rangeEnd key) with
  | some err => simp [faulty, hcreate]
  | none =>
      have hrange := OrdMap.range_of_covBy (m := m) (covBy_rangeEnd key)
      cases hread : f.read key (rangeEnd key) with
      | none => cases hv : m.get? key <;>
          simp [faulty, hcreate, hread, hrange, hv, Iter.valid, Faults.StopsProbe]
      | some stopped =>
          obtain ⟨n, err⟩ := stopped
          cases hv : m.get? key with
          | none => simp [faulty, hcreate, hread, hrange, hv, Iter.valid]
          | some v =>
              -- the range is the one entry: any positive number of entries reaches it
              cases n <;> simp [faulty, hcreate, hread, hrange, hv, Iter.valid, Faults.StopsProbe]

theorem not_final_faulty_iff :
    isFinal ((faulty m f).get key) = false ↔
      f.get key = none ∧ (m.get? key = none ∨ m.get? key = some []) := by
  cases hget : f.get key with
  | some failed => simp [faulty, hget, isFinal]
  | none =>
      simp only [faulty, hget, true_and]
      exact not_isFinal_mangle

/-- **When the answer is "absent".** The inner `Get` did not fail, the iterator was created, and the
key is absent, or it is there with a zero-length value and the probe was stopped. -/
theorem absence_reported_iff (m : Content) (f : Faults ε) (key : Bytes) :
    get (faulty m f) key = (none, none) ↔
      f.get key = none ∧ f.create key (rangeEnd key) = none ∧
        (m.get? key = none ∨ (m.get? key = some [] ∧ f.StopsProbe key)) := by
  cases hfinal : isFinal ((faulty m f).get key) with
  | true =>
      have hanswer : get (faulty m f) key = (faulty m f).get key := if_pos hfinal
      rw [hanswer]
      refine iff_of_false ?_ ?_
      · intro heq
        rw [heq] at hfinal
        cases hfinal
      · rintro ⟨hget, -, hstored⟩
        have hnot := not_final_faulty_iff.mpr ⟨hget, hstored.imp_right And.left⟩
        rw [hfinal] at hnot
        cases hnot
  | false =>
      obtain ⟨hget, hstored⟩ := not_final_faulty_iff.mp hfinal
      have hanswer : get (faulty m f) key = probe (faulty m f) key :=
        if_neg (by rw [hfinal]; exact Bool.false_ne_true)
      rw [hanswer, probe_eq_absent_iff, and_iff_right hget]
      refine and_congr_right fun _ => ?_
      rcases hstored with hv | hv <;> simp [hv]

theorem has_eq_false_iff {d : DB ε} : has d key = (false, none) ↔ get d key = (none, none) := by
  unfold has
  rcases get d key with ⟨_ | v, _ | err⟩ <;> simp

/-- **A failed read passes for absence in one situation only**: no earlier failure, a zero-length
value, and a probe that stops at a read error. -/
theorem failed_read_reported_iff (m : Content) (f : Faults ε) (key : Bytes) :
    ((get (faulty m f) key = (none, none) → m.get? key = none) ∧
        (has (faulty m f) key = (false, none) → m.get? key = none)) ↔
      ¬ (f.get key = none ∧ f.create key (rangeEnd key) = none ∧ m.get? key = some [] ∧
        f.StopsProbe key) := by
  rw [has_eq_false_iff, and_self, absence_reported_iff]
  constructor
  · rintro hreport ⟨hget, hcreate, hv, hstops⟩
    have habsent := hreport ⟨hget, hcreate, Or.inr ⟨hv, hstops⟩⟩
    rw [hv] at habsent
    cases habsent
  · rintro hnot ⟨hget, hcreate, habsent | ⟨hv, hstops⟩⟩
    · exact habsent
    · exact absurd ⟨hget, hcreate, hv, hstops⟩ hnot

/-- Every iterator stops at once. -/
def brokenIterators : Faults String where
  get _ := none
  create _ _ := none
  read _ _ := some (0, "read error")

/-- An empty root that is on disk, reported as missing without an error. -/
theorem stored_key_reported_absent :
    testContent.get? [101, 0] = some [] ∧
      get (faulty testContent brokenIterators) [101, 0] = (none, none) ∧
      has (faulty testContent brokenIterators) [101, 0] = (false, none) := by
  decide

end PqcMigration.App.EmptyValueDB
