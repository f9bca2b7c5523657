/-
# PqcMigration.App.EmptyValueDB — the nil-versus-empty repair of `app/emptyvaluedb.go`.

goleveldb returns `nil` for a key stored with a zero-length value, exactly as it does for a missing
key. The wrapper tells the two apart: a `nil` from the inner `Get` is checked by an iterator over
`[key, key ‖ 0x00)`, and becomes a non-nil empty slice when the iterator finds something.

The inner store (`dbm.DB`, a third-party package) is a parameter. What the wrapper relies on is
stated once, as `Serves`: the inner `Get` answers from the contents with zero-length values turned
into `nil`, the iterator is exact, and neither fails. `goLevelDB` is an instance of it.

A Go `[]byte` is an `Option Bytes`: `none` is `nil`, `some []` is the non-nil empty slice. A Go pair
`(v, err)` is a pair whose second component is `none` when `err == nil`.
-/
import PqcMigration.Lib.Bytes
import PqcMigration.Lib.OrdMap

namespace PqcMigration.App.EmptyValueDB

open Lib

universe u

/-! ## The `dbm.DB` interface, as far as the wrapper uses it -/

/-- A Go byte slice; `none` is `nil`. -/
abbrev Slice := Option Bytes

/-- What is on disk: byte strings to byte strings, in lexicographic key order. -/
abbrev Content := OrdMap Bytes Bytes

/-- An open iterator: the entries still ahead of it, and what its `Error` method reports. -/
structure Iter (ε : Type u) where
  items : List (Bytes × Bytes)
  error : Option ε

/-- `Valid()`: the iterator stands on an entry. -/
def Iter.valid {ε : Type u} (itr : Iter ε) : Bool := !itr.items.isEmpty

/-- `Get` and `Iterator` of the inner store. -/
structure DB (ε : Type u) where
  get : Bytes → Slice × Option ε
  iterator : Bytes → Bytes → Except ε (Iter ε)

variable {ε : Type u}

/-! ## The wrapper -/

/-- Go's `copy(dst, src)`: as many bytes as both hold. -/
def goCopy (dst src : Bytes) : Bytes := src.take dst.length ++ dst.drop src.length

/-- `end := make([]byte, len(key)+1); copy(end, key)`. -/
def rangeEnd (key : Bytes) : Bytes := goCopy (List.replicate (key.length + 1) 0) key

/-- The part of `Get` that runs when the inner `Get` gave `nil` without an error. -/
def probe (d : DB ε) (key : Bytes) : Slice × Option ε :=
  match d.iterator key (rangeEnd key) with
  | .error err => (none, some err)
  | .ok itr => if itr.valid then (some [], none) else (none, none)

/-- `err != nil || v != nil`: the inner answer is handed on as it is. -/
def isFinal (r : Slice × Option ε) : Bool := r.2.isSome || r.1.isSome

/-- `emptyValueDB.Get`. -/
def get (d : DB ε) (key : Bytes) : Slice × Option ε :=
  let r := d.get key
  if isFinal r then r else probe d key

/-- `emptyValueDB.Has`. -/
def has (d : DB ε) (key : Bytes) : Bool × Option ε :=
  match get d key with
  | (_, some err) => (false, some err)
  | (v, none) => (v.isSome, none)

/-- The end of the probed range is the key with one zero byte appended. -/
theorem rangeEnd_eq (key : Bytes) : rangeEnd key = key ++ [0] := by
  unfold rangeEnd goCopy
  rw [List.length_replicate, List.take_of_length_le (Nat.le_succ _), List.drop_replicate,
    Nat.add_sub_cancel_left]
  rfl

/-! ## What the inner store is relied on for -/

/-- goleveldb's copy of a value: `append([]byte(nil), value...)` is `nil` for a zero-length one. -/
def mangle : Option Bytes → Slice
  | some [] => none
  | v => v

/-- At `key`, the store answers from the contents `m`: `Get` mangles zero-length values, an iterator
that starts there is exact, and no read fails. -/
structure Serves (d : DB ε) (m : Content) (key : Bytes) : Prop where
  get_eq : d.get key = (mangle (m.get? key), none)
  iterator_eq : ∀ stop, stop ≠ [] → d.iterator key stop = .ok ⟨m.range key stop, none⟩

/-- goleveldb as cosmos-db exposes it: empty keys are refused, everything else is served. -/
def goLevelDB (m : Content) : DB String where
  get key := if key = [] then (none, some "key cannot be empty") else (mangle (m.get? key), none)
  iterator start stop :=
    if start = [] ∨ stop = [] then .error "key cannot be empty"
    else .ok ⟨m.range start stop, none⟩

theorem goLevelDB_serves (m : Content) {key : Bytes} (hkey : key ≠ []) :
    Serves (goLevelDB m) m key where
  get_eq := by simp [goLevelDB, hkey]
  iterator_eq stop hstop := by simp [goLevelDB, hkey, hstop]

/-! ## The probe sees the key and nothing else -/

/-- `key ‖ 0x00` covers `key` in lexicographic order. -/
theorem covBy_rangeEnd (key : Bytes) : key ⋖ rangeEnd key := by
  rw [rangeEnd_eq]
  exact covBy_append_least zero_le_byte key

/-- The probe answers "present" or "absent" for the key itself, whatever its neighbours are. -/
theorem probe_eq {d : DB ε} {m : Content} {key : Bytes} (hd : Serves d m key) :
    probe d key = ((m.get? key).map fun _ => [], none) := by
  have hstop : rangeEnd key ≠ [] := by simp [rangeEnd_eq]
  unfold probe
  rw [hd.iterator_eq _ hstop, OrdMap.range_of_covBy (covBy_rangeEnd key)]
  cases m.get? key <;> rfl

theorem isFinal_mangle {v : Option Bytes} :
    isFinal (ε := ε) (mangle v, none) = true ↔ ∃ bs, v = some bs ∧ bs ≠ [] := by
  rcases v with _ | _ | ⟨b, bs⟩ <;> simp [isFinal, mangle]

/-- Not final: missing, or the zero-length value goleveldb erased. -/
theorem not_isFinal_mangle {v : Option Bytes} :
    isFinal (ε := ε) (mangle v, none) = false ↔ v = none ∨ v = some [] := by
  rcases v with _ | _ | ⟨b, bs⟩ <;> simp [isFinal, mangle]

theorem mangle_of_ne_nil {bs : Bytes} (hbs : bs ≠ []) : mangle (some bs) = some bs := by
  cases bs with
  | nil => exact absurd rfl hbs
  | cons b bs => rfl

/-- **`Get` reads the contents.** Nil for an absent key, the stored bytes for a present one,
zero-length ones included. -/
theorem get_eq {d : DB ε} {m : Content} {key : Bytes} (hd : Serves d m key) :
    get d key = (m.get? key, none) := by
  unfold get
  rw [hd.get_eq]
  show (if isFinal (mangle (m.get? key), none) = true then _ else _) = _
  cases hfin : isFinal (ε := ε) (mangle (m.get? key), none) with
  | true =>
      obtain ⟨bs, hbs, hne⟩ := isFinal_mangle.mp hfin
      rw [if_pos rfl, hbs, mangle_of_ne_nil hne]
  | false =>
      rw [if_neg Bool.false_ne_true, probe_eq hd]
      rcases not_isFinal_mangle.mp hfin with hv | hv <;> rw [hv] <;> rfl

theorem has_eq {d : DB ε} {m : Content} {key : Bytes} (hd : Serves d m key) :
    has d key = ((m.get? key).isSome, none) := by
  unfold has
  rw [get_eq hd]

/-- **Nil-versus-empty repair.** `Get` is nil exactly for an absent key, the non-nil empty slice
exactly for a zero-length value, and otherwise the stored value; `Has` is presence; and the answer
depends on nothing but the key's own binding, so neighbouring keys never influence it. -/
theorem get_has_exact {d : DB ε} {m : Content} {key : Bytes} (hd : Serves d m key) :
    (get d key = (none, none) ↔ m.get? key = none) ∧
      (get d key = (some [], none) ↔ m.get? key = some []) ∧
      (∀ v, v ≠ [] → (get d key = (some v, none) ↔ m.get? key = some v)) ∧
      (has d key = (true, none) ↔ ∃ v, m.get? key = some v) ∧
      (has d key = (false, none) ↔ m.get? key = none) ∧
      ∀ (d' : DB ε) (m' : Content), Serves d' m' key → m'.get? key = m.get? key →
        get d' key = get d key ∧ has d' key = has d key := by
  rw [get_eq hd, has_eq hd]
  refine ⟨by simp, by simp, by simp, ?_, ?_, ?_⟩
  · simp [Option.isSome_iff_exists]
  · simp
  · intro d' m' hd' hsame
    rw [get_eq hd', has_eq hd', hsame]
    exact ⟨rfl, rfl⟩

/-- The keys of the regression test, next to a prefix and a zero-extension of the empty one. -/
def testContent : Content :=
  ((((OrdMap.empty.insert [101] [1]).insert [101, 0] []).insert [101, 0, 0] [2]).insert [107] [118])

theorem get_has_exact_test :
    get (goLevelDB testContent) [101, 0] = (some [], none) ∧
      get (goLevelDB testContent) [107] = (some [118], none) ∧
      get (goLevelDB testContent) [107, 0] = (none, none) :=
  ⟨(get_has_exact (goLevelDB_serves testContent (by decide))).2.1.mpr (by decide),
    ((get_has_exact (goLevelDB_serves testContent (by decide))).2.2.1 [118] (by decide)).mpr
      (by decide),
    (get_has_exact (goLevelDB_serves testContent (by decide))).1.mpr (by decide)⟩

end PqcMigration.App.EmptyValueDB
