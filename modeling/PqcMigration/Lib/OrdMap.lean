/-
# PqcMigration.Lib.OrdMap — finite maps kept as strictly increasing association lists, with range
scans, and the lexicographic fact that makes a one-key scan possible.

`OrdMap κ ν` carries the proof that its keys increase, so two maps with the same bindings scan in
the same order and no key is bound twice. The point of the module is `range_of_covBy`: when `hi`
COVERS `k` (nothing lies strictly between them), the half-open range `[k, hi)` holds the binding of
`k` or nothing. For lists in lexicographic order, `l ++ [b]` covers `l` whenever `b` is least
(`covBy_append_least`) — this is why a scan of `[key, key ‖ 0x00)` sees exactly `key`.
-/
import Mathlib.Data.List.Lex
import Mathlib.Data.List.Nodup
import Mathlib.Order.Cover

namespace PqcMigration.Lib

universe u v

/-! ## Covering in lexicographic order -/

/-- Appending the least symbol gives the next word in lexicographic order: nothing lies strictly
between `l` and `l ++ [b]`. -/
theorem covBy_append_least {α : Type u} [LinearOrder α] {b : α} (hb : ∀ a, b ≤ a) (l : List α) :
    l ⋖ l ++ [b] := by
  constructor
  · show List.Lex (· < ·) l (l ++ [b])
    induction l with
    | nil => exact List.Lex.nil
    | cons a l ih => exact List.Lex.cons ih
  · intro w hlw hwb
    -- `w` would start with `l`; what follows `l` is nonempty and below the least symbol
    replace hlw : List.Lex (· < ·) l w := hlw
    replace hwb : List.Lex (· < ·) w (l ++ [b]) := hwb
    induction hlw with
    | nil =>
        cases hwb with
        | rel h => exact absurd h (not_lt_of_ge (hb _))
        | cons h => cases h
    | cons hlw ih =>
        cases hwb with
        | rel h => exact lt_irrefl _ h
        | cons h => exact ih h
    | rel h =>
        cases hwb with
        | rel h' => exact lt_asymm h h'
        | cons h' => exact lt_irrefl _ h

/-! ## Ordered maps -/

/-- A finite map: bindings in strictly increasing key order. -/
structure OrdMap (κ : Type u) (ν : Type v) [LinearOrder κ] where
  entries : List (κ × ν)
  sorted : entries.Pairwise fun a b => a.1 < b.1

namespace OrdMap

variable {κ : Type u} {ν : Type v} [LinearOrder κ]

/-- The value bound to `k`, if any. -/
def get? (m : OrdMap κ ν) (k : κ) : Option ν :=
  (m.entries.find? fun e => e.1 = k).map Prod.snd

/-- Bind `k` to `v`, replacing an earlier binding. -/
def insert (m : OrdMap κ ν) (k : κ) (v : ν) : OrdMap κ ν where
  entries := m.entries.filter (fun e => e.1 < k) ++ (k, v) :: m.entries.filter (fun e => k < e.1)
  sorted := by
    rw [List.pairwise_append, List.pairwise_cons]
    refine ⟨m.sorted.filter _, ⟨?_, m.sorted.filter _⟩, ?_⟩
    · intro e he
      simpa using (List.mem_filter.mp he).2
    · intro e he f hf
      have hek : e.1 < k := by simpa using (List.mem_filter.mp he).2
      rcases List.mem_cons.mp hf with rfl | hf
      · exact hek
      · have hkf : k < f.1 := by simpa using (List.mem_filter.mp hf).2
        exact hek.trans hkf

/-- Remove the binding of `k`. -/
def erase (m : OrdMap κ ν) (k : κ) : OrdMap κ ν where
  entries := m.entries.filter fun e => e.1 ≠ k
  sorted := m.sorted.filter _

/-- The map with no binding. -/
def empty : OrdMap κ ν := ⟨[], List.Pairwise.nil⟩

/-- The bindings whose key lies in `[lo, hi)`, in key order. -/
def range (m : OrdMap κ ν) (lo hi : κ) : List (κ × ν) :=
  m.entries.filter fun e => lo ≤ e.1 ∧ e.1 < hi

theorem nodup_keys (m : OrdMap κ ν) : (m.entries.map Prod.fst).Nodup :=
  List.pairwise_map.mpr (m.sorted.imp ne_of_lt)

/-- A key is bound to what its entry says. -/
theorem get?_eq_some_iff {m : OrdMap κ ν} {k : κ} {v : ν} : m.get? k = some v ↔ (k, v) ∈ m.entries := by
  constructor
  · intro h
    obtain ⟨⟨k', v'⟩, hfind, rfl⟩ := Option.map_eq_some_iff.mp h
    obtain rfl : k' = k := by simpa using List.find?_some hfind
    exact List.mem_of_find?_eq_some hfind
  · intro hmem
    have hsome : (m.entries.find? fun e => e.1 = k).isSome := by
      rw [List.find?_isSome]
      exact ⟨(k, v), hmem, by simp⟩
    obtain ⟨e, hfind⟩ := Option.isSome_iff_exists.mp hsome
    have hkey : e.1 = (k, v).1 := by simpa using List.find?_some hfind
    have hsame := List.inj_on_of_nodup_map m.nodup_keys (List.mem_of_find?_eq_some hfind) hmem hkey
    rw [get?, hfind, hsame]
    rfl

theorem mem_entries_insert {m : OrdMap κ ν} {k : κ} {v : ν} {e : κ × ν} :
    e ∈ (m.insert k v).entries ↔ e = (k, v) ∨ (e.1 ≠ k ∧ e ∈ m.entries) := by
  simp only [insert, List.mem_append, List.mem_filter, List.mem_cons, decide_eq_true_eq]
  constructor
  · rintro (⟨hmem, hlt⟩ | rfl | ⟨hmem, hlt⟩)
    · exact Or.inr ⟨hlt.ne, hmem⟩
    · exact Or.inl rfl
    · exact Or.inr ⟨hlt.ne', hmem⟩
  · rintro (rfl | ⟨hne, hmem⟩)
    · exact Or.inr (Or.inl rfl)
    · rcases lt_or_gt_of_ne hne with hlt | hlt
      · exact Or.inl ⟨hmem, hlt⟩
      · exact Or.inr (Or.inr ⟨hmem, hlt⟩)

theorem get?_insert_self (m : OrdMap κ ν) (k : κ) (v : ν) : (m.insert k v).get? k = some v :=
  get?_eq_some_iff.mpr (mem_entries_insert.mpr (Or.inl rfl))

theorem get?_insert_of_ne (m : OrdMap κ ν) {k k' : κ} (hne : k' ≠ k) (v : ν) :
    (m.insert k v).get? k' = m.get? k' := by
  refine Option.ext fun w => ?_
  rw [get?_eq_some_iff, get?_eq_some_iff, mem_entries_insert,
    or_iff_right fun heq => hne (congrArg Prod.fst heq)]
  exact and_iff_right hne

/-- **A covered range is one key.** Scanning `[k, hi)` with `hi` covering `k` yields the binding of
`k`, and nothing when `k` is not bound. -/
theorem range_of_covBy {m : OrdMap κ ν} {k hi : κ} (hcov : k ⋖ hi) :
    m.range k hi = ((m.get? k).map fun v => (k, v)).toList := by
  have honly : ∀ x, k ≤ x ∧ x < hi ↔ x = k := by
    intro x
    constructor
    · rintro ⟨hle, hlt⟩
      by_contra hne
      exact hcov.2 (lt_of_le_of_ne hle (Ne.symm hne)) hlt
    · rintro rfl
      exact ⟨le_rfl, hcov.1⟩
  obtain ⟨es, hs⟩ := m
  show es.filter (fun e => k ≤ e.1 ∧ e.1 < hi) =
    (((es.find? fun e => e.1 = k).map Prod.snd).map fun v => (k, v)).toList
  simp only [honly]
  induction es with
  | nil => rfl
  | cons e es ih =>
      obtain ⟨hhead, htail⟩ := List.pairwise_cons.mp hs
      by_cases hek : e.1 = k
      · have hnone : es.filter (fun e => e.1 = k) = [] := by
          rw [List.filter_eq_nil_iff]
          intro f hf
          have hlt := hhead f hf
          simpa using (hek ▸ hlt).ne'
        rw [List.filter_cons_of_pos (by simpa using hek), hnone,
          List.find?_cons_of_pos (by simpa using hek)]
        obtain ⟨k', v'⟩ := e
        subst hek
        rfl
      · rw [List.filter_cons_of_neg (by simpa using hek),
          List.find?_cons_of_neg (by simpa using hek)]
        exact ih htail

end OrdMap

end PqcMigration.Lib
