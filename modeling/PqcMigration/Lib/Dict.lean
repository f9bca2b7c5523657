/-
# PqcMigration.Lib.Dict — dictionaries that are only read by key.

A dictionary is the function from keys to what they hold. Assignments come one after another, and the
last one to a key wins: `assign d kvs` is `d` after all of `kvs`. Where the order of the keys is read as
well, `entriesOf kvs` lists the entries that the assignments leave, each key in the place where it came
first.
-/
import Mathlib.Logic.Function.Basic
import Mathlib.Tactic.Common

namespace PqcMigration.Lib

universe u v

variable {κ : Type u} {ν : Type v} [DecidableEq κ] {d : κ → Option ν} {kvs : List (κ × ν)} {k : κ}

/-- The dictionary after the assignments, in order. -/
def assign (d : κ → Option ν) (kvs : List (κ × ν)) : κ → Option ν :=
  kvs.foldl (fun d kv => Function.update d kv.1 (some kv.2)) d

@[simp] theorem assign_nil : assign d [] = d := rfl

theorem assign_cons (kv : κ × ν) :
    assign d (kv :: kvs) = assign (Function.update d kv.1 (some kv.2)) kvs := rfl

theorem assign_append (kvs' : List (κ × ν)) : assign d (kvs ++ kvs') = assign (assign d kvs) kvs' :=
  List.foldl_append

/-- A key that is not assigned holds what it held. -/
theorem assign_of_notMem (h : ∀ v, (k, v) ∉ kvs) : assign d kvs k = d k := by
  induction kvs generalizing d with
  | nil => rfl
  | cons kv kvs ih =>
      have hne : k ≠ kv.1 := by
        rintro rfl
        exact h kv.2 List.mem_cons_self
      rw [assign_cons, ih fun v hv => h v (List.mem_cons_of_mem _ hv)]
      exact Function.update_of_ne hne _ _

/-- A key that is assigned holds one of the values assigned to it. -/
theorem exists_assign_of_mem {v : ν} (h : (k, v) ∈ kvs) :
    ∃ v', (k, v') ∈ kvs ∧ assign d kvs k = some v' := by
  induction kvs generalizing d v with
  | nil => cases h
  | cons kv kvs ih =>
      rw [assign_cons]
      by_cases hlater : ∃ v', (k, v') ∈ kvs
      · obtain ⟨v', hv'⟩ := hlater
        obtain ⟨v'', hv'', heq⟩ := ih hv'
        exact ⟨v'', List.mem_cons_of_mem _ hv'', heq⟩
      · have hnot : ∀ v', (k, v') ∉ kvs := fun v' hv' => hlater ⟨v', hv'⟩
        obtain rfl : (k, v) = kv := (List.mem_cons.mp h).resolve_right (hnot v)
        refine ⟨v, List.mem_cons_self, ?_⟩
        rw [assign_of_notMem hnot]
        exact Function.update_self _ _ _

/-- A key assigned one value only holds that value. -/
theorem assign_of_mem {v : ν} (h : (k, v) ∈ kvs) (hunique : ∀ v', (k, v') ∈ kvs → v' = v) :
    assign d kvs k = some v := by
  obtain ⟨v', hv', heq⟩ := exists_assign_of_mem (d := d) h
  rw [heq, hunique v' hv']

/-! ## Entries in order -/

/-- `m.set(k, v)`: a key that is there keeps its place. -/
def setEntry (k : κ) (v : ν) : List (κ × ν) → List (κ × ν)
  | [] => [(k, v)]
  | e :: es => if e.1 = k then (k, v) :: es else e :: setEntry k v es

def entriesOf (kvs : List (κ × ν)) : List (κ × ν) :=
  kvs.foldl (fun es kv => setEntry kv.1 kv.2 es) []

theorem mem_keys_setEntry {k' : κ} {v : ν} {es : List (κ × ν)} :
    k' ∈ (setEntry k v es).map Prod.fst ↔ k' = k ∨ k' ∈ es.map Prod.fst := by
  induction es with
  | nil => simp [setEntry]
  | cons e es ih =>
      rw [setEntry]
      split
      · next he =>
          subst he
          simp
      · rw [List.map_cons, List.mem_cons, ih, List.map_cons, List.mem_cons]
        exact or_left_comm

theorem nodup_setEntry {v : ν} {es : List (κ × ν)} (h : (es.map Prod.fst).Nodup) :
    ((setEntry k v es).map Prod.fst).Nodup := by
  induction es with
  | nil => simp [setEntry]
  | cons e es ih =>
      obtain ⟨hnot, hrest⟩ := List.nodup_cons.mp h
      rw [setEntry]
      split
      · next he =>
          subst he
          exact h
      · next he =>
          refine List.nodup_cons.mpr ⟨?_, ih hrest⟩
          intro hmem
          rcases mem_keys_setEntry.mp hmem with heq | hold
          · exact he heq
          · exact hnot hold

theorem mem_keys_entriesOf : k ∈ (entriesOf kvs).map Prod.fst ↔ k ∈ kvs.map Prod.fst := by
  suffices h : ∀ es : List (κ × ν), k ∈ (kvs.foldl (fun es kv => setEntry kv.1 kv.2 es) es).map Prod.fst ↔
      k ∈ es.map Prod.fst ∨ k ∈ kvs.map Prod.fst by
    rw [entriesOf, h]
    simp
  induction kvs with
  | nil => simp
  | cons kv kvs ih =>
      intro es
      rw [List.foldl_cons, ih, mem_keys_setEntry, List.map_cons, List.mem_cons, or_assoc]
      exact or_left_comm

/-- Every key once. -/
theorem nodup_entriesOf (kvs : List (κ × ν)) : ((entriesOf kvs).map Prod.fst).Nodup := by
  suffices h : ∀ es : List (κ × ν), (es.map Prod.fst).Nodup →
      ((kvs.foldl (fun es kv => setEntry kv.1 kv.2 es) es).map Prod.fst).Nodup from
    h [] List.nodup_nil
  induction kvs with
  | nil => exact fun _ h => h
  | cons kv kvs ih => exact fun es h => ih _ (nodup_setEntry h)

theorem setEntry_of_notMem {v : ν} {es : List (κ × ν)} (h : k ∉ es.map Prod.fst) :
    setEntry k v es = es ++ [(k, v)] := by
  induction es with
  | nil => rfl
  | cons e es ih =>
      obtain ⟨hne, hrest⟩ := not_or.mp (mt List.mem_cons.mpr h)
      rw [setEntry, if_neg (Ne.symm hne), ih hrest, List.cons_append]

/-- Assignments to distinct keys are the entries. -/
theorem entriesOf_of_nodup (h : (kvs.map Prod.fst).Nodup) : entriesOf kvs = kvs := by
  suffices hall : ∀ es : List (κ × ν), ((es ++ kvs).map Prod.fst).Nodup →
      kvs.foldl (fun es kv => setEntry kv.1 kv.2 es) es = es ++ kvs from hall [] h
  clear h
  induction kvs with
  | nil =>
      intro es _
      exact (List.append_nil es).symm
  | cons kv kvs ih =>
      intro es hes
      have hnot : kv.1 ∉ es.map Prod.fst := by
        rw [List.map_append, List.map_cons] at hes
        intro hmem
        exact (List.nodup_append.mp hes).2.2 _ hmem _ List.mem_cons_self rfl
      rw [List.foldl_cons, setEntry_of_notMem hnot, ih, List.append_assoc, List.singleton_append]
      rwa [List.append_assoc, List.singleton_append]

end PqcMigration.Lib
