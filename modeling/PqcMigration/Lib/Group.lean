/-
# PqcMigration.Lib.Group — grouping by a key, in the order of the first occurrence.

`groups l` is the dictionary of lists one gets by appending each value to the list under its key. A key has
a group if it occurs, and its group is what comes with it, in order (`mem_groups`).
-/
import Mathlib.Data.List.Induction
import Mathlib.Data.List.Nodup
import Mathlib.Tactic.Common

namespace PqcMigration.Lib

universe u v

variable {κ : Type u} {ν : Type v} [DecidableEq κ] {k k' : κ} {v : ν} {vs : List ν}
  {gs : List (κ × List ν)} {l : List (κ × ν)}

/-- `d[k].append(v)`, where a key that is not there has the empty list. -/
def addTo (k : κ) (v : ν) : List (κ × List ν) → List (κ × List ν)
  | [] => [(k, [v])]
  | g :: gs => if g.1 = k then (k, g.2 ++ [v]) :: gs else g :: addTo k v gs

def groups (l : List (κ × ν)) : List (κ × List ν) := l.foldl (fun gs x => addTo x.1 x.2 gs) []

/-- The values that come with a key. -/
def collect (k : κ) (l : List (κ × ν)) : List ν := l.filterMap fun x => if x.1 = k then some x.2 else none

theorem collect_concat (k : κ) (l : List (κ × ν)) (x : κ × ν) :
    collect k (l ++ [x]) = collect k l ++ if x.1 = k then [x.2] else [] := by
  unfold collect
  rw [List.filterMap_append]
  congr 1
  by_cases h : x.1 = k <;> simp [h]

theorem groups_concat (l : List (κ × ν)) (x : κ × ν) : groups (l ++ [x]) = addTo x.1 x.2 (groups l) := by
  unfold groups
  rw [List.foldl_append, List.foldl_cons, List.foldl_nil]

theorem mem_keys_addTo : k' ∈ (addTo k v gs).map Prod.fst ↔ k' = k ∨ k' ∈ gs.map Prod.fst := by
  induction gs with
  | nil => simp [addTo]
  | cons g gs ih =>
      unfold addTo
      split
      · next hg => simp [← hg]
      · rw [List.map_cons, List.mem_cons, ih, List.map_cons, List.mem_cons]
        exact or_left_comm

theorem nodup_addTo (h : (gs.map Prod.fst).Nodup) : ((addTo k v gs).map Prod.fst).Nodup := by
  induction gs with
  | nil => simp [addTo]
  | cons g gs ih =>
      obtain ⟨hnot, hrest⟩ := List.nodup_cons.mp h
      unfold addTo
      split
      · next hg =>
        subst hg
        exact h
      · next hg =>
        refine List.nodup_cons.mpr ⟨fun hmem => ?_, ih hrest⟩
        exact (mem_keys_addTo.mp hmem).elim hg hnot

theorem nodup_groups (l : List (κ × ν)) : ((groups l).map Prod.fst).Nodup := by
  induction l using List.reverseRecOn with
  | nil => exact List.nodup_nil
  | append_singleton l x ih =>
      rw [groups_concat]
      exact nodup_addTo ih

/-- Other keys keep their groups. -/
theorem mem_addTo_of_ne (hk : k' ≠ k) : (k', vs) ∈ addTo k v gs ↔ (k', vs) ∈ gs := by
  induction gs with
  | nil => simp [addTo, hk]
  | cons g gs ih =>
      unfold addTo
      split
      · next hg =>
        rw [List.mem_cons, List.mem_cons]
        refine or_congr_left ⟨fun h => absurd (Prod.mk.inj h).1 hk, fun h => ?_⟩
        rw [← h] at hg
        exact absurd hg hk
      · rw [List.mem_cons, List.mem_cons, ih]

theorem mem_addTo_self (h : (gs.map Prod.fst).Nodup) :
    (k, vs) ∈ addTo k v gs ↔
      (∃ ws, (k, ws) ∈ gs ∧ vs = ws ++ [v]) ∨ (k ∉ gs.map Prod.fst ∧ vs = [v]) := by
  induction gs with
  | nil => simp [addTo]
  | cons g gs ih =>
      obtain ⟨hnot, hrest⟩ := List.nodup_cons.mp h
      unfold addTo
      split
      · next hg =>
        subst hg
        have hlater : ∀ ws, (g.1, ws) ∉ gs := fun ws hws =>
          hnot (List.mem_map.mpr ⟨(g.1, ws), hws, rfl⟩)
        have hhead : ∀ ws, (g.1, ws) = g ↔ ws = g.2 := fun ws => ⟨fun h => by rw [← h], fun h => by rw [h]⟩
        simp [hlater, hhead]
      · next hg =>
        have hhead : ∀ ws, (k, ws) ≠ g := fun ws h => hg (by rw [← h])
        rw [List.mem_cons, or_iff_right (hhead vs), ih hrest]
        simp [hhead, Ne.symm hg]

/-- **The groups** are those of the keys that occur. -/
theorem mem_groups : (k, vs) ∈ groups l ↔ vs ≠ [] ∧ vs = collect k l := by
  induction l using List.reverseRecOn generalizing vs with
  | nil =>
      have hnil : groups ([] : List (κ × ν)) = [] := rfl
      rw [hnil]
      simp [collect]
  | append_singleton l x ih =>
      rw [groups_concat, collect_concat]
      by_cases hk : x.1 = k
      · subst hk
        have hnonempty : (vs ≠ [] ∧ vs = collect x.1 l ++ [x.2]) ↔ vs = collect x.1 l ++ [x.2] :=
          ⟨And.right, fun h => ⟨by simp [h], h⟩⟩
        rw [mem_addTo_self (nodup_groups l), if_pos rfl, hnonempty]
        by_cases hfirst : collect x.1 l = []
        · -- the key is new
          have hnew : x.1 ∉ (groups l).map Prod.fst := by
            intro hmem
            obtain ⟨⟨_, ws⟩, hws, rfl⟩ := List.mem_map.mp hmem
            obtain ⟨hne, heq⟩ := ih.mp hws
            exact hne (heq.trans hfirst)
          simp [ih, hfirst, hnew]
        · have hold : x.1 ∈ (groups l).map Prod.fst :=
            List.mem_map.mpr ⟨(x.1, collect x.1 l), ih.mpr ⟨hfirst, rfl⟩, rfl⟩
          rw [or_iff_left (fun h => h.1 hold)]
          constructor
          · rintro ⟨ws, hws, rfl⟩
            rw [(ih.mp hws).2]
          · rintro rfl
            exact ⟨collect x.1 l, ih.mpr ⟨hfirst, rfl⟩, rfl⟩
      · rw [mem_addTo_of_ne (Ne.symm hk), ih, if_neg hk, List.append_nil]

end PqcMigration.Lib
