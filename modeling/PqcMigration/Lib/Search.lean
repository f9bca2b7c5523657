/-
# PqcMigration.Lib.Search — what a search with an explicit stack finds.

The search takes a node from the stack. If the node was found before, that is all; otherwise it is found
now, and everything it links to goes on the stack.

It ends whatever the links are, cycles included: a turn takes one node from the stack, or it uses up the
links of a node, and only then does the stack grow, by as many (`pending_add`). What it finds is exactly
what is reachable, each node once (`search_exact`).
-/
import Mathlib.Data.List.Nodup
import Mathlib.Logic.Relation
import Mathlib.Tactic.Common

namespace PqcMigration.Lib.Search

universe u

variable {α : Type u}

/-! ## The table -/

section Loop

variable [DecidableEq α]

/-- One more link: the node it leads to goes to the end of the list. -/
def addLink (table : α → List α) (link : α × α) : α → List α :=
  Function.update table link.1 (table link.1 ++ [link.2])

def tableOf (links : List (α × α)) : α → List α := links.foldl addLink fun _ => []

theorem foldl_addLink (links : List (α × α)) (table : α → List α) (v : α) :
    links.foldl addLink table v = table v ++ (links.filter fun l => l.1 = v).map Prod.snd := by
  induction links generalizing table with
  | nil => simp
  | cons link links ih =>
      rw [List.foldl_cons, ih, addLink]
      by_cases hv : link.1 = v
      · subst hv
        simp
      · simp [hv, Function.update_of_ne (Ne.symm hv)]

theorem tableOf_eq (links : List (α × α)) (v : α) :
    tableOf links v = (links.filter fun l => l.1 = v).map Prod.snd := by
  rw [tableOf, foldl_addLink, List.nil_append]

theorem mem_tableOf {links : List (α × α)} {v w : α} : w ∈ tableOf links v ↔ (v, w) ∈ links := by
  rw [tableOf_eq]
  constructor
  · intro h
    obtain ⟨⟨v', w'⟩, hl, rfl⟩ := List.mem_map.mp h
    obtain ⟨hmem, heq⟩ := List.mem_filter.mp hl
    obtain rfl : v' = v := of_decide_eq_true heq
    exact hmem
  · exact fun h => List.mem_map.mpr ⟨(v, w), List.mem_filter.mpr ⟨h, decide_eq_true rfl⟩, rfl⟩

/-! ## The loop -/

def isFound (found : List α) (v : α) : Bool := found.any fun w => w = v

theorem isFound_iff {found : List α} {v : α} : isFound found v = true ↔ v ∈ found := by
  simp [isFound]

/-- The links of what is not found yet. -/
def pending (links : List (α × α)) (found : List α) : List (α × α) :=
  links.filter fun l => !isFound found l.1

/-- Finding a node uses up as many links as it puts on the stack. -/
theorem pending_add {found : List α} {v : α} (h : isFound found v = false) (links : List (α × α)) :
    (tableOf links v).length + (pending links (found ++ [v])).length = (pending links found).length := by
  rw [tableOf_eq, List.length_map]
  unfold pending
  induction links with
  | nil => rfl
  | cons link links ih =>
      by_cases hv : link.1 = v
      · have hnow : isFound (found ++ [v]) link.1 = true := by simp [isFound_iff, hv]
        rw [List.filter_cons_of_pos (by simp [hv]), List.filter_cons_of_neg (by simp [hnow]),
          List.filter_cons_of_pos (by simp [hv, h]), List.length_cons, List.length_cons]
        omega
      · have hsame : isFound (found ++ [v]) link.1 = isFound found link.1 := by
          simp [isFound, Ne.symm hv]
        rw [List.filter_cons_of_neg (by simp [hv]), List.filter_cons, List.filter_cons, hsame]
        cases isFound found link.1 with
        | true => exact ih
        | false =>
            simp only [Bool.not_false, if_true, List.length_cons]
            omega

theorem measure_lt {found : List α} {v : α} (h : isFound found v = false) (links : List (α × α))
    (stack : List α) :
    ((tableOf links v).reverse ++ stack).length + (pending links (found ++ [v])).length <
      (v :: stack).length + (pending links found).length := by
  have hadd := pending_add h links
  rw [List.length_append, List.length_reverse, List.length_cons]
  omega

/-- The top of the stack comes first. Nodes are pushed in the order of the table, so the last one is on
top. -/
def search (links : List (α × α)) (stack found : List α) : List α :=
  match stack with
  | [] => found
  | v :: stack =>
      match _h : isFound found v with
      | true => search links stack found
      | false => search links ((tableOf links v).reverse ++ stack) (found ++ [v])
termination_by stack.length + (pending links found).length
decreasing_by
  · exact Nat.add_lt_add_right (Nat.lt_succ_self _) _
  · exact measure_lt _h links stack

/-- **Invariant rule.** What both kinds of turns keep holds when the stack is empty. -/
theorem search_invariant {links : List (α × α)} {I : List α → List α → Prop}
    (hskip : ∀ {v stack found}, v ∈ found → I (v :: stack) found → I stack found)
    (hvisit : ∀ {v stack found}, v ∉ found → I (v :: stack) found →
      I ((tableOf links v).reverse ++ stack) (found ++ [v]))
    {stack found : List α} (h : I stack found) : I [] (search links stack found) := by
  fun_induction search links stack found with
  | case1 found => exact h
  | case2 found v stack hv ih => exact ih (hskip (isFound_iff.mp hv) h)
  | case3 found v stack hv ih =>
      exact ih (hvisit (fun hmem => by rw [isFound_iff.mpr hmem] at hv; exact nomatch hv) h)

end Loop

/-! ## Reachable nodes -/

/-- From one node to the other over links. -/
def Reach (links : List (α × α)) : α → α → Prop := Relation.ReflTransGen fun v w => (v, w) ∈ links

structure Inv (links : List (α × α)) (root : α) (stack found : List α) : Prop where
  nodup : found.Nodup
  reach : ∀ v, v ∈ stack ∨ v ∈ found → Reach links root v
  root : root ∈ stack ∨ root ∈ found
  /-- What was found leads to what was found, or is to be looked at. -/
  closed : ∀ v ∈ found, ∀ w, (v, w) ∈ links → w ∈ stack ∨ w ∈ found

variable {links : List (α × α)} {root v : α} {stack found : List α}

theorem Inv.start : Inv links root [root] [] where
  nodup := List.nodup_nil
  reach := by
    rintro v (hv | hv)
    · obtain rfl := List.mem_singleton.mp hv
      exact Relation.ReflTransGen.refl
    · exact absurd hv List.not_mem_nil
  root := Or.inl List.mem_cons_self
  closed := fun _ hv => absurd hv List.not_mem_nil

theorem Inv.skip (hv : v ∈ found) (h : Inv links root (v :: stack) found) : Inv links root stack found := by
  -- whatever was on top is found anyway
  have hdrop {w : α} (hw : w ∈ v :: stack ∨ w ∈ found) : w ∈ stack ∨ w ∈ found := by
    rcases hw with hw | hw
    · rcases List.mem_cons.mp hw with rfl | hw
      · exact Or.inr hv
      · exact Or.inl hw
    · exact Or.inr hw
  exact ⟨h.nodup, fun w hw => h.reach w (hw.imp_left (List.mem_cons_of_mem v)), hdrop h.root,
    fun w hw x hx => hdrop (h.closed w hw x hx)⟩

theorem Inv.mem_iff (h : Inv links root [] found) (v : α) : v ∈ found ↔ Reach links root v := by
  refine ⟨fun hv => h.reach v (Or.inr hv), fun hreach => ?_⟩
  -- along the links, from the root on
  induction hreach with
  | refl => exact h.root.resolve_left List.not_mem_nil
  | tail _ hlink ih => exact (h.closed _ ih _ hlink).resolve_left List.not_mem_nil

variable [DecidableEq α]

theorem Inv.visit (hv : v ∉ found) (h : Inv links root (v :: stack) found) :
    Inv links root ((tableOf links v).reverse ++ stack) (found ++ [v]) := by
  have hstack {w : α} : w ∈ (tableOf links v).reverse ++ stack ↔ (v, w) ∈ links ∨ w ∈ stack := by
    rw [List.mem_append, List.mem_reverse, mem_tableOf]
  have hfound {w : α} : w ∈ found ++ [v] ↔ w ∈ found ∨ w = v := by
    rw [List.mem_append, List.mem_singleton]
  have hreach : Reach links root v := h.reach v (Or.inl List.mem_cons_self)
  have hmove {w : α} (hw : w ∈ v :: stack ∨ w ∈ found) :
      w ∈ (tableOf links v).reverse ++ stack ∨ w ∈ found ++ [v] := by
    rw [hstack, hfound]
    rcases hw with hw | hw
    · rcases List.mem_cons.mp hw with rfl | hw
      · exact Or.inr (Or.inr rfl)
      · exact Or.inl (Or.inr hw)
    · exact Or.inr (Or.inl hw)
  refine ⟨?_, ?_, hmove h.root, ?_⟩
  · exact List.nodup_append.mpr ⟨h.nodup, List.nodup_singleton v, fun w hw x hx => by
      rintro rfl
      exact hv (List.mem_singleton.mp hx ▸ hw)⟩
  · intro w hw
    rw [hstack, hfound] at hw
    rcases hw with (hw | hw) | hw | rfl
    · exact hreach.tail hw
    · exact h.reach w (Or.inl (List.mem_cons_of_mem v hw))
    · exact h.reach w (Or.inr hw)
    · exact hreach
  · intro w hw x hx
    rcases hfound.mp hw with hw | rfl
    · exact hmove (h.closed w hw x hx)
    · exact Or.inl (hstack.mpr (Or.inl hx))

/-- **The search is exact.** -/
theorem search_exact (links : List (α × α)) (root : α) :
    (search links [root] []).Nodup ∧ ∀ v, v ∈ search links [root] [] ↔ Reach links root v := by
  have h : Inv links root [] (search links [root] []) :=
    search_invariant Inv.skip Inv.visit Inv.start
  exact ⟨h.nodup, h.mem_iff⟩

end PqcMigration.Lib.Search
