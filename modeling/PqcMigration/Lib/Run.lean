/-
# PqcMigration.Lib.Run — finite runs of a labelled partial step function, their invariants, and
simulation between two of them.

A system is a function `step : S → A → Option S`: the label `a` is what an actor (a relayer, a
thread, a scheduler) chooses to do, and `none` says that the label is not enabled in that state.
Everything else is derived from `step`:

  * `run step s as`   — the state reached from `s` by the labels `as`, or `none` if one of them is
    refused;
  * `trail step s as` — the states passed on the way, both ends included.

Both are plain recursive functions, so a concrete run EVALUATES.  The rules below are the only way
the rest of the development reasons about runs: an invariant rule (`run_invariant`), the same with
the labels taken so far (`run_history`) and for runs that meet a condition at every label they take
(`run_invariant_of_takes`), a rule for what certain labels bring about (`run_iff_takes`), one for what
holds between the two ends of a run (`run_rel`), and forward simulation with silent labels
(`run_simulates`).
-/
import Mathlib.Tactic.Common

namespace PqcMigration.Lib

universe u v w x

variable {S : Type u} {A : Type v}

/-! ## Runs -/

/-- The state reached from `s` by taking the labels in order; `none` as soon as one is refused. -/
def run (step : S → A → Option S) : S → List A → Option S
  | s, [] => some s
  | s, a :: as => (step s a).bind fun t => run step t as

/-- The states passed by `run`, from `s` on; it stops where a label is refused. -/
def trail (step : S → A → Option S) : S → List A → List S
  | s, [] => [s]
  | s, a :: as => s :: ((step s a).elim [] fun t => trail step t as)

section Rules

variable {step : S → A → Option S}

@[simp] theorem run_nil (s : S) : run step s [] = some s := rfl

theorem run_cons (s : S) (a : A) (as : List A) :
    run step s (a :: as) = (step s a).bind fun t => run step t as := rfl

theorem run_cons_eq_some {s u : S} {a : A} {as : List A} :
    run step s (a :: as) = some u ↔ ∃ t, step s a = some t ∧ run step t as = some u := by
  rw [run_cons, Option.bind_eq_some_iff]

theorem run_append (s : S) (as bs : List A) :
    run step s (as ++ bs) = (run step s as).bind fun t => run step t bs := by
  induction as generalizing s with
  | nil => rfl
  | cons a as ih =>
      rw [List.cons_append, run_cons, run_cons, Option.bind_assoc]
      congr 1
      funext t
      exact ih t

/-- A run over a concatenation passes through a middle state. -/
theorem run_append_eq_some {s u : S} {as bs : List A} :
    run step s (as ++ bs) = some u ↔ ∃ t, run step s as = some t ∧ run step t bs = some u := by
  rw [run_append, Option.bind_eq_some_iff]

/-- **Invariants.** What one step preserves, a whole run preserves. -/
theorem run_invariant {I : S → Prop} (hstep : ∀ s a t, I s → step s a = some t → I t)
    {s t : S} {as : List A} (hs : I s) (hrun : run step s as = some t) : I t := by
  induction as generalizing s with
  | nil =>
      obtain rfl : s = t := by simpa using hrun
      exact hs
  | cons a as ih =>
      obtain ⟨m, hm, hrest⟩ := run_cons_eq_some.mp hrun
      exact ih (hstep s a m hs hm) hrest

/-- **Invariants with history.** The same for a relation between the labels taken so far and the state
they lead to. -/
theorem run_history {I : List A → S → Prop}
    (hstep : ∀ bs s a t, I bs s → step s a = some t → I (bs ++ [a]) t)
    {s t : S} {as : List A} (hs : I [] s) (hrun : run step s as = some t) : I as t := by
  have hall : ∀ (as bs : List A) (s : S), I bs s → run step s as = some t → I (bs ++ as) t := by
    intro as
    induction as with
    | nil =>
        intro bs s hs hrun
        obtain rfl : s = t := by simpa using hrun
        rwa [List.append_nil]
    | cons a as ih =>
        intro bs s hs hrun
        obtain ⟨m, hm, hrest⟩ := run_cons_eq_some.mp hrun
        rw [List.append_cons]
        exact ih (bs ++ [a]) m (hstep bs s a m hs hm) hrest
  exact hall as [] s hs hrun

/-- **Two-state rule.** A reflexive, transitive relation that every step respects (from states
that satisfy a step-invariant `I`) relates the two ends of a run. -/
theorem run_rel {I : S → Prop} {R : S → S → Prop} (hrefl : ∀ s, R s s)
    (htrans : ∀ s t u, R s t → R t u → R s u)
    (hinv : ∀ s a t, I s → step s a = some t → I t)
    (hstep : ∀ s a t, I s → step s a = some t → R s t)
    {s t : S} {as : List A} (hs : I s) (hrun : run step s as = some t) : R s t := by
  induction as generalizing s with
  | nil =>
      obtain rfl : s = t := by simpa using hrun
      exact hrefl s
  | cons a as ih =>
      obtain ⟨m, hm, hrest⟩ := run_cons_eq_some.mp hrun
      exact htrans s m t (hstep s a m hs hm) (ih (hinv s a m hs hm) hrest)

/-! ## The states passed on the way -/

theorem mem_trail_self (s : S) (as : List A) : s ∈ trail step s as := by
  cases as <;> simp [trail]

/-- A state is passed by a run exactly when the run can be cut there. -/
theorem mem_trail_iff {s t u : S} {as : List A} (hrun : run step s as = some t) :
    u ∈ trail step s as ↔
      ∃ bs cs, as = bs ++ cs ∧ run step s bs = some u ∧ run step u cs = some t := by
  induction as generalizing s with
  | nil =>
      obtain rfl : s = t := by simpa using hrun
      constructor
      · intro hu
        obtain rfl : u = s := by simpa [trail] using hu
        exact ⟨[], [], rfl, rfl, rfl⟩
      · rintro ⟨bs, cs, hsplit, hleft, -⟩
        obtain ⟨rfl, -⟩ := List.append_eq_nil_iff.mp hsplit.symm
        obtain rfl : s = u := by simpa using hleft
        exact mem_trail_self _ _
  | cons a as ih =>
      obtain ⟨m, hm, hrest⟩ := run_cons_eq_some.mp hrun
      have htrail : trail step s (a :: as) = s :: trail step m as := by
        simp [trail, hm]
      rw [htrail, List.mem_cons, ih hrest]
      constructor
      · rintro (rfl | ⟨bs, cs, rfl, hleft, hright⟩)
        · exact ⟨[], a :: as, rfl, rfl, hrun⟩
        · exact ⟨a :: bs, cs, rfl, run_cons_eq_some.mpr ⟨m, hm, hleft⟩, hright⟩
      · rintro ⟨bs, cs, hsplit, hleft, hright⟩
        cases bs with
        | nil => exact Or.inl (by simpa using hleft.symm)
        | cons b bs =>
            obtain ⟨rfl, rfl⟩ := List.cons.inj hsplit
            obtain ⟨m', hm', hleft'⟩ := run_cons_eq_some.mp hleft
            obtain rfl : m = m' := Option.some.inj (hm.symm.trans hm')
            exact Or.inr ⟨bs, cs, rfl, hleft', hright⟩

/-- The run over `as` takes the label `e` in the state `u`. -/
def Takes (step : S → A → Option S) (s : S) (as : List A) (e : A) (u : S) : Prop :=
  ∃ bs cs, as = bs ++ e :: cs ∧ run step s bs = some u

theorem not_takes_nil {s u : S} {e : A} : ¬ Takes step s [] e u := by
  rintro ⟨bs, cs, hsplit, -⟩
  simp at hsplit

theorem takes_head (s : S) (e : A) (as : List A) : Takes step s (e :: as) e s :=
  ⟨[], as, rfl, rfl⟩

theorem Takes.cons {s t u : S} {a e : A} {as : List A} (hstep : step s a = some t)
    (htakes : Takes step t as e u) : Takes step s (a :: as) e u := by
  obtain ⟨bs, cs, rfl, hrun⟩ := htakes
  exact ⟨a :: bs, cs, rfl, run_cons_eq_some.mpr ⟨t, hstep, hrun⟩⟩

/-- The labels of a run are its first and those of the rest. -/
theorem takes_cons_iff {s u : S} {a e : A} {as : List A} :
    Takes step s (a :: as) e u ↔ (e = a ∧ u = s) ∨ ∃ t, step s a = some t ∧ Takes step t as e u := by
  constructor
  · rintro ⟨bs, cs, hsplit, hrun⟩
    cases bs with
    | nil =>
        obtain ⟨rfl, -⟩ := List.cons.inj hsplit
        exact Or.inl ⟨rfl, (Option.some.inj hrun).symm⟩
    | cons b bs =>
        obtain ⟨rfl, rfl⟩ := List.cons.inj hsplit
        obtain ⟨t, hstep, hrest⟩ := run_cons_eq_some.mp hrun
        exact Or.inr ⟨t, hstep, bs, cs, rfl, hrest⟩
  · rintro (⟨rfl, rfl⟩ | ⟨t, hstep, htakes⟩)
    · exact takes_head _ _ _
    · exact htakes.cons hstep

/-- The labels of two runs one after the other. -/
theorem takes_append_iff {s m u : S} {e : A} {as bs : List A} (hrun : run step s as = some m) :
    Takes step s (as ++ bs) e u ↔ Takes step s as e u ∨ Takes step m bs e u := by
  induction as generalizing s with
  | nil =>
      obtain rfl : s = m := Option.some.inj hrun
      rw [List.nil_append, or_iff_right not_takes_nil]
  | cons a as ih =>
      obtain ⟨t, hstep, hrest⟩ := run_cons_eq_some.mp hrun
      have hnext : ∀ l, (∃ t', step s a = some t' ∧ Takes step t' l e u) ↔ Takes step t l e u := by
        intro l
        rw [hstep]
        simp
      rw [List.cons_append, takes_cons_iff, takes_cons_iff, hnext, hnext, ih hrest, or_assoc]

/-- A label that a completed run takes is enabled there, and the state is on the trail. -/
theorem Takes.split {s t u : S} {e : A} {as : List A} (htakes : Takes step s as e u)
    (hrun : run step s as = some t) :
    u ∈ trail step s as ∧ ∃ u' cs, step u e = some u' ∧ run step u' cs = some t := by
  obtain ⟨bs, cs, rfl, hleft⟩ := htakes
  obtain ⟨u₁, hu₁, hright⟩ := run_append_eq_some.mp hrun
  obtain rfl : u = u₁ := Option.some.inj (hleft.symm.trans hu₁)
  obtain ⟨u', hstep, hrest⟩ := run_cons_eq_some.mp hright
  exact ⟨(mem_trail_iff hrun).mpr ⟨bs, e :: cs, rfl, hleft, hright⟩, u', cs, hstep, hrest⟩

/-- The label number `k` of one kind that a run takes. -/
theorem exists_takes_of_lt_countP {p : A → Bool} {s t : S}
    {as : List A} {k : ℕ} (hrun : run step s as = some t) (hk : k < as.countP p) :
    ∃ bs e cs u, as = bs ++ e :: cs ∧ p e = true ∧ bs.countP p = k ∧ run step s bs = some u ∧
      run step u (e :: cs) = some t := by
  induction as generalizing s k with
  | nil => exact absurd hk (Nat.not_lt_zero k)
  | cons a as ih =>
      obtain ⟨m, hm, hrest⟩ := run_cons_eq_some.mp hrun
      rw [List.countP_cons] at hk
      cases ha : p a with
      | false =>
          rw [ha] at hk
          obtain ⟨bs, e, cs, u, rfl, he, hcount, hu, ht⟩ := ih hrest hk
          refine ⟨a :: bs, e, cs, u, rfl, he, ?_, run_cons_eq_some.mpr ⟨m, hm, hu⟩, ht⟩
          rw [List.countP_cons_of_neg (by simp [ha]), hcount]
      | true =>
          rw [ha, if_pos rfl] at hk
          cases k with
          | zero => exact ⟨[], a, as, s, rfl, ha, rfl, rfl, hrun⟩
          | succ k =>
              obtain ⟨bs, e, cs, u, rfl, he, hcount, hu, ht⟩ := ih hrest (Nat.lt_of_succ_lt_succ hk)
              refine ⟨a :: bs, e, cs, u, rfl, he, ?_, run_cons_eq_some.mpr ⟨m, hm, hu⟩, ht⟩
              rw [List.countP_cons_of_pos ha, hcount]

/-- A label that a run takes, a longer run takes as well. -/
theorem Takes.append {s u : S} {e : A} {as : List A} (htakes : Takes step s as e u)
    (bs : List A) : Takes step s (as ++ bs) e u := by
  obtain ⟨cs, ds, rfl, hrun⟩ := htakes
  exact ⟨cs, ds ++ bs, by rw [List.append_assoc, List.cons_append], hrun⟩

/-- The labels a run takes, each with the state it is taken in. -/
def taken (step : S → A → Option S) : S → List A → List (S × A)
  | _, [] => []
  | s, a :: as => (s, a) :: ((step s a).elim [] fun t => taken step t as)

theorem mem_taken_iff {s u : S} {e : A} {as : List A} :
    (u, e) ∈ taken step s as ↔ Takes step s as e u := by
  induction as generalizing s with
  | nil => simp [taken, not_takes_nil]
  | cons a as ih =>
      rw [takes_cons_iff, taken, List.mem_cons, Prod.mk.injEq, and_comm]
      refine or_congr_right ?_
      cases step s a with
      | none => simp
      | some t => simpa using ih

/-- A condition on every label a run takes is one on a list, which can be evaluated. -/
theorem forall_takes_iff {C : S → A → Prop} {s : S} {as : List A} :
    (∀ e u, Takes step s as e u → C u e) ↔ ∀ p ∈ taken step s as, C p.1 p.2 := by
  constructor
  · rintro hC ⟨u, e⟩ hmem
    exact hC e u (mem_taken_iff.mp hmem)
  · intro hC e u htakes
    exact hC (u, e) (mem_taken_iff.mpr htakes)

/-- **Invariants of careful runs.** The step rule may use a condition `C` on the label and on the
state it is taken in; the run then has to meet `C` wherever it takes a label. -/
theorem run_invariant_of_takes {I : S → Prop} {C : S → A → Prop}
    (hstep : ∀ s a t, I s → C s a → step s a = some t → I t)
    {s t : S} {as : List A} (hs : I s) (hrun : run step s as = some t)
    (hC : ∀ a u, Takes step s as a u → C u a) : I t := by
  induction as generalizing s with
  | nil =>
      obtain rfl : s = t := by simpa using hrun
      exact hs
  | cons a as ih =>
      obtain ⟨m, hm, hrest⟩ := run_cons_eq_some.mp hrun
      have hhead : C s a := hC a s (takes_head s a as)
      exact ih (hstep s a m hs hhead hm) hrest fun b u htakes => hC b u (htakes.cons hm)

/-- **What certain steps bring about.** If a step makes `P` true just where `C` holds of it and none makes
it false, then after a run `P` holds just if it held before or such a step was taken. -/
theorem run_iff_takes {I P : S → Prop} {C : S → A → Prop}
    (hinv : ∀ s a t, I s → step s a = some t → I t)
    (hstep : ∀ s a t, I s → step s a = some t → (P t ↔ P s ∨ C s a))
    {s t : S} {as : List A} (hs : I s) (hrun : run step s as = some t) :
    P t ↔ P s ∨ ∃ a u, Takes step s as a u ∧ C u a := by
  induction as generalizing s with
  | nil =>
      obtain rfl : s = t := by simpa using hrun
      simp [not_takes_nil]
  | cons a as ih =>
      obtain ⟨m, hm, hrest⟩ := run_cons_eq_some.mp hrun
      rw [ih (hinv s a m hs hm) hrest, hstep s a m hs hm, or_assoc]
      refine or_congr_right ⟨?_, ?_⟩
      · rintro (hC | ⟨b, u, htakes, hC⟩)
        · exact ⟨a, s, takes_head s a as, hC⟩
        · exact ⟨b, u, htakes.cons hm, hC⟩
      · rintro ⟨b, u, htakes, hC⟩
        rcases takes_cons_iff.mp htakes with ⟨rfl, rfl⟩ | ⟨m', hm', htakes'⟩
        · exact Or.inl hC
        · obtain rfl := Option.some.inj (hm.symm.trans hm')
          exact Or.inr ⟨b, u, htakes', hC⟩

end Rules

/-! ## Forward simulation -/

/-- **Simulation with silent labels.** Let `view` map concrete states to abstract ones and `lab`
map a concrete label to an abstract one or to `none` (silent). If, from states that satisfy the
invariant `I`, a silent step leaves the view as it is and every other step is an abstract step
under its own label, then a run's view is the abstract run over the labels that remain. -/
theorem run_simulates {S' : Type w} {A' : Type x} {step : S → A → Option S}
    {step' : S' → A' → Option S'} (view : S → S') (lab : A → Option A') {I : S → Prop}
    (hinv : ∀ s a t, I s → step s a = some t → I t)
    (hsilent : ∀ s a t, I s → step s a = some t → lab a = none → view t = view s)
    (hstep : ∀ s a t b, I s → step s a = some t → lab a = some b →
      step' (view s) b = some (view t))
    {s t : S} {as : List A} (hs : I s) (hrun : run step s as = some t) :
    run step' (view s) (as.filterMap lab) = some (view t) := by
  induction as generalizing s with
  | nil =>
      obtain rfl : s = t := by simpa using hrun
      rfl
  | cons a as ih =>
      obtain ⟨m, hm, hrest⟩ := run_cons_eq_some.mp hrun
      have ih' := ih (hinv s a m hs hm) hrest
      cases hlab : lab a with
      | none =>
          rw [List.filterMap_cons_none hlab, ← hsilent s a m hs hm hlab]
          exact ih'
      | some b =>
          rw [List.filterMap_cons_some hlab]
          exact run_cons_eq_some.mpr ⟨view m, hstep s a m b hs hm hlab, ih'⟩

end PqcMigration.Lib
