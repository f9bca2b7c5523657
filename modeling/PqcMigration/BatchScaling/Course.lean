/-
# PqcMigration.BatchScaling.Course — the statuses of the packets of a run, stage by stage.

Both load generators take their packets through the same statuses: submitted, committed, credited, acked, or
failed from any of the first three on. They report counts of the last ones. A packet that fails late has been
committed, and perhaps credited, but its last status does not say so; `Course.counted_iff` says that this is
the one way the counts go wrong.
-/
import PqcMigration.BatchScaling.Packet
import PqcMigration.Lib.Ever

namespace PqcMigration.BatchScaling

open Lib

/-! ## `await_commits` -/

section Await

variable {P : Type} [Tracked P]

def markCommitted (now : Time) (p : P) : P := Tracked.setStatus .committed (Tracked.setCommitTs now p)

def giveUp (p : P) : P :=
  Tracked.setError "not committed within timeout".toList (Tracked.setStatus .failed p)

/-- One look at the transfers: the time at which each was seen in a block, if it was. -/
def poll (seen : ℕ → Option Time) (i : ℕ) (p : P) : P :=
  if Tracked.status p = .submitted then
    match seen i with
    | some now => markCommitted now p
    | none => p
  else p

/-- `await_commits` of either generator, with the looks it takes before its deadline. -/
def awaitCommits (polls : List (ℕ → Option Time)) (packets : List P) : List P :=
  (polls.foldl (fun packets seen => packets.mapIdx (poll seen)) packets).map fun p =>
    if Tracked.status p = .submitted then giveUp p else p

theorem status_markCommitted (now : Time) (p : P) : Tracked.status (markCommitted now p) = .committed :=
  Tracked.status_setStatus _ _

theorem status_giveUp (p : P) : Tracked.status (giveUp p) = .failed :=
  (Tracked.status_setError _ _).trans (Tracked.status_setStatus _ _)

/-- Afterwards every transfer is committed or has failed. -/
theorem status_awaitCommits (polls : List (ℕ → Option Time)) {packets : List P}
    (hpackets : ∀ p ∈ packets,
      Tracked.status p = .submitted ∨ Tracked.status p = .committed ∨ Tracked.status p = .failed) :
    ∀ p ∈ awaitCommits polls packets, Tracked.status p = .committed ∨ Tracked.status p = .failed := by
  have hpolled : ∀ p ∈ polls.foldl (fun packets seen => packets.mapIdx (poll seen)) packets,
      Tracked.status p = .submitted ∨ Tracked.status p = .committed ∨ Tracked.status p = .failed := by
    induction polls generalizing packets with
    | nil => exact hpackets
    | cons seen polls ih =>
        apply ih
        intro p hp
        obtain ⟨i, hi, rfl⟩ := List.mem_mapIdx.mp hp
        have hbefore := hpackets _ (List.getElem_mem hi)
        unfold poll
        split
        · split
          · exact .inr (.inl (status_markCommitted _ _))
          · exact hbefore
        · exact hbefore
  intro p hp
  obtain ⟨p', hp', rfl⟩ := List.mem_map.mp hp
  split
  · exact .inr (status_giveUp p')
  · next hnot => exact (hpolled p' hp').resolve_left hnot

end Await

/-! ## The stages -/

/-- The statuses after the submission, after the commits were awaited, after the relay, and at every moment
after that. -/
structure Course (sent awaited relayed : List Status) (later : List (List Status)) : Prop where
  of_sent : ∀ (i : ℕ) (s : Status), sent[i]? = some s → s = .submitted ∨ s = .failed
  of_awaited : ∀ (i : ℕ) (s : Status), awaited[i]? = some s → s = .committed ∨ s = .failed
  /-- the relay takes up committed packets only -/
  of_relayed : ∀ (i : ℕ) (s : Status), relayed[i]? = some s → awaited[i]? = some s ∨
    (awaited[i]? = some .committed ∧ (s = .credited ∨ s = .failed))
  /-- what comes after it, credited packets only -/
  of_later : ∀ stage ∈ later, ∀ (i : ℕ) (s : Status), stage[i]? = some s → relayed[i]? = some s ∨
    (relayed[i]? = some .credited ∧ (s = .acked ∨ s = .failed))

namespace Course

variable {sent awaited relayed final : List Status} {later : List (List Status)} {i : ℕ} {s : Status}

/-- The course of a list of packets, from what each stage makes of the packet at a place. -/
theorem of_places {P : Type} [Tracked P] {sent awaited relayed : List P}
    (hsent : ∀ p ∈ sent, Tracked.status p = .submitted ∨ Tracked.status p = .failed)
    (hawaited : ∀ p ∈ awaited, Tracked.status p = .committed ∨ Tracked.status p = .failed)
    (hrelayed : ∀ (i : ℕ) (q : P), relayed[i]? = some q → ∃ p, awaited[i]? = some p ∧
      (Tracked.status q = Tracked.status p ∨ (Tracked.status p = .committed ∧
        (Tracked.status q = .credited ∨ Tracked.status q = .failed))))
    (hlater : ∀ stage ∈ later, ∃ packets : List P, stage = statuses packets ∧
      ∀ (i : ℕ) (q : P), packets[i]? = some q → ∃ p, relayed[i]? = some p ∧
        (Tracked.status q = Tracked.status p ∨ (Tracked.status p = .credited ∧
          (Tracked.status q = .acked ∨ Tracked.status q = .failed)))) :
    Course (statuses sent) (statuses awaited) (statuses relayed) later := by
  refine ⟨?_, ?_, ?_, ?_⟩
  · intro i s hs
    obtain ⟨p, hp, rfl⟩ := getElem?_statuses.mp hs
    exact hsent p (List.mem_of_getElem? hp)
  · intro i s hs
    obtain ⟨p, hp, rfl⟩ := getElem?_statuses.mp hs
    exact hawaited p (List.mem_of_getElem? hp)
  · intro i s hs
    obtain ⟨q, hq, rfl⟩ := getElem?_statuses.mp hs
    obtain ⟨p, hp, hsame | ⟨hcommitted, hmoved⟩⟩ := hrelayed i q hq
    · exact .inl (getElem?_statuses.mpr ⟨p, hp, hsame.symm⟩)
    · exact .inr ⟨getElem?_statuses.mpr ⟨p, hp, hcommitted⟩, hmoved⟩
  · intro stage hstage i s hs
    obtain ⟨packets, rfl, hpackets⟩ := hlater stage hstage
    obtain ⟨q, hq, rfl⟩ := getElem?_statuses.mp hs
    obtain ⟨p, hp, hsame | ⟨hcredited, hmoved⟩⟩ := hpackets i q hq
    · exact .inl (getElem?_statuses.mpr ⟨p, hp, hsame.symm⟩)
    · exact .inr ⟨getElem?_statuses.mpr ⟨p, hp, hcredited⟩, hmoved⟩

theorem relayed_credited (h : Course sent awaited relayed later) (hi : relayed[i]? = some .credited) :
    awaited[i]? = some .committed := by
  rcases h.of_relayed i _ hi with hsame | ⟨hcommitted, -⟩
  · rcases h.of_awaited i _ hsame with heq | heq <;> cases heq
  · exact hcommitted

/-- What a packet is from the relay on: what it was before, or one that was committed has moved on. -/
theorem moved (h : Course sent awaited relayed later) (hfinal : final ∈ relayed :: later)
    (hi : final[i]? = some s) :
    (awaited[i]? = some s ∧ relayed[i]? = some s) ∨
      (awaited[i]? = some .committed ∧ relayed[i]? = some .failed ∧ s = .failed) ∨
      (awaited[i]? = some .committed ∧ relayed[i]? = some .credited ∧
        (s = .credited ∨ s = .acked ∨ s = .failed)) := by
  have hrelayed : ∀ s, relayed[i]? = some s → (awaited[i]? = some s ∧ relayed[i]? = some s) ∨
      (awaited[i]? = some .committed ∧ relayed[i]? = some .failed ∧ s = .failed) ∨
      (awaited[i]? = some .committed ∧ relayed[i]? = some .credited ∧
        (s = .credited ∨ s = .acked ∨ s = .failed)) := by
    intro s hs
    rcases h.of_relayed i s hs with hsame | ⟨hcommitted, rfl | rfl⟩
    · exact .inl ⟨hsame, hs⟩
    · exact .inr (.inr ⟨hcommitted, hs, .inl rfl⟩)
    · exact .inr (.inl ⟨hcommitted, hs, rfl⟩)
  rcases List.mem_cons.mp hfinal with rfl | hlater
  · exact hrelayed s hi
  · rcases h.of_later final hlater i s hi with hsame | ⟨hcredited, hs⟩
    · exact hrelayed s hsame
    · exact .inr (.inr ⟨h.relayed_credited hcredited, hcredited, .inr hs⟩)

/-- A packet was committed if it was when the commits had been awaited. -/
theorem wasEver_committed (h : Course sent awaited relayed later) :
    wasEver (sent :: awaited :: relayed :: later) .committed i = true ↔ awaited[i]? = some .committed := by
  refine wasEver_iff (by simp) ?_
  rw [List.forall_mem_cons, List.forall_mem_cons]
  refine ⟨fun hi => ?_, id, fun stage hstage hi => ?_⟩
  · rcases h.of_sent i _ hi with heq | heq <;> cases heq
  · rcases h.moved hstage hi with ⟨hsame, -⟩ | ⟨hcommitted, -⟩ | ⟨hcommitted, -⟩
    · exact hsame
    · exact hcommitted
    · exact hcommitted

/-- It was credited if it was after the relay. -/
theorem wasEver_credited (h : Course sent awaited relayed later) :
    wasEver (sent :: awaited :: relayed :: later) .credited i = true ↔ relayed[i]? = some .credited := by
  refine wasEver_iff (by simp) ?_
  rw [List.forall_mem_cons, List.forall_mem_cons]
  refine ⟨fun hi => ?_, fun hi => ?_, fun stage hstage hi => ?_⟩
  · rcases h.of_sent i _ hi with heq | heq <;> cases heq
  · rcases h.of_awaited i _ hi with heq | heq <;> cases heq
  · rcases h.moved hstage hi with ⟨-, hsame⟩ | ⟨-, -, heq⟩ | ⟨-, hcredited, -⟩
    · exact hsame
    · cases heq
    · exact hcredited

/-- **What the counters count.** All packets that were ever committed, and all that were ever credited, just
if none that was committed has failed in the end. -/
theorem counted_iff (h : Course sent awaited relayed later) (hfinal : final ∈ relayed :: later) :
    (final.countP (fun s => s ∈ [.committed, .credited, .acked]) =
        everCount (sent :: awaited :: relayed :: later) final.length .committed ∧
      final.countP (fun s => s ∈ [.credited, .acked]) =
        everCount (sent :: awaited :: relayed :: later) final.length .credited) ↔
      ∀ i : ℕ, awaited[i]? = some .committed → final[i]? ≠ some .failed := by
  have hcommitted : ∀ (i : ℕ) (s : Status), final[i]? = some s →
      decide (s ∈ [.committed, .credited, .acked]) = true → awaited[i]? = some .committed := by
    intro i s hi hs
    rcases h.moved hfinal hi with ⟨hsame, -⟩ | ⟨hcommitted, -⟩ | ⟨hcommitted, -⟩
    · rcases h.of_awaited i s hsame with rfl | rfl
      · exact hsame
      · cases hs
    · exact hcommitted
    · exact hcommitted
  have hcredited : ∀ (i : ℕ) (s : Status), final[i]? = some s →
      decide (s ∈ [.credited, .acked]) = true → relayed[i]? = some .credited := by
    intro i s hi hs
    rcases h.moved hfinal hi with ⟨hsame, -⟩ | ⟨-, -, rfl⟩ | ⟨-, hcredited, -⟩
    · rcases h.of_awaited i s hsame with rfl | rfl <;> cases hs
    · cases hs
    · exact hcredited
  rw [countP_eq_everCount_iff fun i s hi hs => h.wasEver_committed.mpr (hcommitted i s hi hs),
    countP_eq_everCount_iff fun i s hi hs => h.wasEver_credited.mpr (hcredited i s hi hs)]
  constructor
  · rintro ⟨hcounted, -⟩ i hi hfailed
    have hin := hcounted i _ hfailed (h.wasEver_committed.mpr hi)
    cases hin
  · intro hnone
    refine ⟨fun i s hi hever => ?_, fun i s hi hever => ?_⟩
    · have hawaited := h.wasEver_committed.mp hever
      rcases h.moved hfinal hi with ⟨hsame, -⟩ | ⟨-, -, rfl⟩ | ⟨-, -, rfl | rfl | rfl⟩
      · rw [hsame] at hawaited
        obtain rfl := Option.some.inj hawaited
        rfl
      · exact absurd hi (hnone i hawaited)
      · rfl
      · rfl
      · exact absurd hi (hnone i hawaited)
    · have hrelayed := h.wasEver_credited.mp hever
      have hawaited := h.relayed_credited hrelayed
      rcases h.moved hfinal hi with ⟨-, hsame⟩ | ⟨-, -, rfl⟩ | ⟨-, -, rfl | rfl | rfl⟩
      · rw [hsame] at hrelayed
        obtain rfl := Option.some.inj hrelayed
        rfl
      · exact absurd hi (hnone i hawaited)
      · rfl
      · rfl
      · exact absurd hi (hnone i hawaited)

end Course

end PqcMigration.BatchScaling
