/-
# PqcMigration.LoadGen.Exhaustion — what the load generator does when a sender runs out.

The header of `tools/loadgen/main.go` says that the run is aborted when any sender runs out before the
duration ends. The pump does less: it passes over a drained queue to the next sender that has something
left, and returns only when every queue is drained. After that the program goes on as after any other
run, and writes its metrics.

So a run is as announced only if it never comes to that (`exhaustion_aborts_iff`). Ticks go round the
senders: as long as nobody has run out the tick number `k` is the turn of sender `k mod n`, who has by
then had `k / n` turns. Hence nobody runs out in a run of so many ticks if each of them finds a queue
longer than that (`Supplied`).

Of the metrics, what the flags and the clock say and the latency statistics are left out.
-/
import Mathlib.Algebra.Order.BigOperators.Group.Finset
import Mathlib.Data.Int.CardIntervalMod
import PqcMigration.LoadGen.Pump
import PqcMigration.LoadGen.Sampler

namespace PqcMigration.LoadGen

open Lib

/-! ## How a run ends -/

/-- `runMetrics` -/
structure Metrics where
  poolSize : ℕ
  submitted : ℕ
  counters : Counters
  blocksObserved : ℕ
  firstBlockHeight : ℕ
  lastBlockHeight : ℕ
  txs : List SubmitRecord
  deriving DecidableEq

/-- Whether the file at `--out` can be created, and written. -/
structure OutFile where
  created : Bool
  encoded : Bool

inductive Exit where
  | metrics (m : Metrics)
  /-- `log.Fatalf("loadgen: open out: %v", err)` -/
  | openOut
  /-- `log.Fatalf("loadgen: write out: %v", err)` -/
  | writeOut
  deriving DecidableEq

section Run

variable {c : Config}

/-- What `main` does once the workers are done and the sampler is stopped. -/
def finish (out : OutFile) (sampler : Sampler) (totalLoaded : ℕ) (s : State c) : Exit :=
  let resolved := resolveCommits sampler.hashes (records s)
  let metrics : Metrics :=
    { poolSize := totalLoaded
      submitted := s.submitted
      counters := resolved.1
      blocksObserved := sampler.blocks.length
      firstBlockHeight := (sampler.blocks.head?.map BlockObs.height).getD 0
      lastBlockHeight := (sampler.blocks.getLast?.map BlockObs.height).getD 0
      txs := resolved.2 }
  if out.created then
    if out.encoded then .metrics metrics else .writeOut
  else .openOut

/-- The metrics file cannot be written. -/
def OutFile.Fails (out : OutFile) : Prop := ¬ (out.created = true ∧ out.encoded = true)

variable (queues : Fin c.senders → List SignedTx)

/-- A tick up to the deadline that finds the queue of the sender whose turn it is drained. -/
def Exhausted (s : State c) (e : Event c) : Prop :=
  ∃ now ≤ c.deadline, e = .tick now ∧
    (queues (senderAt c s.senderIdx)).length ≤ s.cursors (senderAt c s.senderIdx)

/-- The announced behaviour: at such a tick the run stops submitting, and it ends without metrics. -/
def Aborts (out : OutFile) (sampler : Sampler) (totalLoaded : ℕ) (evs : List (Event c)) (t : State c) :
    Prop :=
  ∀ e u, Takes (step queues) start evs e u → Exhausted queues u e →
    t.chan.sent = u.chan.sent ∧ ∀ m, finish out sampler totalLoaded t ≠ .metrics m

/-- A tick up to the deadline. -/
def Event.early : Event c → Bool
  | .tick now => decide (now ≤ c.deadline)
  | _ => false

/-- How many ticks there are up to the deadline. -/
def ticks (evs : List (Event c)) : ℕ := evs.countP Event.early

/-- For `n` ticks everybody has something left when it is their turn. -/
def Supplied (n : ℕ) : Prop := ∀ k < n, k / c.senders < (queues (senderAt c k)).length

end Run

/-! ## Turns -/

section Turns

variable {c : Config} {queues : Fin c.senders → List SignedTx} {s t : State c} {e : Event c}

theorem Supplied.mono {m n : ℕ} (h : Supplied queues n) (hle : m ≤ n) : Supplied queues m :=
  fun k hk => h k (Nat.lt_of_lt_of_le hk hle)

theorem exists_first_unsupplied {n : ℕ} (h : ¬ Supplied queues n) :
    ∃ k < n, (queues (senderAt c k)).length ≤ k / c.senders ∧ Supplied queues k := by
  unfold Supplied at h
  push Not at h
  obtain ⟨⟨hlt, hdrained⟩, hfirst⟩ := Nat.find_spec h, fun k => Nat.find_min (m := k) h
  refine ⟨Nat.find h, hlt, hdrained, fun k hk => ?_⟩
  by_contra hnot
  exact hfirst k hk ⟨hk.trans hlt, Nat.not_lt.mp hnot⟩

/-- How many of the first `k` turns are the sender's. -/
def turns (c : Config) (k : ℕ) (i : Fin c.senders) : ℕ := Nat.count (fun j => senderAt c j = i) k

theorem turns_succ (k : ℕ) : turns c (k + 1) =
    Function.update (turns c k) (senderAt c k) (turns c k (senderAt c k) + 1) := by
  funext i
  unfold turns
  rw [Nat.count_succ]
  by_cases hi : senderAt c k = i
  · subst hi
    rw [if_pos rfl, Function.update_self]
  · rw [if_neg hi, Function.update_of_ne (Ne.symm hi), Nat.add_zero]

theorem turns_senderAt (k : ℕ) : turns c k (senderAt c k) = k / c.senders := by
  have hturn : ∀ j, senderAt c j = senderAt c k ↔ j ≡ k [MOD c.senders] := fun j => Fin.ext_iff
  unfold turns
  simp only [hturn]
  rw [Nat.count_modEq_card k c.senders_pos k, if_neg (Nat.lt_irrefl _), Nat.add_zero]

theorem senderAt_succ (k : ℕ) : senderAt c ((senderAt c k + 1) % c.senders) = senderAt c (k + 1) := by
  refine Fin.ext ?_
  show (k % c.senders + 1) % c.senders % c.senders = (k + 1) % c.senders
  rw [Nat.mod_mod, Nat.mod_add_mod]

/-- A sender that is not drained is served when it is their turn. -/
theorem pick_of_turn {cursors : Fin c.senders → ℕ} {k : ℕ}
    (h : cursors (senderAt c k) < (queues (senderAt c k)).length) :
    pick queues cursors k = some (senderAt c k) := by
  have hrange : List.range c.senders = 0 :: (List.range (c.senders - 1)).map Nat.succ := by
    rw [← List.range_succ_eq_map, Nat.sub_add_cancel c.senders_pos]
  unfold pick
  rw [hrange, List.findSome?_cons]
  simp only [Nat.add_zero, if_pos h]

theorem pick_lt {cursors : Fin c.senders → ℕ} {k : ℕ} {i : Fin c.senders}
    (h : pick queues cursors k = some i) : cursors i < (queues i).length := by
  unfold pick at h
  obtain ⟨tries, -, hfound⟩ := List.exists_of_findSome?_eq_some h
  obtain ⟨hlt, hi⟩ := Option.ite_none_right_eq_some.mp hfound
  rwa [Option.some.inj hi] at hlt

/-- A tick up to the deadline: the pump returns, or serves the sender the scan has found. -/
theorem step_early {now : ℕ} (hnow : now ≤ c.deadline) (h : step queues s (.tick now) = some t) :
    s.pump = .waiting ∧
      ((pick queues s.cursors s.senderIdx = none ∧ t = { s with pump := .returned now }) ∨
        ∃ i tx, pick queues s.cursors s.senderIdx = some i ∧
          t = { s with
                cursors := Function.update s.cursors i (s.cursors i + 1)
                senderIdx := (i + 1) % c.senders
                pump := .sending tx }) := by
  simp only [step] at h
  split at h
  · next hwaiting =>
    refine ⟨hwaiting, ?_⟩
    rw [if_neg (Nat.not_lt.mpr hnow)] at h
    split at h
    · next hpick => exact .inl ⟨hpick, (Option.some.inj h).symm⟩
    · next i hpick =>
      obtain ⟨tx, -, rfl⟩ := Option.map_eq_some_iff.mp h
      exact .inr ⟨i, tx, hpick, rfl⟩
  · exact absurd h (by simp)

/-- Nothing else moves a cursor. -/
theorem step_not_early (he : e.early = false) (h : step queues s e = some t) :
    t.cursors = s.cursors ∧ t.senderIdx = s.senderIdx := by
  cases e with
  | tick now =>
      have hlate : c.deadline < now := by simpa [Event.early] using he
      simp only [step, if_pos hlate] at h
      split at h
      · obtain rfl := Option.some.inj h
        exact ⟨rfl, rfl⟩
      · exact absurd h (by simp)
  | timeout now =>
      simp only [step, Option.ite_none_right_eq_some, Option.some.injEq] at h
      obtain ⟨-, rfl⟩ := h
      exact ⟨rfl, rfl⟩
  | send =>
      simp only [step] at h
      split at h
      · obtain ⟨chan, -, rfl⟩ := Option.map_eq_some_iff.mp h
        exact ⟨rfl, rfl⟩
      · exact absurd h (by simp)
  | close =>
      simp only [step] at h
      split at h
      · obtain ⟨chan, -, rfl⟩ := Option.map_eq_some_iff.mp h
        exact ⟨rfl, rfl⟩
      · exact absurd h (by simp)
  | move m =>
      obtain ⟨chan, -, rfl⟩ := Option.map_eq_some_iff.mp h
      exact ⟨rfl, rfl⟩

theorem early_iff : e.early = true ↔ ∃ now ≤ c.deadline, e = .tick now := by
  cases e <;> simp [Event.early]

theorem ticks_concat (evs : List (Event c)) (e : Event c) :
    ticks (evs ++ [e]) = ticks evs + if e.early then 1 else 0 := by
  unfold ticks
  rw [List.countP_append, List.countP_singleton]

/-- As long as nobody has run out, turns go round. -/
structure InTurn (k : ℕ) (s : State c) : Prop where
  senderIdx : senderAt c s.senderIdx = senderAt c k
  cursors : s.cursors = turns c k

theorem InTurn.serve {k now : ℕ} (hs : InTurn k s)
    (hk : k / c.senders < (queues (senderAt c k)).length) (hnow : now ≤ c.deadline)
    (h : step queues s (.tick now) = some t) : InTurn (k + 1) t := by
  have hcursor : s.cursors (senderAt c s.senderIdx) < (queues (senderAt c s.senderIdx)).length := by
    rwa [hs.senderIdx, hs.cursors, turns_senderAt]
  obtain ⟨-, ⟨hnone, -⟩ | ⟨i, tx, hpick, rfl⟩⟩ := step_early hnow h
  · rw [pick_of_turn hcursor] at hnone
    exact absurd hnone (by simp)
  · rw [pick_of_turn hcursor, hs.senderIdx] at hpick
    obtain rfl := Option.some.inj hpick
    refine ⟨senderAt_succ k, ?_⟩
    show Function.update s.cursors _ _ = _
    rw [turns_succ, hs.cursors]

theorem run_inTurn {evs : List (Event c)} (hrun : run (step queues) start evs = some s)
    (hsupplied : Supplied queues (ticks evs)) : InTurn (ticks evs) s := by
  refine run_history (I := fun evs s => Supplied queues (ticks evs) → InTurn (ticks evs) s) ?_ ?_ hrun
    hsupplied
  · intro evs s e t ih hstep hsupplied
    rw [ticks_concat] at hsupplied ⊢
    cases he : e.early with
    | true =>
        obtain ⟨now, hnow, rfl⟩ := early_iff.mp he
        rw [he, if_pos rfl] at hsupplied
        exact (ih (hsupplied.mono (Nat.le_succ _))).serve (hsupplied _ (Nat.lt_succ_self _)) hnow hstep
    | false =>
        rw [he] at hsupplied
        obtain ⟨hsenderIdx, hcursors⟩ := ih hsupplied
        obtain ⟨hcursors', hsenderIdx'⟩ := step_not_early he hstep
        exact ⟨by rwa [hsenderIdx'], by rwa [hcursors']⟩
  · intro _
    refine ⟨rfl, ?_⟩
    funext i
    rfl

/-- So the tick number `k` is the first to find its sender drained just if that sender has no more than
`k / n` transactions. -/
theorem exhausted_iff {evs : List (Event c)} (hrun : run (step queues) start evs = some s)
    (hsupplied : Supplied queues (ticks evs)) (he : e.early = true) :
    Exhausted queues s e ↔ (queues (senderAt c (ticks evs))).length ≤ ticks evs / c.senders := by
  have hturn := run_inTurn hrun hsupplied
  unfold Exhausted
  rw [hturn.senderIdx, hturn.cursors, turns_senderAt]
  obtain ⟨now, hnow, rfl⟩ := early_iff.mp he
  constructor
  · rintro ⟨-, -, -, hdrained⟩
    exact hdrained
  · intro hdrained
    exact ⟨now, hnow, rfl, hdrained⟩

end Turns

/-! ## The end of the pump -/

section Ended

variable {c : Config} {pool : List SignedTx} {queues : Fin c.senders → List SignedTx} {s t : State c}
  {e : Event c} {evs : List (Event c)}

/-- When it has returned, nothing more is submitted. -/
theorem step_returned {now : ℕ} (hreturned : s.pump = .returned now) (h : step queues s e = some t) :
    t.pump = .returned now ∧ t.chan.sent = s.chan.sent := by
  obtain ⟨_, hwaiting, -, -⟩ | ⟨i, tx, next, hwaiting, -, -⟩ | ⟨tx, chan, hsending, -, -⟩ |
    ⟨_, chan, -, hchan, rfl⟩ | ⟨m, chan, -, hchan, rfl⟩ := step_cases h
  · exact absurd (hreturned.symm.trans hwaiting) (by simp)
  · exact absurd (hreturned.symm.trans hwaiting) (by simp)
  · exact absurd (hreturned.symm.trans hsending) (by simp)
  · obtain ⟨-, rfl⟩ := Channel.close_eq_some hchan
    exact ⟨hreturned, rfl⟩
  · exact ⟨hreturned, (Channel.move_sent hchan).1⟩

theorem run_returned {now : ℕ} (hreturned : s.pump = .returned now)
    (hrun : run (step queues) s evs = some t) : t.chan.sent = s.chan.sent := by
  have hkept : t.pump = .returned now ∧ t.chan.sent = s.chan.sent :=
    run_invariant (I := fun t : State c => t.pump = .returned now ∧ t.chan.sent = s.chan.sent)
      (fun _ _ _ hs hstep => ⟨(step_returned hs.1 hstep).1, (step_returned hs.1 hstep).2.trans hs.2⟩)
      ⟨hreturned, rfl⟩ hrun
  exact hkept.2

/-- Until the pump returns, every tick serves somebody. -/
theorem sum_cursors (hrun : run (step queues) start evs = some s) :
    (∃ now, s.pump = .returned now) ∨ ∑ i, s.cursors i = ticks evs := by
  refine run_history
    (I := fun evs (s : State c) => (∃ now, s.pump = .returned now) ∨ ∑ i, s.cursors i = ticks evs) ?_ ?_ hrun
  · intro evs s e t ih hstep
    rw [ticks_concat]
    cases he : e.early with
    | true =>
        obtain ⟨now, hnow, rfl⟩ := early_iff.mp he
        obtain ⟨hwaiting, ⟨-, rfl⟩ | ⟨i, tx, -, rfl⟩⟩ := step_early hnow hstep
        · exact .inl ⟨now, rfl⟩
        · have hsum : ∑ j, s.cursors j = ticks evs := ih.resolve_left (by simp [hwaiting])
          refine .inr ?_
          rw [if_pos rfl, ← hsum]
          have hserved := sum_update (fun _ n => n) s.cursors i (s.cursors i + 1)
          show ∑ j, Function.update s.cursors i (s.cursors i + 1) j = ∑ j, s.cursors j + 1
          omega
    | false =>
        rcases ih with ⟨now, hreturned⟩ | hsum
        · exact .inl ⟨now, (step_returned hreturned hstep).1⟩
        · refine .inr ?_
          rw [(step_not_early he hstep).1, hsum]
          rfl
  · exact .inr (by simp [start, ticks])

/-- When a tick comes there have been as many before it as transactions were taken. -/
theorem sum_cursors_of_tick {more : List (Event c)} {now : ℕ} (hnow : now ≤ c.deadline)
    (hrun : run (step queues) start evs = some s) (hrest : run (step queues) s (.tick now :: more) = some t) :
    ∑ i, s.cursors i = ticks evs := by
  obtain ⟨m, hstep, -⟩ := run_cons_eq_some.mp hrest
  obtain ⟨hwaiting, -⟩ := step_early hnow hstep
  exact (sum_cursors hrun).resolve_left (by simp [hwaiting])

/-- What the pump has taken from the queues. -/
def handed (s : State c) : ℕ := s.chan.sent.length + s.pump.hand.length

theorem handed_step (h : step queues s e = some t) : handed s ≤ handed t := by
  unfold handed
  obtain ⟨_, hwaiting, -, rfl⟩ | ⟨i, tx, next, hwaiting, -, rfl⟩ | ⟨tx, chan, hsending, hchan, rfl⟩ |
    ⟨_, chan, -, hchan, rfl⟩ | ⟨m, chan, -, hchan, rfl⟩ := step_cases h
  · simp [hwaiting, PumpPc.hand]
  · simp [hwaiting, PumpPc.hand]
  · obtain ⟨-, -, rfl⟩ := Channel.send_eq_some hchan
    simp [hsending, PumpPc.hand]
  · obtain ⟨-, rfl⟩ := Channel.close_eq_some hchan
    exact Nat.le_refl _
  · rw [(Channel.move_sent hchan).1]

theorem handed_run (h : run (step queues) s evs = some t) : handed s ≤ handed t :=
  run_invariant (I := fun t : State c => handed s ≤ handed t)
    (fun _ _ _ hs hstep => Nat.le_trans hs (handed_step hstep)) (Nat.le_refl _) h

/-- The workers leave only after the pump has returned. -/
theorem Inv.returned (hs : Inv queues s) (hfin : Finished s) : ∃ now, s.pump = .returned now :=
  hs.closed (hs.conserved.left _ (hfin ⟨0, c.workers_pos⟩)).2

/-- Every record has its sender. -/
theorem sum_ofSender {n : ℕ} (hrange : ∀ tx ∈ pool, ∃ i : Fin n, tx.senderIdx = i.val) :
    ∑ i : Fin n, (ofSender i.val pool).length = pool.length := by
  induction pool with
  | nil => simp [Channel.ofKey]
  | cons tx pool ih =>
      obtain ⟨⟨i, hi⟩, htail⟩ := List.forall_mem_cons.mp hrange
      have hcons : ∀ j : Fin n, (ofSender j.val (tx :: pool)).length =
          (ofSender j.val pool).length + if i = j then 1 else 0 := by
        intro j
        have hsame : tx.senderIdx = j.val ↔ i = j := by
          rw [hi, Nat.cast_inj, Fin.ext_iff]
        unfold ofSender Channel.ofKey
        rw [List.filter_cons]
        simp only [hsame, decide_eq_true_eq]
        split <;> rfl
      simp only [hcons]
      rw [Finset.sum_add_distrib, ih htail, Finset.sum_ite_eq, if_pos (Finset.mem_univ i),
        List.length_cons]

/-- All queues together are the pool. -/
theorem Loaded.sum_length (h : Loaded pool queues) : ∑ i, (queues i).length = pool.length := by
  rw [← sum_ofSender h.inRange]
  exact Finset.sum_congr rfl fun i _ => (h.perm i).length_eq

/-- Every queue is drained just when as many were taken as there are. -/
theorem Inv.all_drained_iff (hs : Inv queues s) (hload : Loaded pool queues) :
    (∀ i, (queues i).length ≤ s.cursors i) ↔ pool.length ≤ ∑ i, s.cursors i := by
  rw [← hload.sum_length]
  constructor
  · intro hdrained
    exact Finset.sum_le_sum fun i _ => hdrained i
  · intro hsum i
    have heq := (Finset.sum_eq_sum_iff_of_le fun i _ => hs.cursor_le i).mp
      (Nat.le_antisymm (Finset.sum_le_sum fun i _ => hs.cursor_le i) hsum) i (Finset.mem_univ i)
    exact Nat.le_of_eq heq.symm

/-- A tick at which nobody whose turn could come has anything left ends the submissions, and no other
tick up to the deadline does. -/
theorem stops_iff {u : State c} {now : ℕ} (hnow : now ≤ c.deadline)
    (hrun : run (step queues) u (.tick now :: evs) = some t) (ht : Inv queues t) (hfin : Finished t) :
    t.chan.sent = u.chan.sent ↔ ∀ i, (queues i).length ≤ u.cursors i := by
  obtain ⟨m, hstep, hrest⟩ := run_cons_eq_some.mp hrun
  obtain ⟨hwaiting, ⟨hnone, rfl⟩ | ⟨i, tx, hpick, rfl⟩⟩ := step_early hnow hstep
  · have hsent : t.chan.sent = u.chan.sent :=
      run_returned (s := { u with pump := .returned now }) rfl hrest
    exact iff_of_true hsent (pick_eq_none hnone)
  · -- what is taken at this tick is in the channel at the end
    refine iff_of_false (fun hsent => ?_) fun hdrained => ?_
    · obtain ⟨_, hreturned⟩ := ht.returned hfin
      have hhanded := handed_run hrest
      unfold handed at hhanded
      rw [hreturned, hsent] at hhanded
      simp [PumpPc.hand] at hhanded
    · exact Nat.not_lt.mpr (hdrained i) (pick_lt hpick)

end Ended

theorem finish_ne_metrics {c : Config} {out : OutFile} {sampler : Sampler} {total : ℕ} {s : State c} :
    (∀ m, finish out sampler total s ≠ .metrics m) ↔ out.Fails := by
  unfold finish OutFile.Fails
  cases out.created <;> cases out.encoded <;> simp

/-- **Exhaustion aborts a run** just if there is none, that is, if every tick up to the deadline finds
something in the queue of the sender whose turn it is; or else if nobody runs out before everybody does,
and the metrics cannot be written. -/
theorem exhaustion_aborts_iff (c : Config) (sorter : Sorter) (file : Option PoolFile)
    (queues : Fin c.senders → List SignedTx) (total : ℕ)
    (hload : loadPool sorter file c.senders = .ok (queues, total)) (evs : List (Event c)) (t : State c)
    (hrun : run (step queues) start evs = some t) (hfin : Finished t) (out : OutFile)
    (sampler : Sampler) :
    Aborts queues out sampler total evs t ↔
      Supplied queues (ticks evs) ∨ (out.Fails ∧ Supplied queues total) := by
  obtain ⟨pool, -, -, rfl, hloaded⟩ := loadPool_spec hload
  have ht := run_inv hloaded hrun
  constructor
  · intro haborts
    by_contra hnot
    obtain ⟨hticks, htotal⟩ := not_or.mp hnot
    -- the first tick that finds its sender drained
    obtain ⟨k, hk, hdrained, hbefore⟩ := exists_first_unsupplied hticks
    obtain ⟨bs, e, cs, u, rfl, he, rfl, hu, hrest⟩ := exists_takes_of_lt_countP hrun hk
    obtain ⟨now, hnow, rfl⟩ := early_iff.mp he
    obtain ⟨hsent, hexit⟩ := haborts _ u ⟨bs, cs, rfl, hu⟩ ((exhausted_iff hu hbefore he).mpr hdrained)
    have hall := ((run_inv hloaded hu).all_drained_iff hloaded).mp ((stops_iff hnow hrest ht hfin).mp hsent)
    rw [sum_cursors_of_tick hnow hu hrest] at hall
    exact htotal ⟨finish_ne_metrics.mp hexit, hbefore.mono hall⟩
  · rintro hsupplied e u ⟨bs, cs, rfl, hu⟩ hexhausted
    obtain ⟨m, hm, hrest⟩ := run_append_eq_some.mp hrun
    obtain rfl : u = m := Option.some.inj (hu.symm.trans hm)
    obtain ⟨now, hnow, rfl, -⟩ := id hexhausted
    have he : (Event.tick now : Event c).early = true := early_iff.mpr ⟨now, hnow, rfl⟩
    -- a tick within the supply is not exhausted
    have hbeyond : ∀ n, Supplied queues n → n ≤ ticks bs := by
      intro n hn
      by_contra hlt
      have hk := (exhausted_iff hu (hn.mono (Nat.not_le.mp hlt).le) he).mp hexhausted
      exact Nat.not_lt.mpr hk (hn _ (Nat.not_le.mp hlt))
    rcases hsupplied with hticks | ⟨hfails, htotal⟩
    · have hle := hbeyond _ hticks
      unfold ticks at hle
      rw [List.countP_append, List.countP_cons_of_pos he] at hle
      omega
    · have hall : pool.length ≤ ∑ i, u.cursors i := by
        rw [sum_cursors_of_tick hnow hu hrest]
        exact hbeyond _ htotal
      have hdrained := ((run_inv hloaded hu).all_drained_iff hloaded).mpr hall
      exact ⟨(stops_iff hnow hrest ht hfin).mpr hdrained, finish_ne_metrics.mpr hfails⟩

/-! ## Two runs -/

/-- A tick, and what comes of it: the first worker posts the transaction. -/
def servedTick (now : ℕ) : List (Event slowConfig) :=
  [.tick now, .send, .move (.take slowConfig.worker),
    .move (.finish slowConfig.worker (0, .result 0 [] []))]

/-- The context expires, the channel is closed and the workers leave. -/
def shutdown : List (Event slowConfig) :=
  .timeout slowConfig.ctxEnd :: .close ::
    (List.finRange slowConfig.workers).map fun i => .move (.leave i)

/-- Whether the workers are done, and how many transactions were submitted. -/
def summary (s : State slowConfig) : Bool × ℕ := (decide (∀ i, s.chan.pc i = .left), s.chan.sent.length)

theorem finished_of_summary {s : State slowConfig} {n : ℕ} (h : summary s = (true, n)) :
    Finished s ∧ s.chan.sent.length = n := by
  obtain ⟨hleft, hsent⟩ := Prod.mk.inj h
  exact ⟨fun i => of_decide_eq_true hleft i, hsent⟩

/-- A fourth tick finds the pool of three drained: the pump returns, and the workers leave. -/
def drainedEnd : List (Event slowConfig) :=
  servedTick 0 ++ servedTick 1 ++ servedTick 2 ++
    .tick 3 :: .close :: (List.finRange slowConfig.workers).map fun i => .move (.leave i)

/-- Nothing is submitted after that; and the output file cannot be created. -/
theorem exhaustion_aborts_drained :
    ∃ t, run (step smallQueues) start drainedEnd = some t ∧ ¬ Supplied smallQueues (ticks drainedEnd) ∧
      Aborts smallQueues ⟨false, true⟩ .start 3 drainedEnd t := by
  have hend : (run (step smallQueues) start drainedEnd).map summary = some (true, 3) := by decide
  obtain ⟨t, hrun, ht⟩ := Option.map_eq_some_iff.mp hend
  have hticks : ticks drainedEnd = 4 := by decide
  refine ⟨t, hrun, fun hsupplied => ?_, ?_⟩
  · exact absurd (hsupplied 3 (by rw [hticks]; decide)) (by decide)
  · refine (exhaustion_aborts_iff slowConfig insertionSorter _ smallQueues 3 loadPool_smallPool _ t hrun
      (finished_of_summary ht).1 ⟨false, true⟩ .start).mpr (.inr ⟨nofun, fun k hk => ?_⟩)
    obtain rfl | rfl | rfl : k = 0 ∨ k = 1 ∨ k = 2 := by omega
    · decide
    · decide
    · decide

/-- The first sender has one transaction, the second two. -/
def unevenPool : List SignedTx := [⟨0, 0, []⟩, ⟨1, 0, []⟩, ⟨1, 1, []⟩]

def unevenQueues : Fin slowConfig.senders → List SignedTx := fun i =>
  insertionSorter.sort (ofSender i.val unevenPool)

/-- Three ticks; the third is the first sender's again. -/
def unevenRun : List (Event slowConfig) := servedTick 0 ++ servedTick 1 ++ servedTick 2 ++ shutdown

/-- The third tick finds the first sender drained, and a third transaction is submitted all the same. -/
theorem drained_sender_passed_over :
    loadPool insertionSorter (some ⟨unevenPool.map some, false⟩) slowConfig.senders =
        .ok (unevenQueues, 3) ∧
      ∃ t, run (step unevenQueues) start unevenRun = some t ∧ Finished t ∧
        ¬ Aborts unevenQueues ⟨true, true⟩ .start 3 unevenRun t := by
  refine ⟨loadPool_of_inRange insertionSorter (by decide), ?_⟩
  have hend : (run (step unevenQueues) start unevenRun).map summary = some (true, 3) := by decide
  obtain ⟨t, hrun, ht⟩ := Option.map_eq_some_iff.mp hend
  obtain ⟨hfin, hsubmitted⟩ := finished_of_summary ht
  refine ⟨t, hrun, hfin, fun haborts => ?_⟩
  have hbefore : (run (step unevenQueues) start (servedTick 0 ++ servedTick 1)).map
      (fun u => (u.chan.sent.length, decide ((unevenQueues (senderAt slowConfig u.senderIdx)).length ≤
        u.cursors (senderAt slowConfig u.senderIdx)))) = some (2, true) := by decide
  obtain ⟨u, hu, hsummary⟩ := Option.map_eq_some_iff.mp hbefore
  obtain ⟨hsent, hdrained⟩ := Prod.mk.inj hsummary
  have htakes : Takes (step unevenQueues) start unevenRun (.tick 2) u :=
    ⟨servedTick 0 ++ servedTick 1, _, rfl, hu⟩
  obtain ⟨hstopped, -⟩ := haborts _ u htakes ⟨2, by decide, rfl, of_decide_eq_true hdrained⟩
  rw [hstopped, hsent] at hsubmitted
  exact absurd hsubmitted (by decide)

end PqcMigration.LoadGen
