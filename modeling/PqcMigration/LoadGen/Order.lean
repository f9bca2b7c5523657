/-
# PqcMigration.LoadGen.Order — in which order a sender's transactions reach the node.

The pump enqueues a sender's transactions in the order of their sequences and the channel keeps that
order; but two workers can have one each in hand, and whoever POSTs first is first at the node. So the
order holds for a schedule in which no worker takes a transaction while another has one of the same
sender in hand and has not posted it; and wherever a worker does, the node can get the two the wrong way
round.
-/
import PqcMigration.LoadGen.Pump

namespace PqcMigration.LoadGen

open Lib

/-- No two records of one sender have the same sequence. -/
def DistinctSequences (pool : List SignedTx) : Prop :=
  (pool.map fun tx => (tx.senderIdx, tx.sequence)).Nodup

instance (pool : List SignedTx) : Decidable (DistinctSequences pool) :=
  inferInstanceAs (Decidable (List.Nodup _))

/-- The node gets each sender's transactions in strictly increasing order. -/
def InOrder (arrived : List SignedTx) : Prop :=
  ∀ sender, (ofSender sender arrived).Pairwise fun a b => a.sequence < b.sequence

/-- Of two that came one after the other. -/
theorem InOrder.lt {arrived : List SignedTx} (h : InOrder arrived) {a b : SignedTx}
    (hsub : [a, b].Sublist arrived) (hsender : a.senderIdx = b.senderIdx) :
    a.sequence < b.sequence := by
  have hpair : ofSender a.senderIdx [a, b] = [a, b] := by
    simp [ofSender, Channel.ofKey, hsender]
  have hlt : (ofSender a.senderIdx [a, b]).Pairwise fun a b => a.sequence < b.sequence :=
    (h a.senderIdx).sublist (hsub.filter _)
  rw [hpair] at hlt
  exact List.rel_of_pairwise_cons hlt List.mem_cons_self

section Order

variable {c : Config} {pool : List SignedTx} {queues : Fin c.senders → List SignedTx} {s : State c}

theorem Loaded.strict (hload : Loaded pool queues) (hdistinct : DistinctSequences pool)
    (i : Fin c.senders) : (queues i).Pairwise fun a b => a.sequence < b.sequence := by
  have hne : (queues i).Pairwise fun a b => (a.senderIdx, a.sequence) ≠ (b.senderIdx, b.sequence) := by
    have hpool : pool.Pairwise fun a b => (a.senderIdx, a.sequence) ≠ (b.senderIdx, b.sequence) :=
      List.pairwise_map.mp hdistinct
    exact ((hload.perm i).pairwise_iff fun hab => hab.symm).mpr (hpool.sublist List.filter_sublist)
  refine ((hload.sorted i).and hne).imp_of_mem ?_
  rintro a b ha hb ⟨hle, hab⟩
  refine Nat.lt_of_le_of_ne hle fun hseq => hab ?_
  rw [hload.senderIdx ha, hload.senderIdx hb, hseq]

/-- Transactions are enqueued in order. -/
theorem Inv.sent_inOrder (hs : Inv queues s) (hload : Loaded pool queues)
    (hdistinct : DistinctSequences pool) : InOrder s.chan.sent := by
  intro sender
  by_cases hsender : ∃ i : Fin c.senders, sender = i.val
  · obtain ⟨i, rfl⟩ := hsender
    exact (hload.strict hdistinct i).sublist (hs.sent_front i).sublist
  · have hnone : ofSender sender s.chan.sent = [] := by
      rw [ofSender, Channel.ofKey, List.filter_eq_nil_iff]
      intro tx htx
      obtain ⟨i, hi⟩ := hs.sent_mem tx (List.mem_append_left _ htx)
      rw [decide_eq_true_eq, hload.senderIdx hi]
      exact fun h => hsender ⟨i, h.symm⟩
    rw [hnone]
    exact List.Pairwise.nil

/-- A worker takes a transaction only while no worker has one of the same sender in hand, unposted. -/
def TakesAlone (s : State c) : Event c → Prop
  | .move m => Channel.Alone SignedTx.senderIdx s.chan m
  | _ => True

instance (s : State c) : (e : Event c) → Decidable (TakesAlone s e)
  | .move m => inferInstanceAs (Decidable (Channel.Alone SignedTx.senderIdx s.chan m))
  | .tick _ => .isTrue trivial
  | .timeout _ => .isTrue trivial
  | .send => .isTrue trivial
  | .close => .isTrue trivial

theorem ordered_step {e : Event c} {t : State c} (hs : Channel.Ordered SignedTx.senderIdx s.chan)
    (halone : TakesAlone s e) (h : step queues s e = some t) :
    Channel.Ordered SignedTx.senderIdx t.chan := by
  obtain ⟨now, -, -, rfl⟩ | ⟨i, tx, next, -, -, rfl⟩ | ⟨tx, chan, -, hchan, rfl⟩ |
    ⟨now, chan, -, hchan, rfl⟩ | ⟨m, chan, rfl, hchan, rfl⟩ := step_cases h
  · exact hs
  · exact hs
  · exact hs.send hchan
  · exact hs.close hchan
  · exact hs.move halone hchan

end Order

/-- **When a sender's transactions reach the node in order**: in every run in which each is taken while
no other worker has one of that sender in hand, unposted. And from a state in which a worker takes one
although another has, two POSTs make the order wrong. -/
theorem sender_order (c : Config) (sorter : Sorter) (pool : List SignedTx) (scanErr : Bool)
    (queues : Fin c.senders → List SignedTx) (total : ℕ)
    (hload : loadPool sorter (some ⟨pool.map some, scanErr⟩) c.senders = .ok (queues, total))
    (hdistinct : DistinctSequences pool) (evs : List (Event c)) (s : State c)
    (hrun : run (step queues) start evs = some s) :
    ((∀ e v, Takes (step queues) start evs e v → TakesAlone v e) → InOrder s.chan.acts) ∧
    ∀ i u, step queues s (.move (.take i)) = some u → ¬ TakesAlone s (.move (.take i)) →
      ∃ j t, run (step queues) start (evs ++ [.move (.take i), .move (.act i), .move (.act j)]) =
        some t ∧ ¬ InOrder t.chan.acts := by
  obtain ⟨pool', scanErr', hfile, -, hloaded⟩ := loadPool_spec hload
  have hpool : pool' = pool := by
    have hlines := congrArg PoolFile.lines (Option.some.inj hfile)
    exact (List.map_injective_iff.mpr (Option.some_injective _) hlines).symm
  subst hpool
  have hinv := run_inv hloaded hrun
  have hsent := hinv.sent_inOrder hloaded hdistinct
  constructor
  · intro halone sender
    have hordered : Channel.Ordered SignedTx.senderIdx s.chan := by
      refine run_invariant_of_takes (I := fun s : State c => Channel.Ordered SignedTx.senderIdx s.chan)
        (C := TakesAlone) ?_ (Channel.ordered_start _) hrun halone
      exact fun v e w hv hC hstep => ordered_step hv hC hstep
    exact (hsent sender).sublist (hordered.acts_sublist sender)
  · intro i u htake hnot
    obtain ⟨chan, hchan, -⟩ := Option.map_eq_some_iff.mp htake
    obtain ⟨i', a', rest, hi, hidle, hbuf, -⟩ | ⟨_, _, h, -⟩ | ⟨_, _, _, h, -⟩ | ⟨_, h, -⟩ :=
      Channel.move_cases hchan
    · obtain rfl := Channel.Move.take.inj hi
      obtain ⟨a, b, j, before, after, u₁, u₂, u₃, hsplit, hbefore, hkey, hu₁, hu₂, hu₃, hacts⟩ :=
        Channel.exists_swap hinv.fifo hidle hnot (by rw [hbuf]; exact List.cons_ne_nil _ _)
      refine ⟨j, { s with chan := u₃ }, run_append_eq_some.mpr ⟨s, hrun, ?_⟩, ?_⟩
      · refine run_cons_eq_some.mpr ⟨{ s with chan := u₁ }, ?_, run_cons_eq_some.mpr
          ⟨{ s with chan := u₂ }, ?_, run_cons_eq_some.mpr ⟨{ s with chan := u₃ }, ?_, rfl⟩⟩⟩
        · rw [step, hu₁]; rfl
        · rw [step, hu₂]; rfl
        · rw [step, hu₃]; rfl
      · intro horder
        -- `b` was enqueued before `a` and posted after it
        have henqueued : b.sequence < a.sequence := by
          apply hsent.lt _ hkey
          rw [hsplit]
          exact (List.singleton_sublist.mpr hbefore).append
            (List.singleton_sublist.mpr List.mem_cons_self)
        have hposted : a.sequence < b.sequence := by
          apply horder.lt _ hkey.symm
          rw [hacts]
          exact List.sublist_append_right _ _
        exact Nat.lt_asymm henqueued hposted
    · cases h
    · cases h
    · cases h

/-- Worker `k`. -/
def slowWorker (k : Fin 64) : Fin slowConfig.workers := k

/-- The pool is enqueued, and one worker posts it. -/
def oneWorkerRun : List (Event slowConfig) :=
  [.tick 0, .send, .tick 1, .send, .tick 2,
    .move (.take (slowWorker 0)), .send, .move (.act (slowWorker 0)),
    .move (.finish (slowWorker 0) (0, .result 0 [] [])), .move (.take (slowWorker 0)),
    .move (.act (slowWorker 0)), .move (.finish (slowWorker 0) (0, .result 0 [] [])),
    .move (.take (slowWorker 0)), .move (.act (slowWorker 0))]

theorem sender_order_one_worker :
    ∃ s, run (step smallQueues) start oneWorkerRun = some s ∧
      s.chan.acts = [⟨0, 0, []⟩, ⟨1, 0, []⟩, ⟨0, 1, []⟩] ∧ InOrder s.chan.acts := by
  have hrun : (run (step smallQueues) start oneWorkerRun).map (fun s => s.chan.acts) =
      some [⟨0, 0, []⟩, ⟨1, 0, []⟩, ⟨0, 1, []⟩] := by decide
  obtain ⟨s, hs, hacts⟩ := Option.map_eq_some_iff.mp hrun
  refine ⟨s, hs, hacts, ?_⟩
  apply (sender_order slowConfig insertionSorter smallPool false smallQueues 3 loadPool_smallPool
    (by decide) oneWorkerRun s hs).1
  exact forall_takes_iff.mpr (by decide)

/-- Three workers take one each, and the third is faster than the first. -/
theorem overtaken_at_node :
    DistinctSequences smallPool ∧
    loadPool insertionSorter (some ⟨smallPool.map some, false⟩) slowConfig.senders =
      .ok (smallQueues, 3) ∧
    ∃ s, run (step smallQueues) start
        [.tick 0, .send, .tick 1, .send, .tick 2, .move (.take (slowWorker 0)), .send,
          .move (.take (slowWorker 1)), .move (.take (slowWorker 2)), .move (.act (slowWorker 2)),
          .move (.act (slowWorker 0))] = some s ∧
      s.chan.acts = [⟨0, 1, []⟩, ⟨0, 0, []⟩] ∧ ¬ InOrder s.chan.acts := by
  refine ⟨by decide, loadPool_smallPool, ?_⟩
  have hrun : (run (step smallQueues) start
      [.tick 0, .send, .tick 1, .send, .tick 2, .move (.take (slowWorker 0)), .send,
        .move (.take (slowWorker 1)), .move (.take (slowWorker 2)), .move (.act (slowWorker 2)),
        .move (.act (slowWorker 0))]).map (fun s => s.chan.acts) =
      some [⟨0, 1, []⟩, ⟨0, 0, []⟩] := by decide
  obtain ⟨s, hs, hacts⟩ := Option.map_eq_some_iff.mp hrun
  refine ⟨s, hs, hacts, fun horder => ?_⟩
  have hlt := horder.lt (a := ⟨0, 1, []⟩) (b := ⟨0, 0, []⟩) (by rw [hacts]) rfl
  exact absurd hlt (by decide)

end PqcMigration.LoadGen
