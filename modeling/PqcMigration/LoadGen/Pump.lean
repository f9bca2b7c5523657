/-
# PqcMigration.LoadGen.Pump — the broadcast of `tools/loadgen/main.go`: the pump, the channel and the
submission workers.

At every tick the pump takes one transaction from the next sender that has any left, going round, and
sends it down a channel of capacity twice the rate. Workers take from the channel, POST, and append a
record (`Lib.Channel`: an act is a POST that reaches the node, and a worker that finishes without one
had its request fail). The pump returns at the first tick after the deadline, when the context has
expired, or when every queue is drained; then the channel is closed and the workers are waited for.

The deadline is computed after the context has been made, and the context lasts two seconds longer: the
clock is read twice in a row, within those two seconds. What the counter `submitted` says is read only
after the pump has returned, so it is raised together with the send.

`loadgen_accounting` is the accounting over every schedule: nothing is enqueued twice, queues are used
from the front, and every enqueued transaction ends up in one record.
-/
import Mathlib.Data.Fintype.Basic
import PqcMigration.Lib.Run
import PqcMigration.LoadGen.Pool

namespace PqcMigration.LoadGen

open Lib

/-- What the run is started with, and when (times in milliseconds). -/
structure Config where
  rate : ℕ
  duration : ℕ
  senders : ℕ
  rate_pos : 0 < rate
  senders_pos : 0 < senders
  /-- when the context was made -/
  ctxAt : ℕ
  /-- when the deadline was computed -/
  deadlineAt : ℕ
  prompt : deadlineAt ≤ ctxAt + 2000

def Config.capacity (c : Config) : ℕ := c.rate * 2

def Config.workers (c : Config) : ℕ := if 200 < c.rate then 128 else 64

def Config.deadline (c : Config) : ℕ := c.deadlineAt + c.duration * 1000

/-- When the context expires. -/
def Config.ctxEnd (c : Config) : ℕ := c.ctxAt + c.duration * 1000 + 2000

theorem Config.workers_pos (c : Config) : 0 < c.workers := by
  rw [Config.workers]
  split <;> decide

theorem Config.deadline_le (c : Config) : c.deadline ≤ c.ctxEnd := by
  have := c.prompt
  rw [Config.deadline, Config.ctxEnd]
  omega

inductive PumpPc where
  /-- in the `select` -/
  | waiting
  /-- at `submitJobs <- tx` -/
  | sending (tx : SignedTx)
  | returned (now : ℕ)
  deriving DecidableEq

/-- What the pump has taken from a queue and not enqueued yet. -/
def PumpPc.hand : PumpPc → List SignedTx
  | .sending tx => [tx]
  | _ => []

theorem PumpPc.hand_waiting : PumpPc.waiting.hand = [] := rfl

theorem PumpPc.hand_returned (now : ℕ) : (PumpPc.returned now).hand = [] := rfl

/-- A worker's result: when it submitted, and what came of it. -/
abbrev Submission := Int × Reply

structure State (c : Config) where
  cursors : Fin c.senders → ℕ
  senderIdx : ℕ
  pump : PumpPc
  submitted : ℕ
  chan : Channel.State (Fin c.workers) SignedTx Submission

inductive Event (c : Config) where
  | tick (now : ℕ)
  /-- `ctx.Done()` -/
  | timeout (now : ℕ)
  | send
  | close
  | move (m : Channel.Move (Fin c.workers) Submission)

section Step

variable {c : Config} (queues : Fin c.senders → List SignedTx)

/-- `(senderIdx + tries) % senders` -/
def senderAt (c : Config) (k : ℕ) : Fin c.senders := ⟨k % c.senders, Nat.mod_lt _ c.senders_pos⟩

/-- The scan for a sender that is not drained. -/
def pick (cursors : Fin c.senders → ℕ) (senderIdx : ℕ) : Option (Fin c.senders) :=
  (List.range c.senders).findSome? fun tries =>
    let idx := senderAt c (senderIdx + tries)
    if cursors idx < (queues idx).length then some idx else none

def step (s : State c) : Event c → Option (State c)
  | .tick now =>
      match s.pump with
      | .waiting =>
          if c.deadline < now then some { s with pump := .returned now }
          else
            match pick queues s.cursors s.senderIdx with
            | none => some { s with pump := .returned now }
            | some i =>
                (queues i)[s.cursors i]?.map fun tx =>
                  { s with
                    cursors := Function.update s.cursors i (s.cursors i + 1)
                    senderIdx := (i + 1) % c.senders
                    pump := .sending tx }
      | _ => none
  | .timeout now =>
      if s.pump = .waiting ∧ c.ctxEnd ≤ now then some { s with pump := .returned now } else none
  | .send =>
      match s.pump with
      | .sending tx =>
          (Channel.send c.capacity s.chan tx).map fun chan =>
            { s with pump := .waiting, chan := chan, submitted := s.submitted + 1 }
      | _ => none
  | .close =>
      match s.pump with
      | .returned _ => (Channel.close s.chan).map fun chan => { s with chan := chan }
      | _ => none
  | .move m => (Channel.move s.chan m).map fun chan => { s with chan := chan }

def start : State c := ⟨fun _ => 0, 0, .waiting, 0, Channel.start⟩

variable {queues} {s t : State c} {e : Event c}

/-- The scan comes to every sender. -/
theorem exists_tries (k : ℕ) (i : Fin c.senders) :
    ∃ tries < c.senders, senderAt c (k + tries) = i := by
  have hmod : k % c.senders < c.senders := Nat.mod_lt _ c.senders_pos
  have hk : c.senders * (k / c.senders) + k % c.senders = k := Nat.div_add_mod k c.senders
  have hi := i.isLt
  rcases Nat.lt_or_ge i.val (k % c.senders) with hlt | hge
  · refine ⟨i.val + c.senders - k % c.senders, by omega, Fin.ext ?_⟩
    have hsum : k + (i.val + c.senders - k % c.senders) =
        c.senders * (k / c.senders + 1) + i.val := by
      rw [Nat.mul_succ]
      omega
    show (k + (i.val + c.senders - k % c.senders)) % c.senders = i.val
    rw [hsum, Nat.mul_add_mod, Nat.mod_eq_of_lt hi]
  · refine ⟨i.val - k % c.senders, by omega, Fin.ext ?_⟩
    have hsum : k + (i.val - k % c.senders) = c.senders * (k / c.senders) + i.val := by omega
    show (k + (i.val - k % c.senders)) % c.senders = i.val
    rw [hsum, Nat.mul_add_mod, Nat.mod_eq_of_lt hi]

theorem pick_eq_none {cursors : Fin c.senders → ℕ} {senderIdx : ℕ}
    (h : pick queues cursors senderIdx = none) (i : Fin c.senders) :
    (queues i).length ≤ cursors i := by
  rw [pick, List.findSome?_eq_none_iff] at h
  obtain ⟨tries, htries, hidx⟩ := exists_tries senderIdx i
  have hskipped := h tries (List.mem_range.mpr htries)
  dsimp only at hskipped
  rw [hidx] at hskipped
  split at hskipped
  · cases hskipped
  · omega

/-- Everything a step can do. -/
theorem step_cases (h : step queues s e = some t) :
    (∃ now, s.pump = .waiting ∧ (now < c.deadline → ∀ i, (queues i).length ≤ s.cursors i) ∧
      t = { s with pump := .returned now }) ∨
    (∃ i tx next, s.pump = .waiting ∧ (queues i)[s.cursors i]? = some tx ∧
      t = { s with
            cursors := Function.update s.cursors i (s.cursors i + 1)
            senderIdx := next
            pump := .sending tx }) ∨
    (∃ tx chan, s.pump = .sending tx ∧ Channel.send c.capacity s.chan tx = some chan ∧
      t = { s with pump := .waiting, chan := chan, submitted := s.submitted + 1 }) ∨
    (∃ now chan, s.pump = .returned now ∧ Channel.close s.chan = some chan ∧
      t = { s with chan := chan }) ∨
    (∃ m chan, e = .move m ∧ Channel.move s.chan m = some chan ∧ t = { s with chan := chan }) := by
  cases e with
  | tick now =>
      simp only [step] at h
      split at h
      · rename_i hwaiting
        split at h
        · rename_i hlate
          exact .inl ⟨now, hwaiting, fun hearly => by omega, (Option.some.inj h).symm⟩
        · split at h
          · rename_i hnone
            exact .inl ⟨now, hwaiting, fun _ => pick_eq_none hnone, (Option.some.inj h).symm⟩
          · rename_i i _
            obtain ⟨tx, htx, rfl⟩ := Option.map_eq_some_iff.mp h
            exact .inr (.inl ⟨i, tx, _, hwaiting, htx, rfl⟩)
      · cases h
  | timeout now =>
      simp only [step] at h
      split at h
      · rename_i hguard
        have := c.deadline_le
        exact .inl ⟨now, hguard.1, fun hearly => by omega, (Option.some.inj h).symm⟩
      · cases h
  | send =>
      simp only [step] at h
      split at h
      · rename_i tx hsending
        obtain ⟨chan, hchan, rfl⟩ := Option.map_eq_some_iff.mp h
        exact .inr (.inr (.inl ⟨tx, chan, hsending, hchan, rfl⟩))
      · cases h
  | close =>
      simp only [step] at h
      split at h
      · rename_i now hreturned
        obtain ⟨chan, hchan, rfl⟩ := Option.map_eq_some_iff.mp h
        exact .inr (.inr (.inr (.inl ⟨now, chan, hreturned, hchan, rfl⟩)))
      · cases h
  | move m =>
      obtain ⟨chan, hchan, rfl⟩ := Option.map_eq_some_iff.mp h
      exact .inr (.inr (.inr (.inr ⟨m, chan, rfl, hchan, rfl⟩)))

end Step

/-! ## What every run keeps -/

section Inv

variable {c : Config} {pool : List SignedTx} {queues : Fin c.senders → List SignedTx}

structure Inv (queues : Fin c.senders → List SignedTx) (s : State c) : Prop where
  /-- what was enqueued for a sender, and what the pump has in hand, is the front of its queue -/
  front : ∀ i : Fin c.senders,
    ofSender i.val s.chan.sent ++ ofSender i.val s.pump.hand = (queues i).take (s.cursors i)
  cursor_le : ∀ i, s.cursors i ≤ (queues i).length
  sent_mem : ∀ tx ∈ s.chan.sent ++ s.pump.hand, ∃ i, tx ∈ queues i
  submitted : s.submitted = s.chan.sent.length
  drained : ∀ now, s.pump = .returned now → now < c.deadline → ∀ i, s.cursors i = (queues i).length
  closed : s.chan.closed = true → ∃ now, s.pump = .returned now
  conserved : Channel.Conserved s.chan
  fifo : Channel.Fifo s.chan

theorem inv_start : Inv queues (start : State c) where
  front i := by simp [start, Channel.start, PumpPc.hand, Channel.ofKey]
  cursor_le i := Nat.zero_le _
  sent_mem tx htx := absurd htx List.not_mem_nil
  submitted := rfl
  drained now h := by cases h
  closed h := by cases h
  conserved := Channel.conserved_start
  fifo := Channel.fifo_start

variable {s t : State c} {e : Event c}

/-- The pump takes the next transaction of a queue. -/
theorem Inv.take (hs : Inv queues s) (hload : Loaded pool queues) {i : Fin c.senders} {tx : SignedTx}
    (hwaiting : s.pump = .waiting) (htx : (queues i)[s.cursors i]? = some tx) (next : ℕ) :
    Inv queues { s with
      cursors := Function.update s.cursors i (s.cursors i + 1)
      senderIdx := next
      pump := .sending tx } := by
  have hmem : tx ∈ queues i := List.mem_of_getElem? htx
  have hlt : s.cursors i < (queues i).length := (List.getElem?_eq_some_iff.mp htx).1
  have hsender : tx.senderIdx = i.val := hload.senderIdx hmem
  have hfront (j : Fin c.senders) : ofSender j.val s.chan.sent = (queues j).take (s.cursors j) := by
    have := hs.front j
    rwa [hwaiting, PumpPc.hand_waiting, ofSender, ofSender, Channel.ofKey_nil, List.append_nil] at this
  refine ⟨fun j => ?_, fun j => ?_, fun tx' htx' => ?_, hs.submitted, fun now h => ?_, fun h => ?_,
    hs.conserved, hs.fifo⟩
  · show ofSender j.val s.chan.sent ++ ofSender j.val [tx] =
      (queues j).take (Function.update s.cursors i (s.cursors i + 1) j)
    rw [hfront j]
    by_cases hj : j = i
    · subst hj
      rw [Function.update_self, List.take_add_one, htx, ← hsender, ofSender,
        Channel.ofKey_singleton_self]
      rfl
    · have hne : tx.senderIdx ≠ j.val := by
        rw [hsender]
        exact fun heq => hj (Fin.ext (by omega))
      rw [Function.update_of_ne hj, ofSender, Channel.ofKey_singleton_of_ne hne, List.append_nil]
  · show Function.update s.cursors i (s.cursors i + 1) j ≤ (queues j).length
    by_cases hj : j = i
    · subst hj
      rw [Function.update_self]
      exact hlt
    · rw [Function.update_of_ne hj]
      exact hs.cursor_le j
  · rcases List.mem_append.mp htx' with hsent | hhand
    · exact hs.sent_mem tx' (List.mem_append_left _ hsent)
    · obtain rfl := List.mem_singleton.mp hhand
      exact ⟨i, hmem⟩
  · cases h
  · obtain ⟨now, hnow⟩ := hs.closed h
    rw [hwaiting] at hnow
    cases hnow

/-- What the pump has in hand goes into the channel. -/
theorem Inv.send (hs : Inv queues s) {tx : SignedTx}
    {chan : Channel.State (Fin c.workers) SignedTx Submission} (hsending : s.pump = .sending tx)
    (hchan : Channel.send c.capacity s.chan tx = some chan) :
    Inv queues { s with pump := .waiting, chan := chan, submitted := s.submitted + 1 } := by
  obtain ⟨hopen, -, hsent⟩ := Channel.send_eq_some hchan
  have hall : chan.sent = s.chan.sent ++ s.pump.hand := by
    rw [hsent, hsending]
    rfl
  refine ⟨fun i => ?_, hs.cursor_le, fun tx' htx' => ?_, ?_, fun now h => ?_, fun h => ?_,
    hs.conserved.send hchan, hs.fifo.send hchan⟩
  · show ofSender i.val chan.sent ++ ofSender i.val [] = (queues i).take (s.cursors i)
    rw [hall, ofSender, ofSender, Channel.ofKey_append, Channel.ofKey_nil, List.append_nil]
    exact hs.front i
  · rw [PumpPc.hand_waiting, List.append_nil, hall] at htx'
    exact hs.sent_mem tx' htx'
  · show s.submitted + 1 = chan.sent.length
    rw [hall, List.length_append, hs.submitted, hsending]
    rfl
  · cases h
  · have hclosed : chan.closed = true := h
    rw [hsent] at hclosed
    rw [hopen] at hclosed
    cases hclosed

/-- A step that leaves the pump and what was sent alone. -/
theorem Inv.of_chan (hs : Inv queues s) {chan : Channel.State (Fin c.workers) SignedTx Submission}
    (hsent : chan.sent = s.chan.sent) (hclosed : chan.closed = true → ∃ now, s.pump = .returned now)
    (hconserved : Channel.Conserved chan) (hfifo : Channel.Fifo chan) :
    Inv queues { s with chan := chan } :=
  ⟨fun i => by rw [hsent]; exact hs.front i, hs.cursor_le,
    fun tx htx => hs.sent_mem tx (by rwa [hsent] at htx), hs.submitted.trans (by rw [hsent]), hs.drained,
    hclosed, hconserved, hfifo⟩

theorem Inv.step (hs : Inv queues s) (hload : Loaded pool queues) (h : step queues s e = some t) :
    Inv queues t := by
  obtain ⟨now, hwaiting, hdrained, rfl⟩ | ⟨i, tx, next, hwaiting, htx, rfl⟩ |
    ⟨tx, chan, hsending, hchan, rfl⟩ | ⟨now, chan, hreturned, hchan, rfl⟩ |
    ⟨m, chan, -, hchan, rfl⟩ := step_cases h
  · have hhand : (PumpPc.returned now).hand = s.pump.hand := by rw [hwaiting]; rfl
    refine ⟨fun i => by rw [hhand]; exact hs.front i, hs.cursor_le,
      fun tx htx => hs.sent_mem tx (by rwa [hhand] at htx), hs.submitted, fun now' hnow hearly i => ?_,
      fun _ => ⟨now, rfl⟩, hs.conserved, hs.fifo⟩
    obtain rfl := PumpPc.returned.inj hnow
    exact Nat.le_antisymm (hs.cursor_le i) (hdrained hearly i)
  · exact hs.take hload hwaiting htx next
  · exact hs.send hsending hchan
  · obtain ⟨-, hchan'⟩ := Channel.close_eq_some hchan
    exact hs.of_chan (by rw [hchan']) (fun _ => ⟨now, hreturned⟩) (hs.conserved.close hchan)
      (hs.fifo.close hchan)
  · obtain ⟨hsent, hclosed⟩ := Channel.move_sent hchan
    exact hs.of_chan hsent (fun h => hs.closed (hclosed ▸ h)) (hs.conserved.move hchan)
      (hs.fifo.move hchan)

/-- **Every run keeps the invariant.** -/
theorem run_inv (hload : Loaded pool queues) {evs : List (Event c)}
    (hrun : run (LoadGen.step queues) start evs = some s) : Inv queues s :=
  run_invariant (fun _ _ _ hs hstep => Inv.step hs hload hstep) inv_start hrun

end Inv

/-! ## Runs end -/

section Finish

variable {c : Config}

/-- `submitWg.Wait()` has returned. -/
def Finished (s : State c) : Prop := ∀ i, s.chan.pc i = .left

def PumpPc.weight : PumpPc → ℕ
  | .waiting => 1
  | .sending _ => 5
  | .returned _ => 0

/-- How many steps are left, at most, if the pump gets no more ticks. -/
def weight (s : State c) : ℕ := s.pump.weight + s.chan.weight

theorem exists_step_of_not_finished (queues : Fin c.senders → List SignedTx) {s : State c}
    (hnot : ¬ Finished s) :
    ∃ e t, step queues s e = some t ∧ weight t < weight s := by
  obtain ⟨i, hi⟩ := not_forall.mp hnot
  have : Nonempty Submission := ⟨(0, .requestError [])⟩
  rcases Channel.exists_move hi with ⟨m, chan, hmove⟩ | ⟨hbuf, hopen⟩
  · refine ⟨.move m, { s with chan := chan }, by rw [step, hmove]; rfl, ?_⟩
    have := Channel.weight_move hmove
    show s.pump.weight + chan.weight < s.pump.weight + s.chan.weight
    omega
  · cases hpump : s.pump with
    | waiting =>
        refine ⟨.timeout c.ctxEnd, { s with pump := .returned c.ctxEnd },
          if_pos ⟨hpump, Nat.le_refl _⟩, ?_⟩
        rw [weight, weight, hpump]
        exact Nat.add_lt_add_right (by decide : 0 < 1) _
    | sending tx =>
        have hroom : s.chan.buf.length < c.capacity := by
          have := c.rate_pos
          rw [hbuf, Config.capacity, List.length_nil]
          omega
        have hsend : Channel.send c.capacity s.chan tx =
            some { s.chan with sent := s.chan.sent ++ [tx], buf := s.chan.buf ++ [tx] } :=
          if_pos ⟨hopen, hroom⟩
        refine ⟨.send, _, by rw [step, hpump]; dsimp only; rw [hsend]; rfl, ?_⟩
        have := Channel.weight_send hsend
        rw [weight, weight, hpump, this]
        show 1 + (s.chan.weight + 3) < 5 + s.chan.weight
        omega
    | returned now =>
        have hclose : Channel.close s.chan = some { s.chan with closed := true } := if_pos hopen
        refine ⟨.close, _, by rw [step, hpump]; dsimp only; rw [hclose]; rfl, ?_⟩
        rw [weight, weight, hpump]
        exact Nat.add_lt_add_left (Channel.weight_close hclose) _

/-- **Every run can be finished**: whatever the schedule has been, the workers come to an end. -/
theorem exists_finish (queues : Fin c.senders → List SignedTx) (s : State c) :
    ∃ evs t, run (step queues) s evs = some t ∧ Finished t := by
  induction hn : weight s using Nat.strong_induction_on generalizing s with
  | _ n ih =>
      by_cases hfin : Finished s
      · exact ⟨[], s, rfl, hfin⟩
      · obtain ⟨e, t, hstep, hlt⟩ := exists_step_of_not_finished queues hfin
        obtain ⟨evs, u, hrun, hu⟩ := ih (weight t) (hn ▸ hlt) t rfl
        exact ⟨e :: evs, u, run_cons_eq_some.mpr ⟨t, hstep, hrun⟩, hu⟩

end Finish

/-! ## Accounting -/

section Accounting

variable {c : Config} {pool : List SignedTx} {queues : Fin c.senders → List SignedTx} {s : State c}

/-- `records` -/
def records (s : State c) : List SubmitRecord := s.chan.done.map fun p => broadcastOne p.1 p.2.1 p.2.2

theorem Inv.sent_front (hs : Inv queues s) (i : Fin c.senders) :
    ofSender i.val s.chan.sent <+: queues i := by
  refine List.IsPrefix.trans ?_ (List.take_prefix (s.cursors i) _)
  rw [← hs.front i]
  exact List.prefix_append _ _

/-- Everything that was enqueued was in the pool, and not more often than there. -/
theorem Inv.sent_subperm (hs : Inv queues s) (hload : Loaded pool queues) :
    s.chan.sent.Subperm pool := by
  rw [List.subperm_ext_iff]
  intro tx htx
  obtain ⟨i, hi⟩ := hs.sent_mem tx (List.mem_append_left _ htx)
  have hsender : tx.senderIdx = i.val := hload.senderIdx hi
  have hcount (l : List SignedTx) : (ofSender i.val l).count tx = l.count tx :=
    List.count_filter (by rw [hsender]; exact decide_eq_true rfl)
  calc s.chan.sent.count tx
      = (ofSender i.val s.chan.sent).count tx := (hcount _).symm
    _ ≤ (queues i).count tx := (hs.sent_front i).sublist.count_le tx
    _ = (ofSender i.val pool).count tx := (hload.perm i).count_eq tx
    _ = pool.count tx := hcount _

theorem Inv.sent_eq_of_drained (hs : Inv queues s) {now : ℕ} (hnow : s.pump = .returned now)
    (hearly : now < c.deadline) (i : Fin c.senders) : ofSender i.val s.chan.sent = queues i := by
  have hfront := hs.front i
  rwa [hs.drained now hnow hearly i, List.take_length, hnow, PumpPc.hand_returned, ofSender, ofSender,
    Channel.ofKey_nil, List.append_nil] at hfront

theorem Inv.recorded (hs : Inv queues s) (hfin : Finished s) :
    (s.chan.done.map Prod.fst).Perm s.chan.sent ∧ s.submitted = (records s).length := by
  have : Nonempty (Fin c.workers) := ⟨⟨0, c.workers_pos⟩⟩
  have hperm := hs.conserved.perm hfin
  refine ⟨hperm, ?_⟩
  rw [hs.submitted, ← hperm.length_eq, records, List.length_map, List.length_map]

end Accounting

/-- **The accounting of the load generator**, over every schedule of the pump and the workers. In every
state: what is enqueued is in the pool and enqueued at most once, for each sender it is the front of
the sorted queue, and if the pump has returned before the deadline it is all of it. At the end every
enqueued transaction has one record, and the counters add up. And every run comes to an end. -/
theorem loadgen_accounting (c : Config) (sorter : Sorter) (file : Option PoolFile)
    (queues : Fin c.senders → List SignedTx) (total : ℕ)
    (hload : loadPool sorter file c.senders = .ok (queues, total)) (evs : List (Event c)) (s : State c)
    (hrun : run (step queues) start evs = some s) :
    ∃ (pool : List SignedTx) (scanErr : Bool), file = some ⟨pool.map some, scanErr⟩ ∧
      Loaded pool queues ∧ s.chan.sent.Subperm pool ∧
      (∀ i : Fin c.senders, ofSender i.val s.chan.sent <+: queues i) ∧
      (∀ now, s.pump = .returned now → now < c.deadline →
        ∀ i : Fin c.senders, ofSender i.val s.chan.sent = queues i) ∧
      (Finished s → (s.chan.done.map Prod.fst).Perm s.chan.sent ∧
        s.submitted = (records s).length ∧
        ∀ hashes, (resolveCommits hashes (records s)).1.checkOK +
            (resolveCommits hashes (records s)).1.checkFail +
            (resolveCommits hashes (records s)).1.httpErrors = (records s).length ∧
          (resolveCommits hashes (records s)).1.committed ≤
            (resolveCommits hashes (records s)).1.checkOK +
              (resolveCommits hashes (records s)).1.checkFail) ∧
      ∃ more t, run (step queues) start (evs ++ more) = some t ∧ Finished t := by
  obtain ⟨pool, scanErr, hfile, -, hloaded⟩ := loadPool_spec hload
  have hinv := run_inv hloaded hrun
  obtain ⟨more, t, hmore, hfin⟩ := exists_finish queues s
  refine ⟨pool, scanErr, hfile, hloaded, hinv.sent_subperm hloaded, hinv.sent_front,
    fun now hnow hearly => hinv.sent_eq_of_drained hnow hearly, fun hfinished => ?_,
    more, t, run_append_eq_some.mpr ⟨s, hrun, hmore⟩, hfin⟩
  obtain ⟨hperm, hsubmitted⟩ := hinv.recorded hfinished
  exact ⟨hperm, hsubmitted, fun hashes => resolveCommits_counts hashes (records s)⟩

/-! ## A run that drains its pool -/

/-- One transaction a second for a second, from two senders. -/
def slowConfig : Config := ⟨1, 1, 2, Nat.one_pos, Nat.two_pos, 0, 0, Nat.zero_le _⟩

/-- The first sender has two transactions, the second one. -/
def smallPool : List SignedTx := [⟨0, 1, []⟩, ⟨1, 0, []⟩, ⟨0, 0, []⟩]

def smallQueues : Fin slowConfig.senders → List SignedTx := fun i =>
  insertionSorter.sort (ofSender i.val smallPool)

theorem loadPool_smallPool :
    loadPool insertionSorter (some ⟨smallPool.map some, false⟩) slowConfig.senders =
      .ok (smallQueues, 3) :=
  loadPool_of_inRange insertionSorter (by decide)

/-- The first of the workers. -/
def Config.worker (c : Config) : Fin c.workers := ⟨0, c.workers_pos⟩

/-- Three ticks, and a fourth that finds the pool exhausted. -/
def drainedRun : List (Event slowConfig) :=
  [.tick 0, .send, .tick 1, .move (.take slowConfig.worker), .send, .tick 2,
    .move (.act slowConfig.worker), .send, .tick 3]

theorem loadgen_accounting_drained :
    ∃ s, run (step smallQueues) start drainedRun = some s ∧ s.pump = .returned 3 ∧
      ∀ i : Fin slowConfig.senders, ofSender i.val s.chan.sent = smallQueues i := by
  have hrun : (run (step smallQueues) start drainedRun).map State.pump = some (.returned 3) := by
    decide
  obtain ⟨s, hs, hpump⟩ := Option.map_eq_some_iff.mp hrun
  obtain ⟨pool, scanErr, -, -, -, -, hdrained, -⟩ := loadgen_accounting slowConfig insertionSorter _
    smallQueues 3 loadPool_smallPool drainedRun s hs
  exact ⟨s, hs, hpump, hdrained 3 hpump (by decide)⟩

end PqcMigration.LoadGen
