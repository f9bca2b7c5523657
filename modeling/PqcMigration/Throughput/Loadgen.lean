/-
# PqcMigration.Throughput.Loadgen — one run of `migration_throughput/loadgen.py`.

A burst of transfers is submitted, their commits are awaited, and `relay_and_observe` carries the committed
ones over and their acknowledgements back: one relay command a packet, then up to six windows, in each of
which an ack command is run for every packet that still needs one. What the commands come to is the input.

The handlers name `CalledProcessError`. A command that does not end in time raises `TimeoutExpired`, which
is no `CalledProcessError`, and nothing on the way up catches it. The beacon answers here, whatever it
answers: it is asked for the log only.
-/
import PqcMigration.BatchScaling.Course
import PqcMigration.Lib.Iterate
import PqcMigration.Throughput.Packet

namespace PqcMigration.Throughput

open Lib
open BatchScaling (Status Text Time awaitCommits countStatus)

/-! ## Submission -/

/-- What `send_transfer` comes back with: a hash, or an exception of any kind. -/
inductive SendReply where
  | hash (txHash : Text)
  | raised (message : Text)
  deriving DecidableEq

def submitOne (amount seq : ℕ) (sent : Time × SendReply) : Packet :=
  match sent.2 with
  | .hash txHash => { seq, amount, submitTs := sent.1, txHash, status := .submitted }
  | .raised message => { seq, amount, submitTs := sent.1, status := .failed, error := message.take 300 }

def submitBurst (n amount : ℕ) (send : ℕ → Time × SendReply) : List Packet :=
  (List.range n).map fun i => submitOne amount i (send i)

/-! ## The forward leg -/

inductive Raised where
  | timeoutExpired
  deriving DecidableEq

/-- `recv-result-<seq>.json`, an object as `step-recv.js` writes it; a number that is missing here is one
whose conversion raises. -/
structure CostFile where
  recvGas : Option ℕ
  recvBytes : Option ℕ
  proveSeconds : Option ℚ

/-- How a relay command ends, with what its result file then has in it. -/
inductive RecvOutcome where
  | ok (now : Time) (file : Option CostFile)
  /-- `(e.stderr or e.stdout) or ""` -/
  | exited (output : Text)
  | timedOut

/-- The numbers are read one after another, up to the first that cannot be. -/
def readCost (file : Option CostFile) (p : Packet) : Packet :=
  match file with
  | none => p
  | some file =>
      match file.recvGas, file.recvBytes, file.proveSeconds with
      | none, _, _ => p
      | some gas, none, _ => { p with recvGas := gas }
      | some gas, some bytes, none => { p with recvGas := gas, recvBytes := bytes }
      | some gas, some bytes, some seconds =>
          { p with recvGas := gas, recvBytes := bytes, proveSeconds := seconds }

/-- `output[-300:]` -/
def tail300 (output : Text) : Text := output.drop (output.length - 300)

def recvOne (p : Packet) : RecvOutcome → Except Raised Packet
  | .ok now file => .ok (readCost file { p with creditTs := now, status := .credited })
  | .exited output => .ok { p with status := .failed, error := tail300 output }
  | .timedOut => .error .timeoutExpired

/-- The loop over the committed packets. -/
def recvBody (recv : ℕ → RecvOutcome) (i : ℕ) (p : Packet) : Except Raised Packet :=
  if p.status = .committed then recvOne p (recv i) else .ok p

/-! ## The return leg -/

/-- How an ack command ends; the gas values are those its stdout has. -/
inductive AckOutcome where
  | ok (now : Time) (gas : List ℕ)
  | exited (output : Text)
  | timedOut

def recordGas (gas : List ℕ) (p : Packet) : Packet :=
  match gas with
  | [] => p
  | [ack] => { p with ackGas := ack }
  | update :: ack :: rest => { p with updateClientGas := update, ackGas := (ack :: rest).getLastD ack }

def ackOne (w : ℕ) (p : Packet) : AckOutcome → Except Raised Packet
  | .ok now gas => .ok (recordGas gas { p with ackTs := now, windowId := w, status := .acked })
  | .exited output => .ok { p with error := tail300 output }
  | .timedOut => .error .timeoutExpired

/-- The loop over the outstanding packets of a window. -/
def ackBody (ack : ℕ → AckOutcome) (w i : ℕ) (p : Packet) : Except Raised Packet :=
  if p.status = .credited then ackOne w p (ack i) else .ok p

/-- The windows: the packets after each of them. It takes another while there is one left and a packet is
outstanding. -/
def ackWindows (ack : ℕ → ℕ → AckOutcome) : ℕ → ℕ → List Packet → Except Raised (List (List Packet))
  | 0, _, _ => .ok []
  | left + 1, w, packets =>
      if packets.any fun p => p.status = .credited then do
        let packets ← each (ackBody (ack w) w) 0 packets
        let rest ← ackWindows ack left (w + 1) packets
        return packets :: rest
      else .ok []

def maxWindows : ℕ := 6

/-- The outcomes of the commands: of the relay by packet, of the acks by window and packet. -/
structure Commands where
  recv : ℕ → RecvOutcome
  ack : ℕ → ℕ → AckOutcome

/-- The packets after the forward leg, and after each window. -/
structure Relayed where
  forward : List Packet
  windows : List (List Packet)

def Relayed.packets (r : Relayed) : List Packet := r.windows.getLastD r.forward

/-- `relay_and_observe`; without `RECV_CMD` and `ACK_CMD` it returns at once. -/
def relayAndObserve (configured : Bool) (c : Commands) (packets : List Packet) : Except Raised Relayed :=
  if configured then do
    let forward ← each (recvBody c.recv) 0 packets
    let windows ← ackWindows c.ack maxWindows 0 forward
    return ⟨forward, windows⟩
  else .ok ⟨packets, []⟩

/-! ## `run_one` -/

structure RunInput where
  burstN : ℕ
  amount : ℕ
  send : ℕ → Time × SendReply
  polls : List (ℕ → Option Time)
  configured : Bool
  commands : Commands

/-- The counters of `RunResult` and the packets; its times are left out. -/
structure RunResult where
  burstN : ℕ
  offered : ℕ
  submitted : ℕ
  committed : ℕ
  credited : ℕ
  acked : ℕ
  failed : ℕ
  windowsUsed : ℕ
  packets : List Packet

def runResult (burstN : ℕ) (r : Relayed) : RunResult where
  burstN := burstN
  offered := r.packets.length
  submitted := r.packets.countP fun p => p.status ≠ .failed ∨ p.txHash ≠ []
  committed := countStatus r.packets [.committed, .credited, .acked]
  credited := countStatus r.packets [.credited, .acked]
  acked := countStatus r.packets [.acked]
  failed := countStatus r.packets [.failed]
  windowsUsed := r.windows.length
  packets := r.packets

namespace RunInput

def sent (x : RunInput) : List Packet := submitBurst x.burstN x.amount x.send

def awaited (x : RunInput) : List Packet := awaitCommits x.polls x.sent

def relayed (x : RunInput) : Except Raised Relayed := relayAndObserve x.configured x.commands x.awaited

end RunInput

def runOne (x : RunInput) : Except Raised RunResult := x.relayed.map (runResult x.burstN)

/-! ## One packet at a time -/

/-- The ack commands of one packet. -/
def ackPacket (acks : ℕ → AckOutcome) : ℕ → ℕ → Packet → Except Raised Packet
  | 0, _, p => .ok p
  | left + 1, w, p => (if p.status = .credited then ackOne w p (acks w) else .ok p).bind
      (ackPacket acks left (w + 1))

theorem ackPacket_of_ne {acks : ℕ → AckOutcome} {p : Packet} (hp : p.status ≠ .credited) (left w : ℕ) :
    ackPacket acks left w p = .ok p := by
  induction left generalizing w with
  | zero => rfl
  | succ left ih =>
      unfold ackPacket
      rw [if_neg hp]
      exact ih (w + 1)

theorem windows_last {first : List Packet} (packets : List Packet) (rest : List (List Packet)) :
    (packets :: rest).getLastD first = rest.getLastD packets := by
  cases rest with
  | nil => rfl
  | cons next rest => rfl

/-- The windows, packet by packet: what they leave is what each packet's own ack commands make of it. -/
theorem ackWindows_ok {ack : ℕ → ℕ → AckOutcome} {left w : ℕ} {packets : List Packet}
    {windows : List (List Packet)} (h : ackWindows ack left w packets = .ok windows) :
    (windows.getLastD packets).length = packets.length ∧
      ∀ (i : ℕ) (p : Packet), packets[i]? = some p →
        ∃ q, (windows.getLastD packets)[i]? = some q ∧ ackPacket (ack · i) left w p = .ok q := by
  induction left generalizing w packets windows with
  | zero =>
      obtain rfl : [] = windows := Except.ok.inj h
      exact ⟨rfl, fun i p hp => ⟨p, hp, rfl⟩⟩
  | succ left ih =>
      rw [ackWindows] at h
      split at h
      · obtain ⟨next, hnext, hrest⟩ := except_bind_eq_ok h
        obtain ⟨rest, hwindows, heq⟩ := except_bind_eq_ok hrest
        obtain rfl := Except.ok.inj heq
        obtain ⟨hlength, hplaces⟩ := each_eq_ok_iff.mp hnext
        obtain ⟨hlength', hplaces'⟩ := ih hwindows
        rw [windows_last]
        refine ⟨hlength'.trans hlength, ?_⟩
        intro i p hp
        obtain ⟨q, hq, hbody⟩ := hplaces i p hp
        obtain ⟨r, hr, hacks⟩ := hplaces' i q hq
        refine ⟨r, hr, ?_⟩
        rw [Nat.zero_add] at hbody
        show (ackBody (ack w) w i p).bind _ = .ok r
        rw [hbody]
        exact hacks
      · next hnone =>
          obtain rfl : [] = windows := Except.ok.inj h
          refine ⟨rfl, fun i p hp => ⟨p, hp, ?_⟩⟩
          apply ackPacket_of_ne
          intro hcredited
          apply hnone
          rw [List.any_eq_true]
          exact ⟨p, List.mem_of_getElem? hp, decide_eq_true hcredited⟩

/-- They come to their end if every packet's own ack commands do. -/
theorem exists_ackWindows {ack : ℕ → ℕ → AckOutcome} {left w : ℕ} {packets : List Packet}
    (h : ∀ (i : ℕ) (p : Packet), packets[i]? = some p → ∃ q, ackPacket (ack · i) left w p = .ok q) :
    ∃ windows, ackWindows ack left w packets = .ok windows := by
  induction left generalizing w packets with
  | zero => exact ⟨[], rfl⟩
  | succ left ih =>
      rw [ackWindows]
      split
      · have hboth : ∀ (i : ℕ) (p : Packet), packets[i]? = some p →
            ∃ r, (ackBody (ack w) w (0 + i) p).bind (ackPacket (ack · i) left (w + 1)) = .ok r := by
          intro i p hp
          rw [Nat.zero_add]
          exact h i p hp
        obtain ⟨next, hnext, hlater⟩ := exists_each_bind hboth
        obtain ⟨rest, hrest⟩ := ih hlater
        refine ⟨next :: rest, ?_⟩
        rw [hnext]
        show (ackWindows ack left (w + 1) next).bind _ = _
        rw [hrest]
        rfl
      · exact ⟨[], rfl⟩

/-! ## What the commands come to -/

def RecvOutcome.succeeded : RecvOutcome → Bool
  | .ok _ _ => true
  | _ => false

def AckOutcome.succeeded : AckOutcome → Bool
  | .ok _ _ => true
  | _ => false

def AckOutcome.deferred : AckOutcome → Bool
  | .exited _ => true
  | _ => false

/-- The status of a credited packet after its ack commands: one that succeeded makes it acked. -/
def ackedBy (acks : ℕ → AckOutcome) (n : ℕ) : Status :=
  if (List.range n).any fun w => (acks w).succeeded then .acked else .credited

/-- The status that goes with the last outcome of a packet's commands. -/
def settledStatus (recv : RecvOutcome) (acks : ℕ → AckOutcome) : Status → Status
  | .committed => if recv.succeeded then ackedBy acks maxWindows else .failed
  | .credited => ackedBy acks maxWindows
  | s => s

/-- None of the commands run for the packet is one that times out: the relay of a committed packet, and
for one that is credited then, the first ack command that does not exit with an error. -/
def NoTimeout (recv : RecvOutcome) (acks : ℕ → AckOutcome) (s : Status) : Prop :=
  (s = .committed → recv ≠ .timedOut) ∧
    (s = .credited ∨ (s = .committed ∧ recv.succeeded = true) →
      ∀ w < maxWindows, (∀ v < w, (acks v).deferred = true) → acks w ≠ .timedOut)

theorem status_recordGas (gas : List ℕ) (p : Packet) : (recordGas gas p).status = p.status := by
  unfold recordGas
  split <;> rfl

/-- An ack command that succeeded. -/
theorem status_acked (gas : List ℕ) (now : Time) (w : ℕ) (p : Packet) :
    (recordGas gas { p with ackTs := now, windowId := w, status := .acked }).status = .acked :=
  status_recordGas gas _

theorem acked_ne_credited : Status.acked ≠ .credited := by decide

theorem status_readCost (file : Option CostFile) (p : Packet) : (readCost file p).status = p.status := by
  unfold readCost
  split
  · rfl
  · split <;> rfl

/-- The next ack command of a credited packet: it is the last one if it succeeds, and one that exits with an
error leaves the packet to the next window. -/
theorem ackPacket_succ (acks : ℕ → AckOutcome) {p : Packet} (hp : p.status = .credited) (left w : ℕ) :
    ackPacket acks (left + 1) w p =
      match acks w with
      | .ok now gas => .ok (recordGas gas { p with ackTs := now, windowId := w, status := .acked })
      | .exited output => ackPacket acks left (w + 1) { p with error := tail300 output }
      | .timedOut => .error .timeoutExpired := by
  rw [ackPacket, if_pos hp]
  cases acks w with
  | ok now gas =>
      apply ackPacket_of_ne
      rw [status_acked]
      exact acked_ne_credited
  | exited output => rfl
  | timedOut => rfl

/-- Up to the first place where `go` fails, `good` holds: the first place, and the others if `go` holds
there. -/
theorem forall_lt_succ_of_before {go good : ℕ → Prop} {n : ℕ} :
    (∀ k < n + 1, (∀ v < k, go v) → good k) ↔
      good 0 ∧ (go 0 → ∀ k < n, (∀ v < k, go (v + 1)) → good (k + 1)) := by
  simp only [Nat.forall_lt_succ_left, Nat.not_lt_zero, false_imp_iff, implies_true, true_imp_iff]
  refine and_congr_right fun _ => ⟨?_, ?_⟩
  · exact fun h hgo k hk hbefore => h k hk ⟨hgo, hbefore⟩
  · exact fun h k hk hbefore => h hbefore.1 k hk hbefore.2

/-- The ack commands of a credited packet, from window `w` on. -/
theorem ackPacket_ok_iff {acks : ℕ → AckOutcome} {p : Packet} (hp : p.status = .credited) (left w : ℕ) :
    (∃ q, ackPacket acks left w p = .ok q) ↔
      ∀ k < left, (∀ v < k, (acks (w + v)).deferred = true) → acks (w + k) ≠ .timedOut := by
  induction left generalizing w p with
  | zero => exact ⟨fun _ k hk => absurd hk (Nat.not_lt_zero k), fun _ => ⟨p, rfl⟩⟩
  | succ left ih =>
      rw [ackPacket_succ acks hp, forall_lt_succ_of_before, Nat.add_zero]
      cases hack : acks w with
      | ok now gas => simp [AckOutcome.deferred]
      | exited output =>
          have hq : ({ p with error := tail300 output } : Packet).status = .credited := hp
          show (∃ q, ackPacket acks left (w + 1) { p with error := tail300 output } = .ok q) ↔ _
          rw [ih hq (w + 1)]
          simp [AckOutcome.deferred, Nat.add_assoc, Nat.add_comm 1]
      | timedOut => simp

/-- The status they leave. -/
theorem ackPacket_status {acks : ℕ → AckOutcome} {p q : Packet} (hp : p.status = .credited) {left w : ℕ}
    (h : ackPacket acks left w p = .ok q) : q.status = ackedBy (fun v => acks (w + v)) left := by
  induction left generalizing w p with
  | zero =>
      obtain rfl : p = q := Except.ok.inj h
      exact hp
  | succ left ih =>
      have hany : ((List.range (left + 1)).any fun v => (acks (w + v)).succeeded) =
          ((acks w).succeeded || (List.range left).any fun v => (acks (w + 1 + v)).succeeded) := by
        rw [List.range_succ_eq_map, List.any_cons, List.any_map]
        simp only [Function.comp_def, Nat.add_zero, Nat.succ_eq_add_one, Nat.add_assoc, Nat.add_comm 1]
      unfold ackedBy
      rw [hany]
      rw [ackPacket_succ acks hp] at h
      cases hack : acks w with
      | ok now gas =>
          rw [hack] at h
          obtain rfl := Except.ok.inj h
          rw [status_acked]
          rfl
      | exited output =>
          rw [hack] at h
          have hq : ({ p with error := tail300 output } : Packet).status = .credited := hp
          rw [ih hq h]
          rfl
      | timedOut =>
          rw [hack] at h
          cases h

/-! ## The outcomes are recorded -/

/-- Both legs of one packet. -/
def relayPacket (recv : RecvOutcome) (acks : ℕ → AckOutcome) (p : Packet) : Except Raised Packet :=
  (if p.status = .committed then recvOne p recv else .ok p).bind (ackPacket acks maxWindows 0)

theorem relayPacket_ok_iff (recv : RecvOutcome) (acks : ℕ → AckOutcome) (p : Packet) :
    (∃ q, relayPacket recv acks p = .ok q) ↔ NoTimeout recv acks p.status := by
  unfold relayPacket NoTimeout
  by_cases hcommitted : p.status = .committed
  · rw [if_pos hcommitted, hcommitted]
    cases recv with
    | ok now file =>
        have hcredited : (readCost file { p with creditTs := now, status := .credited }).status = .credited :=
          status_readCost file _
        show (∃ q, ackPacket acks maxWindows 0 (readCost file _) = .ok q) ↔ _
        rw [ackPacket_ok_iff hcredited]
        simp [RecvOutcome.succeeded]
    | exited output =>
        have hfailed : ({ p with status := .failed, error := tail300 output } : Packet).status ≠ .credited :=
          fun heq => by cases heq
        simp [recvOne, Except.bind, ackPacket_of_ne hfailed, RecvOutcome.succeeded]
    | timedOut => simp [recvOne, Except.bind]
  · rw [if_neg hcommitted]
    show (∃ q, ackPacket acks maxWindows 0 p = .ok q) ↔ _
    by_cases hcredited : p.status = .credited
    · rw [ackPacket_ok_iff hcredited, hcredited]
      simp
    · simp [ackPacket_of_ne hcredited, hcommitted, hcredited]

theorem relayPacket_status {recv : RecvOutcome} {acks : ℕ → AckOutcome} {p q : Packet}
    (h : relayPacket recv acks p = .ok q) : q.status = settledStatus recv acks p.status := by
  unfold relayPacket at h
  obtain ⟨p', hp', hacks⟩ := except_bind_eq_ok h
  by_cases hcommitted : p.status = .committed
  · rw [if_pos hcommitted] at hp'
    rw [hcommitted]
    cases recv with
    | ok now file =>
        obtain rfl := Except.ok.inj hp'
        have hstatus := ackPacket_status (status_readCost file _) hacks
        simp only [Nat.zero_add] at hstatus
        exact hstatus
    | exited output =>
        obtain rfl := Except.ok.inj hp'
        rw [ackPacket_of_ne (fun heq => by cases heq)] at hacks
        obtain rfl := Except.ok.inj hacks
        rfl
    | timedOut => cases hp'
  · rw [if_neg hcommitted] at hp'
    obtain rfl := Except.ok.inj hp'
    by_cases hcredited : p.status = .credited
    · have hstatus := ackPacket_status hcredited hacks
      simp only [Nat.zero_add] at hstatus
      rw [hcredited]
      exact hstatus
    · rw [ackPacket_of_ne hcredited] at hacks
      obtain rfl := Except.ok.inj hacks
      cases hs : p.status <;> simp_all [settledStatus]

/-- What `relay_and_observe` leaves, packet by packet. -/
theorem relayAndObserve_ok {c : Commands} {packets : List Packet} {r : Relayed}
    (h : relayAndObserve true c packets = .ok r) :
    r.packets.length = packets.length ∧
      ∀ (i : ℕ) (p : Packet), packets[i]? = some p →
        ∃ q, r.packets[i]? = some q ∧ relayPacket (c.recv i) (c.ack · i) p = .ok q := by
  obtain ⟨forward, hforward, hrest⟩ := except_bind_eq_ok h
  obtain ⟨windows, hwindows, heq⟩ := except_bind_eq_ok hrest
  obtain rfl := Except.ok.inj heq
  obtain ⟨hlength, hplaces⟩ := each_eq_ok_iff.mp hforward
  obtain ⟨hlength', hplaces'⟩ := ackWindows_ok hwindows
  refine ⟨hlength'.trans hlength, ?_⟩
  intro i p hp
  obtain ⟨p', hp', hrecv⟩ := hplaces i p hp
  obtain ⟨q, hq, hacks⟩ := hplaces' i p' hp'
  refine ⟨q, hq, ?_⟩
  rw [Nat.zero_add] at hrecv
  show (recvBody c.recv i p).bind _ = .ok q
  rw [hrecv]
  exact hacks

/-- It returns if it does for each packet on its own. -/
theorem exists_relayAndObserve {c : Commands} {packets : List Packet}
    (h : ∀ (i : ℕ) (p : Packet), packets[i]? = some p →
      ∃ q, relayPacket (c.recv i) (c.ack · i) p = .ok q) :
    ∃ r, relayAndObserve true c packets = .ok r := by
  have hboth : ∀ (i : ℕ) (p : Packet), packets[i]? = some p →
      ∃ q, (recvBody c.recv (0 + i) p).bind (ackPacket (c.ack · i) maxWindows 0) = .ok q := by
    intro i p hp
    rw [Nat.zero_add]
    exact h i p hp
  obtain ⟨forward, hforward, hacks⟩ := exists_each_bind hboth
  obtain ⟨windows, hwindows⟩ := exists_ackWindows hacks
  refine ⟨⟨forward, windows⟩, ?_⟩
  show (each (recvBody c.recv) 0 packets).bind _ = _
  rw [hforward]
  show (ackWindows c.ack maxWindows 0 forward).bind _ = _
  rw [hwindows]
  rfl

/-- `relay_and_observe` returned, and every packet has the status of its last outcome. -/
def Recorded (c : Commands) (packets : List Packet) (result : Except Raised Relayed) : Prop :=
  ∃ r, result = .ok r ∧ r.packets.length = packets.length ∧
    ∀ (i : ℕ) (p : Packet), packets[i]? = some p →
      ∃ q, r.packets[i]? = some q ∧ q.status = settledStatus (c.recv i) (c.ack · i) p.status

theorem exists_relayAndObserve_iff (c : Commands) (packets : List Packet) :
    (∃ r, relayAndObserve true c packets = .ok r) ↔
      ∀ (i : ℕ) (p : Packet), packets[i]? = some p → NoTimeout (c.recv i) (c.ack · i) p.status := by
  constructor
  · rintro ⟨r, hr⟩ i p hp
    obtain ⟨q, -, hq⟩ := (relayAndObserve_ok hr).2 i p hp
    exact (relayPacket_ok_iff _ _ p).mp ⟨q, hq⟩
  · intro h
    exact exists_relayAndObserve fun i p hp => (relayPacket_ok_iff _ _ p).mpr (h i p hp)

/-- **When the outcomes are recorded.** When no command that is run times out; and only such a run yields
a result. -/
theorem outcomes_recorded_iff (c : Commands) (packets : List Packet) (x : RunInput) :
    (Recorded c packets (relayAndObserve true c packets) ↔
      ∀ (i : ℕ) (p : Packet), packets[i]? = some p → NoTimeout (c.recv i) (c.ack · i) p.status) ∧
    ((∃ result, runOne x = .ok result) ↔
      (x.configured = true → ∀ (i : ℕ) (p : Packet), x.awaited[i]? = some p →
        NoTimeout (x.commands.recv i) (x.commands.ack · i) p.status)) := by
  rw [← exists_relayAndObserve_iff, ← exists_relayAndObserve_iff]
  constructor
  · constructor
    · rintro ⟨r, hr, -⟩
      exact ⟨r, hr⟩
    · rintro ⟨r, hr⟩
      obtain ⟨hlength, hplaces⟩ := relayAndObserve_ok hr
      refine ⟨r, hr, hlength, ?_⟩
      intro i p hp
      obtain ⟨q, hq, hrelay⟩ := hplaces i p hp
      exact ⟨q, hq, relayPacket_status hrelay⟩
  · unfold runOne RunInput.relayed
    cases x.configured with
    | false =>
        constructor
        · intro _ hfalse
          cases hfalse
        · intro _
          exact ⟨_, rfl⟩
    | true =>
        cases relayAndObserve true x.commands x.awaited with
        | error err => simp [Except.map]
        | ok r => simp [Except.map]

/-- One transfer; it is sent and committed, and its relay command does not end in time. -/
def lateRelay : RunInput where
  burstN := 1
  amount := 1000
  send := fun _ => (100, .hash "A1".toList)
  polls := [fun _ => some 103]
  configured := true
  commands := ⟨fun _ => .timedOut, fun _ _ => .timedOut⟩

/-- The run that committed it yields no result. -/
theorem late_relay_raises :
    lateRelay.awaited.map (·.status) = [.committed] ∧ runOne lateRelay = .error .timeoutExpired ∧
      ¬Recorded lateRelay.commands lateRelay.awaited
        (relayAndObserve true lateRelay.commands lateRelay.awaited) := by
  refine ⟨rfl, rfl, ?_⟩
  rintro ⟨r, hr, -⟩
  cases hr

end PqcMigration.Throughput
