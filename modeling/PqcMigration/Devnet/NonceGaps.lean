/-
# PqcMigration.Devnet.NonceGaps — `sendTx` and `sendRawTx` one after another, and sends that fail.

The calls of one account are made in order: the next one is made when the one before it has ended, with
its transaction at the node or with an error. Each event is one of `sendStep`, for the call that is
running; meanwhile the node may mine, and nobody else sends.

Both functions write `nonce + 1` into the map BEFORE they send. An error after that (a gas estimate that
reverts, a refused transaction) leaves the map one ahead of the account, and it stays so: every later
call sends past a nonce that nobody fills. `next_nonce_iff` says it exactly.
-/
import PqcMigration.Devnet.Nonces
import PqcMigration.Lib.Mempool

namespace PqcMigration.Devnet

open Lib

universe u

/-! ## Calls in order -/

/-- A node with a pool for each account. -/
abbrev poolNode (Addr : Type u) [DecidableEq Addr] : Node Addr where
  State := Addr → Pool
  pendingCount st a := (st a).pending
  submit st a n := Function.update st a ((st a).accept n)

/-- The call has ended: what is left of it is `tx.wait()`, or nothing. -/
def SendPc.ended : SendPc → Bool
  | .submitted _ => true
  | .rejected => true
  | _ => false

section Sequence

variable {Addr : Type u} [DecidableEq Addr]

/-- The process and the node, and the number of the call that is running. -/
structure SeqState (Addr : Type u) [DecidableEq Addr] where
  send : SendState Addr ℕ (poolNode Addr)
  current : ℕ

inductive SeqEvent (Addr : Type u) where
  | resume
  | answer
  | submit
  | reject
  /-- the call has ended, and the next one is made -/
  | next
  /-- a transaction of the account is mined -/
  | mine (a : Addr)

/-- An event as one of `sendStep`; making the next call is none. -/
def SeqEvent.toSend (s : SeqState Addr) : SeqEvent Addr → Option (SendEvent Addr ℕ (poolNode Addr))
  | .resume => some (.resume s.current)
  | .answer => some (.answer s.current)
  | .submit => some (.submit s.current)
  | .reject => some (.reject s.current)
  | .mine a => some (.chain (Function.update s.send.node a (s.send.node a).mine))
  | .next => none

def seqStep (calls : ℕ → SendCall Addr) (s : SeqState Addr) (e : SeqEvent Addr) :
    Option (SeqState Addr) :=
  match e.toSend s with
  | some e => (sendStep calls s.send e).map fun t => { s with send := t }
  | none => if (s.send.pc s.current).ended then some { s with current := s.current + 1 } else none

/-- A new process: its map is empty. -/
def seqStart (node : Addr → Pool) : SeqState Addr := ⟨sendStart (fun _ => none) node, 0⟩

/-! ## What the running call does -/

/-- What the running call does to its place, to the entry of its account, and to the pool. -/
inductive Move : SeqEvent Addr → SendPc → Option ℕ → Pool → SendPc → Option ℕ → Pool → Prop where
  | ask {p} : Move .resume .called none p .counting none p
  | take {n p} : Move .resume .called (some n) p (.sending n) (some (n + 1)) p
  | takeCount {n entry p} : Move .resume (.counted n) entry p (.sending n) (some (n + 1)) p
  | answer {entry p} : Move .answer .counting entry p (.counted p.pending) entry p
  | submit {n entry p} : Move .submit (.sending n) entry p (.submitted n) entry (p.accept n)
  | rejectCount {entry p} : Move .reject .counting entry p .rejected entry p
  | rejectSend {n entry p} : Move .reject (.sending n) entry p .rejected entry p

def SeqState.set (s : SeqState Addr) (a : Addr) (pc : SendPc) (entry : Option ℕ) (pool : Pool) :
    SeqState Addr :=
  ⟨⟨Function.update s.send.nonces a entry, Function.update s.send.pc s.current pc,
    Function.update s.send.node a pool⟩, s.current⟩

def SeqState.mine (s : SeqState Addr) (b : Addr) : SeqState Addr :=
  ⟨⟨s.send.nonces, s.send.pc, Function.update s.send.node b (s.send.node b).mine⟩, s.current⟩

variable {calls : ℕ → SendCall Addr} {a : Addr} {s t : SeqState Addr}

/-- A call that moves and leaves the entry and the pool as they are. -/
theorem SeqState.set_eq (s : SeqState Addr) (a : Addr) (pc : SendPc) :
    s.set a pc (s.send.nonces a) (s.send.node a) =
      ⟨{ s.send with pc := Function.update s.send.pc s.current pc }, s.current⟩ := by
  rw [SeqState.set, Function.update_eq_self, Function.update_eq_self]

/-- Everything a step can do, if all calls are from one account and bring no nonce of their own. -/
theorem seqStep_cases (hown : NoOwnNonce calls) (hsame : ∀ i, (calls i).sender = a)
    {e : SeqEvent Addr} (h : seqStep calls s e = some t) :
    (e = .next ∧ (s.send.pc s.current).ended = true ∧ t = { s with current := s.current + 1 }) ∨
    (∃ b, e = .mine b ∧ t = s.mine b) ∨
    (∃ pc entry pool, t = s.set a pc entry pool ∧
      Move e (s.send.pc s.current) (s.send.nonces a) (s.send.node a) pc entry pool) := by
  cases hsend : e.toSend s with
  | none =>
      cases e with
      | next =>
          rw [seqStep, hsend] at h
          by_cases hended : (s.send.pc s.current).ended = true
          · rw [if_pos hended] at h
            exact Or.inl ⟨rfl, hended, (Option.some.inj h).symm⟩
          · rw [if_neg hended] at h
            cases h
      | _ => simp [SeqEvent.toSend] at hsend
  | some e' =>
      rw [seqStep, hsend] at h
      obtain ⟨v, hv, rfl⟩ := Option.map_eq_some_iff.mp h
      obtain ⟨i, rfl, hpc, hmiss, rfl⟩ | ⟨i, n, rfl, hpc, hentry, rfl⟩ | ⟨i, n, rfl, hpc, rfl⟩ |
        ⟨i, rfl, hpc, rfl⟩ | ⟨i, n, rfl, hpc, rfl⟩ | ⟨i, rfl, hpc, rfl⟩ | ⟨node, rfl, rfl⟩ :=
        sendStep_cases hv
      · cases e with
        | resume =>
            obtain rfl : s.current = i := by simpa [SeqEvent.toSend] using hsend
            rw [hsame] at hmiss
            refine Or.inr (Or.inr ⟨.counting, none, s.send.node a, ?_, ?_⟩)
            · rw [← hmiss, s.set_eq]
            · rw [hpc, hmiss]
              exact .ask
        | _ => simp [SeqEvent.toSend] at hsend
      · cases e with
        | resume =>
            obtain rfl : s.current = i := by simpa [SeqEvent.toSend] using hsend
            rw [hsame] at hentry
            refine Or.inr (Or.inr ⟨.sending n, some (n + 1), s.send.node a, ?_, ?_⟩)
            · simp only [SeqState.set, SendState.take, Function.update_eq_self, hsame]
            · rw [hpc, hentry]
              exact .take
        | _ => simp [SeqEvent.toSend] at hsend
      · cases e with
        | resume =>
            obtain rfl : s.current = i := by simpa [SeqEvent.toSend] using hsend
            refine Or.inr (Or.inr ⟨.sending n, some (n + 1), s.send.node a, ?_, ?_⟩)
            · simp only [SeqState.set, SendState.take, Function.update_eq_self, Function.update_idem,
                hsame]
            · rw [hpc]
              exact .takeCount
        | _ => simp [SeqEvent.toSend] at hsend
      · cases e with
        | answer =>
            obtain rfl : s.current = i := by simpa [SeqEvent.toSend] using hsend
            refine Or.inr (Or.inr ⟨.counted (s.send.node a).pending, s.send.nonces a, s.send.node a,
              ?_, ?_⟩)
            · rw [s.set_eq, hsame]
            · rw [hpc]
              exact .answer
        | _ => simp [SeqEvent.toSend] at hsend
      · cases e with
        | submit =>
            obtain rfl : s.current = i := by simpa [SeqEvent.toSend] using hsend
            rw [SendCall.requestNonce_eq (hown _), hsame]
            refine Or.inr (Or.inr ⟨.submitted n, s.send.nonces a, (s.send.node a).accept n, ?_, ?_⟩)
            · rw [SeqState.set, Function.update_eq_self]
            · rw [hpc]
              exact .submit
        | _ => simp [SeqEvent.toSend] at hsend
      · cases e with
        | reject =>
            obtain rfl : s.current = i := by simpa [SeqEvent.toSend] using hsend
            refine Or.inr (Or.inr ⟨.rejected, s.send.nonces a, s.send.node a, ?_, ?_⟩)
            · rw [s.set_eq]
            · rcases hpc with hpc | ⟨n, hpc⟩
              · rw [hpc]
                exact .rejectCount
              · rw [hpc]
                exact .rejectSend
        | _ => simp [SeqEvent.toSend] at hsend
      · cases e with
        | mine b =>
            obtain rfl : Function.update s.send.node b (s.send.node b).mine = node := by
              simpa [SeqEvent.toSend] using hsend
            exact Or.inr (Or.inl ⟨b, rfl, rfl⟩)
        | _ => simp [SeqEvent.toSend] at hsend

@[simp] theorem SeqState.set_current (s : SeqState Addr) (a : Addr) (pc : SendPc) (entry : Option ℕ)
    (pool : Pool) : (s.set a pc entry pool).current = s.current := rfl

@[simp] theorem SeqState.set_pc (s : SeqState Addr) (a : Addr) (pc : SendPc) (entry : Option ℕ)
    (pool : Pool) : (s.set a pc entry pool).send.pc = Function.update s.send.pc s.current pc := rfl

@[simp] theorem SeqState.set_entry (s : SeqState Addr) (a : Addr) (pc : SendPc) (entry : Option ℕ)
    (pool : Pool) : (s.set a pc entry pool).send.nonces a = entry := by
  simp [SeqState.set]

@[simp] theorem SeqState.set_pool (s : SeqState Addr) (a : Addr) (pc : SendPc) (entry : Option ℕ)
    (pool : Pool) : (s.set a pc entry pool).send.node a = pool := by
  simp [SeqState.set]

/-! ## The map and the account -/

/-- Where the calls, the map and the account stand: the first call that asks takes the pending count of
the start, each later one the next number. -/
structure SeqInv (start : Pool) (a : Addr) (s : SeqState Addr) : Prop where
  later : ∀ k, s.current < k → s.send.pc k = .called
  earlier : ∀ k < s.current, (s.send.pc k).ended = true
  took : ∀ k n, Took n (s.send.pc k) → start.pending ≤ n ∧ ∃ c, s.send.nonces a = some c ∧ n < c
  distinct : ∀ j k n, Took n (s.send.pc j) → Took n (s.send.pc k) → j = k
  above : ∀ c, s.send.nonces a = some c → start.pending ≤ c
  asking : Asking (s.send.pc s.current) → s.send.nonces a = none
  counted : ∀ n, s.send.pc s.current = .counted n → n = start.pending
  sending : ∀ n, s.send.pc s.current = .sending n → s.send.nonces a = some (n + 1)
  occupied : ∀ n, (s.send.node a).Occupied n ↔
    start.Occupied n ∨ ∃ k, s.send.pc k = .submitted n

theorem seqInv_start (node : Addr → Pool) (a : Addr) : SeqInv (node a) a (seqStart node) where
  later := fun _ _ => rfl
  earlier := fun k hk => absurd hk (Nat.not_lt_zero k)
  took := fun _ _ h => absurd h id
  distinct := fun _ _ _ h => absurd h id
  above := fun _ h => nomatch h
  asking := fun _ => rfl
  counted := fun _ h => nomatch h
  sending := fun _ h => nomatch h
  occupied := fun n => by simp [seqStart, sendStart]

theorem SeqInv.next {start : Pool} (h : SeqInv start a s)
    (hended : (s.send.pc s.current).ended = true) :
    SeqInv start a { s with current := s.current + 1 } := by
  have hcalled : s.send.pc (s.current + 1) = .called := h.later _ (Nat.lt_succ_self _)
  refine { later := fun k hk => h.later k (Nat.lt_of_succ_lt hk), earlier := ?_, took := h.took
           distinct := h.distinct, above := h.above, asking := ?_, counted := ?_
           sending := ?_, occupied := h.occupied }
  · intro k hk
    rcases Nat.lt_succ_iff_lt_or_eq.mp hk with hk | rfl
    · exact h.earlier k hk
    · exact hended
  all_goals simp [hcalled, Asking]

theorem SeqInv.mine {start : Pool} (h : SeqInv start a s) (b : Addr) : SeqInv start a (s.mine b) := by
  refine ⟨h.later, h.earlier, h.took, h.distinct, h.above, h.asking, h.counted, h.sending,
    fun n => ?_⟩
  refine Iff.trans ?_ (h.occupied n)
  show (Function.update s.send.node b (s.send.node b).mine a).Occupied n ↔ _
  by_cases hab : a = b
  · rw [hab, Function.update_self, Pool.occupied_mine]
  · rw [Function.update_of_ne hab]

/-- The running call moves to where its nonce, if it has one, is its own and below the entry. -/
theorem SeqInv.set {start pool : Pool} {pc : SendPc} {entry : Option ℕ} (h : SeqInv start a s)
    (htook : ∀ n, Took n pc → start.pending ≤ n ∧ (∃ c, entry = some c ∧ n < c) ∧
      ∀ k, k ≠ s.current → ¬ Took n (s.send.pc k))
    (hentry : ∀ c, s.send.nonces a = some c → ∃ c', entry = some c' ∧ c ≤ c')
    (habove : ∀ c, entry = some c → start.pending ≤ c)
    (hasking : Asking pc → entry = none) (hcounted : ∀ n, pc = .counted n → n = start.pending)
    (hsending : ∀ n, pc = .sending n → entry = some (n + 1))
    (hopen : ∀ n, s.send.pc s.current ≠ .submitted n)
    (hpool : ∀ n, pool.Occupied n ↔ (s.send.node a).Occupied n ∨ pc = .submitted n) :
    SeqInv start a (s.set a pc entry pool) := by
  have hat : (s.set a pc entry pool).send.pc (s.set a pc entry pool).current = pc := by simp
  refine { later := ?_, earlier := ?_, took := ?_, distinct := ?_, above := ?_, asking := ?_
           counted := ?_, sending := ?_, occupied := ?_ }
  · intro k hk
    rw [SeqState.set_current] at hk
    rw [SeqState.set_pc, Function.update_of_ne (Nat.ne_of_gt hk)]
    exact h.later k hk
  · intro k hk
    rw [SeqState.set_current] at hk
    rw [SeqState.set_pc, Function.update_of_ne (Nat.ne_of_lt hk)]
    exact h.earlier k hk
  · intro k n hk
    rw [SeqState.set_entry]
    rcases of_update hk with ⟨-, hn⟩ | ⟨-, hn⟩
    · exact ⟨(htook n hn).1, (htook n hn).2.1⟩
    · obtain ⟨hle, c, hc, hlt⟩ := h.took k n hn
      obtain ⟨c', hc', hcc⟩ := hentry c hc
      exact ⟨hle, c', hc', Nat.lt_of_lt_of_le hlt hcc⟩
  · intro j k n hj hk
    rcases of_update hj with ⟨hj, hn⟩ | ⟨hj, hn⟩
    · rcases of_update hk with ⟨hk, -⟩ | ⟨hk, hn'⟩
      · rw [hj, hk]
      · exact absurd hn' ((htook n hn).2.2 k hk)
    · rcases of_update hk with ⟨-, hn'⟩ | ⟨-, hn'⟩
      · exact absurd hn ((htook n hn').2.2 j hj)
      · exact h.distinct j k n hn hn'
  · rw [SeqState.set_entry]
    exact habove
  · rw [hat, SeqState.set_entry]
    exact hasking
  · rw [hat]
    exact hcounted
  · rw [hat, SeqState.set_entry]
    exact hsending
  · intro n
    rw [SeqState.set_pool, hpool, h.occupied, or_assoc, SeqState.set_pc]
    refine or_congr_right ⟨?_, ?_⟩
    · rintro (⟨k, hk⟩ | hn)
      · refine ⟨k, ?_⟩
        rw [Function.update_of_ne, hk]
        rintro rfl
        exact hopen n hk
      · exact ⟨s.current, by rw [Function.update_self, hn]⟩
    · rintro ⟨k, hk⟩
      rcases of_update (Q := fun p => p = SendPc.submitted n) hk with ⟨-, hn⟩ | ⟨-, hk⟩
      · exact Or.inr hn
      · exact Or.inl ⟨k, hk⟩

/-- The running call moves without a nonce, and neither the entry nor the pool changes. -/
theorem SeqInv.setQuiet {start : Pool} {pc : SendPc} (h : SeqInv start a s) (htook : ∀ n, ¬ Took n pc)
    (hasking : Asking pc → s.send.nonces a = none)
    (hcounted : ∀ n, pc = .counted n → n = start.pending)
    (hopen : ∀ n, s.send.pc s.current ≠ .submitted n) :
    SeqInv start a (s.set a pc (s.send.nonces a) (s.send.node a)) := by
  refine h.set (fun n hn => absurd hn (htook n)) (fun c hc => ⟨c, hc, Nat.le_refl c⟩) h.above hasking
    hcounted ?_ hopen ?_
  · rintro n rfl
    exact absurd rfl (htook n)
  · intro n
    rw [or_iff_left]
    rintro rfl
    exact htook n rfl

/-- The running call takes a nonce that no call has, and the entry is set to the next one. -/
theorem SeqInv.setTaken {start : Pool} {n : ℕ} (h : SeqInv start a s) (hle : start.pending ≤ n)
    (hfresh : ∀ k, ¬ Took n (s.send.pc k)) (hentry : ∀ c, s.send.nonces a = some c → c ≤ n + 1)
    (hopen : ∀ n, s.send.pc s.current ≠ .submitted n) :
    SeqInv start a (s.set a (.sending n) (some (n + 1)) (s.send.node a)) := by
  refine h.set ?_ (fun c hc => ⟨n + 1, rfl, hentry c hc⟩) ?_ (fun hn => absurd hn id) (by simp) (by simp)
    hopen (by simp)
  · rintro m rfl
    exact ⟨hle, ⟨n + 1, rfl, Nat.lt_succ_self n⟩, fun k _ => hfresh k⟩
  · intro c hc
    rw [← Option.some.inj hc]
    exact Nat.le_succ_of_le hle

/-- A nonce that a call has is below the entry. -/
theorem SeqInv.not_took {start : Pool} {c : ℕ} (h : SeqInv start a s) (hc : s.send.nonces a = some c)
    (k : ℕ) : ¬ Took c (s.send.pc k) := by
  intro hk
  obtain ⟨-, c', hc', hlt⟩ := h.took k c hk
  rw [hc] at hc'
  exact absurd hlt (by rw [Option.some.inj hc']; exact Nat.lt_irrefl _)

/-- While a call asks, no nonce has been taken. -/
theorem SeqInv.none_took {start : Pool} (h : SeqInv start a s) (hnone : s.send.nonces a = none)
    (k n : ℕ) : ¬ Took n (s.send.pc k) := by
  intro hk
  obtain ⟨-, c, hc, -⟩ := h.took k n hk
  rw [hnone] at hc
  exact nomatch hc

/-- So the node's answer is the pending count of the start. -/
theorem SeqInv.pending_eq {start : Pool} (h : SeqInv start a s) (hnone : s.send.nonces a = none) :
    (s.send.node a).pending = start.pending := by
  apply Pool.pending_congr
  intro n
  rw [h.occupied, or_iff_left]
  rintro ⟨k, hk⟩
  exact h.none_took hnone k n (by rw [hk]; rfl)

theorem SeqInv.move {start pool : Pool} {pc : SendPc} {entry : Option ℕ} {e : SeqEvent Addr}
    (h : SeqInv start a s)
    (hmove : Move e (s.send.pc s.current) (s.send.nonces a) (s.send.node a) pc entry pool) :
    SeqInv start a (s.set a pc entry pool) := by
  have hasking := h.asking
  generalize hpc : s.send.pc s.current = pc₀ at hmove hasking
  generalize hentry : s.send.nonces a = entry₀ at hmove
  generalize hpool : s.send.node a = pool₀ at hmove
  cases hmove with
  | ask =>
      subst hpool
      rw [← hentry]
      exact h.setQuiet (fun n hn => hn) (fun _ => hentry) (by simp) (by simp [hpc])
  | @take n =>
      subst hpool
      refine h.setTaken (h.above n hentry) (h.not_took hentry) ?_ (by simp [hpc])
      intro c hc
      rw [hentry] at hc
      rw [← Option.some.inj hc]
      exact Nat.le_succ n
  | @takeCount n =>
      subst hpool
      have hnone := hasking trivial
      have hn : n = start.pending := h.counted n hpc
      refine h.setTaken (Nat.le_of_eq hn.symm) (fun k => h.none_took hnone k n) ?_ (by simp [hpc])
      intro c hc
      rw [hnone] at hc
      exact nomatch hc
  | answer =>
      subst hpool hentry
      refine h.setQuiet (fun n hn => hn) (fun _ => hasking trivial) ?_ (by simp [hpc])
      intro n hn
      rw [← SendPc.counted.inj hn, h.pending_eq (hasking trivial)]
  | @submit n =>
      subst hpool hentry
      have htook : Took n (s.send.pc s.current) := by
        rw [hpc]
        rfl
      obtain ⟨hle, hbelow⟩ := h.took _ n htook
      refine h.set ?_ (fun c hc => ⟨c, hc, Nat.le_refl c⟩) h.above (fun hn => absurd hn id) (by simp)
        (by simp) (by simp [hpc]) ?_
      · rintro m rfl
        exact ⟨hle, hbelow, fun k hk hn => hk (h.distinct k s.current n hn htook)⟩
      · intro m
        rw [Pool.occupied_accept, or_comm, SendPc.submitted.injEq, eq_comm]
  | rejectCount =>
      subst hpool hentry
      exact h.setQuiet (fun n hn => hn) (fun hn => absurd hn id) (by simp) (by simp [hpc])
  | rejectSend =>
      subst hpool hentry
      exact h.setQuiet (fun n hn => hn) (fun hn => absurd hn id) (by simp) (by simp [hpc])

theorem SeqInv.step {start : Pool} (hown : NoOwnNonce calls) (hsame : ∀ i, (calls i).sender = a)
    {e : SeqEvent Addr} (h : SeqInv start a s) (hstep : seqStep calls s e = some t) :
    SeqInv start a t := by
  obtain ⟨-, hended, rfl⟩ | ⟨b, -, rfl⟩ | ⟨pc, entry, pool, rfl, hmove⟩ :=
    seqStep_cases hown hsame hstep
  · exact h.next hended
  · exact h.mine b
  · exact h.move hmove

/-! ## Nonces that were lost -/

/-- A nonce that was handed out, and that no call has any more. -/
def Lost (start : Pool) (a : Addr) (n : ℕ) (s : SeqState Addr) : Prop :=
  (∃ c, s.send.nonces a = some c ∧ start.pending ≤ n ∧ n < c) ∧ ∀ k, ¬ Took n (s.send.pc k)

/-- The running call is refused while it has the nonce. -/
def Loses (n : ℕ) (s : SeqState Addr) (e : SeqEvent Addr) : Prop :=
  e = .reject ∧ s.send.pc s.current = .sending n

/-- **A nonce is lost exactly by a call that is refused with it.** -/
theorem lost_step {start : Pool} (hown : NoOwnNonce calls) (hsame : ∀ i, (calls i).sender = a)
    {e : SeqEvent Addr} (h : SeqInv start a s) (hstep : seqStep calls s e = some t) (n : ℕ) :
    Lost start a n t ↔ Lost start a n s ∨ Loses n s e := by
  obtain ⟨rfl, -, rfl⟩ | ⟨b, rfl, rfl⟩ | ⟨pc, entry, pool, rfl, hmove⟩ :=
    seqStep_cases hown hsame hstep
  · exact (or_iff_left (by simp [Loses])).symm
  · exact (or_iff_left (by simp [Loses])).symm
  · -- the calls that do not move have the nonce after the step if they had it before
    have hthen : Lost start a n (s.set a pc entry pool) ↔
        (∃ c, entry = some c ∧ start.pending ≤ n ∧ n < c) ∧ ¬ Took n pc ∧
          ∀ k, k ≠ s.current → ¬ Took n (s.send.pc k) := by
      rw [Lost, SeqState.set_entry, SeqState.set_pc,
        Function.forall_update_iff s.send.pc fun _ p => ¬ Took n p]
    have hnow : Lost start a n s ↔
        (∃ c, s.send.nonces a = some c ∧ start.pending ≤ n ∧ n < c) ∧
          ¬ Took n (s.send.pc s.current) ∧ ∀ k, k ≠ s.current → ¬ Took n (s.send.pc k) := by
      conv_lhs => rw [Lost, ← Function.update_eq_self s.current s.send.pc]
      rw [Function.forall_update_iff s.send.pc fun _ p => ¬ Took n p]
    rw [hthen, hnow, Loses]
    generalize hpc : s.send.pc s.current = pc₀ at hmove ⊢
    generalize hentry : s.send.nonces a = entry₀ at hmove ⊢
    generalize s.send.node a = pool₀ at hmove
    cases hmove with
    | ask => simp
    | @take m =>
        simp only [Option.some.injEq, exists_eq_left', Took, not_false_eq_true, true_and,
          reduceCtorEq, false_and, or_false, and_assoc]
        constructor
        · rintro ⟨hle, hlt, hne, hrest⟩
          exact ⟨hle, by omega, hrest⟩
        · rintro ⟨hle, hlt, hrest⟩
          exact ⟨hle, by omega, by omega, hrest⟩
    | @takeCount m =>
        have hm : m = start.pending := h.counted m hpc
        have hnone : entry₀ = none := hentry ▸ h.asking (by rw [hpc]; trivial)
        simp only [hnone, Option.some.injEq, exists_eq_left', Took, reduceCtorEq, false_and,
          exists_false, or_false, iff_false]
        rintro ⟨⟨hle, hlt⟩, hne, -⟩
        omega
    | answer => simp [Took]
    | submit => simp [Took]
    | rejectCount => simp [Took]
    | @rejectSend m =>
        have htook : Took m (s.send.pc s.current) := by
          rw [hpc]
          rfl
        obtain ⟨hle, c, hc, hlt⟩ := h.took _ m htook
        have hothers : ∀ k, k ≠ s.current → ¬ Took m (s.send.pc k) := fun k hk hm =>
          hk (h.distinct k s.current m hm htook)
        by_cases hmn : m = n
        · subst hmn
          simp only [Took, not_false_eq_true, true_and, not_true_eq_false, false_and, and_false,
            false_or, iff_true]
          exact ⟨⟨c, hentry.symm.trans hc, hle, hlt⟩, hothers⟩
        · simp [Took, hmn]

/-- A call that is about to send: its nonce is the first free one, unless one below it was lost and is
free, or it is not free itself. -/
theorem SeqInv.pending_iff {start : Pool} (h : SeqInv start a s) {n : ℕ}
    (hsending : s.send.pc s.current = .sending n) :
    (s.send.node a).pending = n ↔ (∀ m, Lost start a m s → start.Occupied m) ∧ ¬ start.Occupied n := by
  have hentry := h.sending n hsending
  have htook : Took n (s.send.pc s.current) := by
    rw [hsending]
    rfl
  have hnot : ¬ ∃ k, s.send.pc k = .submitted n := by
    rintro ⟨k, hk⟩
    obtain rfl := h.distinct k s.current n (by rw [hk]; rfl) htook
    exact nomatch hsending.symm.trans hk
  rw [Pool.pending_eq_iff, h.occupied, or_iff_left hnot]
  refine and_congr_left fun hfree => ⟨?_, ?_⟩
  · rintro hbelow m ⟨⟨c, hc, -, hlt⟩, hnone⟩
    rw [hentry] at hc
    have hne : m ≠ n := by
      rintro rfl
      exact hnone _ htook
    rcases (h.occupied m).mp (hbelow m (by have := Option.some.inj hc; omega)) with hm | ⟨k, hk⟩
    · exact hm
    · exact absurd (by rw [hk]; rfl) (hnone k)
  · intro hlost m hm
    rw [h.occupied]
    by_cases hlow : m < start.pending
    · exact Or.inl (Pool.occupied_of_lt_pending hlow)
    · by_cases hhas : ∃ k, Took m (s.send.pc k)
      · obtain ⟨k, hk⟩ := hhas
        refine Or.inr ⟨k, ?_⟩
        -- it is not the running call, so it has ended
        rcases Nat.lt_trichotomy k s.current with hlt | rfl | hgt
        · have hended := h.earlier k hlt
          cases hpc : s.send.pc k with
          | submitted m' =>
              rw [hpc] at hk
              rw [show m' = m from hk]
          | rejected =>
              rw [hpc] at hk
              exact absurd hk id
          | _ =>
              rw [hpc] at hended
              exact nomatch hended
        · rw [hsending] at hk
          exact absurd hk (Nat.ne_of_gt hm)
        · rw [h.later k hgt] at hk
          exact absurd hk id
      · exact Or.inl (hlost m ⟨⟨n + 1, hentry, Nat.le_of_not_lt hlow, by omega⟩,
          not_exists.mp hhas⟩)

/-- **The nonce of the next call.** When a call has taken its nonce, it is the pending count of the
account exactly if no earlier call was refused with a nonce that is still free, and the nonce is free.

If nothing was waiting at the node at the start, that is: exactly if no earlier call was refused after
it had taken its nonce. -/
theorem next_nonce_iff (hown : NoOwnNonce calls) (hsame : ∀ i, (calls i).sender = a)
    (node : Addr → Pool) {evs : List (SeqEvent Addr)}
    (hrun : run (seqStep calls) (seqStart node) evs = some s) {n : ℕ}
    (hsending : s.send.pc s.current = .sending n) :
    ((calls s.current).requestNonce n = (s.send.node a).pending ↔
      (∀ m u, Takes (seqStep calls) (seqStart node) evs .reject u →
        u.send.pc u.current = .sending m → (node a).Occupied m) ∧ ¬ (node a).Occupied n) ∧
    ((∀ m, (node a).Occupied m → m < (node a).pending) →
      ((calls s.current).requestNonce n = (s.send.node a).pending ↔
        ∀ m u, Takes (seqStep calls) (seqStart node) evs .reject u →
          u.send.pc u.current ≠ .sending m)) := by
  have hinv : SeqInv (node a) a s := run_invariant (fun _ _ _ hs hstep => hs.step hown hsame hstep)
    (seqInv_start node a) hrun
  have hlost (m : ℕ) : Lost (node a) a m s ↔ ∃ u, Takes (seqStep calls) (seqStart node) evs .reject u ∧
      u.send.pc u.current = .sending m := by
    have hstart : ¬ Lost (node a) a m (seqStart node) := by
      rintro ⟨⟨c, hc, -⟩, -⟩
      exact nomatch hc
    rw [run_iff_takes (I := SeqInv (node a) a) (C := Loses m)
      (fun _ _ _ hs hstep => hs.step hown hsame hstep)
      (fun _ _ _ hs hstep => lost_step hown hsame hs hstep m) (seqInv_start node a) hrun,
      or_iff_right hstart]
    constructor
    · rintro ⟨e, u, htakes, rfl, hu⟩
      exact ⟨u, htakes, hu⟩
    · rintro ⟨u, htakes, hu⟩
      exact ⟨.reject, u, htakes, rfl, hu⟩
  have hexact := hinv.pending_iff hsending
  rw [SendCall.requestNonce_eq (hown _), eq_comm]
  constructor
  · rw [hexact]
    refine and_congr_left fun _ => ⟨fun hall m u htakes hu => ?_, fun hall m hm => ?_⟩
    · exact hall m ((hlost m).mpr ⟨u, htakes, hu⟩)
    · obtain ⟨u, htakes, hu⟩ := (hlost m).mp hm
      exact hall m u htakes hu
  · intro hclean
    have hfree : ¬ (node a).Occupied n := by
      intro hn
      have hle := (hinv.took s.current n (by rw [hsending]; rfl)).1
      exact absurd (hclean n hn) (Nat.not_lt.mpr hle)
    rw [hexact, and_iff_left hfree]
    refine ⟨fun hall m u htakes hu => ?_, fun hall m hm => ?_⟩
    · have hm : Lost (node a) a m s := (hlost m).mpr ⟨u, htakes, hu⟩
      obtain ⟨⟨-, -, hle, -⟩, -⟩ := id hm
      exact absurd (hclean m (hall m hm)) (Nat.not_lt.mpr hle)
    · obtain ⟨u, htakes, hu⟩ := (hlost m).mp hm
      exact absurd hu (hall m u htakes)

end Sequence

/-! ## One refused send -/

/-- The first call asks, takes nonce 7 and is refused; the next one takes 8. -/
def refusedThenNext : List (SeqEvent ℕ) :=
  [.resume, .answer, .resume, .reject, .next, .resume]

/-- The same, with the first call sent and mined. -/
def sentThenNext : List (SeqEvent ℕ) :=
  [.resume, .answer, .resume, .submit, .mine 0, .next, .resume]

/-- Contract calls and relay multicalls of one account, in turn. -/
def deployerCalls (i : ℕ) : SendCall ℕ := ⟨if i % 2 = 0 then .sendTx else .sendRawTx, 0, none⟩

theorem noOwnNonce_deployerCalls : NoOwnNonce deployerCalls := fun _ _ => rfl

theorem next_nonce_iff_sent :
    ∃ s, run (seqStep deployerCalls) (seqStart fun _ => ⟨7, []⟩) sentThenNext = some s ∧
      s.send.pc s.current = .sending 8 ∧ (s.send.node 0).pending = 8 ∧
      ∀ m u, Takes (seqStep deployerCalls) (seqStart fun _ => ⟨7, []⟩) sentThenNext .reject u →
        u.send.pc u.current ≠ .sending m := by
  refine ⟨_, rfl, rfl, rfl, ?_⟩
  have hrun : run (seqStep deployerCalls) (seqStart fun _ => ⟨7, []⟩) sentThenNext = some _ := rfl
  have hclean : ∀ m, (⟨7, []⟩ : Pool).Occupied m → m < (⟨7, []⟩ : Pool).pending := by
    rintro m (hm | hm)
    · exact hm
    · exact absurd hm List.not_mem_nil
  exact ((next_nonce_iff noOwnNonce_deployerCalls (fun _ => rfl) _ hrun rfl).2 hclean).mp rfl

/-- **The gap.** After one refused send the next call uses nonce 8, and the pending count is 7. -/
theorem refused_send_leaves_gap :
    ∃ s, run (seqStep deployerCalls) (seqStart fun _ => ⟨7, []⟩) refusedThenNext = some s ∧
      s.send.pc s.current = .sending 8 ∧ (deployerCalls s.current).requestNonce 8 = 8 ∧
      (s.send.node 0).pending = 7 :=
  ⟨_, rfl, rfl, rfl, rfl⟩

end PqcMigration.Devnet
