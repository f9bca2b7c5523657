/-
# PqcMigration.Devnet.Nonces — `sendTx` and `sendRawTx` of `devnet/lib/lib.js`, and the nonce map
they share.

A JavaScript call runs WITHOUT interruption up to its next `await`, and any other call may run while
it waits. So a call is cut at its awaits: the address, the awaited `getTransactionCount` (asked,
then answered by the node, then read back by the continuation), and the hand-over of the
transaction. A label says which call moves, and what the chain does meanwhile.

The lookup in the map and the write of the awaited count are on two sides of an `await`. Two first
sends of one account therefore both ask the node, and the second continuation REWINDS the entry the
first one has already used: `first_sends_collide`. With at most one first send of an account in
flight the map is a counter, and no nonce is handed out twice: `nonces_unique`.
-/
import PqcMigration.Lib.Run
import PqcMigration.Lib.Threads

namespace PqcMigration.Devnet

open Lib

universe u v w

/-! ## The two functions -/

/-- Which of the two functions is called. -/
inductive SendFn where
  | sendTx
  | sendRawTx
  deriving DecidableEq

/-- A call: the function, the account its signer resolves to, and the nonce in `overrides`. -/
structure SendCall (Addr : Type u) where
  fn : SendFn
  sender : Addr
  overrideNonce : Option ℕ

/-- The nonce of the request. `sendTx` builds `{ ...overrides, nonce }`, `sendRawTx` builds
`{ to, data, nonce, ...overrides }`: only there does a nonce in the overrides win. -/
def SendCall.requestNonce {Addr : Type u} (call : SendCall Addr) (nonce : ℕ) : ℕ :=
  match call.fn with
  | .sendTx => nonce
  | .sendRawTx => call.overrideNonce.getD nonce

/-- What the functions use of the node: the pending count, and what a submission does to it. -/
structure Node (Addr : Type u) where
  State : Type v
  pendingCount : State → Addr → ℕ
  submit : State → Addr → ℕ → State

/-- Where a call stands. -/
inductive SendPc where
  /-- awaits `getAddress` -/
  | called
  /-- found no entry, awaits `getTransactionCount` -/
  | counting
  /-- the node has answered, the continuation has not run yet -/
  | counted (count : ℕ)
  /-- has taken its nonce, the transaction is on its way -/
  | sending (nonce : ℕ)
  /-- the transaction has been submitted under this nonce -/
  | submitted (nonce : ℕ)
  /-- the query or the submission was rejected -/
  | rejected
  deriving DecidableEq

/-- The process and the node: the shared map, where each call stands, and the chain. -/
structure SendState (Addr : Type u) (ι : Type w) (N : Node.{u, v} Addr) where
  nonces : Addr → Option ℕ
  pc : ι → SendPc
  node : N.State

inductive SendEvent (Addr : Type u) (ι : Type w) (N : Node.{u, v} Addr) where
  /-- the call's continuation runs up to its next `await` -/
  | resume (i : ι)
  /-- the node evaluates the call's `getTransactionCount` -/
  | answer (i : ι)
  /-- the call's transaction reaches the node -/
  | submit (i : ι)
  /-- the call's query or its transaction is rejected -/
  | reject (i : ι)
  /-- the chain moves on its own: blocks, and senders outside this process -/
  | chain (node : N.State)

section Step

variable {Addr : Type u} {ι : Type w} {N : Node.{u, v} Addr}

/-- `const nonce = nonces.get(from); nonces.set(from, nonce + 1)`, and on to the submission. -/
def SendState.take [DecidableEq Addr] [DecidableEq ι] (s : SendState Addr ι N) (i : ι) (sender : Addr) (nonce : ℕ) :
    SendState Addr ι N :=
  { s with
    nonces := Function.update s.nonces sender (some (nonce + 1))
    pc := Function.update s.pc i (.sending nonce) }

def sendStep [DecidableEq Addr] [DecidableEq ι] (calls : ι → SendCall Addr)
    (s : SendState Addr ι N) : SendEvent Addr ι N → Option (SendState Addr ι N)
  | .resume i =>
      let sender := (calls i).sender
      match s.pc i with
      | .called =>
          match s.nonces sender with
          | none => some { s with pc := Function.update s.pc i .counting }
          | some nonce => some (s.take i sender nonce)
      | .counted count =>
          -- `nonces.set(from, await …)` writes over whatever the map holds by now
          some (SendState.take { s with nonces := Function.update s.nonces sender (some count) }
            i sender count)
      | _ => none
  | .answer i =>
      match s.pc i with
      | .counting =>
          let count := N.pendingCount s.node (calls i).sender
          some { s with pc := Function.update s.pc i (.counted count) }
      | _ => none
  | .submit i =>
      match s.pc i with
      | .sending nonce =>
          let request := (calls i).requestNonce nonce
          some { s with
            pc := Function.update s.pc i (.submitted request)
            node := N.submit s.node (calls i).sender request }
      | _ => none
  | .reject i =>
      match s.pc i with
      | .counting => some { s with pc := Function.update s.pc i .rejected }
      | .sending _ => some { s with pc := Function.update s.pc i .rejected }
      | _ => none
  | .chain node => some { s with node := node }

@[simp] theorem SendState.take_pc [DecidableEq Addr] [DecidableEq ι] (s : SendState Addr ι N) (i : ι)
    (a : Addr) (n : ℕ) : (s.take i a n).pc = Function.update s.pc i (.sending n) := rfl

/-- The calls have been made and none has run yet; the map and the chain are whatever they are. -/
def sendStart (nonces : Addr → Option ℕ) (node : N.State) : SendState Addr ι N :=
  { nonces := nonces, pc := fun _ => .called, node := node }

/-- No two calls of one account have submitted under the same nonce. -/
def NoncesUnique (calls : ι → SendCall Addr) (s : SendState Addr ι N) : Prop :=
  ∀ i j n, i ≠ j → (calls i).sender = (calls j).sender →
    s.pc i = .submitted n → s.pc j ≠ .submitted n

/-! ## When the map is a counter -/

/-- The call has taken the nonce `n` out of the map. -/
def Took (n : ℕ) : SendPc → Prop
  | .sending m => m = n
  | .submitted m => m = n
  | _ => False

/-- The call stands between its failed lookup and its write back. -/
def Asking : SendPc → Prop
  | .counting => True
  | .counted _ => True
  | _ => False

/-- A call that is about to look its account up and to miss it is the only one of the account to do
so: no other stands between its own miss and its write back. -/
def LooksUpAlone (calls : ι → SendCall Addr) (s : SendState Addr ι N) (i : ι) : Prop :=
  s.pc i = .called → s.nonces (calls i).sender = none →
    ∀ j, (calls j).sender = (calls i).sender → ¬ Asking (s.pc j)

/-- No `sendRawTx` call brings a nonce of its own. -/
def NoOwnNonce (calls : ι → SendCall Addr) : Prop :=
  ∀ i, (calls i).fn = .sendRawTx → (calls i).overrideNonce = none

/-- What carries uniqueness: the entry of an account lies above every nonce taken from it, and an
account some call is asking about has no entry (so nothing was taken) and no other asker. -/
structure NonceInv (calls : ι → SendCall Addr) (s : SendState Addr ι N) : Prop where
  below : ∀ i n, Took n (s.pc i) → ∃ m, s.nonces (calls i).sender = some m ∧ n < m
  distinct : ∀ i j n, i ≠ j → (calls i).sender = (calls j).sender →
    Took n (s.pc i) → ¬ Took n (s.pc j)
  unset : ∀ i, Asking (s.pc i) → s.nonces (calls i).sender = none
  alone : ∀ i j, (calls i).sender = (calls j).sender → Asking (s.pc i) → Asking (s.pc j) → i = j

theorem nonceInv_start (calls : ι → SendCall Addr) (nonces : Addr → Option ℕ) (node : N.State) :
    NonceInv calls (sendStart nonces node) where
  below := by simp [sendStart, Took]
  distinct := by simp [sendStart, Took]
  unset := by simp [sendStart, Asking]
  alone := by simp [sendStart, Asking]

variable {calls : ι → SendCall Addr} {s t : SendState Addr ι N}

/-- A call that neither takes a nonce nor starts to ask can move as it likes: the map stays. -/
theorem NonceInv.move [DecidableEq ι] (hinv : NonceInv calls s) {i : ι} {p : SendPc}
    {node : N.State} (htaken : ∀ n, Took n p → Took n (s.pc i))
    (hask : Asking p → Asking (s.pc i)) :
    NonceInv calls { s with pc := Function.update s.pc i p, node := node } where
  below j n hj := hinv.below j n (of_update_of_imp (htaken n) hj)
  distinct j k n hne hs hj hk :=
    hinv.distinct j k n hne hs (of_update_of_imp (htaken n) hj) (of_update_of_imp (htaken n) hk)
  unset j hj := hinv.unset j (of_update_of_imp hask hj)
  alone j k hs hj hk := hinv.alone j k hs (of_update_of_imp hask hj) (of_update_of_imp hask hk)

/-- A missed lookup: the account has no entry, and by the condition no other asker. -/
theorem NonceInv.ask [DecidableEq ι] (hinv : NonceInv calls s) {i : ι}
    (hmiss : s.nonces (calls i).sender = none)
    (halone : ∀ j, (calls j).sender = (calls i).sender → ¬ Asking (s.pc j)) :
    NonceInv calls { s with pc := Function.update s.pc i .counting } := by
  have hnone : ∀ n, Took n .counting → Took n (s.pc i) := by
    intro n hn
    exact absurd hn id
  refine
    { below := fun j n hj => hinv.below j n (of_update_of_imp (hnone n) hj)
      distinct := ?_, unset := ?_, alone := ?_ }
  · intro j k n hne hs hj hk
    exact hinv.distinct j k n hne hs (of_update_of_imp (hnone n) hj) (of_update_of_imp (hnone n) hk)
  · intro j hj
    rcases of_update hj with ⟨rfl, -⟩ | ⟨-, hj⟩
    · exact hmiss
    · exact hinv.unset j hj
  · -- two askers of one account: the new one has no other beside it
    intro j k hs hj hk
    rcases of_update hj with ⟨rfl, -⟩ | ⟨-, hj'⟩
    · rcases of_update hk with ⟨rfl, -⟩ | ⟨-, hk'⟩
      · rfl
      · exact absurd hk' (halone k hs.symm)
    · rcases of_update hk with ⟨rfl, -⟩ | ⟨-, hk'⟩
      · exact absurd hj' (halone j hs)
      · exact hinv.alone j k hs hj' hk'

/-- Taking a nonce above every nonce the others took from the account, with no asker among them. -/
theorem NonceInv.take [DecidableEq Addr] [DecidableEq ι] (hinv : NonceInv calls s) {i : ι} {n : ℕ}
    {nonces : Addr → Option ℕ} (hother : ∀ a, a ≠ (calls i).sender → nonces a = s.nonces a)
    (habove : ∀ j m, (calls j).sender = (calls i).sender → Took m (s.pc j) → m < n)
    (halone : ∀ j, j ≠ i → (calls j).sender = (calls i).sender → ¬ Asking (s.pc j)) :
    NonceInv calls (SendState.take { s with nonces := nonces } i (calls i).sender n) := by
  have hnonces : ∀ a, a ≠ (calls i).sender →
      Function.update nonces (calls i).sender (some (n + 1)) a = s.nonces a := by
    intro a ha
    rw [Function.update_of_ne ha, hother a ha]
  have hsending : ¬ Asking (.sending n) := id
  refine { below := ?_, distinct := ?_, unset := ?_, alone := ?_ } <;> simp only [SendState.take_pc]
  · intro j m hj
    rcases of_update hj with ⟨rfl, hm⟩ | ⟨-, hj⟩
    · obtain rfl : n = m := hm
      exact ⟨n + 1, Function.update_self _ _ _, Nat.lt_succ_self n⟩
    · by_cases hs : (calls j).sender = (calls i).sender
      · refine ⟨n + 1, ?_, Nat.lt_succ_of_lt (habove j m hs hj)⟩
        rw [hs]
        exact Function.update_self _ _ _
      · obtain ⟨m', hm', hlt⟩ := hinv.below j m hj
        exact ⟨m', (hnonces _ hs).trans hm', hlt⟩
  · intro j k m hne hs hj hk
    rcases of_update hj with ⟨rfl, hm⟩ | ⟨-, hj'⟩
    · obtain rfl : n = m := hm
      rw [Function.update_of_ne hne.symm] at hk
      exact Nat.lt_irrefl n (habove k n hs.symm hk)
    · rcases of_update hk with ⟨rfl, hm⟩ | ⟨-, hk'⟩
      · obtain rfl : n = m := hm
        exact Nat.lt_irrefl n (habove j n hs hj')
      · exact hinv.distinct j k m hne hs hj' hk'
  · intro j hj
    obtain ⟨hji, hj⟩ := of_update_of_not hsending hj
    have hs : (calls j).sender ≠ (calls i).sender := fun hs => halone j hji hs hj
    exact (hnonces _ hs).trans (hinv.unset j hj)
  · intro j k hs hj hk
    exact hinv.alone j k hs (of_update_of_not hsending hj).2 (of_update_of_not hsending hk).2

variable [DecidableEq Addr] [DecidableEq ι]

/-- Everything a step can do. -/
theorem sendStep_cases {e : SendEvent Addr ι N} (h : sendStep calls s e = some t) :
    (∃ i, e = .resume i ∧ s.pc i = .called ∧ s.nonces (calls i).sender = none ∧
      t = { s with pc := Function.update s.pc i .counting }) ∨
    (∃ i n, e = .resume i ∧ s.pc i = .called ∧ s.nonces (calls i).sender = some n ∧
      t = s.take i (calls i).sender n) ∨
    (∃ i n, e = .resume i ∧ s.pc i = .counted n ∧
      t = SendState.take { s with nonces := Function.update s.nonces (calls i).sender (some n) }
        i (calls i).sender n) ∨
    (∃ i, e = .answer i ∧ s.pc i = .counting ∧
      t = { s with
        pc := Function.update s.pc i (.counted (N.pendingCount s.node (calls i).sender)) }) ∨
    (∃ i n, e = .submit i ∧ s.pc i = .sending n ∧
      t = { s with
        pc := Function.update s.pc i (.submitted ((calls i).requestNonce n))
        node := N.submit s.node (calls i).sender ((calls i).requestNonce n) }) ∨
    (∃ i, e = .reject i ∧ (s.pc i = .counting ∨ ∃ n, s.pc i = .sending n) ∧
      t = { s with pc := Function.update s.pc i .rejected }) ∨
    (∃ node, e = .chain node ∧ t = { s with node := node }) := by
  cases e with
  | resume i =>
      simp only [sendStep] at h
      split at h
      · next hpc =>
          split at h
          · next hmiss => exact Or.inl ⟨i, rfl, hpc, hmiss, (Option.some.inj h).symm⟩
          · next n hentry =>
              exact Or.inr (Or.inl ⟨i, n, rfl, hpc, hentry, (Option.some.inj h).symm⟩)
      · next n hpc => exact Or.inr (Or.inr (Or.inl ⟨i, n, rfl, hpc, (Option.some.inj h).symm⟩))
      · cases h
  | answer i =>
      simp only [sendStep] at h
      split at h
      · next hpc =>
          exact Or.inr (Or.inr (Or.inr (Or.inl ⟨i, rfl, hpc, (Option.some.inj h).symm⟩)))
      · cases h
  | submit i =>
      simp only [sendStep] at h
      split at h
      · next n hpc =>
          exact Or.inr (Or.inr (Or.inr (Or.inr (Or.inl
            ⟨i, n, rfl, hpc, (Option.some.inj h).symm⟩))))
      · cases h
  | reject i =>
      simp only [sendStep] at h
      split at h
      · next hpc =>
          exact Or.inr (Or.inr (Or.inr (Or.inr (Or.inr (Or.inl
            ⟨i, rfl, Or.inl hpc, (Option.some.inj h).symm⟩)))))
      · next n hpc =>
          exact Or.inr (Or.inr (Or.inr (Or.inr (Or.inr (Or.inl
            ⟨i, rfl, Or.inr ⟨n, hpc⟩, (Option.some.inj h).symm⟩)))))
      · cases h
  | chain node =>
      exact Or.inr (Or.inr (Or.inr (Or.inr (Or.inr (Or.inr ⟨node, rfl, (Option.some.inj h).symm⟩)))))

/-- A call that finds its account in the map takes the entry. -/
theorem NonceInv.take_entry (hinv : NonceInv calls s) {i : ι} {n : ℕ}
    (hentry : s.nonces (calls i).sender = some n) :
    NonceInv calls (s.take i (calls i).sender n) := by
  refine hinv.take (fun _ _ => rfl) ?_ ?_
  · intro j m hs hj
    obtain ⟨m', hm', hlt⟩ := hinv.below j m hj
    rw [hs, hentry] at hm'
    exact Option.some.inj hm' ▸ hlt
  · intro j _ hs hj
    have hunset := hinv.unset j hj
    rw [hs, hentry] at hunset
    cases hunset

/-- A call that was answered writes the count back and takes it. -/
theorem NonceInv.take_count (hinv : NonceInv calls s) {i : ι} {n : ℕ} (hpc : s.pc i = .counted n) :
    NonceInv calls (SendState.take
      { s with nonces := Function.update s.nonces (calls i).sender (some n) }
      i (calls i).sender n) := by
  have hasking : Asking (s.pc i) := by
    rw [hpc]
    exact trivial
  -- an asked-about account has no entry, so nothing can have been taken from it
  refine hinv.take (fun a ha => Function.update_of_ne ha _ _) ?_ ?_
  · intro j m hs hj
    obtain ⟨m', hm', -⟩ := hinv.below j m hj
    rw [hs, hinv.unset i hasking] at hm'
    cases hm'
  · intro j hji hs hj
    exact hji (hinv.alone j i hs hj hasking)

/-- Without a nonce of its own a call submits the nonce it took. -/
theorem SendCall.requestNonce_eq {Addr : Type u} {call : SendCall Addr}
    (hown : call.fn = .sendRawTx → call.overrideNonce = none) (n : ℕ) :
    call.requestNonce n = n := by
  cases hfn : call.fn with
  | sendTx => simp [SendCall.requestNonce, hfn]
  | sendRawTx => simp [SendCall.requestNonce, hfn, hown hfn]

/-- One step of a careful run. -/
theorem NonceInv.step (hown : NoOwnNonce calls) (e : SendEvent Addr ι N) (hinv : NonceInv calls s)
    (hlook : ∀ i, e = .resume i → LooksUpAlone calls s i) (hstep : sendStep calls s e = some t) :
    NonceInv calls t := by
  obtain ⟨i, rfl, hpc, hmiss, rfl⟩ | ⟨i, n, rfl, -, hentry, rfl⟩ | ⟨i, n, rfl, hpc, rfl⟩ |
    ⟨i, rfl, hpc, rfl⟩ | ⟨i, n, rfl, hpc, rfl⟩ | ⟨i, rfl, -, rfl⟩ | ⟨node, rfl, rfl⟩ :=
    sendStep_cases hstep
  · -- the one step that needs the condition
    exact hinv.ask hmiss (hlook i rfl hpc hmiss)
  · exact hinv.take_entry hentry
  · exact hinv.take_count hpc
  · exact hinv.move (by simp [Took]) (fun _ => by rw [hpc]; exact trivial)
  · rw [SendCall.requestNonce_eq (hown i)]
    exact hinv.move (by simp [Took, hpc]) (fun h => absurd h id)
  · exact hinv.move (by simp [Took]) (fun h => absurd h id)
  · exact ⟨hinv.below, hinv.distinct, hinv.unset, hinv.alone⟩

/-- An entry of the map is never taken away. -/
theorem entry_kept {a : Addr} {evs : List (SendEvent Addr ι N)}
    (hrun : run (sendStep calls) s evs = some t) (hs : s.nonces a ≠ none) : t.nonces a ≠ none := by
  refine run_invariant (I := fun v : SendState Addr ι N => v.nonces a ≠ none) ?_ hs hrun
  intro v e v' hv hstep
  have hset : ∀ (f : Addr → Option ℕ) b n, f a ≠ none → Function.update f b (some n) a ≠ none := by
    intro f b n hf
    by_cases hab : a = b
    · subst hab
      simp
    · rwa [Function.update_of_ne hab]
  obtain ⟨_, -, -, -, rfl⟩ | ⟨_, _, -, -, -, rfl⟩ | ⟨_, _, -, -, rfl⟩ | ⟨_, -, -, rfl⟩ |
    ⟨_, _, -, -, rfl⟩ | ⟨_, -, -, rfl⟩ | ⟨_, -, rfl⟩ := sendStep_cases hstep
  · exact hv
  · exact hset _ _ _ hv
  · exact hset _ _ _ (hset _ _ _ hv)
  · exact hv
  · exact hv
  · exact hv
  · exact hv

/-! ## Two first sends -/

/-- The schedule that collides: both look up and miss, both are answered, both write back. -/
def firstSends (i j : ι) : List (SendEvent Addr ι N) :=
  [.resume i, .resume j, .answer i, .answer j, .resume i, .submit i, .resume j, .submit j]

/-- **Two first sends collide.** Whenever two calls share an account without an entry, there is a
schedule on which both submit under the account's pending count. -/
theorem first_sends_collide (hown : NoOwnNonce calls) {i j : ι} (hne : i ≠ j)
    (hs : (calls i).sender = (calls j).sender) {nonces : Addr → Option ℕ} (node : N.State)
    (hmiss : nonces (calls i).sender = none) :
    ∃ u, run (sendStep calls) (sendStart nonces node) (firstSends i j) = some u ∧
      ¬ NoncesUnique calls u := by
  have hi := SendCall.requestNonce_eq (hown i)
  have hj := SendCall.requestNonce_eq (hown j)
  have hends : (run (sendStep calls) (sendStart nonces node) (firstSends i j)).map
      (fun u => (u.pc i, u.pc j)) =
        some (.submitted (N.pendingCount node (calls j).sender),
          .submitted (N.pendingCount node (calls j).sender)) := by
    rw [hs] at hmiss
    simp [firstSends, run, sendStep, sendStart, SendState.take, hs, hmiss, hi, hj, hne, hne.symm]
  obtain ⟨u, hrun, hpc⟩ := Option.map_eq_some_iff.mp hends
  obtain ⟨hpci, hpcj⟩ := Prod.mk.inj hpc
  exact ⟨u, hrun, fun hunique => hunique i j _ hne hs hpci hpcj⟩

/-- A call whose account no other call shares, or has an entry from the start, looks up alone. -/
theorem looksUpAlone_of_start {nonces : Addr → Option ℕ} {node : N.State}
    (hstart : ∀ i j, i ≠ j → (calls i).sender = (calls j).sender → nonces (calls i).sender ≠ none)
    {evs : List (SendEvent Addr ι N)} {i : ι}
    (hrun : run (sendStep calls) (sendStart nonces node) evs = some s) :
    LooksUpAlone calls s i := by
  intro hpc hmiss j hs hasking
  by_cases hij : i = j
  · subst hij
    rw [hpc] at hasking
    exact hasking
  · exact entry_kept hrun (hstart i j hij hs.symm) hmiss

/-- **Nonces are unique with one first send at a time.** In a run where every call that misses its
account looks it up alone, no nonce is submitted twice in any state reached. And all runs from a
start are free of duplicates exactly when no two calls share an account without an entry. -/
theorem nonces_unique (hown : NoOwnNonce calls) (nonces : Addr → Option ℕ) (node : N.State) :
    (∀ evs u, run (sendStep calls) (sendStart nonces node) evs = some u →
      (∀ i v, Takes (sendStep calls) (sendStart nonces node) evs (.resume i) v →
        LooksUpAlone calls v i) →
      NoncesUnique calls u) ∧
    ((∀ evs u, run (sendStep calls) (sendStart nonces node) evs = some u → NoncesUnique calls u) ↔
      ∀ i j, i ≠ j → (calls i).sender = (calls j).sender → nonces (calls i).sender ≠ none) := by
  have hsafe : ∀ evs u, run (sendStep calls) (sendStart nonces node) evs = some u →
      (∀ i v, Takes (sendStep calls) (sendStart nonces node) evs (.resume i) v →
        LooksUpAlone calls v i) → NoncesUnique calls u := by
    intro evs u hrun hlook
    have hinv : NonceInv calls u := by
      refine run_invariant_of_takes (C := fun v e => ∀ i, e = .resume i → LooksUpAlone calls v i)
        (fun v e v' hv hC hstep => hv.step hown e hC hstep)
        (nonceInv_start calls nonces node) hrun ?_
      rintro e v htakes i rfl
      exact hlook i v htakes
    intro i j n hne hs hi hj
    refine hinv.distinct i j n hne hs ?_ ?_
    · rw [hi]
      exact rfl
    · rw [hj]
      exact rfl
  refine ⟨hsafe, ?_, ?_⟩
  · -- an entry that is missing for two of the calls lets them collide
    intro hall i j hne hs hmiss
    obtain ⟨u, hrun, hdup⟩ := first_sends_collide hown hne hs node hmiss
    exact hdup (hall _ u hrun)
  · intro hstart evs u hrun
    refine hsafe evs u hrun ?_
    rintro i v ⟨bs, cs, -, hleft⟩
    exact looksUpAlone_of_start hstart hleft

end Step

/-! ## A devnet node -/

/-- One number per account: the transaction with the next nonce is taken, any other is refused. -/
def countingNode : Node ℕ where
  State := ℕ → ℕ
  pendingCount st a := st a
  submit st a n := if n = st a then Function.update st a (n + 1) else st

/-- A contract call and a relay multicall from the deployer. -/
def twoCalls : Bool → SendCall ℕ
  | false => ⟨.sendTx, 0, none⟩
  | true => ⟨.sendRawTx, 0, none⟩

/-- With the deployer's entry in place the two calls get the nonces 7 and 8. -/
theorem nonces_unique_known :
    ∃ u, run (sendStep twoCalls) (sendStart (N := countingNode) (fun _ => some 7) (fun _ => 7))
        [.resume false, .resume true, .submit true, .submit false] = some u ∧
      u.pc false = .submitted 7 ∧ u.pc true = .submitted 8 ∧ NoncesUnique twoCalls u := by
  have hown : NoOwnNonce twoCalls := by
    intro i
    cases i <;> simp [twoCalls]
  refine ⟨_, rfl, rfl, rfl, ?_⟩
  exact (nonces_unique (N := countingNode) hown (fun _ => some 7) (fun _ => 7)).2.mpr
    (by simp) [.resume false, .resume true, .submit true, .submit false] _ rfl

/-- **The collision.** With an empty map a `sendTx` and a `sendRawTx` of the deployer both submit
under nonce 7. -/
theorem nonce_collision :
    ¬ ∀ evs u, run (sendStep twoCalls)
        (sendStart (N := countingNode) (fun _ => none) (fun _ => 7)) evs = some u →
      NoncesUnique twoCalls u := by
  intro hunique
  exact hunique (firstSends false true) _ rfl false true 7 (by decide) rfl rfl rfl

end PqcMigration.Devnet
